import Yos.Io.Path
import Yos.Lib.PathText

/-!
# Mount resolution (`vfs/mount.c`)

`yos_mount_resolve` takes the longest mount point that is a prefix of the path, as characters, and is
followed by the end of the path or by a slash.  The components of a path are the pieces between its
slashes; so a mount point matches exactly when its components are a prefix of those of the path, and of
two that match the longer one has more components (`mount_longest_prefix`).
-/

namespace Yos

namespace Vfs

/-- `YOS_MOUNT_PATH_MAX`. -/
def mountPathMax : ℕ := 256

/-- `YOS_MAX_MOUNTS`. -/
def maxMounts : ℕ := 16

/-- `-ENOMEM` on the host. -/
def enomem : ℤ := -12

/-- `-ENAMETOOLONG` on the host. -/
def enametoolong : ℤ := -36

variable {ω : Type}

/-- `struct yos_mount`; the path is stored with its length. -/
structure Mount (ω : Type) where
  path : List UInt8
  ops : ω

/-- `struct yos_mount_table`. -/
abbrev MountTable (ω : Type) := List (Mount ω)

/-- `yos_mount_add`: the table afterwards, and the value returned. -/
def yosMountAdd (table : MountTable ω) (path : List UInt8) (ops : ω) : MountTable ω × ℤ :=
  if maxMounts ≤ table.length then (table, enomem)
  else if mountPathMax ≤ path.length then (table, enametoolong)
  else (table ++ [⟨path, ops⟩], 0)

/-- The table after a list of additions to the empty one. -/
def mountAll (adds : List (List UInt8 × ω)) : MountTable ω :=
  adds.foldl (fun table a => (yosMountAdd table a.1 a.2).1) []

/-- `mount_path_matches`: the length of the mount point if it matches, 0 otherwise. -/
def mountPathMatches (mountPath path : List UInt8) : ℕ :=
  if path.take mountPath.length ≠ mountPath then 0
  else
    match path[mountPath.length]? with
    | none => mountPath.length
    | some next => if next = slash then mountPath.length else 0

/-- The result of `yos_mount_resolve`. -/
structure Resolved (ω : Type) where
  ops : Option ω
  remaining : List UInt8

/-- One iteration of the loop, on `best_match` and `best_len`. -/
def better {α : Type} (score : α → ℕ) (best : Option α × ℕ) (a : α) : Option α × ℕ :=
  if best.2 < score a then (some a, score a) else best

/-- `yos_mount_resolve`. -/
def yosMountResolve (table : MountTable ω) (path : List UInt8) : Resolved ω :=
  match table.foldl (better fun m => mountPathMatches m.path path) (none, 0) with
  | (none, _) => ⟨none, path⟩
  | (some m, bestLen) =>
    let rest := path.drop bestLen
    ⟨some m.ops, if rest.head? = some slash then rest.tail else rest⟩

/-! ## The specification -/

/-- The components of a path. -/
def components (p : List UInt8) : List (List UInt8) := p.splitOn slash

/-- The components of the mount point are a prefix of those of the path. -/
def Mount.Covers (m : Mount ω) (p : List UInt8) : Prop := components m.path <+: components p

/-- The number of components of the mount point. -/
def Mount.depth (m : Mount ω) : ℕ := (components m.path).length

/-- The rest of `p` behind the mount point and one slash. -/
def Rest (mountPath p rest : List UInt8) : Prop :=
  p = mountPath ∧ rest = [] ∨ p = mountPath ++ slash :: rest

/-- The result is that of the first of the deepest mounts that cover the path. -/
def Deepest (table : MountTable ω) (p : List UInt8) (r : Resolved ω) : Prop :=
  match r.ops with
  | none => (∀ m ∈ table, ¬ m.Covers p) ∧ r.remaining = p
  | some ops => ∃ before m after, table = before ++ m :: after ∧ m.Covers p ∧ ops = m.ops ∧
      (∀ m' ∈ before, m'.Covers p → m'.depth < m.depth) ∧
      (∀ m' ∈ after, m'.Covers p → m'.depth ≤ m.depth) ∧ Rest m.path p r.remaining

/-! ## The loop -/

/-- The loop finds the first entry with the greatest score. -/
theorem foldl_better {α : Type} (score : α → ℕ) (l : List α) :
    l.foldl (better score) (none, 0) = (none, 0) ∧ (∀ a ∈ l, score a = 0) ∨
      ∃ before a after, l = before ++ a :: after ∧
        l.foldl (better score) (none, 0) = (some a, score a) ∧ 0 < score a ∧
        (∀ b ∈ before, score b < score a) ∧ ∀ b ∈ after, score b ≤ score a := by
  induction l using List.reverseRecOn with
  | nil => exact .inl ⟨rfl, by simp⟩
  | append_singleton l x ih =>
    rw [List.foldl_append, List.foldl_cons, List.foldl_nil]
    rcases ih with ⟨found, zero⟩ | ⟨before, a, after, rfl, found, pos, less, atMost⟩
    · rw [found, better]
      by_cases scores : 0 < score x
      · refine .inr ⟨l, x, [], rfl, if_pos scores, scores, fun b mem => ?_, by simp⟩
        rw [zero b mem]
        exact scores
      · refine .inl ⟨if_neg scores, fun b mem => ?_⟩
        rcases List.mem_append.1 mem with old | new
        · exact zero b old
        · rw [List.mem_singleton.1 new]
          omega
    · rw [found, better]
      by_cases beats : score a < score x
      · refine .inr ⟨before ++ a :: after, x, [], rfl, if_pos beats, by omega, fun b mem => ?_, by simp⟩
        rcases List.mem_append.1 mem with first | later
        · exact (less b first).trans beats
        · rcases List.mem_cons.1 later with rfl | last
          · exact beats
          · exact (atMost b last).trans_lt beats
      · refine .inr ⟨before, a, after ++ [x], by simp, if_neg beats, pos, less, fun b mem => ?_⟩
        rcases List.mem_append.1 mem with old | new
        · exact atMost b old
        · rw [List.mem_singleton.1 new]
          omega

/-! ## One mount point -/

section Match

variable {m p : List UInt8}

theorem matches_of_eq : mountPathMatches m m = m.length := by
  simp [mountPathMatches]

theorem matches_of_starts (starts : m ++ [slash] <+: p) : mountPathMatches m p = m.length := by
  obtain ⟨rest, rfl⟩ := starts
  simp [mountPathMatches]

/-- What matches is the whole path or ends where the path has a slash. -/
theorem of_matches (pos : 0 < mountPathMatches m p) : m = p ∨ m ++ [slash] <+: p := by
  unfold mountPathMatches at pos
  split at pos
  · omega
  · next same =>
    have same : p.take m.length = m := not_not.1 same
    split at pos
    · next ends =>
      refine .inl ?_
      rw [List.getElem?_eq_none_iff] at ends
      rwa [List.take_of_length_le ends, eq_comm] at same
    · next b found =>
      split at pos
      · next is_slash =>
        subst is_slash
        obtain ⟨lt, at_end⟩ := List.getElem?_eq_some_iff.1 found
        refine .inr ⟨p.drop (m.length + 1), ?_⟩
        conv_rhs => rw [← List.take_append_drop m.length p, same, List.drop_eq_getElem_cons lt, at_end]
        simp
      · omega

theorem matches_pos_iff (nonempty : m ≠ []) :
    0 < mountPathMatches m p ↔ components m <+: components p := by
  have long : 0 < m.length := List.length_pos_of_ne_nil nonempty
  rw [components, components, PathText.splitOn_prefix_iff]
  refine ⟨of_matches, ?_⟩
  rintro (rfl | starts)
  · rwa [matches_of_eq]
  · rwa [matches_of_starts starts]

theorem matches_of_covers (covers : components m <+: components p) :
    mountPathMatches m p = m.length := by
  rcases PathText.splitOn_prefix_iff.1 covers with rfl | starts
  · exact matches_of_eq
  · exact matches_of_starts starts

/-- What is left of the path behind a mount point that covers it. -/
theorem rest_of_covers (covers : components m <+: components p) :
    Rest m p (if (p.drop m.length).head? = some slash then (p.drop m.length).tail
      else p.drop m.length) := by
  rcases PathText.splitOn_prefix_iff.1 covers with rfl | ⟨rest, rfl⟩
  · exact .inl ⟨rfl, by simp⟩
  · refine .inr ?_
    simp

end Match

/-! ## Resolution -/

theorem mem_mountAll {adds : List (List UInt8 × ω)} {m : Mount ω} (mem : m ∈ mountAll adds) :
    (m.path, m.ops) ∈ adds := by
  induction adds using List.reverseRecOn with
  | nil => cases mem
  | append_singleton adds a ih =>
    rw [mountAll, List.foldl_append, List.foldl_cons, List.foldl_nil, ← mountAll, yosMountAdd] at mem
    split_ifs at mem
    · exact List.mem_append_left _ (ih mem)
    · exact List.mem_append_left _ (ih mem)
    · rcases List.mem_append.1 mem with old | new
      · exact List.mem_append_left _ (ih old)
      · rw [List.mem_singleton.1 new]
        simp

/-- In any table of nonempty mount points the result is that of the first of the deepest mounts. -/
theorem resolve_deepest {table : MountTable ω} (nonempty : ∀ m ∈ table, m.path ≠ [])
    (p : List UInt8) : Deepest table p (yosMountResolve table p) := by
  rcases foldl_better (fun m : Mount ω => mountPathMatches m.path p) table with
    ⟨found, zero⟩ | ⟨before, m, after, rfl, found, pos, less, atMost⟩
  · rw [yosMountResolve, found]
    refine ⟨fun m mem covers => ?_, rfl⟩
    have pos := (matches_pos_iff (nonempty m mem)).2 covers
    have none_matches := zero m mem
    omega
  · have covers : m.Covers p := (matches_pos_iff (nonempty m (by simp))).1 pos
    rw [yosMountResolve, found, matches_of_covers covers]
    refine ⟨before, m, after, rfl, covers, rfl, fun m' mem covers' => ?_, fun m' mem covers' => ?_,
      rest_of_covers covers⟩
    · have shorter := less m' mem
      rw [matches_of_covers covers, matches_of_covers covers'] at shorter
      rw [← not_le] at shorter ⊢
      rwa [Mount.depth, Mount.depth, components, components,
        PathText.splitOn_length_le_iff covers covers']
    · have shorter := atMost m' mem
      rw [matches_of_covers covers, matches_of_covers covers'] at shorter
      exact (PathText.splitOn_length_le_iff covers' covers).2 shorter

/-- In every table built from absolute mount points, every path resolves to the first of the deepest
mounts whose components are a prefix of its own, with the rest behind one slash, and to nothing exactly
when there is none. -/
theorem mount_longest_prefix (adds : List (List UInt8 × ω)) (points : ∀ a ∈ adds, isAbs a.1 = true)
    (p : List UInt8) : Deepest (mountAll adds) p (yosMountResolve (mountAll adds) p) := by
  refine resolve_deepest (fun m mem empty => ?_) p
  have abs := points _ (mem_mountAll mem)
  rw [empty] at abs
  cases abs

/-- The path `/proc`, where the program mounts its process file system. -/
def procPath : List UInt8 := [slash, 112, 114, 111, 99]

/-- With `/proc` and `/proc/sys` mounted, `/proc/sys/x` belongs to the second. -/
theorem nested_mount :
    let table := mountAll [(procPath, 1), (procPath ++ [slash, 115, 121, 115], 2)]
    let p := procPath ++ [slash, 115, 121, 115, slash, 120]
    (yosMountResolve table p).ops = some 2 ∧ (yosMountResolve table p).remaining = [120] ∧
      Deepest table p (yosMountResolve table p) :=
  ⟨by decide, by decide, mount_longest_prefix _ (by simp [procPath, isAbs]) _⟩

end Vfs

end Yos
