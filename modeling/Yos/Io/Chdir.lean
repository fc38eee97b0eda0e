import Mathlib.Logic.Function.Basic
import Yos.Io.Canon
import Yos.Io.Paths
import Yos.Lib.System

/-!
# The working directory (`yos_chdir`, `impl/io/io.c`; `yos_fchdir`, `impl/libc/posix.c`)

The working directory of a guest is the string `ctx->cwd`.  `yos_chdir` checks the resolved path and
then builds the new string by joins that are cut at the end of the buffer.  `yos_fchdir` takes the path
recorded for the descriptor, which is the lexical normal form of the path it was opened by: so
`link/..` is recorded as the directory that holds the link.  A descriptor without a record leaves the
string as it is.  `Fits` are the calls whose paths fit their buffers; in their runs the string names the
directory that was asked for (`cwd_tracked`).

The tree of the host stays as it is during a run.
-/

namespace Yos

namespace Chdir

open Paths Canon

variable {δ ι : Type}

/-! ## The tree of the host -/

/-- The files of the host: what an absolute path names, and what a relative path names in a directory. -/
structure HostTree (δ : Type) where
  node : List UInt8 → Option δ
  isDir : δ → Bool
  look : δ → List UInt8 → Option δ
  join : ∀ a p d, isAbs a = true → isAbs p = false → p ≠ [] → node a = some d →
    node (absPath a p) = look d p

namespace HostTree

variable (t : HostTree δ) (host : HostDir)

/-- A call that finds a file by its path. -/
def find (p : List UInt8) : Option δ := (⟨t.node, none, none⟩ : HostFs (Option δ)).call host p

/-- A call that finds a file by a directory and a path. -/
def findAt (d : δ) (p : List UInt8) : Option δ :=
  if isAbs p then t.find host p
  else if p = [] ∨ pathMax ≤ p.length then none
  else t.look d p

end HostTree

/-! ## The context -/

/-- The working directory and the descriptors of a process: the file each is open on, and the path
recorded for it.  `opened` is not in the context: it is the whole path the descriptor was opened by. -/
structure DirCtx (δ : Type) where
  cwd : List UInt8
  fdNode : ℕ → Option δ
  fdPaths : ℕ → Option (List UInt8)
  opened : ℕ → Option (List UInt8)

/-- `strncat`. -/
def strncat (dst src : List UInt8) (n : ℕ) : List UInt8 := dst ++ src.take n

/-- The string `yos_chdir` stores when the directory was found. -/
def chdirCwd (cwd s : List UInt8) : List UInt8 :=
  if isAbs s then s.take (pathMax - 1)
  else
    let slashed :=
      if 0 < cwd.length ∧ cwd.getLast? ≠ some slash then strncat cwd [slash] (pathMax - cwd.length - 1)
      else cwd
    strncat slashed s (pathMax - slashed.length - 1)

/-- `yos_fd_alloc_with_path`: the path recorded for a descriptor. -/
def recordPath (cwd path : List UInt8) : List UInt8 :=
  canonAbsPath (((if isAbs path ∨ cwd = [] then path else absPath cwd path)).take (pathMax - 1))

namespace DirCtx

variable (t : HostTree δ) (host : HostDir) (c : DirCtx δ)

/-- The descriptor `w` is open on `d`, with a record or without. -/
def setFd (w : ℕ) (d : Option δ) (record opened : Option (List UInt8)) : DirCtx δ :=
  { c with
    fdNode := Function.update c.fdNode w d
    fdPaths := Function.update c.fdPaths w record
    opened := Function.update c.opened w opened }

/-- `yos_chdir`, and whether it returns 0.  There is no string when `wstr_check` finds none. -/
def yosChdir : (filename : Option (List UInt8)) → DirCtx δ × Bool
  | none => (c, false)
  | some s =>
    match t.find host (yosPathResolve c.cwd s) with
    | none => (c, false)
    | some d => if t.isDir d then ({ c with cwd := chdirCwd c.cwd s }, true) else (c, false)

/-- `yos_fchdir`, and whether it returns 0. -/
def yosFchdir (wfd : ℕ) : DirCtx δ × Bool :=
  match c.fdNode wfd with
  | none => (c, false)
  | some d =>
    if t.isDir d then
      match c.fdPaths wfd with
      | some path => ({ c with cwd := path.take (pathMax - 1) }, true)
      | none => (c, true)
    else (c, false)

/-- `yos_open` and `yos_opendir` of a host file, and `yos_openat` with `AT_FDCWD`; `w` is the descriptor
allocated. -/
def yosOpen (p : List UInt8) (w : ℕ) : DirCtx δ :=
  let s := yosPathResolve c.cwd p
  match t.find host s with
  | none => c
  | some d => c.setFd w (some d) (some (recordPath c.cwd s)) (some (absolute c.cwd p))

/-- The path `yos_openat` records for a relative path and the descriptor of a directory. -/
def openatPath (dfd : ℕ) (p : List UInt8) : List UInt8 :=
  if isAbs p then p
  else
    match c.fdPaths dfd with
    | some base => (absPath base p).take (pathMax - 1)
    | none => p

/-- `yos_openat` with the descriptor of a directory. -/
def yosOpenat (dfd : ℕ) (p : List UInt8) (w : ℕ) : DirCtx δ :=
  match (c.fdNode dfd).bind fun d => t.findAt host d p with
  | none => c
  | some d =>
    c.setFd w (some d) (some (recordPath c.cwd (c.openatPath dfd p)))
      (if isAbs p then some p else (c.opened dfd).map fun q => absPath q p)

/-- `yos_dup`, `yos_dup2` and `yos_dup3` take the record along. -/
def yosDup (v w : ℕ) : DirCtx δ :=
  if (c.fdNode v).isSome then c.setFd w (c.fdNode v) (c.fdPaths v) (c.opened v) else c

/-- `fcntl` with `F_DUPFD` does not. -/
def yosDupfd (v w : ℕ) : DirCtx δ :=
  if (c.fdNode v).isSome then c.setFd w (c.fdNode v) none (c.opened v) else c

/-- `yos_close`. -/
def yosClose (w : ℕ) : DirCtx δ := c.setFd w none none none

/-- The context of a forked child: the records stay with the parent. -/
def forked : DirCtx δ := { c with fdPaths := fun _ => none }

end DirCtx

/-- The calls. -/
inductive DirCall where
  | chdir (filename : Option (List UInt8))
  | fchdir (wfd : ℕ)
  | openPath (p : List UInt8) (w : ℕ)
  | openat (dfd : ℕ) (p : List UInt8) (w : ℕ)
  | dup (v w : ℕ)
  | dupfd (v w : ℕ)
  | close (w : ℕ)

/-- The context after a call. -/
def DirCtx.call (t : HostTree δ) (host : HostDir) (c : DirCtx δ) : DirCall → DirCtx δ
  | .chdir filename => (c.yosChdir t host filename).1
  | .fchdir wfd => (c.yosFchdir t wfd).1
  | .openPath p w => c.yosOpen t host p w
  | .openat dfd p w => c.yosOpenat t host dfd p w
  | .dup v w => c.yosDup v w
  | .dupfd v w => c.yosDupfd v w
  | .close w => c.yosClose w

/-- The processes: each makes calls, and forks others. -/
inductive DirAct (ι : Type) where
  | call (i : ι) (c : DirCall)
  | fork (parent child : ι)

/-- The contexts start in a directory, without records. -/
def dirSystem [DecidableEq ι] (t : HostTree δ) (host : HostDir) :
    System (ι → DirCtx δ) (DirAct ι) where
  init s := ∀ i, isAbs (s i).cwd = true ∧ (s i).cwd.length < pathMax ∧
    (∀ w, (s i).fdPaths w = none) ∧ ∀ w, (s i).opened w = none
  step s a s' :=
    match a with
    | .call i c => s' = Function.update s i ((s i).call t host c)
    | .fork parent child => s' = Function.update s child (s parent).forked

/-! ## What the calls do -/

section Cases

variable (t : HostTree δ) (host : HostDir) (c : DirCtx δ)

theorem yosChdir_cases (filename : Option (List UInt8)) :
    c.yosChdir t host filename = (c, false) ∨
      ∃ p d, filename = some p ∧ t.find host (yosPathResolve c.cwd p) = some d ∧ t.isDir d = true ∧
        c.yosChdir t host filename = ({ c with cwd := chdirCwd c.cwd p }, true) := by
  cases filename with
  | none => exact .inl rfl
  | some p =>
    cases found : t.find host (yosPathResolve c.cwd p) with
    | none => exact .inl (by simp only [DirCtx.yosChdir, found])
    | some d =>
      by_cases dir : t.isDir d = true
      · exact .inr ⟨p, d, rfl, found, dir, by simp only [DirCtx.yosChdir, found, if_pos dir]⟩
      · exact .inl (by simp only [DirCtx.yosChdir, found, if_neg dir])

theorem yosFchdir_cases (wfd : ℕ) :
    c.yosFchdir t wfd = (c, false) ∨
      ∃ d, c.fdNode wfd = some d ∧ t.isDir d = true ∧
        ((c.fdPaths wfd = none ∧ c.yosFchdir t wfd = (c, true)) ∨
          ∃ r, c.fdPaths wfd = some r ∧
            c.yosFchdir t wfd = ({ c with cwd := r.take (pathMax - 1) }, true)) := by
  cases open_on : c.fdNode wfd with
  | none => exact .inl (by simp only [DirCtx.yosFchdir, open_on])
  | some d =>
    by_cases dir : t.isDir d = true
    · refine .inr ⟨d, rfl, dir, ?_⟩
      cases record : c.fdPaths wfd with
      | none => exact .inl ⟨rfl, by simp only [DirCtx.yosFchdir, open_on, if_pos dir, record]⟩
      | some r => exact .inr ⟨r, rfl, by simp only [DirCtx.yosFchdir, open_on, if_pos dir, record]⟩
    · exact .inl (by simp only [DirCtx.yosFchdir, open_on, if_neg dir])

theorem yosOpen_cases (p : List UInt8) (w : ℕ) :
    c.yosOpen t host p w = c ∨
      ∃ d, t.find host (yosPathResolve c.cwd p) = some d ∧
        c.yosOpen t host p w = c.setFd w (some d) (some (recordPath c.cwd (yosPathResolve c.cwd p)))
          (some (absolute c.cwd p)) := by
  cases found : t.find host (yosPathResolve c.cwd p) with
  | none => exact .inl (by simp only [DirCtx.yosOpen, found])
  | some d => exact .inr ⟨d, rfl, by simp only [DirCtx.yosOpen, found]⟩

theorem yosOpenat_cases (dfd : ℕ) (p : List UInt8) (w : ℕ) :
    c.yosOpenat t host dfd p w = c ∨
      ∃ dir d, c.fdNode dfd = some dir ∧ t.findAt host dir p = some d ∧
        c.yosOpenat t host dfd p w =
          c.setFd w (some d) (some (recordPath c.cwd (c.openatPath dfd p)))
            (if isAbs p then some p else (c.opened dfd).map fun q => absPath q p) := by
  cases found : (c.fdNode dfd).bind fun d => t.findAt host d p with
  | none => exact .inl (by simp only [DirCtx.yosOpenat, found])
  | some d =>
    obtain ⟨dir, open_on, finds⟩ := Option.bind_eq_some_iff.1 found
    exact .inr ⟨dir, d, open_on, finds, by simp only [DirCtx.yosOpenat, found]⟩

end Cases

/-! ## What should hold -/

/-- The path fills the buffer of `canon_abs_path` and is its own normal form. -/
def Full (q : List UInt8) : Prop := q.length + 1 = pathMax ∧ normalForm q = q

/-- A relative path that fits behind a directory. -/
def Joins (dir p : List UInt8) : Prop :=
  p ≠ [] → isAbs p = false → dir.getLast? ≠ some backslash ∧ (absPath dir p).length < pathMax

/-- The paths of the call fit their buffers, and `openat` gets a descriptor with a record. -/
def Fits (c : DirCtx δ) : DirCall → Prop
  | .chdir (some p) => Joins c.cwd p
  | .openPath p _ => Joins c.cwd p ∧ ¬ Full (absolute c.cwd p)
  | .openat dfd p _ =>
    if isAbs p then ¬ Full p
    else ∃ base, c.fdPaths dfd = some base ∧ (absPath base p).length < pathMax ∧
      ¬ Full (absPath base p)
  | .chdir none | .fchdir _ | .dup _ _ | .dupfd _ _ | .close _ => True

/-- The steps whose calls fit. -/
def StepFits (s : ι → DirCtx δ) : DirAct ι → Prop
  | .call i c => Fits (s i) c
  | .fork _ _ => True

/-- The string names the directory, and a relative path that fits behind it is resolved in it. -/
def Names (t : HostTree δ) (host : HostDir) (cwd : List UInt8) (d : δ) : Prop :=
  t.node cwd = some d ∧ ∀ p : RelPath, cwd.getLast? ≠ some backslash →
    (absPath cwd p.path).length < pathMax →
      t.find host (yosPathResolve cwd p.path) = t.look d p.path

/-- A `chdir` that returns 0 names the directory it checked, and one that fails changes nothing. -/
def ChdirTracks (t : HostTree δ) (host : HostDir) (c : DirCtx δ) (filename : Option (List UInt8)) :
    Prop :=
  if (c.yosChdir t host filename).2 then
    ∃ p d, filename = some p ∧ t.find host (yosPathResolve c.cwd p) = some d ∧ t.isDir d ∧
      Names t host (c.yosChdir t host filename).1.cwd d
  else (c.yosChdir t host filename).1.cwd = c.cwd

/-- An `fchdir` that returns 0 stores the lexical normal form of the path the descriptor was opened by,
which names the directory of the descriptor if it names what that path names.  One that fails, or that
finds no record, changes nothing. -/
def FchdirTracks (t : HostTree δ) (host : HostDir) (c : DirCtx δ) (wfd : ℕ) : Prop :=
  if (c.yosFchdir t wfd).2 ∧ c.fdPaths wfd ≠ none then
    ∃ q d, c.opened wfd = some q ∧ c.fdNode wfd = some d ∧ t.isDir d ∧ t.node q = some d ∧
      (c.yosFchdir t wfd).1.cwd = normalForm q ∧
      (t.node (normalForm q) = t.node q → Names t host (c.yosFchdir t wfd).1.cwd d)
  else (c.yosFchdir t wfd).1.cwd = c.cwd

/-- What a call does to the working directory. -/
def Tracked (t : HostTree δ) (host : HostDir) (c : DirCtx δ) : DirCall → Prop
  | .chdir filename => ChdirTracks t host c filename
  | .fchdir wfd => FchdirTracks t host c wfd
  | a => (c.call t host a).cwd = c.cwd

/-! ## Paths -/

section PathFacts

variable {t : HostTree δ} {host : HostDir} {cwd p q : List UInt8} {d : δ}

theorem find_of_isAbs (abs : isAbs p = true) (short : p.length < pathMax) :
    t.find host p = t.node p := by
  simp [HostTree.find, HostFs.call, abs, ne_nil_of_isAbs abs, Nat.not_le.mpr short]

theorem found_bounds (found : t.find host p = some d) : p ≠ [] ∧ p.length < pathMax := by
  constructor
  · rintro rfl
    simp [HostTree.find, HostFs.call] at found
  · by_contra long
    have some_byte : p ≠ [] := by
      rintro rfl
      exact long (by decide)
    rw [HostTree.find, HostFs.call, if_neg some_byte, if_pos (Nat.not_lt.mp long)] at found
    cases found

/-- A path that joins is resolved to the path below the working directory. -/
theorem resolve_of_joins (abs : isAbs cwd = true) (short : cwd.length < pathMax)
    (nonempty : p ≠ []) (joins : Joins cwd p) : yosPathResolve cwd p = absolute cwd p := by
  unfold absolute
  split_ifs with is_abs
  · exact yosPathResolve_of_isAbs is_abs
  · have rel : isAbs p = false := by simpa using is_abs
    obtain ⟨last, fits⟩ := joins nonempty rel
    exact yosPathResolve_fits ⟨cwd, abs, short⟩ ⟨p, nonempty, rel⟩ last fits

theorem isAbs_absolute (abs : isAbs cwd = true) : isAbs (absolute cwd p) = true := by
  unfold absolute
  split_ifs with is_abs
  · exact is_abs
  · exact isAbs_absPath abs

/-- `yos_chdir` stores the path it checked. -/
theorem chdirCwd_of_joins (abs : isAbs cwd = true) (nonempty : p ≠ [])
    (short : p.length < pathMax) (joins : Joins cwd p) : chdirCwd cwd p = absolute cwd p := by
  unfold chdirCwd absolute
  split_ifs with is_abs ends
  · exact List.take_of_length_le (by omega)
  · have rel : isAbs p = false := by simpa using is_abs
    have fits := (joins nonempty rel).2
    have some_byte : 0 < p.length := List.length_pos_of_ne_nil nonempty
    rw [absPath, withSlash, if_neg ends.2, List.length_append, List.length_append,
      List.length_singleton] at fits
    have whole : [slash].take (pathMax - cwd.length - 1) = [slash] :=
      List.take_of_length_le (by rw [List.length_singleton]; omega)
    simp only [strncat]
    rw [whole, List.take_of_length_le (by rw [List.length_append, List.length_singleton]; omega),
      absPath, withSlash, if_neg ends.2]
  · have rel : isAbs p = false := by simpa using is_abs
    have fits := (joins nonempty rel).2
    have long : 0 < cwd.length := List.length_pos_of_ne_nil (ne_nil_of_isAbs abs)
    have slashed : cwd.getLast? = some slash := by
      by_contra other
      exact ends ⟨long, other⟩
    rw [absPath, withSlash, if_pos slashed, List.length_append] at fits
    rw [strncat, List.take_of_length_le (by omega), absPath, withSlash, if_pos slashed]

/-- The path recorded for an absolute path that fits is its normal form. -/
theorem recordPath_of_isAbs (abs : isAbs p = true) (short : p.length < pathMax) (room : ¬ Full p) :
    recordPath cwd p = normalForm p := by
  rw [recordPath, if_pos (.inl abs), List.take_of_length_le (by omega)]
  exact (canon_eq_normal_iff abs short).2 room

theorem length_normalForm_lt (abs : isAbs p = true) (short : p.length < pathMax) :
    (normalForm p).length < pathMax := by
  obtain ⟨q, rfl⟩ := isAbs_iff.1 abs
  exact (PathText.normal_length_le q).trans_lt short

theorem walk_withSlash (dir p : List UInt8) (kept : List (List UInt8)) :
    PathText.walk slash dot kept (absPath dir p) =
      PathText.walk slash dot (PathText.walk slash dot kept dir) p := by
  unfold absPath withSlash
  split_ifs with ends
  · obtain ⟨dir, rfl⟩ := List.getLast?_eq_some_iff.1 ends
    rw [List.append_assoc, List.singleton_append, PathText.walk_append_sep, PathText.walk_append_sep,
      PathText.walk_nil]
  · rw [List.append_assoc, List.singleton_append, PathText.walk_append_sep]

/-- A path below a directory has the same normal form below the normal form of the directory. -/
theorem normalForm_absPath (dir p : List UInt8) :
    normalForm (absPath (normalForm dir) p) = normalForm (absPath dir p) := by
  have again : PathText.walk slash dot [] (normalForm dir) = left dir :=
    PathText.walk_text (left_plain dir)
  have same : left (absPath (normalForm dir) p) = left (absPath dir p) := by
    rw [left, walk_withSlash, again, left, ← walk_withSlash]
  exact congrArg (PathText.text slash) same

theorem names_of_node (abs : isAbs cwd = true) (short : cwd.length < pathMax)
    (node : t.node cwd = some d) : Names t host cwd d := by
  refine ⟨node, fun p last fits => ?_⟩
  rw [yosPathResolve_fits ⟨cwd, abs, short⟩ p last fits,
    find_of_isAbs (isAbs_absPath abs) fits, t.join cwd p.path d abs p.rel p.nonempty node]

end PathFacts

/-! ## The records -/

/-- A descriptor that is open on `d`: its record is the normal form of the path it was opened by, and
that path names `d`. -/
structure Entry (t : HostTree δ) (d : Option δ) (record opened : Option (List UInt8)) : Prop where
  recorded : ∀ r, record = some r → ∃ q, opened = some q ∧ r = normalForm q ∧ r.length < pathMax
  names : ∀ q, opened = some q → isAbs q = true ∧ t.node q = d

/-- The working directory is an absolute path that fits its buffer, and the descriptors are in order. -/
structure CtxOk (t : HostTree δ) (c : DirCtx δ) : Prop where
  abs : isAbs c.cwd = true
  short : c.cwd.length < pathMax
  entries : ∀ w, Entry t (c.fdNode w) (c.fdPaths w) (c.opened w)

section Steps

variable {t : HostTree δ} {host : HostDir} {c : DirCtx δ} {p q : List UInt8} {d : δ}

theorem entry_none (d : Option δ) : Entry t d none none := ⟨by simp, by simp⟩

/-- Without its record a descriptor stays in order. -/
theorem Entry.forget {d : Option δ} {record opened : Option (List UInt8)}
    (entry : Entry t d record opened) : Entry t d none opened := ⟨by simp, entry.names⟩

/-- A descriptor with the record of a path that fits. -/
theorem entry_of_path (abs : isAbs q = true) (node : t.node q = some d)
    (short : (normalForm q).length < pathMax) :
    Entry t (some d) (some (normalForm q)) (some q) where
  recorded r same := by
    obtain rfl := Option.some.inj same
    exact ⟨q, rfl, rfl, short⟩
  names q' same := by
    obtain rfl := Option.some.inj same
    exact ⟨abs, node⟩

theorem CtxOk.setFd (ok : CtxOk t c) (w : ℕ) {d : Option δ} {record opened : Option (List UInt8)}
    (entry : Entry t d record opened) : CtxOk t (c.setFd w d record opened) where
  abs := ok.abs
  short := ok.short
  entries w' := by
    by_cases same : w' = w
    · subst same
      simpa [DirCtx.setFd] using entry
    · simpa [DirCtx.setFd, same] using ok.entries w'

theorem CtxOk.setCwd (ok : CtxOk t c) (abs : isAbs p = true) (short : p.length < pathMax) :
    CtxOk t { c with cwd := p } :=
  ⟨abs, short, ok.entries⟩

/-- `chdir` finds the path below the working directory and stores it. -/
theorem yosChdir_found (ok : CtxOk t c) (fits : Joins c.cwd p)
    (found : t.find host (yosPathResolve c.cwd p) = some d) :
    yosPathResolve c.cwd p = absolute c.cwd p ∧ chdirCwd c.cwd p = absolute c.cwd p ∧
      (absolute c.cwd p).length < pathMax ∧ t.node (absolute c.cwd p) = some d := by
  have nonempty : p ≠ [] := by
    rintro rfl
    exact (found_bounds found).1 rfl
  have resolved := resolve_of_joins ok.abs ok.short nonempty fits
  rw [resolved] at found
  have short := (found_bounds found).2
  have fits_alone : p.length < pathMax := by
    refine lt_of_le_of_lt ?_ short
    unfold absolute absPath
    split_ifs <;> simp
  refine ⟨resolved, chdirCwd_of_joins ok.abs nonempty fits_alone fits, short, ?_⟩
  rwa [find_of_isAbs (isAbs_absolute ok.abs) short] at found

theorem yosChdir_ok (ok : CtxOk t c) (filename : Option (List UInt8))
    (fits : Fits c (.chdir filename)) : CtxOk t (c.yosChdir t host filename).1 := by
  rcases yosChdir_cases t host c filename with same | ⟨p, d, rfl, found, -, stored⟩
  · rw [same]
    exact ok
  · obtain ⟨-, names, short, -⟩ := yosChdir_found ok fits found
    rw [stored, names]
    exact ok.setCwd (isAbs_absolute ok.abs) short

theorem isAbs_normalForm (q : List UInt8) : isAbs (normalForm q) = true := rfl

/-- The record of a descriptor is copied as a whole. -/
theorem CtxOk.take_record (ok : CtxOk t c) {wfd : ℕ} {r : List UInt8} (record : c.fdPaths wfd = some r) :
    ∃ q, c.opened wfd = some q ∧ r.take (pathMax - 1) = normalForm q ∧
      (normalForm q).length < pathMax := by
  obtain ⟨q, opened, rfl, short⟩ := (ok.entries wfd).recorded r record
  exact ⟨q, opened, List.take_of_length_le (by omega), short⟩

theorem yosFchdir_ok (ok : CtxOk t c) (wfd : ℕ) : CtxOk t (c.yosFchdir t wfd).1 := by
  rcases yosFchdir_cases t c wfd with same | ⟨d, -, -, ⟨-, same⟩ | ⟨r, record, stored⟩⟩
  · rw [same]
    exact ok
  · rw [same]
    exact ok
  · obtain ⟨q, -, whole, short⟩ := ok.take_record record
    rw [stored, whole]
    exact ok.setCwd (isAbs_normalForm q) short

/-- `open` records the normal form of the path below the working directory. -/
theorem yosOpen_ok (ok : CtxOk t c) (w : ℕ) (fits : Fits c (.openPath p w)) :
    CtxOk t (c.yosOpen t host p w) := by
  rcases yosOpen_cases t host c p w with same | ⟨d, found, opens⟩
  · rw [same]
    exact ok
  · obtain ⟨resolved, -, short, node⟩ := yosChdir_found ok fits.1 found
    have abs : isAbs (absolute c.cwd p) = true := isAbs_absolute ok.abs
    rw [opens, resolved, recordPath_of_isAbs abs short fits.2]
    exact ok.setFd w (entry_of_path abs node (length_normalForm_lt abs short))

/-- `openat` with an absolute path records its normal form. -/
theorem yosOpenat_ok_of_isAbs (ok : CtxOk t c) (w : ℕ) (abs : isAbs p = true) (room : ¬ Full p)
    {dir : δ} (found : t.findAt host dir p = some d) :
    CtxOk t (c.setFd w (some d) (some (recordPath c.cwd p)) (some p)) := by
  rw [HostTree.findAt, if_pos abs] at found
  have short := (found_bounds found).2
  rw [find_of_isAbs abs short] at found
  rw [recordPath_of_isAbs abs short room]
  exact ok.setFd w (entry_of_path abs found (length_normalForm_lt abs short))

/-- With a relative one, the normal form of the path below the path of the directory. -/
theorem yosOpenat_ok_of_rel (ok : CtxOk t c) (dfd w : ℕ) (rel : isAbs p = false) {base : List UInt8}
    (record : c.fdPaths dfd = some base) (short : (absPath base p).length < pathMax)
    (room : ¬ Full (absPath base p)) {dir : δ} (open_on : c.fdNode dfd = some dir)
    (found : t.findAt host dir p = some d) :
    CtxOk t (c.setFd w (some d) (some (recordPath c.cwd ((absPath base p).take (pathMax - 1))))
      ((c.opened dfd).map fun q => absPath q p)) := by
  obtain ⟨q, opened, rfl, -⟩ := (ok.entries dfd).recorded base record
  obtain ⟨abs_q, node_q⟩ := (ok.entries dfd).names q opened
  rw [HostTree.findAt, if_neg (by simp [rel])] at found
  split_ifs at found with bounds
  have node : t.node (absPath q p) = some d := by
    rw [t.join q p dir abs_q rel (fun empty => bounds (.inl empty)) (node_q.trans open_on)]
    exact found
  have abs_base : isAbs (absPath (normalForm q) p) = true := isAbs_absPath (isAbs_normalForm q)
  have below := length_normalForm_lt abs_base short
  rw [opened, List.take_of_length_le (by omega), recordPath_of_isAbs abs_base short room]
  rw [normalForm_absPath] at below ⊢
  exact ok.setFd w (entry_of_path (isAbs_absPath abs_q) node below)

theorem yosOpenat_ok (ok : CtxOk t c) (dfd w : ℕ) (fits : Fits c (.openat dfd p w)) :
    CtxOk t (c.yosOpenat t host dfd p w) := by
  rcases yosOpenat_cases t host c dfd p w with same | ⟨dir, d, open_on, found, opens⟩
  · rw [same]
    exact ok
  · rw [opens, DirCtx.openatPath]
    by_cases abs : isAbs p = true
    · have room : ¬ Full p := by simpa only [Fits, if_pos abs] using fits
      rw [if_pos abs, if_pos abs]
      exact yosOpenat_ok_of_isAbs ok w abs room found
    · obtain ⟨base, record, short, room⟩ : ∃ base, c.fdPaths dfd = some base ∧
          (absPath base p).length < pathMax ∧ ¬ Full (absPath base p) := by
        simpa only [Fits, if_neg abs] using fits
      rw [if_neg abs, if_neg abs, record]
      exact yosOpenat_ok_of_rel ok dfd w (by simpa using abs) record short room open_on found

theorem yosDup_ok (ok : CtxOk t c) (v w : ℕ) : CtxOk t (c.yosDup v w) := by
  unfold DirCtx.yosDup
  split_ifs
  · exact ok.setFd w (ok.entries v)
  · exact ok

theorem yosDupfd_ok (ok : CtxOk t c) (v w : ℕ) : CtxOk t (c.yosDupfd v w) := by
  unfold DirCtx.yosDupfd
  split_ifs
  · exact ok.setFd w (ok.entries v).forget
  · exact ok

/-- Every call that fits keeps the context in order. -/
theorem call_ok (ok : CtxOk t c) (a : DirCall) (fits : Fits c a) : CtxOk t (c.call t host a) := by
  cases a with
  | chdir filename => exact yosChdir_ok ok filename fits
  | fchdir wfd => exact yosFchdir_ok ok wfd
  | openPath p w => exact yosOpen_ok ok w fits
  | openat dfd p w => exact yosOpenat_ok ok dfd w fits
  | dup v w => exact yosDup_ok ok v w
  | dupfd v w => exact yosDupfd_ok ok v w
  | close w => exact ok.setFd w (entry_none none)

theorem forked_ok (ok : CtxOk t c) : CtxOk t c.forked :=
  ⟨ok.abs, ok.short, fun w => (ok.entries w).forget⟩

theorem chdirTracks (ok : CtxOk t c) (filename : Option (List UInt8))
    (fits : Fits c (.chdir filename)) : ChdirTracks t host c filename := by
  unfold ChdirTracks
  rcases yosChdir_cases t host c filename with same | ⟨p, d, rfl, found, dir, stored⟩
  · rw [same, if_neg Bool.false_ne_true]
  · obtain ⟨-, names, short, node⟩ := yosChdir_found ok fits found
    rw [stored, if_pos rfl, names]
    exact ⟨p, d, rfl, found, dir, names_of_node (isAbs_absolute ok.abs) short node⟩

theorem fchdirTracks (ok : CtxOk t c) (wfd : ℕ) : FchdirTracks t host c wfd := by
  unfold FchdirTracks
  rcases yosFchdir_cases t c wfd with same | ⟨d, open_on, dir, ⟨unknown, same⟩ | ⟨r, record, stored⟩⟩
  · rw [same, if_neg fun found => Bool.false_ne_true found.1]
  · rw [same, if_neg fun found => found.2 unknown]
  · obtain ⟨q, opened, whole, short⟩ := ok.take_record record
    have node := ((ok.entries wfd).names q opened).2
    rw [stored, if_pos ⟨rfl, by simp [record]⟩, whole]
    refine ⟨q, d, opened, open_on, dir, node.trans open_on, rfl, fun same => ?_⟩
    exact names_of_node (isAbs_normalForm q) short ((same.trans node).trans open_on)

/-- What a call does to the working directory of a context that is in order. -/
theorem tracked_of_ok (ok : CtxOk t c) (a : DirCall) (fits : Fits c a) : Tracked t host c a := by
  cases a with
  | chdir filename => exact chdirTracks ok filename fits
  | fchdir wfd => exact fchdirTracks ok wfd
  | openPath p w =>
    show (c.yosOpen t host p w).cwd = c.cwd
    rcases yosOpen_cases t host c p w with same | ⟨d, -, opens⟩
    · rw [same]
    · rw [opens, DirCtx.setFd]
  | openat dfd p w =>
    show (c.yosOpenat t host dfd p w).cwd = c.cwd
    rcases yosOpenat_cases t host c dfd p w with same | ⟨dir, d, -, -, opens⟩
    · rw [same]
    · rw [opens, DirCtx.setFd]
  | dup v w =>
    show (c.yosDup v w).cwd = c.cwd
    unfold DirCtx.yosDup
    split_ifs <;> rfl
  | dupfd v w =>
    show (c.yosDupfd v w).cwd = c.cwd
    unfold DirCtx.yosDupfd
    split_ifs <;> rfl
  | close w => rfl

end Steps

/-! ## Runs -/

section Runs

variable [DecidableEq ι] {t : HostTree δ} {host : HostDir} {s s' : ι → DirCtx δ}

theorem start_ok (start : (dirSystem t host).init s) (i : ι) : CtxOk t (s i) where
  abs := (start i).1
  short := (start i).2.1
  entries w := by
    rw [(start i).2.2.1 w, (start i).2.2.2 w]
    exact entry_none _

theorem step_ok {a : DirAct ι} (ok : ∀ i, CtxOk t (s i)) (fits : StepFits s a)
    (next : (dirSystem t host).step s a s') (i : ι) : CtxOk t (s' i) := by
  cases a with
  | call j c =>
    obtain rfl : s' = Function.update s j ((s j).call t host c) := next
    rcases eq_or_ne i j with rfl | other
    · rw [Function.update_self]
      exact call_ok (ok i) c fits
    · rw [Function.update_of_ne other]
      exact ok i
  | fork parent child =>
    obtain rfl : s' = Function.update s child (s parent).forked := next
    rcases eq_or_ne i child with rfl | other
    · rw [Function.update_self]
      exact forked_ok (ok parent)
    · rw [Function.update_of_ne other]
      exact ok i

end Runs

/-! ## A tree with a link -/

/-- The files below a root: an absolute path names what its components lead to. -/
def HostTree.ofChild (root : δ) (isDir : δ → Bool) (child : δ → List UInt8 → Option δ)
    (empty : ∀ d, child d [] = some d) : HostTree δ where
  node p := if isAbs p then (p.splitOn slash).foldlM child root else none
  isDir := isDir
  look d p := (p.splitOn slash).foldlM child d
  join a p d abs rel nonempty node := by
    rw [if_pos abs] at node
    rw [if_pos (isAbs_absPath abs), absPath, withSlash]
    split_ifs with ends
    · -- the slash at the end of the directory adds an empty component
      obtain ⟨dir, rfl⟩ := List.getLast?_eq_some_iff.1 ends
      rw [List.splitOn_append_cons_self, List.foldlM_append] at node
      obtain ⟨d', below, here⟩ := Option.bind_eq_some_iff.1 node
      have same : d' = d := by simpa [empty] using here
      rw [List.append_assoc, List.singleton_append, List.splitOn_append_cons_self,
        List.foldlM_append, below, same]
      rfl
    · rw [List.append_assoc, List.singleton_append, List.splitOn_append_cons_self,
        List.foldlM_append, node]
      rfl

/-- The directories `/`, `/a` and `/a/b`. -/
inductive Place where
  | root | a | b
deriving DecidableEq, Repr

/-- The names in each: `/l` is a link to `/a/b`. -/
def Place.child (d : Place) (name : List UInt8) : Option Place :=
  if name = [] ∨ name = [dot] then some d
  else if name = [dot, dot] then
    match d with
    | .root | .a => some .root
    | .b => some .a
  else if d = .root ∧ name = [97] then some .a
  else if d = .root ∧ name = [108] ∨ d = .a ∧ name = [98] then some .b
  else none

def linkTree : HostTree Place :=
  HostTree.ofChild .root (fun _ => true) Place.child fun d => by simp [Place.child]

def hostRoot : HostDir := ⟨[slash], rfl⟩

/-- A process in the root directory. -/
def inRoot : DirCtx Place := ⟨[slash], fun _ => none, fun _ => none, fun _ => none⟩

/-- The process has opened the absolute path `p`. -/
def openedPath (p : List UInt8) : Unit → DirCtx Place := fun _ => inRoot.yosOpen linkTree hostRoot p 3

theorem fits_of_isAbs {p : List UInt8} (abs : isAbs p = true) (room : p.length + 1 ≠ pathMax) :
    Fits inRoot (.openPath p 3) := by
  refine ⟨fun _ rel => absurd (rel.symm.trans abs) Bool.false_ne_true, fun full => ?_⟩
  rw [absolute, if_pos abs] at full
  exact room full.1

theorem inRoot_ok : CtxOk linkTree inRoot := ⟨rfl, by decide, fun _ => entry_none _⟩

theorem openedPath_reachable {p : List UInt8} (fits : Fits inRoot (.openPath p 3)) :
    (dirSystem linkTree hostRoot).ReachableIf StepFits (openedPath p) := by
  refine .step (.init (s := fun _ => inRoot) ?_) (a := .call () (.openPath p 3)) fits ?_
  · exact fun _ => ⟨inRoot_ok.abs, inRoot_ok.short, fun _ => rfl, fun _ => rfl⟩
  · funext i
    simp [openedPath, DirCtx.call]

end Chdir

end Yos
