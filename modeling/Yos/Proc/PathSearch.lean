import Mathlib.Data.List.TakeWhile
import Yos.Proc.Execve

/-!
# The search in `PATH` (`execvp_path_search`, `impl/proc/proc.c`)

`pathSearch` is the loop over the string, with the bytes it copies to `out`.  The loop ends when it
stands at the NUL, so an empty last component is not tried; and the test `st_mode & S_IFREG` looks at
one bit of a field of four, so a socket passes it.  `path_search_iff` says when the result is that of
a search for the first regular file.
-/

namespace Yos

namespace PathSearch

/-- What `stat` answers for a path: the mode, unless it fails. -/
abbrev Stat := List UInt8 → Option ℕ

/-- `S_IFREG`. -/
def sIfreg : ℕ := 0o100000

/-- `S_IFMT`. -/
def sIfmt : ℕ := 0o170000

/-- The test of the search: `stat(out, &st) == 0 && (st.st_mode & S_IFREG)`. -/
def accepts (stat : Stat) (out : List UInt8) : Bool :=
  (stat out).any fun mode => mode &&& sIfreg != 0

/-- The path names a regular file. -/
def isReg (stat : Stat) (out : List UInt8) : Bool :=
  (stat out).any fun mode => mode &&& sIfmt == sIfreg

/-- A copy to the buffer: where, and the bytes. -/
structure Store where
  off : ℕ
  bytes : List UInt8

/-- The copies that put a candidate and its NUL together. -/
def stores (file dir : List UInt8) : List Store :=
  if dir.length = 0 then [⟨0, file ++ [0]⟩]
  else [⟨0, dir⟩, ⟨dir.length, [slash]⟩, ⟨dir.length + 1, file ++ [0]⟩]

/-- The loop at the position `p`, and whether that is the start of the string. -/
def loop (stat : Stat) (file : List UInt8) (start : Bool) (p : List UInt8) :
    List Store × Option (List UInt8) :=
  if p = [] ∧ start = false then ([], none)
  else
    let dir := p.takeWhile (· ≠ colon)
    let next := (p.dropWhile (· ≠ colon)).tail
    let last := p.dropWhile (· ≠ colon) = []
    if 4096 < dir.length + 1 + file.length + 1 then
      if last then ([], none) else loop stat file false next
    else if accepts stat (candidate file dir) then (stores file dir, some (candidate file dir))
    else if last then (stores file dir, none)
    else
      let rest := loop stat file false next
      (stores file dir ++ rest.1, rest.2)
termination_by p.length
decreasing_by
  all_goals
    have more : 0 < (p.dropWhile (· ≠ colon)).length := List.length_pos_iff.2 (by assumption)
    have inside := (List.dropWhile_suffix (l := p) (· ≠ colon)).length_le
    rw [List.length_tail]
    omega

/-- `execvp_path_search`. -/
def execvpPathSearch (stat : Stat) (envp : List (List UInt8)) (file : List UInt8) :
    List Store × Option (List UInt8) :=
  loop stat file true (envPath envp)

/-! ## What the loop visits -/

/-- The components the loop visits from a position. -/
def visited (start : Bool) (p : List UInt8) : List (List UInt8) :=
  if p = [] ∧ start = false then [] else searchDirs p

/-- The first component and what follows its colon. -/
theorem split_first (p : List UInt8) :
    (∀ b ∈ p.takeWhile (· ≠ colon), b ≠ colon) ∧
      (p.dropWhile (· ≠ colon) = [] ∧ p = p.takeWhile (· ≠ colon) ∨
        p.dropWhile (· ≠ colon) ≠ [] ∧
          p = p.takeWhile (· ≠ colon) ++ colon :: (p.dropWhile (· ≠ colon)).tail) := by
  refine ⟨fun b mem => by simpa using List.mem_takeWhile_imp mem, ?_⟩
  by_cases last : p.dropWhile (· ≠ colon) = []
  · refine Or.inl ⟨last, ?_⟩
    conv_lhs => rw [← List.takeWhile_append_dropWhile (p := (· ≠ colon)) (l := p), last, List.append_nil]
  · refine Or.inr ⟨last, ?_⟩
    have first : (p.dropWhile (· ≠ colon)).head last = colon := by
      simpa using List.head_dropWhile_not (· ≠ colon) last
    conv_lhs =>
      rw [← List.takeWhile_append_dropWhile (p := (· ≠ colon)) (l := p), ← List.cons_head_tail last, first]

theorem splitOn_of_no_colon {dir : List UInt8} (plain : ∀ b ∈ dir, b ≠ colon) :
    dir.splitOn colon = [dir] :=
  List.splitOn_eq_singleton fun mem => plain colon mem rfl

theorem splitOn_append_cons {dir next : List UInt8} (plain : ∀ b ∈ dir, b ≠ colon) :
    (dir ++ colon :: next).splitOn colon = dir :: next.splitOn colon := by
  rw [List.splitOn_append_cons_self, splitOn_of_no_colon plain, List.singleton_append]

/-- The components of a string that is not empty: the last one is dropped if it is. -/
theorem visited_false {next : List UInt8} (more : next ≠ []) :
    visited false next =
      if (next.splitOn colon).getLast? = some [] then (next.splitOn colon).dropLast
      else next.splitOn colon := by
  rw [visited, if_neg (by simp [more]), searchDirs]
  obtain ⟨plain, ⟨-, whole⟩ | ⟨-, cut⟩⟩ := split_first next
  · rw [← whole] at plain
    rw [splitOn_of_no_colon plain]
    simp [more]
  · rw [cut, splitOn_append_cons plain]
    have two : 1 < (next.takeWhile (· ≠ colon) ::
        ((next.dropWhile (· ≠ colon)).tail.splitOn colon)).length := by
      have := List.length_pos_iff.2 (List.splitOn_ne_nil colon (next.dropWhile (· ≠ colon)).tail)
      rw [List.length_cons]
      omega
    simp only [two, true_and]

theorem searchDirs_append_cons {dir next : List UInt8} (plain : ∀ b ∈ dir, b ≠ colon) :
    searchDirs (dir ++ colon :: next) = dir :: visited false next := by
  unfold searchDirs
  rw [splitOn_append_cons plain]
  by_cases ends : next = []
  · subst ends
    simp [visited]
  · have more := List.splitOn_ne_nil colon next
    rw [visited_false ends]
    generalize next.splitOn colon = dirs at more
    obtain ⟨first, dirs, rfl⟩ := List.exists_cons_of_ne_nil more
    have two : 1 < dirs.length + 1 + 1 := by omega
    simp only [List.length_cons, List.getLast?_cons_cons, List.dropLast_cons_cons, two, true_and]
    split_ifs <;> rfl

theorem searchDirs_of_no_colon {dir : List UInt8} (plain : ∀ b ∈ dir, b ≠ colon) :
    searchDirs dir = [dir] := by
  unfold searchDirs
  rw [splitOn_of_no_colon plain]
  simp

/-- What the loop visits is the component at its position and what it visits from the next one. -/
theorem visited_eq {start : Bool} {p : List UInt8} (run : ¬ (p = [] ∧ start = false)) :
    visited start p = p.takeWhile (· ≠ colon) ::
      if p.dropWhile (· ≠ colon) = [] then [] else visited false (p.dropWhile (· ≠ colon)).tail := by
  rw [visited, if_neg run]
  obtain ⟨plain, ⟨last, whole⟩ | ⟨more, cut⟩⟩ := split_first p
  · rw [if_pos last, ← searchDirs_of_no_colon plain, ← whole]
  · rw [if_neg more, ← searchDirs_append_cons plain, ← cut]

theorem fits_iff {file dir : List UInt8} :
    candidateFits file dir = true ↔ dir.length + 1 + file.length + 1 ≤ 4096 := decide_eq_true_iff

theorem not_fits {file dir : List UInt8} :
    ¬ candidateFits file dir = true ↔ 4096 < dir.length + 1 + file.length + 1 := by
  rw [fits_iff, Nat.not_le]

/-- What fits is copied within the buffer. -/
theorem stores_inside {file dir : List UInt8} (fits : dir.length + 1 + file.length + 1 ≤ 4096) :
    ∀ store ∈ stores file dir, store.off + store.bytes.length ≤ 4096 := by
  unfold stores
  split_ifs <;> simp <;> omega

/-- The loop tries the candidates of the components it visits, and copies only what fits. -/
theorem loop_spec (stat : Stat) (file : List UInt8) (start : Bool) (p : List UInt8) :
    (loop stat file start p).2 =
        (((visited start p).filter (candidateFits file)).map (candidate file)).find? (accepts stat) ∧
      ∀ store ∈ (loop stat file start p).1, store.off + store.bytes.length ≤ 4096 := by
  induction start, p using loop.induct stat file with
  | case1 start p done =>
    rw [loop, if_pos done, visited, if_pos done]
    simp
  | case2 start p run dir last long ends =>
    rw [loop, if_neg run, if_pos long, if_pos ends, visited_eq run, if_pos ends,
      List.filter_cons_of_neg (not_fits.2 long)]
    simp
  | case3 start p run dir next last long more ih =>
    rw [loop, if_neg run, if_pos long, if_neg more, visited_eq run, if_neg more,
      List.filter_cons_of_neg (not_fits.2 long)]
    exact ih
  | case4 start p run dir short found =>
    rw [loop, if_neg run, if_neg short, if_pos found, visited_eq run,
      List.filter_cons_of_pos (fits_iff.2 (Nat.le_of_not_lt short)), List.map_cons,
      List.find?_cons_of_pos found]
    exact ⟨rfl, stores_inside (Nat.le_of_not_lt short)⟩
  | case5 start p run dir last short miss ends =>
    rw [loop, if_neg run, if_neg short, if_neg miss, if_pos ends, visited_eq run, if_pos ends,
      List.filter_cons_of_pos (fits_iff.2 (Nat.le_of_not_lt short)), List.map_cons,
      List.find?_cons_of_neg miss]
    exact ⟨rfl, stores_inside (Nat.le_of_not_lt short)⟩
  | case6 start p run dir next last short miss more ih =>
    rw [loop, if_neg run, if_neg short, if_neg miss, if_neg more, visited_eq run, if_neg more,
      List.filter_cons_of_pos (fits_iff.2 (Nat.le_of_not_lt short)), List.map_cons,
      List.find?_cons_of_neg miss]
    refine ⟨ih.1, fun store mem => ?_⟩
    exact (List.mem_append.1 mem).elim (stores_inside (Nat.le_of_not_lt short) store) (ih.2 store)

/-! ## The first regular file -/

section Find

variable {α : Type} {p q : α → Bool} {l : List α}

/-- A weaker test finds the same element if what it finds too early comes after a true one. -/
theorem find?_eq_find?_iff (weaker : ∀ x, q x = true → p x = true) :
    l.find? p = l.find? q ↔
      ∀ pre c post, l = pre ++ c :: post → p c = true → q c = false → ∃ r ∈ pre, q r = true := by
  constructor
  · rintro same pre c post rfl accepted wrong
    by_contra! before
    rw [List.find?_append, List.find?_cons_of_pos accepted] at same
    rcases early : pre.find? p with _ | d
    · rw [early] at same
      have right : q c = true := List.find?_some same.symm
      simp [wrong] at right
    · rw [early] at same
      have right : q d = true := List.find?_some same.symm
      exact before d (List.mem_of_find?_eq_some early) right
  · intro order
    rcases found : l.find? p with _ | c
    · symm
      exact List.find?_eq_none.2 fun x mem right =>
        List.find?_eq_none.1 found x mem (weaker x right)
    · obtain ⟨accepted, pre, post, rfl, before⟩ := List.find?_eq_some_iff_append.1 found
      have none : ∀ a ∈ pre, q a = false := fun a mem => by
        by_contra right
        have := before a mem
        simp [weaker a (by simpa using right)] at this
      have right : q c = true := by
        by_contra wrong
        obtain ⟨r, mem, right⟩ := order pre c post rfl accepted (by simpa using wrong)
        simp [none r mem] at right
      symm
      exact List.find?_eq_some_iff_append.2 ⟨right, pre, post, rfl, fun a mem => by simp [none a mem]⟩

end Find

theorem accepts_of_isReg (stat : Stat) (out : List UInt8) (reg : isReg stat out = true) :
    accepts stat out = true := by
  unfold isReg accepts at *
  rw [Option.any_eq_true] at reg ⊢
  obtain ⟨mode, found, type⟩ := reg
  refine ⟨mode, found, ?_⟩
  have bit : mode &&& sIfreg = sIfreg :=
    calc mode &&& sIfreg
      _ = mode &&& (sIfmt &&& sIfreg) := rfl
      _ = (mode &&& sIfmt) &&& sIfreg := (Nat.and_assoc _ _ _).symm
      _ = sIfreg := by rw [eq_of_beq type, Nat.and_self]
  rw [bit]
  decide

/-- The search that is meant: the first component of all whose candidate fits and is a regular file. -/
def firstRegular (stat : Stat) (path file : List UInt8) : Option (List UInt8) :=
  (((path.splitOn colon).filter (candidateFits file)).map (candidate file)).find? (isReg stat)

/-- The candidates that are tried. -/
def tried (path file : List UInt8) : List (List UInt8) :=
  ((searchDirs path).filter (candidateFits file)).map (candidate file)

/-- The string has several components, and the last one is empty. -/
def Trailing (path : List UInt8) : Prop :=
  1 < (path.splitOn colon).length ∧ (path.splitOn colon).getLast? = some []

instance (path : List UInt8) : Decidable (Trailing path) := inferInstanceAs (Decidable (_ ∧ _))

theorem firstRegular_eq (stat : Stat) (path file : List UInt8) :
    firstRegular stat path file =
      ((tried path file).find? (isReg stat)).or
        (if Trailing path ∧ candidateFits file [] = true ∧ isReg stat file = true then some file
          else none) := by
  have visits : searchDirs path = if Trailing path then (path.splitOn colon).dropLast
      else path.splitOn colon := rfl
  unfold firstRegular tried
  rw [visits]
  by_cases trailing : Trailing path
  · have dirs := List.dropLast_append_getLast? [] trailing.2
    have whole : path.splitOn colon = (path.splitOn colon).dropLast ++ [[]] := dirs.symm
    conv_lhs => rw [whole]
    rw [if_pos trailing, List.filter_append, List.map_append, List.find?_append]
    congr 1
    by_cases fits : candidateFits file [] = true
    · rw [List.filter_cons_of_pos fits]
      by_cases reg : isReg stat file = true
      · simp [candidate, trailing, fits, reg]
      · simp [candidate, reg]
    · rw [List.filter_cons_of_neg fits]
      simp [fits]
  · rw [if_neg trailing, if_neg fun all => trailing all.1, Option.or_none]

/-- The search finds the first regular file exactly when what it accepts too early comes after one,
and the component it does not try would not be needed. -/
theorem path_search_iff (stat : Stat) (envp : List (List UInt8)) (file : List UInt8) :
    ((execvpPathSearch stat envp file).2 = firstRegular stat (envPath envp) file ∧
        ∀ store ∈ (execvpPathSearch stat envp file).1, store.off + store.bytes.length ≤ 4096) ↔
      (∀ pre c post, tried (envPath envp) file = pre ++ c :: post → accepts stat c = true →
          isReg stat c = false → ∃ r ∈ pre, isReg stat r = true) ∧
        (Trailing (envPath envp) → candidateFits file [] = true → isReg stat file = true →
          ∃ r ∈ tried (envPath envp) file, isReg stat r = true) := by
  obtain ⟨found, inside⟩ := loop_spec stat file true (envPath envp)
  have visits : visited true (envPath envp) = searchDirs (envPath envp) := if_neg (by simp)
  rw [visits] at found
  change (execvpPathSearch stat envp file).2 = (tried (envPath envp) file).find? (accepts stat) at found
  change ∀ store ∈ (execvpPathSearch stat envp file).1, _ at inside
  rw [and_iff_left inside, found, firstRegular_eq,
    ← find?_eq_find?_iff fun x => accepts_of_isReg stat x]
  generalize tried (envPath envp) file = l
  rcases regular : l.find? (isReg stat) with _ | c
  · have absent := List.find?_eq_none.1 regular
    by_cases extra : Trailing (envPath envp) ∧ candidateFits file [] = true ∧ isReg stat file = true
    · rw [if_pos extra]
      constructor
      · exact fun same => absurd extra.2.2 (absent file (List.mem_of_find?_eq_some same))
      · rintro ⟨-, some⟩
        obtain ⟨r, mem, reg⟩ := some extra.1 extra.2.1 extra.2.2
        exact absurd reg (absent r mem)
    · rw [if_neg extra, Option.none_or]
      exact ⟨fun same => ⟨same, fun h₁ h₂ h₃ => absurd ⟨h₁, h₂, h₃⟩ extra⟩, fun same => same.1⟩
  · rw [Option.some_or]
    exact ⟨fun same => ⟨same, fun _ _ _ =>
      ⟨c, List.mem_of_find?_eq_some regular, List.find?_some regular⟩⟩, fun same => same.1⟩

/-- The search of the model of `yos_execve`. -/
theorem execvpPathSearch_eq {host : ExecHost} {stat : Stat}
    (same : ∀ out, host.regular out = accepts stat out) (envp : List (List UInt8))
    (file : List UInt8) :
    Yos.execvpPathSearch host envp file = (execvpPathSearch stat envp file).2 := by
  have visits : visited true (envPath envp) = searchDirs (envPath envp) := if_neg (by simp)
  rw [execvpPathSearch, (loop_spec stat file true (envPath envp)).1, visits, Yos.execvpPathSearch,
    funext same]

/-! ## Two searches -/

/-- A file system in which `a/f` is a socket, and `b/f` and `f` are regular files. -/
def someFiles : Stat := fun path =>
  if path = [97, 47, 102] then some 0o140755
  else if path = [98, 47, 102] ∨ path = [102] then some 0o100755
  else none

/-- With `PATH=a:b` the socket is found, and with `PATH=c:` nothing. -/
theorem path_search_fails :
    (execvpPathSearch someFiles [pathEq ++ [97, 58, 98]] [102]).2 = some [97, 47, 102] ∧
      firstRegular someFiles [97, 58, 98] [102] = some [98, 47, 102] ∧
      (execvpPathSearch someFiles [pathEq ++ [99, 58]] [102]).2 = none ∧
      firstRegular someFiles [99, 58] [102] = some [102] := by
  refine ⟨?_, by decide, ?_, by decide⟩
  · exact (loop_spec _ _ _ _).1.trans (by decide)
  · exact (loop_spec _ _ _ _).1.trans (by decide)

end PathSearch

end Yos
