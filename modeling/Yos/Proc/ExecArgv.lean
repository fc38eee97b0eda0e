import Mathlib.Data.List.DropRight
import Mathlib.Data.List.TakeWhile
import Yos.Proc.Execve

/-!
# The argument vector of `yos_execve` (`impl/proc/proc.c`)

`parse_shebang` reads the first line of a script through a buffer of 256 bytes, and `yos_execve`
sizes `host_argv` from the number of the guest's arguments before it fills it.  `exec_argv_iff` says
when the line is read whole, and when the vector is the one that is meant and fits its allocation.

A NUL ends a line, as it does for the C string that `fgets` leaves in the buffer.
-/

namespace Yos

/-! ## The first line of a script -/

/-- The byte belongs to the first line. -/
def inLine (b : UInt8) : Bool := b != 0 && !isEol b

/-- The bytes of a file before the end of its first line. -/
def firstLine (contents : List UInt8) : List UInt8 := contents.takeWhile inLine

/-- The bytes `#!`. -/
def hashBang : List UInt8 := [35, 33]

/-- `#!interpreter [argument]`, with blanks before, between and after. -/
def Shebang (line interp arg : List UInt8) : Prop :=
  ∃ lead gap trail, line = hashBang ++ (lead ++ (interp ++ (gap ++ (arg ++ trail)))) ∧
    (∀ b ∈ lead ++ gap ++ trail, isBlank b = true) ∧
    (interp ≠ [] ∧ ∀ b ∈ interp, isBlank b = false) ∧
    ∀ some : arg ≠ [], gap ≠ [] ∧ isBlank (arg.head some) = false ∧ isBlank (arg.getLast some) = false

/-- What `parse_shebang` finds in a line that is all there. -/
def parseLine (line : List UInt8) : Option (List UInt8 × List UInt8) :=
  if line.take 2 ≠ hashBang then none
  else
    let p := (line.drop 2).dropWhile isBlank
    let interp := p.takeWhile fun b => !isBlank b
    if interp = [] then none
    else some (interp, ((p.drop interp.length).dropWhile isBlank).rdropWhile isBlank)

section Stop

variable {α : Type} {p : α → Bool} {xs ys : List α}

theorem dropWhile_append_stop (xs : List α) (stop : ys.dropWhile p = ys) :
    (xs ++ ys).dropWhile p = xs.dropWhile p ++ ys := by
  rw [List.dropWhile_append]
  split_ifs with all
  · rw [List.isEmpty_iff.1 all, stop, List.nil_append]
  · rfl

theorem takeWhile_append_stop (stop : ys.takeWhile p = []) :
    (xs ++ ys).takeWhile p = xs.takeWhile p := by
  rw [List.takeWhile_append]
  split_ifs with all
  · rw [stop, List.append_nil]
    exact ((List.takeWhile_prefix p).eq_of_length all).symm
  · rfl

theorem drop_takeWhile_length : xs.drop (xs.takeWhile p).length = xs.dropWhile p :=
  calc xs.drop (xs.takeWhile p).length
    _ = (xs.takeWhile p ++ xs.dropWhile p).drop (xs.takeWhile p).length := by
      rw [List.takeWhile_append_dropWhile]
    _ = xs.dropWhile p := List.drop_left

/-- What is dropped at the end does not hide the end of a word. -/
theorem rdropWhile_append_of_pos (tail : ∀ y ∈ ys, p y = true) :
    (xs ++ ys).rdropWhile p = xs.rdropWhile p := by
  unfold List.rdropWhile
  rw [List.reverse_append, List.dropWhile_append_of_pos fun y mem => tail y (List.mem_reverse.1 mem)]

end Stop

/-- A word stops the blanks. -/
theorem dropWhile_word {xs ys : List UInt8} (some : xs ≠ []) (first : isBlank (xs.head some) = false) :
    (xs ++ ys).dropWhile isBlank = xs ++ ys := by
  obtain ⟨b, xs, rfl⟩ := List.exists_cons_of_ne_nil some
  rw [List.cons_append, List.dropWhile_cons_of_neg (by simpa using first)]

theorem parseLine_of_shebang {line interp arg : List UInt8} (shebang : Shebang line interp arg) :
    parseLine line = some (interp, arg) := by
  obtain ⟨lead, gap, trail, rfl, blank, ⟨word, solid⟩, ends⟩ := shebang
  have inLead : ∀ b ∈ lead, isBlank b = true := fun b mem => blank b (by simp [mem])
  have inGap : ∀ b ∈ gap, isBlank b = true := fun b mem => blank b (by simp [mem])
  have inTrail : ∀ b ∈ trail, isBlank b = true := fun b mem => blank b (by simp [mem])
  have afterLead : (lead ++ (interp ++ (gap ++ (arg ++ trail)))).dropWhile isBlank =
      interp ++ (gap ++ (arg ++ trail)) := by
    rw [List.dropWhile_append_of_pos inLead]
    exact dropWhile_word word (solid _ (List.head_mem word))
  have stop : (gap ++ (arg ++ trail)).takeWhile (fun b => !isBlank b) = [] := by
    cases gap with
    | cons b gap => simp [inGap b (by simp)]
    | nil =>
      have none : arg = [] := of_not_not fun some => (ends some).1 rfl
      cases trail with
      | nil => simp [none]
      | cons b trail => simp [none, inTrail b (by simp)]
  have first : (interp ++ (gap ++ (arg ++ trail))).takeWhile (fun b => !isBlank b) = interp := by
    rw [takeWhile_append_stop stop]
    exact List.takeWhile_eq_self_iff.2 fun b mem => by simp [solid b mem]
  have afterGap : ((gap ++ (arg ++ trail)).dropWhile isBlank).rdropWhile isBlank = arg := by
    rw [List.dropWhile_append_of_pos inGap]
    by_cases some : arg = []
    · rw [some, List.nil_append, List.dropWhile_eq_nil_iff.2 inTrail, List.rdropWhile_nil]
    · rw [dropWhile_word some (ends some).2.1, rdropWhile_append_of_pos inTrail]
      exact List.rdropWhile_eq_self_iff.2 fun _ => by simp [(ends some).2.2]
  unfold parseLine
  rw [if_neg (by simp [hashBang])]
  dsimp only
  rw [show (hashBang ++ (lead ++ (interp ++ (gap ++ (arg ++ trail))))).drop 2 =
    lead ++ (interp ++ (gap ++ (arg ++ trail))) from rfl, afterLead, first, if_neg word,
    List.drop_left, afterGap]

theorem shebang_of_parseLine {line interp arg : List UInt8}
    (parsed : parseLine line = some (interp, arg)) : Shebang line interp arg := by
  unfold parseLine at parsed
  by_cases magic : line.take 2 = hashBang
  · rw [if_neg (not_not.2 magic)] at parsed
    dsimp only at parsed
    rw [drop_takeWhile_length] at parsed
    generalize hp : (line.drop 2).dropWhile isBlank = p at parsed
    split_ifs at parsed with word
    rw [Option.some.injEq, Prod.mk.injEq] at parsed
    obtain ⟨rfl, rfl⟩ := parsed
    generalize hr : (p.dropWhile fun b => !isBlank b).dropWhile isBlank = r
    refine ⟨(line.drop 2).takeWhile isBlank, (p.dropWhile fun b => !isBlank b).takeWhile isBlank,
      r.rtakeWhile isBlank, ?_, ?_, ⟨word, fun b mem => by simpa using List.mem_takeWhile_imp mem⟩, ?_⟩
    · rw [List.rdropWhile_append_rtakeWhile, ← hr, List.takeWhile_append_dropWhile,
        List.takeWhile_append_dropWhile, ← hp, List.takeWhile_append_dropWhile, ← magic,
        List.take_append_drop]
    · intro b mem
      rcases List.mem_append.1 mem with mem | mem
      · exact (List.mem_append.1 mem).elim List.mem_takeWhile_imp List.mem_takeWhile_imp
      · exact List.mem_rtakeWhile_imp mem
    · intro some
      refine ⟨?_, ?_, by simpa using List.rdropWhile_last_not isBlank r some⟩
      · intro none
        have ended : (p.dropWhile fun b => !isBlank b) = [] := of_not_not fun more => by
          have first := List.head_dropWhile_not (fun b => !isBlank b) more
          rw [← List.cons_head_tail more, List.takeWhile_cons_of_pos (by simpa using first)] at none
          exact absurd none (by simp)
        rw [ended, List.dropWhile_nil] at hr
        exact some (by rw [← hr, List.rdropWhile_nil])
      · have whole : r ≠ [] := fun none => some (by rw [none, List.rdropWhile_nil])
        rw [(List.rdropWhile_prefix isBlank r).head some]
        subst hr
        exact List.head_dropWhile_not isBlank whole
  · rw [if_pos magic] at parsed
    exact absurd parsed (by simp)

theorem parseLine_iff {line interp arg : List UInt8} :
    parseLine line = some (interp, arg) ↔ Shebang line interp arg :=
  ⟨shebang_of_parseLine, parseLine_of_shebang⟩

/-! ## The buffer -/

theorem eol_not_blank {b : UInt8} (eol : isEol b = true) : isBlank b = false := by
  unfold isEol at eol
  rw [Bool.or_eq_true, beq_iff_eq, beq_iff_eq] at eol
  rcases eol with rfl | rfl <;> rfl

section Eol

variable {d e : List UInt8}

/-- The end of the line stops every loop of `parse_shebang`. -/
theorem eol_stops (stop : ∀ b ∈ e.head?, isEol b = true) (p : UInt8 → Bool) :
    e.dropWhile isBlank = e ∧ e.takeWhile (fun b => p b && !isEol b) = [] := by
  cases e with
  | nil => exact ⟨rfl, rfl⟩
  | cons b e =>
    have eol : isEol b = true := stop b rfl
    exact ⟨List.dropWhile_cons_of_neg (by simp [eol_not_blank eol]),
      List.takeWhile_cons_of_neg (by simp [eol])⟩

/-- Before the end of the line a loop need not look for it. -/
theorem takeWhile_line (line : ∀ b ∈ d, isEol b = false) (stop : ∀ b ∈ e.head?, isEol b = true)
    (p : UInt8 → Bool) : (d ++ e).takeWhile (fun b => p b && !isEol b) = d.takeWhile p := by
  have whole : d.takeWhile (fun b => !isEol b) = d :=
    List.takeWhile_eq_self_iff.2 fun b mem => by simp [line b mem]
  calc (d ++ e).takeWhile (fun b => p b && !isEol b)
    _ = d.takeWhile (fun b => p b && !isEol b) := takeWhile_append_stop (eol_stops stop p).2
    _ = (d.takeWhile fun b => !isEol b).takeWhile p := by
      rw [List.takeWhile_takeWhile]
      exact congrArg (List.takeWhile · d) (funext fun b => by simp)
    _ = d.takeWhile p := by rw [whole]

/-- The loops of `parse_shebang` up to the end of the line. -/
theorem parse_loops (line : ∀ b ∈ d, isEol b = false) (stop : ∀ b ∈ e.head?, isEol b = true) :
    (((d ++ e).dropWhile isBlank).takeWhile fun b => !isBlank b && !isEol b) =
        (d.dropWhile isBlank).takeWhile (fun b => !isBlank b) ∧
      ∀ n ≤ (d.dropWhile isBlank).length,
        ((((d ++ e).dropWhile isBlank).drop n).dropWhile isBlank).takeWhile (fun b => !isEol b) =
          ((d.dropWhile isBlank).drop n).dropWhile isBlank := by
  have past := dropWhile_append_stop d (eol_stops stop fun _ => true).1
  have inside : ∀ b ∈ d.dropWhile isBlank, isEol b = false := fun b mem =>
    line b ((List.dropWhile_sublist _).subset mem)
  rw [past]
  refine ⟨takeWhile_line inside stop _, fun n le => ?_⟩
  have rest : ∀ b ∈ ((d.dropWhile isBlank).drop n).dropWhile isBlank, isEol b = false := fun b mem =>
    inside b (List.mem_of_mem_drop ((List.dropWhile_sublist _).subset mem))
  rw [List.drop_append_of_le_length le, dropWhile_append_stop _ (eol_stops stop fun _ => true).1]
  have taken := takeWhile_line rest stop fun _ => true
  simp only [Bool.true_and] at taken
  rw [taken]
  exact List.takeWhile_eq_self_iff.2 fun _ _ => rfl

end Eol

/-- A line and what ends it. -/
theorem split_line (c : List UInt8) : ∃ d e, c = d ++ e ∧ (∀ b ∈ d, isEol b = false) ∧
    (∀ b ∈ e.head?, isEol b = true) ∧ (c.takeWhile fun b => !isEol b) = d := by
  refine ⟨c.takeWhile fun b => !isEol b, c.dropWhile fun b => !isEol b,
    List.takeWhile_append_dropWhile.symm, fun b mem => ?_, fun b first => ?_, rfl⟩
  · simpa using List.mem_takeWhile_imp mem
  · have stopped := List.head?_dropWhile_not (fun b => !isEol b) c
    rw [Option.mem_def.1 first] at stopped
    simpa using stopped

/-- `parse_shebang` reads 255 bytes of the line. -/
theorem parseShebang_eq {host : ExecHost} {path contents : List UInt8}
    (file : host.file path = some contents) :
    parseShebang host path = parseLine ((firstLine contents).take 255) := by
  unfold parseShebang
  rw [file]
  dsimp only
  generalize hc : ((contents.take 255).takeWhile (· ≠ 10)).takeWhile (· ≠ 0) = c
  have short : c.length ≤ 255 := by
    rw [← hc]
    exact ((List.takeWhile_prefix _).length_le.trans (List.takeWhile_prefix _).length_le).trans
      (List.length_take_le 255 contents)
  have cut : (firstLine contents).take 255 = c.takeWhile fun b => !isEol b := by
    rw [firstLine, List.take_takeWhile, ← hc, List.takeWhile_takeWhile, List.takeWhile_takeWhile]
    refine congrArg (List.takeWhile · (contents.take 255)) (funext fun b => ?_)
    by_cases nl : b = 10 <;> by_cases nul : b = 0 <;> by_cases cr : b = 13 <;>
      simp [inLine, isEol, nl, nul, cr]
  by_cases magic : c.take 2 = hashBang
  · obtain ⟨rest, rfl⟩ : ∃ rest, c = hashBang ++ rest :=
      ⟨c.drop 2, by rw [← magic, List.take_append_drop]⟩
    obtain ⟨d, e, rfl, line, stop, taken⟩ := split_line rest
    have taken' : ((hashBang ++ (d ++ e)).takeWhile fun b => !isEol b) = hashBang ++ d := by
      conv_rhs => rw [← taken]
      simp [hashBang, isEol]
    obtain ⟨word, more⟩ := parse_loops line stop
    have wordLe : ((d.dropWhile isBlank).takeWhile fun b => !isBlank b).length ≤
        (d.dropWhile isBlank).length := (List.takeWhile_prefix _).length_le
    have room : ¬ pathMax ≤ ((d.dropWhile isBlank).takeWhile fun b => !isBlank b).length := by
      have := (List.dropWhile_suffix (l := d) isBlank).length_le
      simp only [List.length_append] at short
      unfold pathMax
      omega
    have magic' : ¬ (hashBang ++ (d ++ e)).take 2 ≠ [35, 33] := not_not.2 magic
    rw [cut, taken', parseLine, if_neg (not_not.2 (show (hashBang ++ d).take 2 = hashBang from rfl)),
      if_neg magic', show (hashBang ++ (d ++ e)).drop 2 = d ++ e from rfl,
      show (hashBang ++ d).drop 2 = d from rfl, word]
    dsimp only
    by_cases none : ((d.dropWhile isBlank).takeWhile fun b => !isBlank b) = []
    · rw [if_pos (Or.inl none), if_pos none]
    · rw [if_neg (not_or.2 ⟨none, room⟩), if_neg none]
      rw [more _ wordLe]
      rfl
  · have other : ((c.takeWhile fun b => !isEol b).take 2) ≠ hashBang := by
      intro same
      rw [List.take_takeWhile] at same
      have whole : (c.take 2).takeWhile (fun b => !isEol b) = c.take 2 :=
        (List.takeWhile_prefix _).eq_of_length_le (by
          rw [same]
          exact List.length_take_le 2 c)
      exact magic (whole.symm.trans same)
    rw [cut, parseLine, if_pos other]
    exact if_pos magic

/-! ## A line that is cut -/

/-- Blanks at the end do not reach into what ends with a word. -/
theorem append_of_append_blank {u v y r s : List UInt8} (some : v ≠ [])
    (last : isBlank (v.getLast some) = false) (blank : ∀ b ∈ s, isBlank b = true)
    (same : r ++ s = u ++ v ++ y) : ∃ z, r = u ++ v ++ z ∧ y = z ++ s := by
  rcases List.append_eq_append_iff.1 same with ⟨z, hx, hs⟩ | ⟨z, hr, hy⟩
  · rcases z.eq_nil_or_concat with rfl | ⟨z, b, rfl⟩
    · exact ⟨[], by simpa using hx.symm, by simpa using hs.symm⟩
    · have atEnd : v.getLast some = b :=
        calc v.getLast some
          _ = (u ++ v).getLast (List.append_ne_nil_of_right_ne_nil u some) :=
            (List.getLast_append_of_ne_nil _ some).symm
          _ = b := by simp [hx]
      have tail := blank b (by simp [hs])
      rw [atEnd, tail] at last
      exact absurd last (by decide)
  · exact ⟨z, hr, hy⟩

theorem shebang_append_blank {r s interp arg : List UInt8} (blank : ∀ b ∈ s, isBlank b = true) :
    Shebang (r ++ s) interp arg ↔ Shebang r interp arg := by
  constructor
  · rintro ⟨lead, gap, trail, line, blanks, word, ends⟩
    by_cases some : arg = []
    · subst some
      obtain ⟨z, rfl, rest⟩ := append_of_append_blank (u := hashBang ++ lead) (y := gap ++ trail)
        (r := r) word.1 (word.2 _ (List.getLast_mem word.1)) blank (by simpa using line)
      refine ⟨lead, [], z, by simp, fun b mem => ?_, word, fun more => absurd rfl more⟩
      have inGap : b ∈ z → b ∈ gap ++ trail := fun mem => by simp [rest, mem]
      rw [List.append_nil] at mem
      rw [List.append_assoc] at blanks
      exact blanks b (List.mem_append.2 ((List.mem_append.1 mem).imp_right inGap))
    · obtain ⟨z, rfl, rfl⟩ := append_of_append_blank (u := hashBang ++ lead ++ interp ++ gap)
        (y := trail) (r := r) some (ends some).2.2 blank (by simpa using line)
      refine ⟨lead, gap, z, by simp, fun b mem => blanks b ?_, word, ends⟩
      rw [← List.append_assoc]
      exact List.mem_append_left _ mem
  · rintro ⟨lead, gap, trail, rfl, blanks, word, ends⟩
    refine ⟨lead, gap, trail ++ s, by simp, fun b mem => ?_, word, ends⟩
    rw [← List.append_assoc] at mem
    exact (List.mem_append.1 mem).elim (blanks b) (blank b)

theorem parseLine_append_blank {r s : List UInt8} (blank : ∀ b ∈ s, isBlank b = true) :
    parseLine (r ++ s) = parseLine r :=
  Option.ext fun _ => parseLine_iff.trans ((shebang_append_blank blank).trans parseLine_iff.symm)

/-- A line and what is found in it have the same bytes that are not blank. -/
theorem Shebang.filter {line interp arg : List UInt8} (shebang : Shebang line interp arg) :
    line.filter (fun b => !isBlank b) = hashBang ++ interp ++ arg.filter fun b => !isBlank b := by
  obtain ⟨lead, gap, trail, rfl, blanks, word, -⟩ := shebang
  have none (l : List UInt8) (sub : ∀ b ∈ l, b ∈ lead ++ gap ++ trail) :
      l.filter (fun b => !isBlank b) = [] :=
    List.filter_eq_nil_iff.2 fun b mem => by simp [blanks b (sub b mem)]
  have solid : interp.filter (fun b => !isBlank b) = interp :=
    List.filter_eq_self.2 fun b mem => by simp [word.2 b mem]
  simp only [List.filter_append]
  rw [none lead (by simp +contextual), none gap (by simp +contextual), none trail (by simp +contextual),
    solid, show hashBang.filter (fun b => !isBlank b) = hashBang from rfl]
  simp

theorem blank_of_parseLine_none {line : List UInt8} (magic : line.take 2 = hashBang)
    (none : parseLine line = none) : ∀ b ∈ line.drop 2, isBlank b = true := by
  rw [parseLine, if_neg (not_not.2 magic)] at none
  dsimp only at none
  split_ifs at none with empty
  refine List.dropWhile_eq_nil_iff.1 (of_not_not fun more => ?_)
  have first := List.head_dropWhile_not isBlank more
  rw [← List.cons_head_tail more, List.takeWhile_cons_of_pos (by simp [first])] at empty
  exact absurd empty (by simp)

/-- A line of a script is not cut in a word. -/
def LineFits (line : List UInt8) : Prop :=
  line.take 2 = hashBang → ∀ b ∈ line.drop 255, isBlank b = true

theorem parseLine_take_iff {line : List UInt8} :
    parseLine (line.take 255) = parseLine line ↔ LineFits line := by
  constructor
  · intro same magic
    rcases found : parseLine line with _ | ⟨interp, arg⟩
    · intro b mem
      have := List.drop_subset_drop_left line (show 2 ≤ 255 by decide) mem
      exact blank_of_parseLine_none magic found b this
    · have whole := (parseLine_iff.1 found).filter
      have part := (parseLine_iff.1 (same.trans found)).filter
      rw [← part] at whole
      conv_lhs at whole => rw [← List.take_append_drop 255 line]
      rw [List.filter_append, List.append_right_eq_self, List.filter_eq_nil_iff] at whole
      exact fun b mem => by simpa using whole b mem
  · intro fits
    by_cases magic : line.take 2 = hashBang
    · conv_rhs => rw [← List.take_append_drop 255 line]
      exact (parseLine_append_blank (fits magic)).symm
    · rw [parseLine, parseLine, if_pos magic, if_pos (by rwa [List.take_take])]

/-- `parse_shebang` finds what is in the first line. -/
def ParsesShebang (host : ExecHost) (path : List UInt8) : Prop :=
  ∀ interp arg, parseShebang host path = some (interp, arg) ↔
    ∃ contents, host.file path = some contents ∧ Shebang (firstLine contents) interp arg

theorem parsesShebang_iff {host : ExecHost} {path : List UInt8} :
    ParsesShebang host path ↔
      ∀ contents, host.file path = some contents → LineFits (firstLine contents) := by
  unfold ParsesShebang
  rcases file : host.file path with _ | contents
  · have none : parseShebang host path = none := by
      unfold parseShebang
      rw [file]
    simp [none]
  · simp only [Option.some.injEq, exists_eq_left', forall_eq']
    rw [← parseLine_take_iff, parseShebang_eq file]
    constructor
    · intro parses
      refine Option.ext fun found => ?_
      exact (parses found.1 found.2).trans parseLine_iff.symm
    · intro same interp arg
      rw [same]
      exact parseLine_iff

/-! ## The vector -/

/-- The array `host_argv`: how many entries are allocated, what is stored at `0, 1, …`, and
`exec_argc`. -/
structure HostArgv where
  allocated : ℕ
  stores : List (Option (List UInt8))
  execArgc : ℕ

/-- `extra_args`. -/
def ExecImage.extraArgs (image : ExecImage) : ℕ :=
  match image.script with
  | none => 0
  | some arg => if arg = [] then 1 else 2

/-- The part of `yos_execve` that fills `host_argv`; `dup i` tells whether the `i`-th `strdup`
succeeds. -/
def hostArgv (dup : ℕ → Bool) (image : ExecImage) (fn : List UInt8) (argv : List (List UInt8)) :
    HostArgv :=
  let newArgc := image.extraArgs + argv.length
  let strings := image.argv fn argv
  ⟨newArgc + 1, (strings.zipIdx.map fun s => if dup s.2 then some s.1 else none) ++ [none],
    strings.length⟩

/-- The file name, the image and the guest's arguments of a call. -/
structure ExecCall where
  fn : List UInt8
  image : ExecImage
  argv : List (List UInt8)
deriving DecidableEq

/-- What a call of `yos_execve` that succeeds works with. -/
def execCall (host : ExecHost) (ctx : ExecCtx) (filename argvPtr envp : ℕ) : Option ExecCall :=
  match yosExecve host ctx filename argvPtr envp with
  | .pending _ _ _ =>
    (wstrCheck ctx.mem.memory ctx.mem.memorySize filename).bind fun raw =>
      (execFormat host ctx.envp (execName ctx raw)).bind fun image =>
        (readVec ctx.mem 1024 argvPtr 1026 0).toOption.map fun argv => ⟨execName ctx raw, image, argv⟩
  | _ => none

theorem hostExecveFallback_not_pending {host : ExecHost} {ctx : ExecCtx} {fn path : List UInt8}
    {argvPtr : ℕ} {v : List (List UInt8)} {env : Option (List (List UInt8))} :
    hostExecveFallback host ctx fn argvPtr ≠ .pending path v env := by
  unfold hostExecveFallback
  rcases fallbackArgv ctx.mem argvPtr with e | argv
  · dsimp only
    split_ifs <;> simp
  · dsimp only
    rcases host.execv fn argv with _ | e <;> split_ifs <;> simp

theorem execveVectors_pending {host : ExecHost} {ctx : ExecCtx} {image : ExecImage}
    {fn path : List UInt8} {argvPtr envp : ℕ} {v : List (List UInt8)}
    {env : Option (List (List UInt8))}
    (pending : execveVectors host ctx image fn argvPtr envp = .pending path v env) :
    ∃ argv, readVec ctx.mem 1024 argvPtr 1026 0 = .ok argv ∧ path = image.path ∧
      v = image.argv fn argv := by
  unfold execveVectors at pending
  generalize readVec ctx.mem 1024 argvPtr 1026 0 = args at pending ⊢
  generalize readVec ctx.mem 4096 envp 4098 0 = vars at pending
  rcases args with e | argv
  · dsimp only at pending
    split_ifs at pending
  refine ⟨argv, rfl, ?_⟩
  rcases vars with e | vars
  all_goals
    dsimp only at pending
    split_ifs at pending
    all_goals
      cases pending
      exact ⟨rfl, rfl⟩

/-- The call that succeeds stores the path and the vector of its image. -/
theorem execCall_of_pending {host : ExecHost} {ctx : ExecCtx} {filename argvPtr envp : ℕ}
    {path : List UInt8} {v : List (List UInt8)} {env : Option (List (List UInt8))}
    (pending : yosExecve host ctx filename argvPtr envp = .pending path v env) :
    ∃ call, execCall host ctx filename argvPtr envp = some call ∧ path = call.image.path ∧
      v = call.image.argv call.fn call.argv := by
  unfold execCall
  rw [pending]
  unfold yosExecve at pending
  generalize wstrCheck ctx.mem.memory ctx.mem.memorySize filename = name at pending ⊢
  rcases name with _ | raw
  · exact absurd pending (by simp)
  dsimp only at pending
  generalize host.access (execName ctx raw) = access at pending
  rcases access with _ | e
  · rcases format : execFormat host ctx.envp (execName ctx raw) with _ | image
    · rw [format] at pending
      exact absurd pending hostExecveFallback_not_pending
    · rw [format] at pending
      obtain ⟨argv, read, rfl, rfl⟩ := execveVectors_pending pending
      exact ⟨⟨execName ctx raw, image, argv⟩, by simp [format, read, Except.toOption], rfl, rfl⟩
  · exact absurd pending (by simp)

theorem execCall_format {host : ExecHost} {ctx : ExecCtx} {filename argvPtr envp : ℕ}
    {call : ExecCall} (succeeds : execCall host ctx filename argvPtr envp = some call) :
    execFormat host ctx.envp call.fn = some call.image := by
  unfold execCall at succeeds
  split at succeeds
  · obtain ⟨raw, -, found⟩ := Option.bind_eq_some_iff.1 succeeds
    obtain ⟨image, format, found⟩ := Option.bind_eq_some_iff.1 found
    obtain ⟨argv, -, rfl⟩ := Option.map_eq_some_iff.1 found
    exact format
  · exact absurd succeeds (by simp)

/-- The first line of a file that is no wasm file. -/
def IsScript (host : ExecHost) (fn interp arg : List UInt8) : Prop :=
  checkWasmMagic host fn = false ∧
    ∃ contents, host.file fn = some contents ∧ Shebang (firstLine contents) interp arg

/-- The wasm file of an interpreter. -/
def interpreterFile (host : ExecHost) (envp : List (List UInt8)) (interp : List UInt8) :
    Option (List UInt8) :=
  if checkWasmMagic host interp then some interp else searchWasm host envp (baseName interp)

/-- The vector that is meant. -/
def Meant (host : ExecHost) (envp : List (List UInt8)) (fn : List UInt8) (argv v : List (List UInt8)) :
    Prop :=
  (∃ interp arg path, IsScript host fn interp arg ∧ interpreterFile host envp interp = some path ∧
      v = path :: ((if arg = [] then [] else [arg]) ++ fn :: argv.drop 1)) ∨
    (¬ ∃ interp arg, IsScript host fn interp arg) ∧ v = argv

/-- The array holds a vector that is meant, and nothing is stored outside it. -/
structure HostArgv.Right (array : HostArgv) (host : ExecHost) (envp : List (List UInt8))
    (fn : List UInt8) (argv : List (List UInt8)) : Prop where
  bounds : ∀ i < array.stores.length, i < array.allocated
  vector : ∃ v, Meant host envp fn argv v ∧ array.stores = v.map some ++ [none] ∧
    array.execArgc = v.length

theorem isScript_unique {host : ExecHost} {fn interp arg : List UInt8}
    (script : IsScript host fn interp arg) {interp' arg' : List UInt8}
    (script' : IsScript host fn interp' arg') : interp' = interp ∧ arg' = arg := by
  obtain ⟨-, contents, file, shebang⟩ := script
  obtain ⟨-, contents', file', shebang'⟩ := script'
  rw [file, Option.some.injEq] at file'
  subst file'
  rw [← parseLine_iff] at shebang shebang'
  rw [shebang] at shebang'
  simpa [eq_comm] using shebang'

/-- When the line is read whole, the image is that of the first line. -/
theorem meant_iff {host : ExecHost} {envp : List (List UInt8)} {fn : List UInt8}
    {image : ExecImage} (parses : ParsesShebang host fn) (format : execFormat host envp fn = some image)
    (argv v : List (List UInt8)) :
    (Meant host envp fn argv v ↔ v = image.argv fn argv) ∧
      (image.script.isSome = true ↔ ∃ interp arg, IsScript host fn interp arg) := by
  unfold execFormat at format
  by_cases wasm : checkWasmMagic host fn = true
  · rw [if_pos wasm, Option.some.injEq] at format
    subst format
    have plain : ¬ ∃ interp arg, IsScript host fn interp arg := fun ⟨_, _, script⟩ => by
      simp [script.1] at wasm
    refine ⟨⟨?_, fun same => Or.inr ⟨plain, same⟩⟩, by simp [plain]⟩
    rintro (⟨interp, arg, _, script, _⟩ | ⟨-, same⟩)
    · exact absurd ⟨interp, arg, script⟩ plain
    · exact same
  · rw [if_neg wasm] at format
    rw [Bool.not_eq_true] at wasm
    rcases found : parseShebang host fn with _ | ⟨interp, arg⟩
    · have plain : ¬ ∃ interp arg, IsScript host fn interp arg := fun ⟨interp, arg, script⟩ => by
        have := (parses interp arg).2 script.2
        simp [found] at this
      rw [found] at format
      dsimp only at format
      split_ifs at format
      obtain ⟨path, -, rfl⟩ := Option.map_eq_some_iff.1 format
      refine ⟨⟨?_, fun same => Or.inr ⟨plain, same⟩⟩, by simp [plain]⟩
      rintro (⟨interp, arg, _, script, _⟩ | ⟨-, same⟩)
      · exact absurd ⟨interp, arg, script⟩ plain
      · exact same
    · have script : IsScript host fn interp arg := ⟨wasm, (parses interp arg).1 found⟩
      rw [found] at format
      have loaded : (interpreterFile host envp interp).map (⟨·, some arg⟩) = some image := by
        rw [← format, interpreterFile]
        dsimp only
        split_ifs <;> rfl
      obtain ⟨path, file, rfl⟩ := Option.map_eq_some_iff.1 loaded
      refine ⟨⟨?_, fun same => Or.inl ⟨interp, arg, path, script, file, same⟩⟩,
        iff_of_true rfl ⟨interp, arg, script⟩⟩
      rintro (⟨interp', arg', path', script', file', same⟩ | ⟨plain, -⟩)
      · obtain ⟨rfl, rfl⟩ := isScript_unique script script'
        rw [file, Option.some.injEq] at file'
        subst file'
        exact same
      · exact absurd ⟨interp, arg, script⟩ plain

theorem stores_iff {dup : ℕ → Bool} {strings : List (List UInt8)} :
    (strings.zipIdx.map fun s => if dup s.2 then some s.1 else none) = strings.map some ↔
      ∀ i < strings.length, dup i = true := by
  constructor
  · intro same i lt
    have := congrArg (·[i]?) same
    simpa [lt] using this
  · intro dups
    refine List.ext_getElem (by simp) fun i lt _ => ?_
    have := dups i (by simpa using lt)
    simp [this]

/-- The array has room for the vector unless a script is given no arguments. -/
theorem room_iff {image : ExecImage} (fn : List UInt8) {argv : List (List UInt8)} :
    (image.argv fn argv).length ≤ image.extraArgs + argv.length ↔
      (argv = [] → image.script.isSome = false) := by
  unfold ExecImage.argv ExecImage.extraArgs
  rcases image.script with _ | arg
  · simp
  · have some : argv ≠ [] ↔ 0 < argv.length := List.length_pos_iff.symm
    dsimp only
    split_ifs <;> simp [some] <;> omega

/-- The first line is found exactly when it fits the buffer, and then the vector is right exactly when
a script has an argument and every `strdup` succeeds. -/
theorem exec_argv_iff (host : ExecHost) (dup : ℕ → Bool) (ctx : ExecCtx)
    (filename argvPtr envp : ℕ) :
    (∀ path, ParsesShebang host path ↔
      ∀ contents, host.file path = some contents → LineFits (firstLine contents)) ∧
    ∀ call, execCall host ctx filename argvPtr envp = some call →
      (ParsesShebang host call.fn ∧
          (hostArgv dup call.image call.fn call.argv).Right host ctx.envp call.fn call.argv ↔
        (∀ contents, host.file call.fn = some contents → LineFits (firstLine contents)) ∧
          (call.argv = [] → ¬ ∃ interp arg, IsScript host call.fn interp arg) ∧
          ∀ i < (call.image.argv call.fn call.argv).length, dup i = true) := by
  refine ⟨fun path => parsesShebang_iff, fun call succeeds => ?_⟩
  rw [← parsesShebang_iff]
  refine and_congr_right fun parses => ?_
  have format := execCall_format succeeds
  have meant (v : List (List UInt8)) := (meant_iff parses format call.argv v).1
  have script := (meant_iff parses format call.argv []).2
  have length : (hostArgv dup call.image call.fn call.argv).stores.length =
      (call.image.argv call.fn call.argv).length + 1 := by
    simp [hostArgv]
  have room : (∀ i < (hostArgv dup call.image call.fn call.argv).stores.length,
      i < (hostArgv dup call.image call.fn call.argv).allocated) ↔
      (call.argv = [] → ¬ ∃ interp arg, IsScript host call.fn interp arg) := by
    rw [← script, Bool.not_eq_true, ← room_iff call.fn, length]
    change (∀ i < _, i < call.image.extraArgs + call.argv.length + 1) ↔ _
    exact ⟨fun inside => Nat.le_of_lt_succ (inside _ (Nat.lt_succ_self _)),
      fun le i lt => Nat.lt_of_lt_of_le lt (Nat.succ_le_succ le)⟩
  constructor
  · rintro ⟨bounds, v, wanted, stored, -⟩
    rw [meant] at wanted
    subst wanted
    exact ⟨room.1 bounds, stores_iff.1 (List.append_cancel_right stored)⟩
  · rintro ⟨some, dups⟩
    refine ⟨room.2 some, _, (meant _).2 rfl, ?_, rfl⟩
    exact congrArg (· ++ [none]) (stores_iff.2 dups)

/-! ## Two scripts -/

/-- A host with the wasm file `/w` and the file `/s`. -/
def scriptHost (contents : List UInt8) : ExecHost where
  access _ := none
  file path :=
    if path = [47, 119] then some [0x00, 0x61, 0x73, 0x6d]
    else if path = [47, 115] then some contents
    else none
  regular _ := false
  mallocArgv := true
  mallocEnvp := true
  allowHostExec := false
  execv _ _ := none

/-- A guest with `/s` at 1, the vector of `/s` at 4 and an empty vector at 8. -/
def scriptCtx : ExecCtx :=
  ⟨{ MemCtx.blank 12 12 with memory := fun x => [0, 47, 115, 0, 1].getD x 0 }, [47], []⟩

/-- `#!/w`. -/
def shortScript : List UInt8 := [35, 33, 47, 119]

/-- `#!/w` and an argument of 300 bytes. -/
def longScript : List UInt8 := shortScript ++ 32 :: List.replicate 300 97

theorem exec_argv_short :
    (hostArgv (fun _ => true) ⟨[47, 119], some []⟩ [47, 115] [[47, 115]]).Right (scriptHost shortScript)
      [] [47, 115] [[47, 115]] := by
  have succeeds : execCall (scriptHost shortScript) scriptCtx 1 4 0 =
      some ⟨[47, 115], ⟨[47, 119], some []⟩, [[47, 115]]⟩ := by decide
  have fits : ∀ contents, (scriptHost shortScript).file [47, 115] = some contents →
      LineFits (firstLine contents) := by
    intro contents file
    cases file
    intro _ b mem
    rw [show (firstLine shortScript).drop 255 = [] by decide] at mem
    exact absurd mem (by simp)
  exact (((exec_argv_iff _ (fun _ => true) _ 1 4 0).2 _ succeeds).2
    ⟨fits, fun none => absurd none (by decide), fun _ _ => rfl⟩).2

/-- The script without arguments stores three entries into two; the argument of 300 bytes loses 50. -/
theorem exec_argv_fails :
    (∃ call, execCall (scriptHost shortScript) scriptCtx 1 8 0 = some call ∧
        (hostArgv (fun _ => true) call.image call.fn call.argv).stores.length = 3 ∧
        (hostArgv (fun _ => true) call.image call.fn call.argv).allocated = 2) ∧
      parseShebang (scriptHost longScript) [47, 115] = some ([47, 119], List.replicate 250 97) ∧
      ¬ ParsesShebang (scriptHost longScript) [47, 115] := by
  refine ⟨⟨⟨[47, 115], ⟨[47, 119], some []⟩, []⟩, by decide, rfl, rfl⟩, by decide +kernel, fun parses => ?_⟩
  have fits := parsesShebang_iff.1 parses longScript rfl rfl
  exact absurd (fits 97 (by decide +kernel)) (by decide)

end Yos
