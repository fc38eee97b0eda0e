import Mathlib.Data.Nat.Notation
import Mathlib.Tactic.Common

/-!
# Maps between flag words

A table of pairs of masks maps a flag word: wherever the word meets the first mask of a pair, the
second is added to the result.  What such a map does to a word is what it does to its bits
(`OrLinear`), and so for two maps one after the other.  Two maps are equal if they agree on single
bits (`OrLinear.ext`), which is a finite check.
-/

namespace FlagMap

variable {w : ℕ}

/-- The word mapped by a table. -/
def mapFlags (table : List (BitVec w × BitVec w)) (v : BitVec w) : BitVec w :=
  table.foldl (fun r e => if v &&& e.1 ≠ 0 then r ||| e.2 else r) 0

/-- A bit of the result comes from a single bit of the word. -/
def OrLinear (f : BitVec w → BitVec w) : Prop :=
  ∀ v j, (f v).getLsbD j = true ↔
    ∃ i < w, v.getLsbD i = true ∧ (f (BitVec.twoPow w i)).getLsbD j = true

variable {f g : BitVec w → BitVec w} {v mask group : BitVec w} {table : List (BitVec w × BitVec w)}
  {i j : ℕ}

theorem getLsbD_zero_eq (j : ℕ) : (0 : BitVec w).getLsbD j = false := BitVec.getLsbD_zero

/-- Two words have a bit in common. -/
theorem and_ne_zero_iff {v m : BitVec w} :
    v &&& m ≠ 0 ↔ ∃ i < w, v.getLsbD i = true ∧ m.getLsbD i = true := by
  constructor
  · intro ne
    by_contra none
    refine ne (BitVec.eq_of_getLsbD_eq fun i lt => ?_)
    rw [BitVec.getLsbD_and, getLsbD_zero_eq, Bool.and_eq_false_iff]
    by_contra both
    rw [not_or, Bool.not_eq_false, Bool.not_eq_false] at both
    exact none ⟨i, lt, both⟩
  · rintro ⟨i, -, left, right⟩ zero
    have bit : (v &&& m).getLsbD i = false := by rw [zero, getLsbD_zero_eq]
    rw [BitVec.getLsbD_and, left, right] at bit
    nomatch bit

theorem twoPow_and_ne_zero_iff {m : BitVec w} (lt : i < w) :
    BitVec.twoPow w i &&& m ≠ 0 ↔ m.getLsbD i = true := by
  rw [and_ne_zero_iff]
  constructor
  · rintro ⟨j, -, one, bit⟩
    rw [BitVec.getLsbD_twoPow, Bool.and_eq_true, decide_eq_true_iff, decide_eq_true_iff] at one
    rwa [one.2]
  · intro bit
    refine ⟨i, lt, ?_, bit⟩
    rw [BitVec.getLsbD_twoPow, Bool.and_eq_true]
    exact ⟨decide_eq_true lt, decide_eq_true rfl⟩

theorem getLsbD_mapFlags :
    (mapFlags table v).getLsbD j = true ↔ ∃ e ∈ table, v &&& e.1 ≠ 0 ∧ e.2.getLsbD j = true := by
  have loop : ∀ (l : List (BitVec w × BitVec w)) (r : BitVec w),
      (l.foldl (fun r e => if v &&& e.1 ≠ 0 then r ||| e.2 else r) r).getLsbD j = true ↔
        r.getLsbD j = true ∨ ∃ e ∈ l, v &&& e.1 ≠ 0 ∧ e.2.getLsbD j = true := by
    intro l
    induction l with
    | nil => simp
    | cons e l ih =>
      intro r
      rw [List.foldl_cons, ih]
      simp only [List.mem_cons, exists_eq_or_imp]
      by_cases meets : v &&& e.1 ≠ 0
      · rw [if_pos meets, BitVec.getLsbD_or, Bool.or_eq_true]
        simp only [meets, true_and, or_assoc, not_false_eq_true, ne_eq]
      · rw [if_neg meets]
        simp only [meets, false_and, false_or]
  rw [mapFlags, loop, getLsbD_zero_eq]
  simp only [Bool.false_eq_true, false_or]

theorem orLinear_mapFlags (table : List (BitVec w × BitVec w)) : OrLinear (mapFlags table) := by
  intro v j
  rw [getLsbD_mapFlags]
  constructor
  · rintro ⟨e, mem, meets, bit⟩
    obtain ⟨i, lt, left, right⟩ := and_ne_zero_iff.1 meets
    exact ⟨i, lt, left, getLsbD_mapFlags.2 ⟨e, mem, (twoPow_and_ne_zero_iff lt).2 right, bit⟩⟩
  · rintro ⟨i, lt, left, image⟩
    obtain ⟨e, mem, meets, bit⟩ := getLsbD_mapFlags.1 image
    exact ⟨e, mem, and_ne_zero_iff.2 ⟨i, lt, left, (twoPow_and_ne_zero_iff lt).1 meets⟩, bit⟩

theorem OrLinear.comp (hg : OrLinear g) (hf : OrLinear f) : OrLinear fun v => g (f v) := by
  intro v j
  dsimp only
  rw [hg (f v)]
  constructor
  · rintro ⟨i, lt, bit, image⟩
    obtain ⟨k, lt', set, source⟩ := (hf v i).1 bit
    exact ⟨k, lt', set, (hg _ j).2 ⟨i, lt, source, image⟩⟩
  · rintro ⟨k, lt, set, image⟩
    obtain ⟨i, lt', source, image⟩ := (hg _ j).1 image
    exact ⟨i, lt', (hf v i).2 ⟨k, lt, set, source⟩, image⟩

theorem OrLinear.or (hf : OrLinear f) (hg : OrLinear g) : OrLinear fun v => f v ||| g v := by
  intro v j
  simp only [BitVec.getLsbD_or, Bool.or_eq_true, hf v j, hg v j]
  constructor
  · rintro (⟨i, lt, set, image⟩ | ⟨i, lt, set, image⟩)
    · exact ⟨i, lt, set, Or.inl image⟩
    · exact ⟨i, lt, set, Or.inr image⟩
  · rintro ⟨i, lt, set, image | image⟩
    · exact Or.inl ⟨i, lt, set, image⟩
    · exact Or.inr ⟨i, lt, set, image⟩

/-- To keep the bits of a mask. -/
theorem orLinear_and (mask : BitVec w) : OrLinear fun v => v &&& mask := by
  intro v j
  simp only [BitVec.getLsbD_and, Bool.and_eq_true, BitVec.getLsbD_twoPow, decide_eq_true_iff]
  constructor
  · rintro ⟨set, kept⟩
    exact ⟨j, BitVec.lt_of_getLsbD set, set, ⟨BitVec.lt_of_getLsbD set, rfl⟩, kept⟩
  · rintro ⟨i, lt, set, ⟨-, rfl⟩, kept⟩
    exact ⟨set, kept⟩

/-- Maps that agree on single bits are equal. -/
theorem OrLinear.ext (hf : OrLinear f) (hg : OrLinear g)
    (single : ∀ i < w, f (BitVec.twoPow w i) = g (BitVec.twoPow w i)) (v : BitVec w) :
    f v = g v := by
  apply BitVec.eq_of_getLsbD_eq
  intro j _
  rw [Bool.eq_iff_iff, hf v j, hg v j]
  refine exists_congr fun i => and_congr_right fun lt => ?_
  rw [single i lt]

/-- There and back through two tables: the bits of a mask are kept. -/
theorem mapFlags_mapFlags_eq_and {back : List (BitVec w × BitVec w)}
    (single : ∀ i < w, mapFlags back (mapFlags table (BitVec.twoPow w i)) =
      BitVec.twoPow w i &&& mask) (v : BitVec w) :
    mapFlags back (mapFlags table v) = v &&& mask :=
  ((orLinear_mapFlags back).comp (orLinear_mapFlags table)).ext (orLinear_and mask) single v

/-- There and back through two tables: the bits of a mask are kept, and a group is filled as soon as
one of its bits is set. -/
theorem mapFlags_mapFlags_eq_group {back : List (BitVec w × BitVec w)}
    (single : ∀ i < w, mapFlags back (mapFlags table (BitVec.twoPow w i)) =
      BitVec.twoPow w i &&& mask ||| mapFlags [(group, group)] (BitVec.twoPow w i)) (v : BitVec w) :
    mapFlags back (mapFlags table v) = v &&& mask ||| mapFlags [(group, group)] v :=
  ((orLinear_mapFlags back).comp (orLinear_mapFlags table)).ext
    ((orLinear_and mask).or (orLinear_mapFlags _)) single v

theorem mapFlags_group (group v : BitVec w) :
    mapFlags [(group, group)] v = if v &&& group ≠ 0 then group else 0 := by
  rw [mapFlags, List.foldl_cons, List.foldl_nil]
  split_ifs
  · exact BitVec.zero_or
  · rfl

theorem or_and_right_self (x g : BitVec w) : (x ||| g) &&& g = g := by
  apply BitVec.eq_of_getLsbD_eq
  intro i _
  rw [BitVec.getLsbD_and, BitVec.getLsbD_or]
  cases x.getLsbD i <;> cases g.getLsbD i <;> rfl

/-- A word is kept if it lies in the mask and the group, and fills the group or leaves it empty. -/
theorem group_eq_iff :
    v &&& mask ||| mapFlags [(group, group)] v = v ↔
      v &&& (mask ||| group) = v ∧ (v &&& group = 0 ∨ v &&& group = group) := by
  rw [mapFlags_group, BitVec.and_or_distrib_left]
  by_cases empty : v &&& group = 0
  · rw [if_neg (not_not.2 empty), empty]
    exact (and_iff_left (Or.inl rfl)).symm
  · rw [if_pos empty, or_iff_right empty]
    constructor
    · intro same
      have full : v &&& group = group := by
        rw [← same]
        exact or_and_right_self _ _
      exact ⟨by rw [full, same], full⟩
    · rintro ⟨same, full⟩
      rwa [full] at same

end FlagMap
