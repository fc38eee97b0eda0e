import Mathlib.Data.List.Induction
import Mathlib.Data.List.Sort

/-!
# Comparators

A comparator tells by the sign of a number how two elements are ordered.  Inserting the elements of a
list one by one, each behind what is not larger, sorts it and keeps the order of equal elements
(`stableSort_sortRight`).
-/

namespace Comparator

variable {α : Type*} {c : α → α → ℤ} {x y z : α} {l : List α}

/-- The comparator is a total preorder. -/
structure IsPreorder (c : α → α → ℤ) : Prop where
  swap : ∀ x y, c x y < 0 ↔ 0 < c y x
  trans : ∀ x y z, c x y ≤ 0 → c y z ≤ 0 → c x z ≤ 0

/-- `after` is the list `before`, sorted, with equal elements in their order. -/
structure StableSort (c : α → α → ℤ) (before after : List α) : Prop where
  perm : after.Perm before
  sorted : after.Pairwise fun x y => c x y ≤ 0
  stable : ∀ x, after.filter (fun y => c x y = 0) = before.filter fun y => c x y = 0

namespace IsPreorder

variable (preorder : IsPreorder c)
include preorder

theorem nonpos_iff : c x y ≤ 0 ↔ 0 ≤ c y x := by
  have swap := preorder.swap y x
  omega

theorem total (x y : α) : c x y ≤ 0 ∨ c y x ≤ 0 := by
  have swap := preorder.swap y x
  omega

theorem lt_of_lt_of_le (lt : c x y < 0) (le : c y z ≤ 0) : c x z < 0 := by
  by_contra not
  have back : c z x ≤ 0 := preorder.nonpos_iff.2 (not_lt.1 not)
  exact absurd (preorder.trans y z x le back) (not_le.2 ((preorder.swap x y).1 lt))

theorem lt_of_le_of_lt (le : c x y ≤ 0) (lt : c y z < 0) : c x z < 0 := by
  by_contra not
  have back : c z x ≤ 0 := preorder.nonpos_iff.2 (not_lt.1 not)
  exact absurd (preorder.trans z x y back le) (not_le.2 ((preorder.swap y z).1 lt))

/-- Elements equal to one element are equal to each other. -/
theorem eq_zero_of_eq_zero (xy : c x y = 0) (xz : c x z = 0) : c y z ≤ 0 :=
  preorder.trans y x z (preorder.nonpos_iff.2 xy.ge) xz.le

end IsPreorder

theorem stableSort_refl (sorted : l.Pairwise fun x y => c x y ≤ 0) : StableSort c l l :=
  ⟨.refl l, sorted, fun _ => rfl⟩

/-! ## Insertion from the right -/

/-- The order of the reversed list. -/
abbrev Behind (c : α → α → ℤ) (x y : α) : Prop := c y x ≤ 0

/-- Put `x` behind the last element that is not larger, or in front. -/
def insertRight (c : α → α → ℤ) (l : List α) (x : α) : List α :=
  (l.reverse.orderedInsert (Behind c) x).reverse

/-- Insert the elements of a list from left to right. -/
def sortRight (c : α → α → ℤ) (l : List α) : List α := l.foldl (insertRight c) []

theorem insertRight_nil : insertRight c [] x = [x] := rfl

theorem insertRight_append_of_le (le : c y x ≤ 0) : insertRight c (l ++ [y]) x = l ++ [y] ++ [x] := by
  rw [insertRight, List.reverse_append, List.reverse_singleton, List.singleton_append,
    List.orderedInsert_cons_of_le (Behind c) _ le]
  simp

theorem insertRight_append_of_lt (lt : 0 < c y x) :
    insertRight c (l ++ [y]) x = insertRight c l x ++ [y] := by
  rw [insertRight, List.reverse_append, List.reverse_singleton, List.singleton_append,
    List.orderedInsert_of_not_le (Behind c) _ (not_le.2 lt), List.reverse_cons, insertRight]

theorem length_insertRight : (insertRight c l x).length = l.length + 1 := by
  rw [insertRight, List.length_reverse, List.orderedInsert_length, List.length_reverse]

theorem sortRight_concat (l : List α) (x : α) :
    sortRight c (l ++ [x]) = insertRight c (sortRight c l) x :=
  List.foldl_concat ..

theorem sortRight_eq (l : List α) : sortRight c l = (l.reverse.insertionSort (Behind c)).reverse := by
  induction l using List.reverseRecOn with
  | nil => rfl
  | append_singleton l x ih =>
    rw [sortRight_concat, ih, insertRight, List.reverse_reverse, List.reverse_append,
      List.reverse_singleton, List.singleton_append, List.insertionSort_cons]

theorem length_sortRight : (sortRight c l).length = l.length := by
  rw [sortRight_eq, List.length_reverse, List.length_insertionSort, List.length_reverse]

theorem stableSort_sortRight (preorder : IsPreorder c) (l : List α) :
    StableSort c l (sortRight c l) := by
  have total : Std.Total (Behind c) := ⟨fun x y => preorder.total y x⟩
  have trans : IsTrans α (Behind c) := ⟨fun x y z xy yz => preorder.trans z y x yz xy⟩
  have perm := (List.perm_insertionSort (Behind c) l.reverse).trans (List.reverse_perm l)
  rw [sortRight_eq]
  refine ⟨(List.reverse_perm _).trans perm, ?_, fun x => ?_⟩
  · exact List.pairwise_reverse.2 (List.pairwise_insertionSort (Behind c) l.reverse)
  · -- the elements equal to `x` are sorted already, so that they stay a sublist
    have equal : (l.reverse.filter fun y => c x y = 0).Pairwise (Behind c) :=
      List.pairwise_of_forall_mem_list fun y hy z hz =>
        preorder.eq_zero_of_eq_zero (of_decide_eq_true (List.mem_filter.1 hz).2)
          (of_decide_eq_true (List.mem_filter.1 hy).2)
    have sub := (List.sublist_insertionSort equal List.filter_sublist).filter fun y => c x y = 0
    rw [List.filter_filter] at sub
    simp only [Bool.and_self] at sub
    have length := ((List.perm_insertionSort (Behind c) l.reverse).filter fun y => c x y = 0).length_eq
    have same := sub.eq_of_length length.symm
    rw [List.filter_reverse, ← same, List.filter_reverse, List.reverse_reverse]

end Comparator
