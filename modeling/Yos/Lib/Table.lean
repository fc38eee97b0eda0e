import Mathlib.Algebra.BigOperators.Group.List.Basic
import Mathlib.Algebra.GroupWithZero.Nat
import Mathlib.Data.List.Basic
import Mathlib.Tactic.Common

/-!
# Tables with swap-removal

An array with a count of used entries is the list of these entries.  `swapRemove l i` is the
assignment `t[i] = t[--count]`: the last entry moves to slot `i`.  `weight w l` adds up a weight of
the entries, and says how removal and insertion change any additive measure of the table at once.
-/

namespace Table

variable {α : Type*}

/-- The sum of a weight over the entries. -/
def weight (w : α → ℕ) (l : List α) : ℕ := (l.map w).sum

@[simp] theorem weight_nil (w : α → ℕ) : weight w [] = 0 := rfl

@[simp] theorem weight_cons (w : α → ℕ) (a : α) (l : List α) :
    weight w (a :: l) = w a + weight w l := by
  simp [weight]

@[simp] theorem weight_append (w : α → ℕ) (l₁ l₂ : List α) :
    weight w (l₁ ++ l₂) = weight w l₁ + weight w l₂ := by
  simp [weight]

theorem weight_eq_zero_iff {w : α → ℕ} {l : List α} : weight w l = 0 ↔ ∀ a ∈ l, w a = 0 := by
  induction l with
  | nil => simp
  | cons a l ih => simp [ih]

theorem weight_le_length {w : α → ℕ} {l : List α} (h : ∀ a, w a ≤ 1) : weight w l ≤ l.length := by
  induction l with
  | nil => exact Nat.le_refl 0
  | cons a l ih =>
    have := h a
    rw [weight_cons, List.length_cons]
    omega

theorem weight_set {w : α → ℕ} {l : List α} {i : ℕ} {a b : α} (found : l[i]? = some a) :
    weight w (l.set i b) + w a = weight w l + w b := by
  induction l generalizing i with
  | nil => simp at found
  | cons c l ih =>
    cases i with
    | zero =>
      obtain rfl : c = a := by simpa using found
      simp only [List.set_cons_zero, weight_cons]
      omega
    | succ i =>
      have := ih (i := i) (by simpa using found)
      simp only [List.set_cons_succ, weight_cons]
      omega

theorem weight_modify {w : α → ℕ} {l : List α} {i : ℕ} {a : α} {f : α → α}
    (found : l[i]? = some a) : weight w (l.modify i f) + w a = weight w l + w (f a) := by
  have same : l.modify i f = l.set i (f a) := by
    rw [List.modify_eq_set_getElem?, found]
    rfl
  rw [same]
  exact weight_set found

/-- `t[i] = t[--count]`. -/
def swapRemove (l : List α) (i : ℕ) : List α :=
  match l.getLast? with
  | none => []
  | some z => (l.set i z).dropLast

@[simp] theorem swapRemove_nil (i : ℕ) : swapRemove ([] : List α) i = [] := rfl

theorem swapRemove_concat (l : List α) (z : α) (i : ℕ) :
    swapRemove (l ++ [z]) i = ((l ++ [z]).set i z).dropLast := by
  simp [swapRemove]

theorem length_swapRemove (l : List α) (i : ℕ) : (swapRemove l i).length = l.length - 1 := by
  rcases List.eq_nil_or_concat l with rfl | ⟨l, z, rfl⟩
  · rfl
  · rw [List.concat_eq_append, swapRemove_concat]
    simp

theorem swapRemove_lt {l : List α} {i : ℕ} {z : α} (h : i < l.length) :
    swapRemove (l ++ [z]) i = l.set i z := by
  rw [swapRemove_concat, List.set_append_left _ _ h]
  simp

theorem swapRemove_last (l : List α) (z : α) : swapRemove (l ++ [z]) l.length = l := by
  rw [swapRemove_concat, List.set_append_right _ _ (Nat.le_refl _)]
  simp

/-- Swap-removal takes the weight of the removed entry away. -/
theorem weight_swapRemove {w : α → ℕ} {l : List α} {i : ℕ} {a : α} (found : l[i]? = some a) :
    weight w (swapRemove l i) + w a = weight w l := by
  rcases List.eq_nil_or_concat l with rfl | ⟨l, z, rfl⟩
  · simp at found
  · rw [List.concat_eq_append] at *
    rcases Nat.lt_or_ge i l.length with h | h
    · rw [List.getElem?_append_left h] at found
      rw [swapRemove_lt h, weight_set found]
      simp
    · have last : i = l.length := by
        have := (List.getElem?_eq_some_iff.1 found).1
        rw [List.length_append, List.length_singleton] at this
        omega
      subst last
      rw [List.getElem?_concat_length] at found
      obtain rfl := Option.some.inj found
      rw [swapRemove_last]
      simp

theorem mem_swapRemove {l : List α} {i : ℕ} {a : α} (h : a ∈ swapRemove l i) : a ∈ l := by
  rcases List.eq_nil_or_concat l with rfl | ⟨l, z, rfl⟩
  · simp at h
  · rw [List.concat_eq_append] at *
    rw [swapRemove_concat] at h
    rcases List.mem_or_eq_of_mem_set (List.dropLast_subset _ h) with h | rfl
    · exact h
    · simp

/-- Every other entry stays. -/
theorem mem_swapRemove_of_ne [DecidableEq α] {l : List α} {i : ℕ} {a b : α} (found : l[i]? = some b)
    (mem : a ∈ l) (other : a ≠ b) : a ∈ swapRemove l i := by
  let w : α → ℕ := fun x => if x = a then 1 else 0
  by_contra absent
  have none : weight w (swapRemove l i) = 0 := by
    refine weight_eq_zero_iff.mpr fun x inside => if_neg ?_
    rintro rfl
    exact absent inside
  have total := weight_swapRemove (w := w) found
  have light : w b = 0 := if_neg other.symm
  rw [none, light] at total
  have zero := weight_eq_zero_iff.mp total.symm a mem
  simp [w] at zero

theorem map_swapRemove {β : Type*} (f : α → β) (l : List α) (i : ℕ) :
    swapRemove (l.map f) i = (swapRemove l i).map f := by
  rcases List.eq_nil_or_concat l with rfl | ⟨l, z, rfl⟩
  · rfl
  · rw [List.concat_eq_append, List.map_append, List.map_singleton, swapRemove_concat, swapRemove_concat,
      List.map_dropLast, List.map_set, List.map_append, List.map_singleton]

/-- Removal keeps the other entries, in some order. -/
theorem perm_swapRemove {l : List α} {i : ℕ} {a : α} (found : l[i]? = some a) :
    l.Perm (a :: swapRemove l i) := by
  rcases List.eq_nil_or_concat l with rfl | ⟨l, z, rfl⟩
  · simp at found
  · rw [List.concat_eq_append] at *
    rcases Nat.lt_or_ge i l.length with lt | ge
    · rw [List.getElem?_append_left lt] at found
      obtain ⟨-, rfl⟩ := List.getElem?_eq_some_iff.1 found
      rw [swapRemove_lt lt]
      refine (List.perm_append_singleton z l).trans ?_
      refine ((List.getElem_cons_eraseIdx_perm lt).symm.cons z).trans ?_
      refine (List.Perm.swap _ _ _).trans ?_
      exact (List.set_perm_cons_eraseIdx lt z).symm.cons _
    · obtain rfl : i = l.length := by
        have inside := (List.getElem?_eq_some_iff.1 found).1
        rw [List.length_append, List.length_singleton] at inside
        omega
      rw [List.getElem?_concat_length] at found
      obtain rfl := Option.some.inj found
      rw [swapRemove_last]
      exact List.perm_append_singleton z l

/-- A changed entry beside the others. -/
theorem perm_modify {l : List α} {i : ℕ} {a : α} (f : α → α) (found : l[i]? = some a) :
    (l.modify i f).Perm (f a :: swapRemove l i) := by
  obtain ⟨lt, rfl⟩ := List.getElem?_eq_some_iff.1 found
  have others := (List.getElem_cons_eraseIdx_perm lt).trans (perm_swapRemove found)
  rw [List.modify_eq_set_getElem?, found]
  exact (List.set_perm_cons_eraseIdx lt _).trans (others.cons_inv.cons _)

/-- The slots before the removed one keep their entries. -/
theorem take_swapRemove {l : List α} {i : ℕ} (hi : i < l.length) :
    (swapRemove l i).take i = l.take i := by
  rcases List.eq_nil_or_concat l with rfl | ⟨l, z, rfl⟩
  · simp at hi
  · rw [List.concat_eq_append] at *
    rw [List.length_append, List.length_singleton] at hi
    rw [List.take_append_of_le_length (by omega)]
    rcases Nat.lt_or_ge i l.length with h | h
    · rw [swapRemove_lt h, List.take_set, List.set_eq_of_length_le]
      rw [List.length_take]
      exact Nat.min_le_left _ _
    · obtain rfl : i = l.length := by omega
      rw [swapRemove_last]

/-- The first slots hold old entries of these slots or the old last entry. -/
theorem mem_take_swapRemove {l : List α} {k i : ℕ} {a : α} (h : a ∈ (swapRemove l k).take i) :
    a ∈ l.take i ∨ l.getLast? = some a := by
  rcases List.eq_nil_or_concat l with rfl | ⟨l, z, rfl⟩
  · simp at h
  · rw [List.concat_eq_append] at *
    rw [swapRemove_concat, List.dropLast_eq_take, List.take_take, List.take_set] at h
    rcases List.mem_or_eq_of_mem_set h with h | rfl
    · exact Or.inl (List.take_subset_take_left _ (Nat.min_le_left _ _) h)
    · right
      simp

end Table
