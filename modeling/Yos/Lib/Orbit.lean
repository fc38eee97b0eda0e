import Mathlib.Data.Finite.Defs
import Mathlib.Data.Fintype.EquivFin
import Mathlib.Data.Set.Finite.Basic
import Mathlib.Tactic.Common

/-!
# Iterating a partial function

`after f a n` is what `n` applications of `f` make of `a`, if they are all defined.  In a finite type
the iteration ends exactly when it comes to no value twice (`ends_iff`).
-/

namespace Orbit

variable {α : Type*} {f : α → Option α} {a x : α} {m n : ℕ}

/-- `n` applications of `f` to `a`. -/
def after (f : α → Option α) (a : α) : ℕ → Option α
  | 0 => some a
  | n + 1 => (after f a n).bind f

/-- Some number of applications is not defined. -/
def Ends (f : α → Option α) (a : α) : Prop := ∃ n, after f a n = none

/-- No value is reached twice. -/
def NoRepeat (f : α → Option α) (a : α) : Prop :=
  ∀ m n x, m < n → after f a m = some x → after f a n ≠ some x

theorem after_add (m n : ℕ) : after f a (m + n) = (after f a m).bind fun x => after f x n := by
  induction n with
  | zero => cases after f a m <;> rfl
  | succ n ih =>
    rw [← Nat.add_assoc, after, ih]
    cases after f a m <;> rfl

theorem after_succ (n : ℕ) : after f a (n + 1) = (f a).bind fun x => after f x n := by
  rw [Nat.add_comm, after_add]
  rfl

theorem after_none_of_le (h : after f a m = none) (le : m ≤ n) : after f a n = none := by
  obtain ⟨k, rfl⟩ := Nat.exists_eq_add_of_le le
  rw [after_add, h]
  rfl

/-- A value reached twice is reached again and again. -/
theorem after_mul_of_period {p : ℕ} (period : after f x p = some x) (k : ℕ) :
    after f x (k * p) = some x := by
  induction k with
  | zero => simp [after]
  | succ k ih =>
    rw [Nat.succ_mul, after_add, ih]
    exact period

theorem NoRepeat.of_ends (ends : Ends f a) : NoRepeat f a := by
  intro m n x lt first second
  obtain ⟨N, none⟩ := ends
  obtain ⟨p, rfl⟩ := Nat.exists_eq_add_of_lt lt
  have period : after f x (p + 1) = some x := by
    rw [Nat.add_assoc, after_add, first] at second
    exact second
  -- after enough rounds the count passes `N`, where nothing is defined any more
  have round := after_mul_of_period period N
  have late : after f a (m + N * (p + 1)) = some x := by
    rw [after_add, first]
    exact round
  rw [after_none_of_le none (Nat.le_trans (Nat.le_mul_of_pos_right N p.succ_pos)
    (Nat.le_add_left _ m))] at late
  cases late

/-- An iteration that stays in a finite set and does not repeat itself ends. -/
theorem NoRepeat.ends_of_finite {s : Set α} (finite : s.Finite) (stays : ∀ n x, after f a n = some x → x ∈ s)
    (once : NoRepeat f a) : Ends f a := by
  by_contra endless
  have defined : ∀ n, ∃ x, after f a n = some x := fun n =>
    Option.ne_none_iff_exists'.mp fun none => endless ⟨n, none⟩
  choose value reached using defined
  have := finite.to_subtype
  apply not_injective_infinite_finite fun n => (⟨value n, stays n _ (reached n)⟩ : s)
  intro m n same
  have equal : value m = value n := congrArg Subtype.val same
  rcases Nat.lt_trichotomy m n with lt | eq | gt
  · exact absurd (equal ▸ reached n) (once m n (value m) lt (reached m))
  · exact eq
  · exact absurd (equal.symm ▸ reached m) (once n m (value n) gt (reached n))

theorem NoRepeat.ends [Finite α] (once : NoRepeat f a) : Ends f a :=
  once.ends_of_finite Set.finite_univ fun _ _ _ => Set.mem_univ _

/-- In a finite type the iteration ends exactly when it does not repeat itself. -/
theorem ends_iff [Finite α] : Ends f a ↔ NoRepeat f a := ⟨.of_ends, fun once => once.ends⟩

end Orbit
