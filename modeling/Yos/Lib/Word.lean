import Mathlib.Data.Nat.Basic
import Mathlib.Tactic.Common
import Mathlib.Tactic.NormNum

/-!
# Unsigned 32-bit arithmetic on natural numbers

A `uint32_t` is a natural number below `2 ^ 32`; an operation that may overflow goes through
`u32`.  `x & ~m` is `bclr x m`, which rounds down to a multiple of a power of two when `m` is one
less than that power.
-/

namespace Word

/-- The value stored by an assignment to an unsigned 32-bit variable. -/
def u32 (n : ℕ) : ℕ := n % 2 ^ 32

theorem u32_of_lt {n : ℕ} (h : n < 2 ^ 32) : u32 n = n := Nat.mod_eq_of_lt h

theorem u32_succ (n : ℕ) : u32 (u32 n + 1) = u32 (n + 1) := by
  unfold u32
  omega

/-- `x & ~m`. -/
def bclr (x m : ℕ) : ℕ := x - (x &&& m)

theorem bclr_le (x m : ℕ) : bclr x m ≤ x := Nat.sub_le _ _

theorem bclr_two_pow (x k : ℕ) : bclr x (2 ^ k - 1) = x / 2 ^ k * 2 ^ k := by
  rw [bclr, Nat.and_two_pow_sub_one_eq_mod]
  have h := Nat.div_add_mod x (2 ^ k)
  rw [Nat.mul_comm] at h
  omega

end Word
