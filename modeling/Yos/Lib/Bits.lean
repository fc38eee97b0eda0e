import Yos.Lib.Bytes

/-!
# Sets of bits in memory

A set of numbers is kept in memory as bits: number `i` is bit `i % 8` of byte `i / 8`.  The bits of a
little-endian word are those of its bytes (`testBit_read32`).
-/

namespace Bytes

/-- The number is in the set at `off`. -/
def bit (m : Bytes) (off i : ℕ) : Bool := (m (off + i / 8)).toNat.testBit (i % 8)

/-- Put the number into the set at `off`. -/
def setBit (m : Bytes) (off i : ℕ) : Bytes := fun x =>
  if x = off + i / 8 then m x ||| UInt8.ofNat (2 ^ (i % 8)) else m x

theorem bit_congr {m m' : Bytes} {off i : ℕ} (same : m (off + i / 8) = m' (off + i / 8)) :
    m.bit off i = m'.bit off i := by
  rw [bit, bit, same]

theorem bit_setBit (m : Bytes) (off i j : ℕ) :
    (m.setBit off i).bit off j = (decide (i = j) || m.bit off j) := by
  unfold bit setBit
  by_cases here : j / 8 = i / 8
  · have small : 2 ^ (i % 8) < 2 ^ 8 := Nat.pow_lt_pow_right (by decide) (Nat.mod_lt _ (by decide))
    have whole : i = j ↔ i % 8 = j % 8 := by omega
    rw [if_pos (by rw [here]), UInt8.toNat_or, Nat.testBit_or, UInt8.toNat_ofNat',
      Nat.mod_eq_of_lt small, Nat.testBit_two_pow, Bool.or_comm]
    simp only [whole]
  · rw [if_neg (by omega), decide_eq_false (by omega), Bool.false_or]

/-- A loop puts the numbers that pass a test into a set. -/
theorem bit_foldl_setBit {α : Type} (m : Bytes) (off j : ℕ) (l : List α) (p : α → Prop)
    [DecidablePred p] (f : α → ℕ) :
    (l.foldl (fun m a => if p a then m.setBit off (f a) else m) m).bit off j = true ↔
      (∃ a ∈ l, p a ∧ f a = j) ∨ m.bit off j = true := by
  induction l generalizing m with
  | nil => simp
  | cons a l ih =>
    rw [List.foldl_cons, ih]
    simp only [List.mem_cons, or_and_right, exists_or, exists_eq_left]
    by_cases passes : p a
    · rw [if_pos passes, bit_setBit, Bool.or_eq_true, decide_eq_true_iff]
      simp only [passes, true_and, or_assoc]
      exact or_left_comm
    · rw [if_neg passes]
      simp only [passes, false_and, false_or]

theorem bit_fill_zero {m : Bytes} {off n i : ℕ} (inside : i < 8 * n) :
    (m.fill off n 0).bit off i = false := by
  rw [bit, fill_of_mem ⟨Nat.le_add_right _ _, by omega⟩]
  exact Nat.zero_testBit _

theorem bit_fill_of_lt {m : Bytes} {off a n i : ℕ} {v : UInt8} (before : off + i / 8 < a) :
    (m.fill a n v).bit off i = m.bit off i :=
  bit_congr (if_neg (by omega))

/-- The bits of a word. -/
theorem testBit_read32 {m : Bytes} {a i : ℕ} (lt : i < 32) : (m.read32 a).testBit i = m.bit a i := by
  have nested : m.read32 a = 2 ^ 8 * (2 ^ 8 * (2 ^ 8 * (m (a + 3)).toNat + (m (a + 2)).toNat) +
      (m (a + 1)).toNat) + (m a).toNat := by
    unfold read32
    omega
  have byte (x : ℕ) : (m x).toNat < 2 ^ 8 := (m x).toNat_lt
  rw [nested, bit, Nat.testBit_two_pow_mul_add _ (byte a), Nat.testBit_two_pow_mul_add _ (byte (a + 1)),
    Nat.testBit_two_pow_mul_add _ (byte (a + 2))]
  rcases (by omega : i / 8 = 0 ∨ i / 8 = 1 ∨ i / 8 = 2 ∨ i / 8 = 3) with h | h | h | h
  · rw [if_pos (by omega), h, show i % 8 = i by omega, Nat.add_zero]
  · rw [if_neg (by omega), if_pos (by omega), h, show i % 8 = i - 8 by omega]
  · rw [if_neg (by omega), if_neg (by omega), if_pos (by omega), h, show i % 8 = i - 8 - 8 by omega]
  · rw [if_neg (by omega), if_neg (by omega), if_neg (by omega), h,
      show i % 8 = i - 8 - 8 - 8 by omega]

theorem bit_write32 {m : Bytes} {a i : ℕ} {v : ℕ} (lt : i < 32) (word : v < 2 ^ 32) :
    (m.write32 a v).bit a i = v.testBit i := by
  rw [← testBit_read32 lt, read32_write32_self word]

end Bytes
