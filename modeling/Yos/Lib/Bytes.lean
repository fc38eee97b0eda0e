import Yos.Lib.Word

/-!
# Byte-addressed memory

A memory is a total function from addresses to bytes.  `read32` and `write32` access the four
bytes of a little-endian word; a word read depends on its four bytes only (`read32_congr`), so a
write elsewhere leaves it alone (`read32_write32_disjoint`).
-/

open Word

/-- A memory. -/
abbrev Bytes := ℕ → UInt8

namespace Bytes

/-- The little-endian word at `a`. -/
def read32 (m : Bytes) (a : ℕ) : ℕ :=
  (m a).toNat + 2 ^ 8 * (m (a + 1)).toNat + 2 ^ 16 * (m (a + 2)).toNat +
    2 ^ 24 * (m (a + 3)).toNat

/-- Store the word `v` at `a`. -/
def write32 (m : Bytes) (a v : ℕ) : Bytes := fun x =>
  if a ≤ x ∧ x < a + 4 then UInt8.ofNat (v / 256 ^ (x - a)) else m x

/-- Store the byte `v` in every address of `[a, a + n)`. -/
def fill (m : Bytes) (a n : ℕ) (v : UInt8) : Bytes := fun x =>
  if a ≤ x ∧ x < a + n then v else m x

/-- Store the bytes of `[src, src + n)` at `dst`. -/
def copy (m : Bytes) (dst src n : ℕ) : Bytes := fun x =>
  if dst ≤ x ∧ x < dst + n then m (src + (x - dst)) else m x

theorem fill_of_mem {m : Bytes} {a n x : ℕ} {v : UInt8} (h : a ≤ x ∧ x < a + n) :
    fill m a n v x = v :=
  if_pos h

theorem fill_eq_or (m : Bytes) (a n : ℕ) (v : UInt8) (x : ℕ) :
    fill m a n v x = m x ∨ fill m a n v x = v := by
  unfold fill
  split_ifs
  · exact Or.inr rfl
  · exact Or.inl rfl

theorem copy_of_lt {m : Bytes} {dst src n i : ℕ} (h : i < n) :
    copy m dst src n (dst + i) = m (src + i) := by
  unfold copy
  rw [if_pos (by omega), Nat.add_sub_cancel_left]

theorem copy_of_not_mem {m : Bytes} {dst src n x : ℕ} (h : ¬ (dst ≤ x ∧ x < dst + n)) :
    copy m dst src n x = m x :=
  if_neg h

theorem read32_lt (m : Bytes) (a : ℕ) : read32 m a < 2 ^ 32 := by
  have h0 := (m a).toNat_lt
  have h1 := (m (a + 1)).toNat_lt
  have h2 := (m (a + 2)).toNat_lt
  have h3 := (m (a + 3)).toNat_lt
  unfold read32
  omega

theorem read32_congr {m m' : Bytes} {a : ℕ} (h : ∀ x, a ≤ x → x < a + 4 → m' x = m x) :
    read32 m' a = read32 m a := by
  simp only [read32, h a (by omega) (by omega), h (a + 1) (by omega) (by omega),
    h (a + 2) (by omega) (by omega), h (a + 3) (by omega) (by omega)]

theorem write32_apply_of_disjoint {m : Bytes} {a v x : ℕ} (h : x < a ∨ a + 4 ≤ x) :
    write32 m a v x = m x := by
  unfold write32
  rw [if_neg (by omega)]

theorem read32_write32_self {m : Bytes} {a v : ℕ} (h : v < 2 ^ 32) :
    read32 (write32 m a v) a = v := by
  have byte (i : ℕ) (hi : i < 4) :
      (write32 m a v (a + i)).toNat = v / 256 ^ i % 256 := by
    unfold write32
    rw [if_pos (by omega), Nat.add_sub_cancel_left, UInt8.toNat_ofNat']
  have h0 := byte 0 (by omega)
  rw [Nat.add_zero] at h0
  rw [read32, h0, byte 1 (by omega), byte 2 (by omega), byte 3 (by omega)]
  omega

theorem read32_write32_disjoint {m : Bytes} {a b v : ℕ} (h : b + 4 ≤ a ∨ a + 4 ≤ b) :
    read32 (write32 m a v) b = read32 m b :=
  read32_congr fun _ h₁ h₂ => write32_apply_of_disjoint (by omega)

end Bytes
