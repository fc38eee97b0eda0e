import Yos.Lib.Bytes
import Mathlib.Data.Int.ModEq
import Mathlib.Tactic.Ring

/-!
# Numbers in bytes, and sequences of writes

`readLE` and `readSigned` are the numbers in some bytes, the lowest first, and `leByte` gives the bytes
of a number in two's complement.  A sequence of writes settles a range of addresses when what they
leave there does not depend on what was there (`Settles`); writes before do not matter, nor do writes
after that avoid the range.
-/

namespace Bytes

/-! ## Numbers -/

/-- The number in `n` bytes. -/
def readLE (f : ℕ → UInt8) : ℕ → ℕ
  | 0 => 0
  | n + 1 => readLE f n + 256 ^ n * (f n).toNat

/-- The number in `n` bytes in two's complement. -/
def readSigned (f : ℕ → UInt8) (n : ℕ) : ℤ := Int.bmod (readLE f n) (256 ^ n)

/-- Byte `i` of a number in two's complement. -/
def leByte (z : ℤ) (i : ℕ) : UInt8 := UInt8.ofNat (z / 256 ^ i % 256).toNat

section Numbers

variable {f g : ℕ → UInt8} {z y : ℤ} {n i : ℕ}

theorem toNat_leByte (z : ℤ) (i : ℕ) : ((leByte z i).toNat : ℤ) = z / 256 ^ i % 256 := by
  have low := Int.emod_nonneg (z / 256 ^ i) (by decide : (256 : ℤ) ≠ 0)
  have high := Int.emod_lt_of_pos (z / 256 ^ i) (by decide : (0 : ℤ) < 256)
  rw [leByte, UInt8.toNat_ofNat']
  omega

theorem readLE_lt (f : ℕ → UInt8) (n : ℕ) : readLE f n < 256 ^ n := by
  induction n with
  | zero => exact Nat.one_pos
  | succ n ih =>
    have byte := (f n).toNat_lt
    calc readLE f n + 256 ^ n * (f n).toNat < 256 ^ n + 256 ^ n * (f n).toNat := Nat.add_lt_add_right ih _
      _ = 256 ^ n * ((f n).toNat + 1) := by ring
      _ ≤ 256 ^ n * 256 := Nat.mul_le_mul_left _ byte

theorem readLE_congr (same : ∀ i < n, f i = g i) : readLE f n = readLE g n := by
  induction n with
  | zero => rfl
  | succ n ih => rw [readLE, readLE, ih fun i lt => same i (Nat.lt_succ_of_lt lt), same n n.lt_succ_self]

theorem readSigned_congr (same : ∀ i < n, f i = g i) : readSigned f n = readSigned g n := by
  rw [readSigned, readSigned, readLE_congr same]

/-- The number in the bytes of a number. -/
theorem readLE_leByte (z : ℤ) (n : ℕ) : (readLE (leByte z) n : ℤ) = z % 256 ^ n := by
  induction n with
  | zero => simp [readLE]
  | succ n ih =>
    have sum : (readLE (leByte z) (n + 1) : ℤ) = z % 256 ^ n + 256 ^ n * (z / 256 ^ n % 256) := by
      rw [readLE, Nat.cast_add, Nat.cast_mul, toNat_leByte, ih, Nat.cast_pow]
      rfl
    have whole : z = readLE (leByte z) (n + 1) + 256 ^ (n + 1) * (z / 256 ^ n / 256) := by
      have quotient := Int.mul_ediv_add_emod z (256 ^ n)
      have digit := Int.mul_ediv_add_emod (z / 256 ^ n) 256
      calc z = 256 ^ n * (256 * (z / 256 ^ n / 256) + z / 256 ^ n % 256) + z % 256 ^ n := by
            rw [digit, quotient]
        _ = readLE (leByte z) (n + 1) + 256 ^ (n + 1) * (z / 256 ^ n / 256) := by
            rw [sum]
            ring
    have below : (readLE (leByte z) (n + 1) : ℤ) < 256 ^ (n + 1) := by exact_mod_cast readLE_lt _ _
    calc (readLE (leByte z) (n + 1) : ℤ)
        = readLE (leByte z) (n + 1) % 256 ^ (n + 1) := (Int.emod_eq_of_lt (Int.natCast_nonneg _) below).symm
      _ = (readLE (leByte z) (n + 1) + 256 ^ (n + 1) * (z / 256 ^ n / 256)) % 256 ^ (n + 1) :=
        (Int.add_mul_emod_self_left _ _ _).symm
      _ = z % 256 ^ (n + 1) := by rw [← whole]

/-- The low bytes of a number depend on it up to a power of 256. -/
theorem leByte_congr (same : z ≡ y [ZMOD 256 ^ n]) (lt : i < n) : leByte z i = leByte y i := by
  obtain ⟨q, rfl⟩ : ∃ q, y = z + 256 ^ n * q := by
    obtain ⟨q, eq⟩ := same.dvd
    exact ⟨q, by omega⟩
  obtain ⟨k, rfl⟩ := Nat.exists_eq_add_of_lt lt
  have digits : (256 : ℤ) ^ (i + k + 1) * q = 256 ^ i * (256 * (256 ^ k * q)) := by ring
  rw [leByte, leByte, digits, Int.add_mul_ediv_left _ _ (by positivity), Int.add_mul_emod_self_left]

/-- The bytes of the number in some bytes. -/
theorem leByte_readLE (f : ℕ → UInt8) (lt : i < n) : leByte (readLE f n) i = f i := by
  induction n with
  | zero => exact absurd lt (Nat.not_lt_zero i)
  | succ n ih =>
    rcases Nat.lt_succ_iff_lt_or_eq.mp lt with lower | rfl
    · rw [← ih lower]
      refine leByte_congr (Int.modEq_iff_dvd.mpr ⟨-(f n).toNat, ?_⟩) lower
      rw [readLE]
      push_cast
      ring
    · have rest : (readLE f i : ℤ) / 256 ^ i = 0 :=
        Int.ediv_eq_zero_of_lt (Int.natCast_nonneg _) (by exact_mod_cast readLE_lt f i)
      have byte := (f i).toNat_lt
      have value : ((readLE f (i + 1) : ℕ) : ℤ) / 256 ^ i % 256 = (f i).toNat := by
        rw [readLE]
        push_cast
        rw [Int.add_mul_ediv_left _ _ (by positivity), rest]
        omega
      rw [leByte, value, Int.toNat_natCast]
      exact UInt8.ofNat_toNat

theorem readSigned_modEq (f : ℕ → UInt8) (n : ℕ) : readSigned f n ≡ readLE f n [ZMOD 256 ^ n] := by
  have same : readSigned f n % ((256 ^ n : ℕ) : ℤ) = readLE f n % ((256 ^ n : ℕ) : ℤ) := Int.bmod_emod
  rw [Nat.cast_pow] at same
  exact same

/-- The range of two's complement. -/
theorem readSigned_range (f : ℕ → UInt8) (some : 0 < n) :
    -(256 ^ n / 2) ≤ readSigned f n ∧ readSigned f n < 256 ^ n / 2 := by
  have modulus : ((256 ^ n : ℕ) : ℤ) = 256 ^ n := Nat.cast_pow 256 n
  have low : -(((256 ^ n : ℕ) : ℤ) / 2) ≤ readSigned f n := Int.le_bmod (by positivity)
  have high : readSigned f n < (((256 ^ n : ℕ) : ℤ) + 1) / 2 := Int.bmod_lt (by positivity)
  rw [modulus] at low high
  obtain ⟨k, rfl⟩ := Nat.exists_eq_succ_of_ne_zero some.ne'
  rw [pow_succ] at low high ⊢
  omega

/-- A number in the range of two's complement is the one in its bytes. -/
theorem readSigned_leByte (low : -(256 ^ n / 2) ≤ z) (high : z < 256 ^ n / 2) :
    readSigned (leByte z) n = z := by
  have modulus : ((256 ^ n : ℕ) : ℤ) = 256 ^ n := Nat.cast_pow 256 n
  have bytes : Int.bmod (z % ((256 ^ n : ℕ) : ℤ)) (256 ^ n) = Int.bmod z (256 ^ n) := Int.emod_bmod _ _
  rw [modulus] at bytes
  rw [readSigned, readLE_leByte, bytes]
  apply Int.bmod_eq_of_le
  · rwa [modulus]
  · rw [modulus]
    omega

end Numbers

end Bytes

/-! ## Writes -/

/-- A write of `length` bytes. -/
structure Write where
  start : ℕ
  length : ℕ
  content : ℕ → UInt8

namespace Write

/-- The memory after a write. -/
def run (w : Write) (m : Bytes) : Bytes := fun x =>
  if w.start ≤ x ∧ x < w.start + w.length then w.content (x - w.start) else m x

/-- The memory after a sequence of writes. -/
def runAll (ws : List Write) (m : Bytes) : Bytes := ws.foldl (fun m w => w.run m) m

/-- The write is outside the range. -/
def Avoids (w : Write) (a n : ℕ) : Prop := w.start + w.length ≤ a ∨ a + n ≤ w.start

/-- The write is inside the range. -/
def Within (w : Write) (a n : ℕ) : Prop := a ≤ w.start ∧ w.start + w.length ≤ a + n

/-- After the writes the range has this content, whatever was there. -/
def Settles (ws : List Write) (a n : ℕ) (content : ℕ → UInt8) : Prop :=
  ∀ m i, i < n → runAll ws m (a + i) = content i

variable {w : Write} {ws us : List Write} {m : Bytes} {a n : ℕ} {content : ℕ → UInt8}

theorem runAll_append : runAll (ws ++ us) m = runAll us (runAll ws m) := List.foldl_append

theorem Within.avoids {b k : ℕ} (within : w.Within b k) (apart : b + k ≤ a ∨ a + n ≤ b) : w.Avoids a n := by
  obtain ⟨low, high⟩ := within
  rcases apart with below | above
  · exact .inl (by omega)
  · exact .inr (by omega)

theorem run_of_avoids {i : ℕ} (avoids : w.Avoids a n) (lt : i < n) : w.run m (a + i) = m (a + i) := by
  rw [run, if_neg]
  rintro ⟨low, high⟩
  rcases avoids with below | above <;> omega

theorem runAll_of_avoids {i : ℕ} (avoids : ∀ w ∈ ws, w.Avoids a n) (lt : i < n) :
    runAll ws m (a + i) = m (a + i) := by
  induction ws generalizing m with
  | nil => rfl
  | cons w ws ih =>
    obtain ⟨first, rest⟩ := List.forall_mem_cons.mp avoids
    exact (ih rest).trans (run_of_avoids first lt)

theorem settles_singleton (w : Write) : Settles [w] w.start w.length w.content := by
  intro m i lt
  change w.run m (w.start + i) = w.content i
  rw [run, if_pos ⟨Nat.le_add_right _ _, Nat.add_lt_add_left lt _⟩, Nat.add_sub_cancel_left]

theorem Settles.append (settles : Settles ws a n content) (avoids : ∀ w ∈ us, w.Avoids a n) :
    Settles (ws ++ us) a n content := by
  intro m i lt
  rw [runAll_append, runAll_of_avoids avoids lt]
  exact settles m i lt

theorem Settles.prepend (settles : Settles us a n content) : Settles (ws ++ us) a n content := by
  intro m i lt
  rw [runAll_append]
  exact settles _ i lt

/-- A range inside one that is settled. -/
theorem Settles.inside {b k : ℕ} (settles : Settles ws a n content) (fits : b + k ≤ n) :
    Settles ws (a + b) k fun i => content (b + i) := by
  intro m i lt
  rw [Nat.add_assoc]
  exact settles m (b + i) (by omega)

end Write
