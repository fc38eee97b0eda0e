import Yos.Lib.Numeral
import Yos.Libc.Env

/-!
# `strtol` and its family (`impl/libc/strto.c`)

A bridge calls the host's function of the same name with a pointer of its own for the end, stores the
end as an offset of the guest, and narrows the value to the guest's type.  For the functions whose
type has 64 bits on both sides that is C's function (`m3YosStrtoll_meets`).  `long` has 32 bits in the
guest: a value beyond them is cut off instead of being replaced by the nearest `long`
(`strtol_strtoul_meet_iff`).
-/

namespace Yos

open Numeral

/-! ## C's functions -/

/-- The number of a numeral. -/
def parsedInt (p : Parsed) : ℤ := if p.negative then -p.magnitude else p.magnitude

/-- The value of a conversion, and whether it sets `errno` to `ERANGE`. -/
structure StrtoResult where
  value : ℤ
  erange : Bool
deriving DecidableEq, Repr

/-- C's `strtol` for a `long` of `w` bits. -/
def cStrtol (w : ℕ) (p : Parsed) : StrtoResult :=
  if parsedInt p < -2 ^ (w - 1) then ⟨-2 ^ (w - 1), true⟩
  else if 2 ^ (w - 1) ≤ parsedInt p then ⟨2 ^ (w - 1) - 1, true⟩
  else ⟨parsedInt p, false⟩

/-- C's `strtoul` for an `unsigned long` of `w` bits. -/
def cStrtoul (w : ℕ) (p : Parsed) : StrtoResult :=
  if 2 ^ w ≤ p.magnitude then ⟨2 ^ w - 1, true⟩ else ⟨parsedInt p % 2 ^ w, false⟩

/-- The bases that C knows. -/
def ValidBase (base : ℤ) : Prop := base = 0 ∨ 2 ≤ base ∧ base ≤ 36

instance (base : ℤ) : Decidable (ValidBase base) := inferInstanceAs (Decidable (_ ∨ _))

/-- `ERANGE`, on both sides. -/
def eRange : ℕ := 34

/-! ## The host's functions -/

/-- What a function of the host leaves: its value, the end in the string if it stores one, and
`errno`. -/
structure HostNumber where
  value : ℤ
  endp : Option ℕ
  errno : ℕ

/-- A function of the host, on a string and a base. -/
abbrev HostStrto := List UInt8 → ℤ → HostNumber

/-- The host's function is C's. -/
def HostStrto.IsC (host : HostStrto) (c : Parsed → StrtoResult) : Prop :=
  ∀ s base, ValidBase base →
    host s base = ⟨(c (parse base.toNat s)).value, some (parse base.toNat s).length,
      if (c (parse base.toNat s)).erange then eRange else 0⟩

/-! ## The bridges -/

/-- The arguments of a bridge, with the guest's memory. -/
structure StrtoCall where
  memory : Bytes
  memSize : ℕ
  strOff : ℕ
  endpOff : ℕ
  base : ℤ

/-- What a bridge leaves: the memory, the value, and the number it stores for `errno`, if any. -/
structure StrtoRet where
  memory : Bytes
  value : ℤ
  errno : Option ℕ

/-- The string of a call. -/
def StrtoCall.text (call : StrtoCall) : List UInt8 := cString call.memory call.memSize call.strOff

/-- `host_to_wasm_off`, for a host pointer as its distance from the guest's memory. -/
def hostToWasmOff (memSize : ℕ) : Option ℕ → ℕ
  | none => 0
  | some p => if memSize ≤ p then 0 else p

/-- `write_errno`. -/
def writeErrno (remap : ℕ → ℕ) (errno : ℕ) : Option ℕ := if errno = 0 then none else some (remap errno)

/-- `DEFINE_STRTO_INT`, for a conversion to the guest's type. -/
def defineStrtoInt (hostFn : HostStrto) (retType : ℤ → ℤ) (remap : ℕ → ℕ) (call : StrtoCall) :
    StrtoRet :=
  if call.strOff = 0 ∨ call.memSize ≤ call.strOff then ⟨call.memory, 0, none⟩
  else
    let r := hostFn call.text call.base
    let memory :=
      if call.endpOff ≠ 0 ∧ (call.endpOff + 4) % 2 ^ 32 ≤ call.memSize then
        call.memory.write32 call.endpOff
          (hostToWasmOff call.memSize (r.endp.map (call.strOff + ·)))
      else call.memory
    ⟨memory, retType r.value, writeErrno remap r.errno⟩

/-- A number as an `int32_t`. -/
def toInt32 (v : ℤ) : ℤ := Int.bmod v (2 ^ 32)

/-- A number as a `uint32_t`. -/
def toUint32 (v : ℤ) : ℤ := v % 2 ^ 32

/-- A number as an `int64_t`. -/
def toInt64 (v : ℤ) : ℤ := Int.bmod v (2 ^ 64)

/-- A number as a `uint64_t`. -/
def toUint64 (v : ℤ) : ℤ := v % 2 ^ 64

/-- `m3_yos_strtol`. -/
def m3YosStrtol (strtol : HostStrto) := defineStrtoInt strtol toInt32

/-- `m3_yos_strtoul`. -/
def m3YosStrtoul (strtoul : HostStrto) := defineStrtoInt strtoul toUint32

/-- `m3_yos_strtoll`, also under the names `strtoimax` and `strtoq`. -/
def m3YosStrtoll (strtoll : HostStrto) := defineStrtoInt strtoll toInt64

/-- `m3_yos_strtoull`, also under the names `strtoumax` and `strtouq`. -/
def m3YosStrtoull (strtoull : HostStrto) := defineStrtoInt strtoull toUint64

/-! ## When a bridge is C's function -/

/-- A string in the memory, and room for the end pointer if there is one. -/
structure StrtoCall.Valid (call : StrtoCall) : Prop where
  memSize : call.memSize < 2 ^ 32
  str : call.strOff ≠ 0
  nul : ∃ i, call.strOff ≤ i ∧ i < call.memSize ∧ call.memory i = 0
  endp : call.endpOff = 0 ∨ call.endpOff + 4 ≤ call.memSize

/-- What C says of the guest's call: the value, `errno`, and the end of the longest numeral. -/
def StrtoCall.MeetsC (call : StrtoCall) (c : Parsed → StrtoResult) (r : StrtoRet) : Prop :=
  ValidBase call.base →
    let p := parse call.base.toNat call.text
    r.value = (c p).value ∧ r.errno = (if (c p).erange then some eRange else none) ∧
      r.memory = if call.endpOff = 0 then call.memory
        else call.memory.write32 call.endpOff (call.strOff + p.length)

/-- A string ends before its zero byte. -/
theorem cString_length_le {m : Bytes} {i : ℕ} (nul : m i = 0) :
    ∀ {fuel off : ℕ}, off ≤ i → off + (cString m fuel off).length ≤ i
  | 0, off, le => by rwa [cString, List.length_nil, Nat.add_zero]
  | fuel + 1, off, le => by
    rw [cString]
    split_ifs with here
    · rwa [List.length_nil, Nat.add_zero]
    · have lt : off < i := Nat.lt_of_le_of_ne le fun eq => here (eq ▸ nul)
      have rest : off + 1 + (cString m fuel (off + 1)).length ≤ i := cString_length_le nul lt
      rw [List.length_cons]
      omega

section Bridge

variable {call : StrtoCall} {host : HostStrto} {c : Parsed → StrtoResult} {remap : ℕ → ℕ}

/-- A bridge is the function `c'` on the guest's side exactly if the host's value and error agree with
it after the conversion. -/
theorem defineStrtoInt_meets_iff (valid : call.Valid) (isC : host.IsC c) (remapped : remap eRange = eRange)
    (retType : ℤ → ℤ) (c' : Parsed → StrtoResult) :
    call.MeetsC c' (defineStrtoInt host retType remap call) ↔ (ValidBase call.base →
      let p := parse call.base.toNat call.text
      retType (c p).value = (c' p).value ∧ (c p).erange = (c' p).erange) := by
  obtain ⟨i, le, lt, nul⟩ := valid.nul
  have present : ¬ (call.strOff = 0 ∨ call.memSize ≤ call.strOff) :=
    not_or.2 ⟨valid.str, not_le.2 (le.trans_lt lt)⟩
  have inside : ¬ call.memSize ≤ call.strOff + (parse call.base.toNat call.text).length := by
    have text : call.strOff + call.text.length ≤ i := cString_length_le nul le
    have prefix_le := length_parse_le call.base.toNat call.text
    omega
  rw [StrtoCall.MeetsC, defineStrtoInt, if_neg present]
  refine forall_congr' fun known => ?_
  rw [isC _ _ known]
  simp only [Option.map_some, hostToWasmOff, if_neg inside]
  have errno : writeErrno remap (if (c (parse call.base.toNat call.text)).erange then eRange else 0) =
      if (c (parse call.base.toNat call.text)).erange then some eRange else none := by
    cases (c (parse call.base.toNat call.text)).erange with
    | true => exact congrArg some remapped
    | false => rfl
  have memory : (if call.endpOff ≠ 0 ∧ (call.endpOff + 4) % 2 ^ 32 ≤ call.memSize then
        call.memory.write32 call.endpOff (call.strOff + (parse call.base.toNat call.text).length)
      else call.memory) = if call.endpOff = 0 then call.memory
        else call.memory.write32 call.endpOff
          (call.strOff + (parse call.base.toNat call.text).length) := by
    have small := valid.memSize
    rcases valid.endp with zero | room
    · rw [if_neg fun h => h.1 zero, if_pos zero]
    · by_cases zero : call.endpOff = 0
      · rw [if_neg fun h => h.1 zero, if_pos zero]
      · rw [if_neg zero, if_pos ⟨zero, by omega⟩]
  rw [errno, memory]
  refine and_congr_right fun _ => ?_
  rw [and_iff_left rfl]
  cases (c (parse call.base.toNat call.text)).erange <;>
    cases (c' (parse call.base.toNat call.text)).erange <;> simp

end Bridge

/-! ## The conversions -/

/-- The number is a `long` of 32 bits. -/
def LongFits (p : Parsed) : Prop := -2 ^ 31 ≤ parsedInt p ∧ parsedInt p < 2 ^ 31

/-- The digits are an `unsigned long` of 32 bits, or too large even for one of 64 bits. -/
def UlongFits (p : Parsed) : Prop := p.magnitude < 2 ^ 32 ∨ 2 ^ 64 ≤ p.magnitude

instance (p : Parsed) : Decidable (LongFits p) := inferInstanceAs (Decidable (_ ∧ _))

instance (p : Parsed) : Decidable (UlongFits p) := inferInstanceAs (Decidable (_ ∨ _))

/-- Cutting off a 64-bit value is clamping it to 32 bits, with the error, exactly for the values of
32 bits. -/
theorem strtol_narrow_iff (p : Parsed) :
    (toInt32 (cStrtol 64 p).value = (cStrtol 32 p).value ∧ (cStrtol 64 p).erange = (cStrtol 32 p).erange) ↔
      LongFits p := by
  simp only [LongFits, cStrtol, toInt32, Int.bmod_def]
  split_ifs <;> dsimp only at * <;> simp only [and_false, and_true, false_iff] <;> omega

theorem strtoul_narrow_iff (p : Parsed) :
    (toUint32 (cStrtoul 64 p).value = (cStrtoul 32 p).value ∧
        (cStrtoul 64 p).erange = (cStrtoul 32 p).erange) ↔
      UlongFits p := by
  have parsed : parsedInt p = p.magnitude ∨ parsedInt p = -p.magnitude := by
    unfold parsedInt
    split_ifs <;> simp
  simp only [UlongFits, cStrtoul, toUint32]
  split_ifs <;> dsimp only at * <;> simp only [and_false, and_true, false_iff] <;> omega

theorem toInt64_cStrtol (p : Parsed) : toInt64 (cStrtol 64 p).value = (cStrtol 64 p).value := by
  simp only [cStrtol, toInt64, Int.bmod_def]
  split_ifs <;> dsimp only at * <;> omega

theorem toUint64_cStrtoul (p : Parsed) : toUint64 (cStrtoul 64 p).value = (cStrtoul 64 p).value := by
  simp only [cStrtoul, toUint64]
  split_ifs <;> dsimp only at * <;> omega

/-- The functions whose type has 64 bits on both sides are C's. -/
theorem m3YosStrtoll_meets {call : StrtoCall} {strtoll strtoull : HostStrto} {remap : ℕ → ℕ}
    (valid : call.Valid) (signed : strtoll.IsC (cStrtol 64)) (unsigned : strtoull.IsC (cStrtoul 64))
    (remapped : remap eRange = eRange) :
    call.MeetsC (cStrtol 64) (m3YosStrtoll strtoll remap call) ∧
      call.MeetsC (cStrtoul 64) (m3YosStrtoull strtoull remap call) :=
  ⟨(defineStrtoInt_meets_iff valid signed remapped toInt64 (cStrtol 64)).2 fun _ =>
      ⟨toInt64_cStrtol _, rfl⟩,
    (defineStrtoInt_meets_iff valid unsigned remapped toUint64 (cStrtoul 64)).2 fun _ =>
      ⟨toUint64_cStrtoul _, rfl⟩⟩

/-- `strtol` and `strtoul` are C's functions for a `long` of 32 bits exactly on these strings. -/
theorem strtol_strtoul_meet_iff {call : StrtoCall} {strtol strtoul : HostStrto} {remap : ℕ → ℕ}
    (valid : call.Valid) (signed : strtol.IsC (cStrtol 64)) (unsigned : strtoul.IsC (cStrtoul 64))
    (remapped : remap eRange = eRange) :
    (call.MeetsC (cStrtol 32) (m3YosStrtol strtol remap call) ↔ (ValidBase call.base →
      LongFits (parse call.base.toNat call.text))) ∧
    (call.MeetsC (cStrtoul 32) (m3YosStrtoul strtoul remap call) ↔ (ValidBase call.base →
      UlongFits (parse call.base.toNat call.text))) :=
  ⟨(defineStrtoInt_meets_iff valid signed remapped toInt32 (cStrtol 32)).trans
      (forall_congr' fun _ => strtol_narrow_iff _),
    (defineStrtoInt_meets_iff valid unsigned remapped toUint32 (cStrtoul 32)).trans
      (forall_congr' fun _ => strtoul_narrow_iff _)⟩

/-- A host whose functions are C's. -/
def cHost (c : Parsed → StrtoResult) : HostStrto := fun s base =>
  ⟨(c (parse base.toNat s)).value, some (parse base.toNat s).length,
    if (c (parse base.toNat s)).erange then eRange else 0⟩

theorem cHost_isC (c : Parsed → StrtoResult) : (cHost c).IsC c := fun _ _ _ => rfl

/-- A call on a string at the address 16, with the end at the address 4. -/
def strtoAt (s : List UInt8) (base : ℤ) : StrtoCall where
  memory := writeBytes (fun _ => 0) 16 s
  memSize := 65536
  strOff := 16
  endpOff := 4
  base := base

/-- `-0x10!` -/
def minusSixteen : List UInt8 := [45, 48, 120, 49, 48, 33]

theorem minusSixteen_valid : (strtoAt minusSixteen 0).Valid where
  memSize := by decide
  str := by decide
  nul := ⟨22, by decide, by decide, by decide⟩
  endp := by decide

theorem strtol_strtoul_meet_minusSixteen :
    (strtoAt minusSixteen 0).MeetsC (cStrtol 32)
      (m3YosStrtol (cHost (cStrtol 64)) id (strtoAt minusSixteen 0)) ∧
    (strtoAt minusSixteen 0).MeetsC (cStrtoul 32)
      (m3YosStrtoul (cHost (cStrtoul 64)) id (strtoAt minusSixteen 0)) := by
  have text : (strtoAt minusSixteen 0).text = minusSixteen := by decide +kernel
  obtain ⟨signed, unsigned⟩ := strtol_strtoul_meet_iff minusSixteen_valid (cHost_isC (cStrtol 64))
    (cHost_isC (cStrtoul 64)) (show id eRange = eRange from rfl)
  rw [text] at signed unsigned
  exact ⟨signed.2 fun _ => by decide +kernel, unsigned.2 fun _ => by decide +kernel⟩

/-- `4294967296`, that is `2³²`. -/
def pastLong : List UInt8 := [52, 50, 57, 52, 57, 54, 55, 50, 57, 54]

/-- `strtol` gives 0 for `2³²`, without an error. -/
theorem strtol_wraps :
    (strtoAt pastLong 10).Valid ∧ (cHost (cStrtol 64)).IsC (cStrtol 64) ∧
    ¬ (strtoAt pastLong 10).MeetsC (cStrtol 32)
      (m3YosStrtol (cHost (cStrtol 64)) id (strtoAt pastLong 10)) ∧
    (m3YosStrtol (cHost (cStrtol 64)) id (strtoAt pastLong 10)).value = 0 := by
  have text : (strtoAt pastLong 10).text = pastLong := by decide +kernel
  refine ⟨⟨by decide, by decide, ⟨26, by decide, by decide, by decide⟩, by decide⟩, fun _ _ _ => rfl,
    fun meets => ?_, by decide +kernel⟩
  have value := (meets (by decide)).1
  revert value
  rw [text]
  decide +kernel

end Yos
