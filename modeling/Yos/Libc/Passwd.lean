import Yos.Libc.Glob

/-!
# Users and groups (`impl/libc/pwd.c`)

A record of the host's user database is written as a `struct passwd` of the guest, with its strings in a
slab behind one another.  A string without room becomes the empty string at the start of the slab.  The
forms with a buffer of their own put the struct at that start, so that `pw_class`, which is to be empty,
points at the bytes of the first field; the `_r` forms do not report `ERANGE` when a string has no room.
`passwd_met_iff` and `group_met_iff` say which records come through.
-/

namespace Yos

open Bytes

/-! ## The code -/

/-- `struct passwd` of the host. -/
structure HostPasswd where
  name : Option HostString
  passwd : Option HostString
  uid : UInt32
  gid : UInt32
  gecos : Option HostString
  dir : Option HostString
  shell : Option HostString

/-- `struct group` of the host. -/
structure HostGroup where
  name : Option HostString
  passwd : Option HostString
  gid : UInt32
  members : Option (List HostString)

/-- The empty string. -/
def emptyString : HostString := ⟨[], List.not_mem_nil⟩

/-- The memory while a record is written, and the cursor into the slab. -/
structure PackState where
  memory : Bytes
  cursor : ℕ

/-- The slab: where it starts and how long it is. -/
structure StringSlab where
  base : ℕ
  cap : ℕ

/-- `pack_string`. -/
def packString (slab : StringSlab) (st : PackState) (s : Option HostString) : PackState × ℕ :=
  let s := s.getD emptyString
  let n := s.1.length + 1
  if slab.cap < st.cursor + n then (st, slab.base)
  else (⟨writeBytes st.memory (slab.base + st.cursor) (s.1 ++ [0]), st.cursor + n⟩, slab.base + st.cursor)

/-- A field of a struct: a pointer to a packed string, or a word. -/
inductive PackField where
  | str (s : Option HostString)
  | word (v : ℕ)

/-- Store a field at its place in the struct at `out`. -/
def packField (slab : StringSlab) (out : ℕ) (st : PackState) (f : ℕ × PackField) : PackState :=
  match f.2 with
  | .str s =>
    let (st, p) := packString slab st s
    { st with memory := st.memory.write32 (out + f.1) p }
  | .word v => { st with memory := st.memory.write32 (out + f.1) v }

/-- Store fields one after another. -/
def packFields (slab : StringSlab) (out : ℕ) (st : PackState) (fs : List (ℕ × PackField)) : PackState :=
  fs.foldl (packField slab out) st

/-- `WASM_PASSWD_SZ`, `WASM_GROUP_SZ`, `PWD_BUF_SZ` and `GRP_BUF_SZ`. -/
def wasmPasswdSz : ℕ := 44
def wasmGroupSz : ℕ := 16
def pwdBufSz : ℕ := 512
def grpBufSz : ℕ := 1024

/-- The value of `pw_fields`. -/
def pwFields : ℕ := 0x1cf

/-- The fields that `write_wasm_passwd` stores, in its order. -/
def passwdFields (slab : StringSlab) (pw : HostPasswd) : List (ℕ × PackField) :=
  [(0, .str pw.name), (4, .str pw.passwd), (8, .word pw.uid.toNat), (12, .word pw.gid.toNat),
    (20, .word slab.base), (24, .str pw.gecos), (28, .str pw.dir), (32, .str pw.shell), (40, .word pwFields)]

/-- `write_wasm_passwd`. -/
def writeWasmPasswd (slab : StringSlab) (out : ℕ) (st : PackState) (pw : HostPasswd) : PackState :=
  packFields slab out { st with memory := st.memory.fill out wasmPasswdSz 0 } (passwdFields slab pw)

/-- The first fields that `write_wasm_group` stores. -/
def groupFields (gr : HostGroup) : List (ℕ × PackField) :=
  [(0, .str gr.name), (4, .str gr.passwd), (8, .word gr.gid.toNat)]

/-- The array of members, and the 0 that ends it. -/
def memberFields (members : List HostString) : List (ℕ × PackField) :=
  (members.mapIdx fun i s => (i * 4, .str (some s))) ++ [(members.length * 4, .word 0)]

/-- The cursor, moved up to the next multiple of 4. -/
def alignCursor (cursor : ℕ) : ℕ := (cursor + 3) / 4 * 4

/-- The part of `write_wasm_group` from the array of members on. -/
def writeMembers (slab : StringSlab) (out : ℕ) (st : PackState) (members : List HostString) : PackState :=
  let cursor := alignCursor st.cursor
  let arrOff := slab.base + cursor
  if slab.cap < cursor + (members.length + 1) * 4 then { st with cursor := cursor }
  else
    let st := packFields slab arrOff { st with cursor := cursor + (members.length + 1) * 4 }
      (memberFields members)
    { st with memory := st.memory.write32 (out + 12) arrOff }

/-- `write_wasm_group`. -/
def writeWasmGroup (slab : StringSlab) (out : ℕ) (st : PackState) (gr : HostGroup) : PackState :=
  let st := packFields slab out { st with memory := st.memory.fill out wasmGroupSz 0 } (groupFields gr)
  writeMembers slab out st (gr.members.getD [])

/-- The body of the forms with a buffer of their own, which is none if there is no memory for it. -/
def ownBuffer {α : Type} (write : StringSlab → ℕ → PackState → α → PackState) (size cap : ℕ) (m : Bytes)
    (buf : ℕ) (record : Option α) : Bytes × ℕ :=
  match record with
  | none => (m, 0)
  | some r =>
    if buf = 0 then (m, 0)
    else ((write ⟨buf, cap⟩ buf ⟨m.fill buf 1 0, size⟩ r).memory, buf)

/-- `yos_getpwuid`, `yos_getpwnam` and `yos_getpwent`, once the host has answered, with what
`ensure_buf` gives. -/
def yosGetpw := ownBuffer writeWasmPasswd wasmPasswdSz pwdBufSz

/-- `yos_getgrgid`, `yos_getgrnam` and `yos_getgrent`, once the host has answered, with what
`ensure_buf` gives. -/
def yosGetgr := ownBuffer writeWasmGroup wasmGroupSz grpBufSz

/-- `EFAULT` and `ERANGE`. -/
def eFault : ℤ := 14
def eRangeRc : ℤ := 34

/-- The body of the `_r` forms behind the test of the pointers. -/
def callerBuffer {α : Type} (write : StringSlab → ℕ → PackState → α → PackState) (least : ℕ) (m : Bytes)
    (out buf buflen result : ℕ) (record : Option α) : Bytes × ℤ :=
  let m := m.write32 result 0
  match record with
  | none => (m, 0)
  | some r =>
    if buflen < least ∨ buf = 0 then (m, eRangeRc)
    else (((write ⟨buf, buflen⟩ out ⟨m.fill buf 1 0, 1⟩ r).memory).write32 result out, 0)

/-- `yos_getpwuid_r`. -/
def yosGetpwuidR (memSize : ℕ) (m : Bytes) (out buf buflen result : ℕ) (record : Option HostPasswd) :
    Bytes × ℤ :=
  if out = 0 ∨ result = 0 ∨ memSize ≤ out ∨ memSize ≤ result then (m, eFault)
  else callerBuffer writeWasmPasswd 16 m out buf buflen result record

/-- `yos_getpwnam_r`. -/
def yosGetpwnamR (name : ℕ) (m : Bytes) (out buf buflen result : ℕ) (record : Option HostPasswd) :
    Bytes × ℤ :=
  if name = 0 ∨ out = 0 ∨ result = 0 then (m, eFault)
  else callerBuffer writeWasmPasswd 16 m out buf buflen result record

/-- `yos_getgrgid_r`. -/
def yosGetgrgidR (m : Bytes) (out buf buflen result : ℕ) (record : Option HostGroup) : Bytes × ℤ :=
  if out = 0 ∨ result = 0 then (m, eFault)
  else callerBuffer writeWasmGroup 32 m out buf buflen result record

/-- `yos_getgrnam_r`. -/
def yosGetgrnamR (name : ℕ) (m : Bytes) (out buf buflen result : ℕ) (record : Option HostGroup) :
    Bytes × ℤ :=
  if name = 0 ∨ out = 0 ∨ result = 0 then (m, eFault)
  else callerBuffer writeWasmGroup 32 m out buf buflen result record

/-! ## What the guest is to see -/

/-- A pointer of the struct at `out` to a string: the string stands there, apart from the struct. -/
def StringField (m : Bytes) (out size p : ℕ) (s : HostString) : Prop :=
  StringAt m p s ∧ (p < out ∨ out + size ≤ p)

/-- The struct shows the user. -/
structure PasswdAt (m : Bytes) (out : ℕ) (pw : HostPasswd) : Prop where
  name : StringField m out wasmPasswdSz (m.read32 out) (pw.name.getD emptyString)
  passwd : StringField m out wasmPasswdSz (m.read32 (out + 4)) (pw.passwd.getD emptyString)
  uid : m.read32 (out + 8) = pw.uid.toNat
  gid : m.read32 (out + 12) = pw.gid.toNat
  class_ : StringField m out wasmPasswdSz (m.read32 (out + 20)) emptyString
  gecos : StringField m out wasmPasswdSz (m.read32 (out + 24)) (pw.gecos.getD emptyString)
  dir : StringField m out wasmPasswdSz (m.read32 (out + 28)) (pw.dir.getD emptyString)
  shell : StringField m out wasmPasswdSz (m.read32 (out + 32)) (pw.shell.getD emptyString)

/-- The array of members, with the pointer to it. -/
structure MembersAt (m : Bytes) (out : ℕ) (members : List HostString) : Prop where
  array : m.read32 (out + 12) ≠ 0
  names : ∀ i (lt : i < members.length),
    StringField m out wasmGroupSz (m.read32 (m.read32 (out + 12) + i * 4)) members[i]
  end_ : m.read32 (m.read32 (out + 12) + members.length * 4) = 0

/-- The struct shows the group, with all its members. -/
structure GroupAt (m : Bytes) (out : ℕ) (gr : HostGroup) : Prop where
  name : StringField m out wasmGroupSz (m.read32 out) (gr.name.getD emptyString)
  passwd : StringField m out wasmGroupSz (m.read32 (out + 4)) (gr.passwd.getD emptyString)
  gid : m.read32 (out + 8) = gr.gid.toNat
  members : MembersAt m out (gr.members.getD [])

/-! ## Packed fields -/

/-- A field is what it should be, where `Ok` says which pointers are right for a string. -/
def FieldShown (m : Bytes) (out : ℕ) (Ok : ℕ → HostString → Prop) (f : ℕ × PackField) : Prop :=
  match f.2 with
  | .str s => Ok (m.read32 (out + f.1)) (s.getD emptyString)
  | .word v => m.read32 (out + f.1) = v

/-- The cursor behind a field. -/
def cursorAfter (cap cursor : ℕ) (f : ℕ × PackField) : ℕ :=
  match f.2 with
  | .str s =>
    if cap < cursor + ((s.getD emptyString).1.length + 1) then cursor
    else cursor + ((s.getD emptyString).1.length + 1)
  | .word _ => cursor

/-- Each string has room behind those before it, or is empty, if the start of the slab will do for it. -/
def Packs (cap : ℕ) (okEmpty : Prop) : ℕ → List (ℕ × PackField) → Prop
  | _, [] => True
  | cursor, f :: fs =>
    (match f.2 with
      | .str s => cursor + ((s.getD emptyString).1.length + 1) ≤ cap ∨ s.getD emptyString = emptyString ∧ okEmpty
      | .word _ => True) ∧ Packs cap okEmpty (cursorAfter cap cursor f) fs

section Fields

variable {slab : StringSlab} {out size lo x : ℕ} {st : PackState} {f : ℕ × PackField}
  {fs : List (ℕ × PackField)} {m' : Bytes}

theorem le_cursorAfter (cap cursor : ℕ) (f : ℕ × PackField) : cursor ≤ cursorAfter cap cursor f := by
  unfold cursorAfter
  split
  · split_ifs <;> omega
  · exact le_rfl

theorem cursorAfter_le (cap cursor : ℕ) (f : ℕ × PackField) :
    cursorAfter cap cursor f ≤ max cursor cap := by
  unfold cursorAfter
  split
  · split_ifs <;> omega
  · exact Nat.le_max_left _ _

@[simp] theorem packField_cursor : (packField slab out st f).cursor = cursorAfter slab.cap st.cursor f := by
  unfold packField cursorAfter packString
  cases f.2 with
  | str s => simp only; split_ifs <;> rfl
  | word v => rfl

theorem packField_frame (slot : x < out + f.1 ∨ out + f.1 + 4 ≤ x)
    (text : x < slab.base + st.cursor ∨ slab.base + cursorAfter slab.cap st.cursor f ≤ x) :
    (packField slab out st f).memory x = st.memory x := by
  unfold packField
  unfold cursorAfter at text
  cases value : f.2 with
  | word v => exact write32_apply_of_disjoint slot
  | str s =>
    simp only [value] at text ⊢
    rw [write32_apply_of_disjoint slot, packString]
    split_ifs at text ⊢ with full
    · rfl
    · refine writeBytes_of_not_mem fun inside => ?_
      rw [List.length_append, List.length_singleton] at inside
      omega

theorem packFields_cons : packFields slab out st (f :: fs) = packFields slab out (packField slab out st f) fs :=
  rfl

theorem le_packFields_cursor (slab : StringSlab) (out : ℕ) (st : PackState) (fs : List (ℕ × PackField)) :
    st.cursor ≤ (packFields slab out st fs).cursor := by
  induction fs generalizing st with
  | nil => exact le_rfl
  | cons f fs ih =>
    rw [packFields_cons]
    refine le_trans ?_ (ih _)
    rw [packField_cursor]
    exact le_cursorAfter ..

theorem packFields_cursor_le (slab : StringSlab) (out : ℕ) (st : PackState) (fs : List (ℕ × PackField)) :
    (packFields slab out st fs).cursor ≤ max st.cursor slab.cap := by
  induction fs generalizing st with
  | nil => exact Nat.le_max_left _ _
  | cons f fs ih =>
    rw [packFields_cons]
    refine (ih _).trans ?_
    rw [packField_cursor]
    have le := cursorAfter_le slab.cap st.cursor f
    omega

/-- Storing fields writes their places and the slab from the cursor on. -/
theorem packFields_frame (st : PackState) (slots : ∀ f ∈ fs, x < out + f.1 ∨ out + f.1 + 4 ≤ x)
    (text : x < slab.base + st.cursor ∨ slab.base + (packFields slab out st fs).cursor ≤ x) :
    (packFields slab out st fs).memory x = st.memory x := by
  induction fs generalizing st with
  | nil => rfl
  | cons f fs ih =>
    rw [packFields_cons] at text ⊢
    have grows := le_packFields_cursor slab out (packField slab out st f) fs
    have from_st := le_cursorAfter slab.cap st.cursor f
    rw [packField_cursor] at grows
    rw [ih _ (fun g mem => slots g (List.mem_cons_of_mem f mem)) (by rw [packField_cursor]; omega),
      packField_frame (slots f List.mem_cons_self) (by omega)]

/-- Where the fields go: apart from each other, in a struct apart from what is left of the slab. -/
structure FieldPlaces (slab : StringSlab) (out size cursor : ℕ) (fs : List (ℕ × PackField)) : Prop where
  slots : ∀ f ∈ fs, f.1 + 4 ≤ size
  ordered : fs.Pairwise fun f g => f.1 + 4 ≤ g.1
  words : ∀ f ∈ fs, ∀ v, f.2 = .word v → v < 2 ^ 32
  clear : out + size ≤ slab.base + cursor ∨ slab.base + slab.cap ≤ out
  small : slab.base + slab.cap < 2 ^ 32

theorem FieldPlaces.tail {cursor cursor' : ℕ} (places : FieldPlaces slab out size cursor (f :: fs))
    (le : cursor ≤ cursor') : FieldPlaces slab out size cursor' fs where
  slots g mem := places.slots g (List.mem_cons_of_mem f mem)
  ordered := (List.pairwise_cons.1 places.ordered).2
  words g mem := places.words g (List.mem_cons_of_mem f mem)
  clear := places.clear.imp_left fun h => by omega
  small := places.small

/-- The first field is still there when the others have been stored. -/
theorem FieldPlaces.read_head (places : FieldPlaces slab out size st.cursor (f :: fs))
    (fields : ∀ x, out ≤ x → x < out + size → m' x = (packFields slab out st (f :: fs)).memory x) :
    m'.read32 (out + f.1) = (packField slab out st f).memory.read32 (out + f.1) := by
  have slot := places.slots f List.mem_cons_self
  have grows := cursorAfter_le slab.cap st.cursor f
  have from_st := le_cursorAfter slab.cap st.cursor f
  have final := packFields_cursor_le slab out (packField slab out st f) fs
  rw [packField_cursor] at final
  refine read32_congr fun x le lt => ?_
  rw [fields x (by omega) (by omega), packFields_cons]
  refine packFields_frame _ (fun g mem => Or.inl ?_) ?_
  · have apart := (List.pairwise_cons.1 places.ordered).1 g mem
    omega
  · rw [packField_cursor]
    rcases places.clear with before | behind <;> omega

/-- The fields are as they should be exactly if the strings pack. -/
theorem packFields_shown_iff (st : PackState) {Ok : ℕ → HostString → Prop} {okEmpty : Prop}
    (sentinel : ∀ s, Ok slab.base s ↔ s = emptyString ∧ okEmpty)
    (sound : ∀ p s, slab.base + lo ≤ p → p < slab.base + slab.cap → StringAt m' p s → Ok p s)
    (from_lo : lo ≤ st.cursor) (places : FieldPlaces slab out size st.cursor fs)
    (fields : ∀ x, out ≤ x → x < out + size → m' x = (packFields slab out st fs).memory x)
    (texts : ∀ x, slab.base + st.cursor ≤ x → x < slab.base + (packFields slab out st fs).cursor →
      m' x = (packFields slab out st fs).memory x) :
    (∀ f ∈ fs, FieldShown m' out Ok f) ↔ Packs slab.cap okEmpty st.cursor fs := by
  induction fs generalizing st with
  | nil => simp [Packs]
  | cons f fs ih =>
    have from_st := le_cursorAfter slab.cap st.cursor f
    have grows := le_packFields_cursor slab out (packField slab out st f) fs
    rw [packField_cursor] at grows
    have rest := ih (packField slab out st f) (by rw [packField_cursor]; omega)
      (places.tail (by rw [packField_cursor]; exact from_st)) fields
      (fun x le lt => texts x (by rw [packField_cursor] at le; omega) lt)
    rw [packField_cursor] at rest
    rw [List.forall_mem_cons, Packs, rest]
    refine and_congr_left fun _ => ?_
    have slot := places.slots f List.mem_cons_self
    have head := places.read_head fields
    unfold FieldShown
    cases value : f.2 with
    | word v =>
      simp only [iff_true]
      rw [head, packField, value]
      exact read32_write32_self (places.words f List.mem_cons_self v value)
    | str s =>
      simp only
      rw [head]
      by_cases room : st.cursor + ((s.getD emptyString).1.length + 1) ≤ slab.cap
      · -- the string has its place, and what follows is behind it
        have small := places.small
        have after : cursorAfter slab.cap st.cursor f = st.cursor + ((s.getD emptyString).1.length + 1) := by
          rw [cursorAfter, value]
          exact if_neg (not_lt.2 room)
        have stored : (packField slab out st f).memory =
            (writeBytes st.memory (slab.base + st.cursor) ((s.getD emptyString).1 ++ [0])).write32
              (out + f.1) (slab.base + st.cursor) := by
          rw [packField, value]
          simp only [packString, if_neg (not_lt.2 room)]
        rw [after] at grows
        refine iff_of_true ?_ (Or.inl room)
        rw [stored, read32_write32_self (by omega)]
        refine sound _ _ (by omega) (by omega) ((stringAt_writeBytes (m := st.memory)).congr fun i lt => ?_)
        rw [texts _ (by omega) (by rw [packFields_cons]; omega), packFields_cons]
        have apart : ∀ g ∈ f :: fs, slab.base + st.cursor + i < out + g.1 ∨
            out + g.1 + 4 ≤ slab.base + st.cursor + i := fun g mem => by
          have inside := places.slots g mem
          rcases places.clear with before | behind <;> omega
        rw [packFields_frame _ (fun g mem => apart g (List.mem_cons_of_mem f mem))
          (by rw [packField_cursor, after]; omega), stored,
          write32_apply_of_disjoint (apart f List.mem_cons_self)]
      · have stored : (packField slab out st f).memory = st.memory.write32 (out + f.1) slab.base := by
          rw [packField, value]
          simp only [packString, if_pos (not_le.1 room)]
        have small := places.small
        rw [stored, read32_write32_self (by omega), sentinel, or_iff_right room]

/-- A word is stored whatever becomes of the strings. -/
theorem packFields_word (st : PackState) {k v : ℕ} (places : FieldPlaces slab out size st.cursor fs)
    (fields : ∀ x, out ≤ x → x < out + size → m' x = (packFields slab out st fs).memory x)
    (mem : (k, PackField.word v) ∈ fs) : m'.read32 (out + k) = v := by
  induction fs generalizing st with
  | nil => exact absurd mem List.not_mem_nil
  | cons f fs ih =>
    rcases List.mem_cons.1 mem with rfl | later
    · rw [places.read_head fields]
      exact read32_write32_self (places.words _ List.mem_cons_self v rfl)
    · exact ih _ (places.tail (by rw [packField_cursor]; exact le_cursorAfter ..)) fields later

end Fields

/-! ## A user -/

section Passwd

variable {slab : StringSlab} {out : ℕ} {st : PackState} {m' : Bytes} {okEmpty : Prop}

/-- The slab lies apart from the struct from the cursor on. -/
structure SlabClear (slab : StringSlab) (out size cursor : ℕ) : Prop where
  clear : out + size ≤ slab.base + cursor ∨ slab.base + slab.cap ≤ out
  small : slab.base + slab.cap < 2 ^ 32

theorem passwdPlaces (clear : SlabClear slab out wasmPasswdSz st.cursor) (pw : HostPasswd) :
    FieldPlaces slab out wasmPasswdSz st.cursor (passwdFields slab pw) where
  slots := by simp [passwdFields, wasmPasswdSz]
  ordered := by simp [passwdFields]
  words := by
    have small := clear.small
    simp only [passwdFields, List.forall_mem_cons, reduceCtorEq, PackField.word.injEq, forall_eq', false_implies,
      implies_true, true_and]
    exact ⟨pw.uid.toNat_lt, pw.gid.toNat_lt, by omega, by decide, by simp⟩
  clear := clear.clear
  small := clear.small

/-- The struct shows the user exactly if the strings pack and the start of the slab is an empty string. -/
theorem passwdAt_iff (clear : SlabClear slab out wasmPasswdSz st.cursor) {lo : ℕ} (from_lo : lo ≤ st.cursor)
    (pw : HostPasswd)
    (sentinel : ∀ s, StringField m' out wasmPasswdSz slab.base s ↔ s = emptyString ∧ okEmpty)
    (sound : ∀ p s, slab.base + lo ≤ p → p < slab.base + slab.cap → StringAt m' p s →
      StringField m' out wasmPasswdSz p s)
    (fields : ∀ x, out ≤ x → x < out + wasmPasswdSz → m' x = (writeWasmPasswd slab out st pw).memory x)
    (texts : ∀ x, slab.base + st.cursor ≤ x → x < slab.base + (writeWasmPasswd slab out st pw).cursor →
      m' x = (writeWasmPasswd slab out st pw).memory x) :
    PasswdAt m' out pw ↔ Packs slab.cap okEmpty st.cursor (passwdFields slab pw) ∧ okEmpty := by
  have places := passwdPlaces clear pw
  have word {k v : ℕ} (mem : (k, PackField.word v) ∈ passwdFields slab pw) : m'.read32 (out + k) = v :=
    packFields_word { st with memory := st.memory.fill out wasmPasswdSz 0 } places fields mem
  have shown := packFields_shown_iff { st with memory := st.memory.fill out wasmPasswdSz 0 } sentinel
    sound from_lo places fields texts
  have class_ : m'.read32 (out + 20) = slab.base := word (by simp [passwdFields])
  have empty := sentinel emptyString
  rw [eq_self, true_and] at empty
  rw [← shown]
  simp only [passwdFields, List.forall_mem_cons, FieldShown, Nat.add_zero]
  constructor
  · intro h
    refine ⟨⟨h.name, h.passwd, h.uid, h.gid, class_, h.gecos, h.dir, h.shell, ?_, by simp⟩, ?_⟩
    · exact word (by simp [passwdFields])
    · exact empty.1 (class_ ▸ h.class_)
  · rintro ⟨⟨name, passwd, uid, gid, -, gecos, dir, shell, -⟩, ok⟩
    exact ⟨name, passwd, uid, gid, class_.symm ▸ empty.2 ok, gecos, dir, shell⟩

end Passwd

/-! ## A group -/

/-- The cursor behind fields. -/
def packCursor (cap cursor : ℕ) (fs : List (ℕ × PackField)) : ℕ := fs.foldl (cursorAfter cap) cursor

theorem packFields_cursor (slab : StringSlab) (out : ℕ) (st : PackState) (fs : List (ℕ × PackField)) :
    (packFields slab out st fs).cursor = packCursor slab.cap st.cursor fs := by
  induction fs generalizing st with
  | nil => rfl
  | cons f fs ih =>
    rw [packFields_cons, ih, packField_cursor]
    rfl

/-- Where the array of members starts, in the slab. -/
def arrayCursor (cap cursor : ℕ) (gr : HostGroup) : ℕ := alignCursor (packCursor cap cursor (groupFields gr))

/-- The names pack, the array of members has room behind them, and the members pack behind that. -/
def GroupPacks (cap : ℕ) (okEmpty : Prop) (cursor : ℕ) (gr : HostGroup) : Prop :=
  let size := ((gr.members.getD []).length + 1) * 4
  Packs cap okEmpty cursor (groupFields gr) ∧ arrayCursor cap cursor gr + size ≤ cap ∧
    Packs cap okEmpty (arrayCursor cap cursor gr + size) (memberFields (gr.members.getD []))

theorem le_alignCursor (cursor : ℕ) : cursor ≤ alignCursor cursor := by
  unfold alignCursor
  omega

theorem mem_memberFields {members : List HostString} {f : ℕ × PackField} :
    f ∈ memberFields members ↔
      (∃ i, ∃ lt : i < members.length, f = (i * 4, .str (some members[i]))) ∨ f = (members.length * 4, .word 0) := by
  rw [memberFields, List.mem_append, List.mem_mapIdx, List.mem_singleton]
  simp only [eq_comm]

section Group

variable {slab : StringSlab} {out : ℕ} {st : PackState} {m' : Bytes} {okEmpty : Prop}

theorem groupPlaces (clear : SlabClear slab out wasmGroupSz st.cursor) (gr : HostGroup) :
    FieldPlaces slab out 12 st.cursor (groupFields gr) where
  slots := by simp [groupFields]
  ordered := by simp [groupFields]
  words := by
    simp only [groupFields, List.forall_mem_cons, reduceCtorEq, PackField.word.injEq, forall_eq', false_implies,
      implies_true, true_and]
    exact ⟨gr.gid.toNat_lt, by simp⟩
  clear := clear.clear.imp_left fun h => by unfold wasmGroupSz at h; omega
  small := clear.small

theorem memberPlaces (slab : StringSlab) (small : slab.base + slab.cap < 2 ^ 32) (cursor : ℕ)
    (members : List HostString) :
    FieldPlaces slab (slab.base + cursor) ((members.length + 1) * 4) (cursor + (members.length + 1) * 4)
      (memberFields members) where
  slots f mem := by
    rcases mem_memberFields.1 mem with ⟨i, lt, rfl⟩ | rfl
    · show i * 4 + 4 ≤ _
      omega
    · show members.length * 4 + 4 ≤ _
      omega
  ordered := by
    rw [memberFields, List.pairwise_append]
    refine ⟨?_, List.pairwise_singleton .., fun f mem g last => ?_⟩
    · rw [List.pairwise_iff_getElem]
      intro i j _ _ lt
      rw [List.getElem_mapIdx, List.getElem_mapIdx]
      show i * 4 + 4 ≤ j * 4
      omega
    · obtain ⟨i, lt, rfl⟩ := List.mem_mapIdx.1 mem
      rw [List.mem_singleton.1 last]
      show i * 4 + 4 ≤ members.length * 4
      omega
  words f mem v value := by
    rcases mem_memberFields.1 mem with ⟨i, lt, rfl⟩ | rfl
    · simp at value
    · rw [← PackField.word.inj value]
      decide
  clear := Or.inl (by omega)
  small := small

theorem writeMembers_frame (st : PackState) {members : List HostString} {x : ℕ} (field : x < out + 12 ∨ out + 16 ≤ x)
    (text : x < slab.base + st.cursor ∨ slab.base + slab.cap ≤ x) :
    (writeMembers slab out st members).memory x = st.memory x := by
  have aligned := le_alignCursor st.cursor
  unfold writeMembers
  simp only
  split_ifs with full
  · rfl
  · have bound := packFields_cursor_le slab (slab.base + alignCursor st.cursor)
      { st with cursor := alignCursor st.cursor + (members.length + 1) * 4 } (memberFields members)
    simp only at bound
    refine (write32_apply_of_disjoint (by omega)).trans (packFields_frame _ (fun f mem => ?_) ?_)
    · have slot : f.1 + 4 ≤ (members.length + 1) * 4 := by
        rcases mem_memberFields.1 mem with ⟨i, lt, rfl⟩ | rfl <;> (simp only; omega)
      omega
    · simp only
      omega

/-- The members are shown exactly if the array has room and the members pack behind it. -/
theorem membersAt_iff (st : PackState) (clear : SlabClear slab out wasmGroupSz st.cursor) (based : slab.base ≠ 0)
    {lo : ℕ} (from_lo : lo ≤ st.cursor) (members : List HostString)
    (sentinel : ∀ s, StringField m' out wasmGroupSz slab.base s ↔ s = emptyString ∧ okEmpty)
    (sound : ∀ p s, slab.base + lo ≤ p → p < slab.base + slab.cap → StringAt m' p s →
      StringField m' out wasmGroupSz p s)
    (zero : st.memory.read32 (out + 12) = 0)
    (fields : ∀ x, out ≤ x → x < out + wasmGroupSz → m' x = (writeMembers slab out st members).memory x)
    (texts : ∀ x, slab.base + st.cursor ≤ x → x < slab.base + slab.cap →
      m' x = (writeMembers slab out st members).memory x) :
    MembersAt m' out members ↔
      alignCursor st.cursor + (members.length + 1) * 4 ≤ slab.cap ∧
        Packs slab.cap okEmpty (alignCursor st.cursor + (members.length + 1) * 4) (memberFields members) := by
  have apart := clear.clear
  have small := clear.small
  have aligned := le_alignCursor st.cursor
  unfold wasmGroupSz at apart fields
  by_cases full : slab.cap < alignCursor st.cursor + (members.length + 1) * 4
  · have none : m'.read32 (out + 12) = 0 := by
      refine zero ▸ read32_congr fun x le lt => ?_
      rw [fields x (by omega) (by omega), writeMembers]
      simp only [if_pos full]
    exact iff_of_false (fun h => h.array none) fun h => absurd h.1 (not_le.2 full)
  · have places := memberPlaces slab small (alignCursor st.cursor) members
    have bound := packFields_cursor_le slab (slab.base + alignCursor st.cursor)
      { st with cursor := alignCursor st.cursor + (members.length + 1) * 4 } (memberFields members)
    have shown := packFields_shown_iff { st with cursor := alignCursor st.cursor + (members.length + 1) * 4 } sentinel sound
      (show lo ≤ alignCursor st.cursor + _ by omega) places
    simp only [writeMembers, if_neg full] at fields texts
    generalize packFields slab (slab.base + alignCursor st.cursor)
      { st with cursor := alignCursor st.cursor + (members.length + 1) * 4 } (memberFields members) = st₂
      at bound shown fields texts
    simp only at bound
    have kept : ∀ x, slab.base + st.cursor ≤ x → x < slab.base + slab.cap → m' x = st₂.memory x :=
      fun x le lt => by rw [texts x le lt, write32_apply_of_disjoint (by omega)]
    have array : m'.read32 (out + 12) = slab.base + alignCursor st.cursor := by
      have same : m'.read32 (out + 12) =
          (st₂.memory.write32 (out + 12) (slab.base + alignCursor st.cursor)).read32 (out + 12) :=
        read32_congr fun x le lt => fields x (by omega) (by omega)
      rw [same, read32_write32_self (by omega)]
    have packs := shown (fun x le lt => kept x (by omega) (by omega)) fun x le lt =>
      kept x (by simp only at le; omega) (by omega)
    simp only at packs
    rw [and_iff_right (not_lt.1 full), ← packs]
    constructor
    · intro h f mem
      rcases mem_memberFields.1 mem with ⟨i, lt, rfl⟩ | rfl
      · exact array ▸ h.names i lt
      · exact array ▸ h.end_
    · intro h
      refine ⟨by rw [array]; omega, fun i lt => ?_, ?_⟩
      · have one := h _ (mem_memberFields.2 (Or.inl ⟨i, lt, rfl⟩))
        rw [array]
        exact one
      · have last := h _ (mem_memberFields.2 (Or.inr rfl))
        rw [array]
        exact last

/-- The struct shows the group exactly if the names and the members pack. -/
theorem groupAt_iff (clear : SlabClear slab out wasmGroupSz st.cursor) (based : slab.base ≠ 0)
    {lo : ℕ} (from_lo : lo ≤ st.cursor) (le_cap : st.cursor ≤ slab.cap) (gr : HostGroup)
    (sentinel : ∀ s, StringField m' out wasmGroupSz slab.base s ↔ s = emptyString ∧ okEmpty)
    (sound : ∀ p s, slab.base + lo ≤ p → p < slab.base + slab.cap → StringAt m' p s →
      StringField m' out wasmGroupSz p s)
    (fields : ∀ x, out ≤ x → x < out + wasmGroupSz → m' x = (writeWasmGroup slab out st gr).memory x)
    (texts : ∀ x, slab.base + st.cursor ≤ x → x < slab.base + slab.cap →
      m' x = (writeWasmGroup slab out st gr).memory x) :
    GroupAt m' out gr ↔ GroupPacks slab.cap okEmpty st.cursor gr := by
  have places := groupPlaces clear gr
  have apart := clear.clear
  let st₀ : PackState := { st with memory := st.memory.fill out wasmGroupSz 0 }
  have bound : (packFields slab out st₀ (groupFields gr)).cursor ≤ max st.cursor slab.cap :=
    packFields_cursor_le ..
  have grows : st.cursor ≤ (packFields slab out st₀ (groupFields gr)).cursor :=
    le_packFields_cursor slab out st₀ (groupFields gr)
  have cursor_eq := packFields_cursor slab out st₀ (groupFields gr)
  have names := packFields_shown_iff st₀ sentinel sound from_lo places
  have zero : (packFields slab out st₀ (groupFields gr)).memory.read32 (out + 12) = 0 := by
    have empty : read32 (fun _ => 0) (out + 12) = 0 := by simp [read32]
    refine empty ▸ read32_congr fun x le lt => ?_
    rw [packFields_frame _ (fun f mem => Or.inr (by have slot := places.slots f mem; omega))
      (by unfold wasmGroupSz at apart; show x < slab.base + st.cursor ∨ _; omega)]
    exact fill_of_mem ⟨by omega, by unfold wasmGroupSz; omega⟩
  unfold GroupPacks
  simp only [arrayCursor]
  rw [show packCursor slab.cap st.cursor (groupFields gr) = _ from cursor_eq.symm]
  rw [writeWasmGroup] at fields texts
  generalize packFields slab out st₀ (groupFields gr) = st₁ at bound grows names zero fields texts ⊢
  have members := membersAt_iff st₁
    ⟨clear.clear.imp_left fun h => by omega, clear.small⟩ based (from_lo.trans grows) (gr.members.getD [])
    sentinel sound zero fields (fun x le lt => texts x (by omega) lt)
  have frame {x : ℕ} (field : x < out + 12 ∨ out + 16 ≤ x)
      (text : x < slab.base + st₁.cursor ∨ slab.base + slab.cap ≤ x) :=
    (writeMembers_frame st₁ field text : (writeMembers slab out st₁ (gr.members.getD [])).memory x = _)
  unfold wasmGroupSz at apart fields
  have shown := names
    (fun x le lt => by rw [fields x le (by omega), frame (by omega) (by omega)])
    (fun x le lt => by
      have from_st : slab.base + st.cursor ≤ x := le
      rw [texts x from_st (by omega), frame (by omega) (by omega)])
  rw [← members, ← shown]
  simp only [groupFields, List.forall_mem_cons, FieldShown, Nat.add_zero]
  refine ⟨fun h => ⟨⟨h.name, h.passwd, h.gid, by simp⟩, h.members⟩, ?_⟩
  rintro ⟨⟨name, passwd, gid, -⟩, members⟩
  exact ⟨name, passwd, gid, members⟩

end Group

/-! ## The bridges -/

/-- With a buffer of its own, a function answers NULL or a struct that shows the record, and writes
nowhere else. -/
structure OwnMet {α : Type} (Shown : Bytes → ℕ → α → Prop) (m : Bytes) (buf cap : ℕ) (record : Option α)
    (r : Bytes × ℕ) : Prop where
  answer : r.2 = 0 ∨ r.2 = buf ∧ ∃ x, record = some x ∧ Shown r.1 buf x
  frame : ∀ x, x < buf ∨ buf + cap ≤ x → r.1 x = m x

/-- The arguments of an `_r` form. -/
structure RecordCall where
  out : ℕ
  buf : ℕ
  buflen : ℕ
  result : ℕ

/-- The struct, the buffer and the result are in the memory and apart from each other. -/
structure RecordCall.Valid (call : RecordCall) (memSize size : ℕ) : Prop where
  small : memSize < 2 ^ 32
  out : call.out ≠ 0 ∧ call.out + size ≤ memSize
  result : call.result ≠ 0 ∧ call.result + 4 ≤ memSize
  apart : call.result + 4 ≤ call.out ∨ call.out + size ≤ call.result
  buf : call.buf ≠ 0 → call.buf + call.buflen ≤ memSize ∧
    (call.buf + call.buflen ≤ call.out ∨ call.out + size ≤ call.buf) ∧
    (call.buf + call.buflen ≤ call.result ∨ call.result + 4 ≤ call.buf)

/-- An `_r` form reports `ERANGE`, or no record, or a struct that shows the record, and writes nowhere
but in the struct, the buffer and the result. -/
structure CallerMet {α : Type} (Shown : Bytes → ℕ → α → Prop) (m : Bytes) (call : RecordCall) (size : ℕ)
    (record : Option α) (r : Bytes × ℤ) : Prop where
  answer : r.2 = eRangeRc ∨ r.2 = 0 ∧ (record = none ∧ r.1.read32 call.result = 0 ∨
    ∃ x, record = some x ∧ r.1.read32 call.result = call.out ∧ Shown r.1 call.out x)
  frame : ∀ x, x < call.out ∨ call.out + size ≤ x → x < call.buf ∨ call.buf + call.buflen ≤ x →
    x < call.result ∨ call.result + 4 ≤ x → r.1 x = m x

theorem fill_of_not_mem {m : Bytes} {a n x : ℕ} {v : UInt8} (h : x < a ∨ a + n ≤ x) : m.fill a n v x = m x :=
  if_neg (by omega)

section Frames

variable {slab : StringSlab} {out x : ℕ} {st : PackState}

/-- Writing a user touches the struct and the slab from the cursor on. -/
theorem writeWasmPasswd_frame (pw : HostPasswd) (le_cap : st.cursor ≤ slab.cap)
    (field : x < out ∨ out + wasmPasswdSz ≤ x)
    (text : x < slab.base + st.cursor ∨ slab.base + slab.cap ≤ x) :
    (writeWasmPasswd slab out st pw).memory x = st.memory x := by
  let st₀ : PackState := { st with memory := st.memory.fill out wasmPasswdSz 0 }
  have bound : (packFields slab out st₀ (passwdFields slab pw)).cursor ≤ max st.cursor slab.cap :=
    packFields_cursor_le ..
  have slots : ∀ f ∈ passwdFields slab pw, f.1 + 4 ≤ wasmPasswdSz := by simp [passwdFields, wasmPasswdSz]
  refine (packFields_frame st₀ (fun f mem => ?_) ?_).trans (fill_of_not_mem field)
  · have slot := slots f mem
    omega
  · exact text.imp_right fun h => by omega

/-- Writing a group touches the struct and the slab from the cursor on. -/
theorem writeWasmGroup_frame (gr : HostGroup) (le_cap : st.cursor ≤ slab.cap)
    (field : x < out ∨ out + wasmGroupSz ≤ x)
    (text : x < slab.base + st.cursor ∨ slab.base + slab.cap ≤ x) :
    (writeWasmGroup slab out st gr).memory x = st.memory x := by
  let st₀ : PackState := { st with memory := st.memory.fill out wasmGroupSz 0 }
  have bound : (packFields slab out st₀ (groupFields gr)).cursor ≤ max st.cursor slab.cap :=
    packFields_cursor_le ..
  have grows : st.cursor ≤ (packFields slab out st₀ (groupFields gr)).cursor :=
    le_packFields_cursor slab out st₀ (groupFields gr)
  have slots : ∀ f ∈ groupFields gr, f.1 + 4 ≤ 12 := by simp [groupFields]
  have first : (packFields slab out st₀ (groupFields gr)).memory x = st.memory x := by
    refine (packFields_frame st₀ (fun f mem => ?_) (text.imp_right fun h => by omega)).trans
      (fill_of_not_mem field)
    have slot := slots f mem
    unfold wasmGroupSz at field
    omega
  unfold wasmGroupSz at field
  exact (writeMembers_frame (packFields slab out st₀ (groupFields gr)) (by omega) (by omega)).trans first

end Frames

section Own

variable {m : Bytes} {buf : ℕ}

/-- The first byte of a struct of its own is no string. -/
theorem own_sentinel {m' : Bytes} {size : ℕ} (pos : 0 < size) (s : HostString) :
    StringField m' buf size buf s ↔ s = emptyString ∧ False := by
  rw [and_false, iff_false]
  rintro ⟨-, out | out⟩ <;> omega

/-- What the forms with a buffer of their own come to, for a struct that shows the record exactly if
`Fits` says so. -/
theorem ownBuffer_met_iff {α : Type} {write : StringSlab → ℕ → PackState → α → PackState}
    {Shown : Bytes → ℕ → α → Prop} {size cap : ℕ} (Fits : α → Prop) (pos : 0 < cap)
    (frame : ∀ r x, x < buf ∨ buf + cap ≤ x →
      (write ⟨buf, cap⟩ buf ⟨m.fill buf 1 0, size⟩ r).memory x = m.fill buf 1 0 x)
    (shown : buf ≠ 0 → ∀ r, Shown (write ⟨buf, cap⟩ buf ⟨m.fill buf 1 0, size⟩ r).memory buf r ↔ Fits r)
    (record : Option α) :
    OwnMet Shown m buf cap record (ownBuffer write size cap m buf record) ↔
      buf = 0 ∨ ∀ r, record = some r → Fits r := by
  cases record with
  | none => exact iff_of_true ⟨Or.inl rfl, fun _ _ => rfl⟩ (Or.inr fun r h => by simp at h)
  | some r =>
    rw [ownBuffer]
    by_cases null : buf = 0
    · rw [if_pos null]
      exact iff_of_true ⟨Or.inl rfl, fun _ _ => rfl⟩ (Or.inl null)
    · rw [if_neg null, or_iff_right null]
      constructor
      · intro met r' h
        obtain ⟨-, r'', h', fits⟩ := met.answer.resolve_left null
        obtain rfl := Option.some.inj h
        obtain rfl := Option.some.inj h'
        exact (shown null r).1 fits
      · intro fits
        refine ⟨Or.inr ⟨rfl, r, rfl, (shown null r).2 (fits r rfl)⟩, fun x out => ?_⟩
        exact (frame r x out).trans (fill_of_not_mem (by omega))

/-- A user in a buffer of the bridge's own never comes through. -/
theorem yosGetpw_met_iff (small : buf + pwdBufSz < 2 ^ 32) (record : Option HostPasswd) :
    OwnMet PasswdAt m buf pwdBufSz record (yosGetpw m buf record) ↔ buf = 0 ∨ record = none := by
  have clear : SlabClear ⟨buf, pwdBufSz⟩ buf wasmPasswdSz wasmPasswdSz := ⟨Or.inl le_rfl, small⟩
  refine (ownBuffer_met_iff (fun _ => False) (by decide) (fun r x out => ?_) (fun null r => ?_)
    record).trans (or_congr_right ?_)
  · have le_cap : wasmPasswdSz ≤ pwdBufSz := by decide
    refine writeWasmPasswd_frame r le_cap (by omega) ?_
    show x < buf + wasmPasswdSz ∨ buf + pwdBufSz ≤ x
    omega
  · refine (passwdAt_iff clear le_rfl r (own_sentinel (by decide)) (fun p s le _ text => ⟨text, Or.inr le⟩)
      (fun _ _ _ => rfl) fun _ _ _ => rfl).trans ?_
    rw [and_false]
  · cases record with
    | none => simp
    | some r => simp

/-- A group in a buffer of the bridge's own comes through exactly if everything has room. -/
theorem yosGetgr_met_iff (small : buf + grpBufSz < 2 ^ 32) (record : Option HostGroup) :
    OwnMet GroupAt m buf grpBufSz record (yosGetgr m buf record) ↔
      buf = 0 ∨ ∀ gr, record = some gr → GroupPacks grpBufSz False wasmGroupSz gr := by
  have clear : SlabClear ⟨buf, grpBufSz⟩ buf wasmGroupSz wasmGroupSz := ⟨Or.inl le_rfl, small⟩
  have le_cap : wasmGroupSz ≤ grpBufSz := by decide
  refine ownBuffer_met_iff _ (by decide) (fun r x out => ?_) (fun null r => ?_) record
  · refine writeWasmGroup_frame r le_cap (by omega) ?_
    show x < buf + wasmGroupSz ∨ buf + grpBufSz ≤ x
    omega
  · exact groupAt_iff clear null le_rfl le_cap r (own_sentinel (by decide))
      (fun p s le _ text => ⟨text, Or.inr le⟩) (fun _ _ _ => rfl) fun _ _ _ => rfl

end Own

section Caller

variable {m : Bytes} {memSize size : ℕ} {call : RecordCall}

/-- The memory when the record is written. -/
def RecordCall.begun (call : RecordCall) (m : Bytes) : Bytes := (m.write32 call.result 0).fill call.buf 1 0

/-- What the `_r` forms come to behind the test of the pointers, for a struct that shows the record
exactly if `Fits` says so. -/
theorem callerBuffer_met_iff {α : Type} {write : StringSlab → ℕ → PackState → α → PackState}
    {Shown : Bytes → ℕ → α → Prop} {least : ℕ} {Fits : α → Prop} (valid : call.Valid memSize size)
    (some_byte : 0 < least)
    (frame : ∀ r x, least ≤ call.buflen → x < call.out ∨ call.out + size ≤ x →
      x < call.buf + 1 ∨ call.buf + call.buflen ≤ x →
      (write ⟨call.buf, call.buflen⟩ call.out ⟨call.begun m, 1⟩ r).memory x = call.begun m x)
    (shown : call.buf ≠ 0 → least ≤ call.buflen → ∀ r,
      Shown ((write ⟨call.buf, call.buflen⟩ call.out ⟨call.begun m, 1⟩ r).memory.write32 call.result call.out)
        call.out r ↔ Fits r)
    (record : Option α) :
    CallerMet Shown m call size record
        (callerBuffer write least m call.out call.buf call.buflen call.result record) ↔
      call.buflen < least ∨ call.buf = 0 ∨ ∀ r, record = some r → Fits r := by
  have cell (m : Bytes) : ∀ x, x < call.result ∨ call.result + 4 ≤ x → m.write32 call.result 0 x = m x :=
    fun x out => write32_apply_of_disjoint out
  cases record with
  | none =>
    refine iff_of_true ⟨Or.inr ⟨rfl, Or.inl ⟨rfl, ?_⟩⟩, fun x _ _ out => cell m x out⟩
      (Or.inr (Or.inr fun r h => by simp at h))
    exact read32_write32_self (by decide)
  | some r =>
    rw [callerBuffer]
    by_cases short : call.buflen < least ∨ call.buf = 0
    · rw [if_pos short]
      refine iff_of_true ⟨Or.inl rfl, fun x _ _ out => cell m x out⟩ ?_
      exact short.imp_right Or.inl
    · rw [if_neg short]
      obtain ⟨enough, there⟩ := not_or.1 short
      rw [or_iff_right enough, or_iff_right there]
      constructor
      · intro met r' h
        obtain ⟨-, answer⟩ := met.answer.resolve_left (show (0 : ℤ) ≠ eRangeRc by decide)
        obtain ⟨r'', h', -, fits⟩ := answer.resolve_left fun h => by simp at h
        obtain rfl := Option.some.inj h
        obtain rfl := Option.some.inj h'
        exact (shown there (not_lt.1 enough) r).1 fits
      · intro fits
        refine ⟨Or.inr ⟨rfl, Or.inr ⟨r, rfl, ?_, ?_⟩⟩, fun x out_struct out_buf out_cell => ?_⟩
        · have small := valid.small
          have out := valid.out
          exact read32_write32_self (by omega)
        · exact (shown there (not_lt.1 enough) r).2 (fits r rfl)
        · have kept := frame r x (not_lt.1 enough) out_struct (by omega)
          refine (write32_apply_of_disjoint out_cell).trans (kept.trans ?_)
          exact (fill_of_not_mem (by omega)).trans (cell m x out_cell)

/-- The first byte of the caller's buffer is the empty string. -/
theorem caller_sentinel {m' : Bytes} (valid : call.Valid memSize size) (there : call.buf ≠ 0)
    (some_byte : 0 < call.buflen) (zero : m' call.buf = 0) (s : HostString) :
    StringField m' call.out size call.buf s ↔ s = emptyString ∧ True := by
  obtain ⟨-, apart, -⟩ := valid.buf there
  rw [and_true]
  constructor
  · rintro ⟨text, -⟩
    refine Subtype.ext (show s.1 = [] from ?_)
    cases chars : s.1 with
    | nil => rfl
    | cons c rest =>
      have first := text.1 0 (by rw [chars]; exact Nat.succ_pos _)
      rw [Nat.add_zero, zero] at first
      have mem : (0 : UInt8) ∈ s.1 := List.mem_of_getElem first.symm
      exact absurd mem s.2
  · rintro rfl
    exact ⟨⟨fun i lt => absurd lt (Nat.not_lt_zero i), zero⟩, by omega⟩

theorem caller_sound {m' : Bytes} (valid : call.Valid memSize size) (there : call.buf ≠ 0) (p : ℕ)
    (s : HostString) (le : call.buf + 1 ≤ p) (lt : p < call.buf + call.buflen) (text : StringAt m' p s) :
    StringField m' call.out size p s := by
  obtain ⟨-, apart, -⟩ := valid.buf there
  exact ⟨text, by omega⟩

/-- The slab of the caller lies apart from the struct. -/
theorem RecordCall.Valid.clear (valid : call.Valid memSize size) (there : call.buf ≠ 0) :
    SlabClear ⟨call.buf, call.buflen⟩ call.out size 1 := by
  obtain ⟨inside, apart, -⟩ := valid.buf there
  have small := valid.small
  refine ⟨?_, show call.buf + call.buflen < 2 ^ 32 by omega⟩
  show call.out + size ≤ call.buf + 1 ∨ call.buf + call.buflen ≤ call.out
  omega

theorem passwdR_met_iff (valid : call.Valid memSize wasmPasswdSz) (record : Option HostPasswd) :
    CallerMet PasswdAt m call wasmPasswdSz record
        (callerBuffer writeWasmPasswd 16 m call.out call.buf call.buflen call.result record) ↔
      call.buflen < 16 ∨ call.buf = 0 ∨ ∀ pw, record = some pw →
        Packs call.buflen True 1 (passwdFields ⟨call.buf, call.buflen⟩ pw) := by
  refine callerBuffer_met_iff valid (by decide) (fun r x enough field text => ?_) (fun there enough r => ?_) record
  · exact writeWasmPasswd_frame r (show 1 ≤ call.buflen by omega) field text
  · obtain ⟨-, apart, apart_cell⟩ := valid.buf there
    have cell := valid.apart
    have zero : ((writeWasmPasswd ⟨call.buf, call.buflen⟩ call.out ⟨call.begun m, 1⟩ r).memory.write32
        call.result call.out) call.buf = 0 := by
      rw [write32_apply_of_disjoint (by omega),
        writeWasmPasswd_frame r (show 1 ≤ call.buflen by omega) (by omega) (Or.inl (Nat.lt_succ_self call.buf))]
      exact fill_of_mem ⟨le_rfl, Nat.lt_succ_self _⟩
    refine (passwdAt_iff (valid.clear there) le_rfl r (caller_sentinel valid there (by omega) zero)
      (caller_sound valid there) (fun x le lt => write32_apply_of_disjoint (by omega)) fun x le lt => ?_).trans
      (and_iff_left trivial)
    have bound : (writeWasmPasswd ⟨call.buf, call.buflen⟩ call.out ⟨call.begun m, 1⟩ r).cursor ≤
      max 1 call.buflen := packFields_cursor_le ..
    have low : call.buf + 1 ≤ x := le
    have high : x < call.buf + _ := lt
    exact write32_apply_of_disjoint (by omega)

theorem groupR_met_iff (valid : call.Valid memSize wasmGroupSz) (record : Option HostGroup) :
    CallerMet GroupAt m call wasmGroupSz record
        (callerBuffer writeWasmGroup 32 m call.out call.buf call.buflen call.result record) ↔
      call.buflen < 32 ∨ call.buf = 0 ∨ ∀ gr, record = some gr → GroupPacks call.buflen True 1 gr := by
  refine callerBuffer_met_iff valid (by decide) (fun r x enough field text => ?_) (fun there enough r => ?_) record
  · exact writeWasmGroup_frame r (show 1 ≤ call.buflen by omega) field text
  · obtain ⟨-, apart, apart_cell⟩ := valid.buf there
    have cell := valid.apart
    have zero : ((writeWasmGroup ⟨call.buf, call.buflen⟩ call.out ⟨call.begun m, 1⟩ r).memory.write32
        call.result call.out) call.buf = 0 := by
      rw [write32_apply_of_disjoint (by omega),
        writeWasmGroup_frame r (show 1 ≤ call.buflen by omega) (by omega) (Or.inl (Nat.lt_succ_self call.buf))]
      exact fill_of_mem ⟨le_rfl, Nat.lt_succ_self _⟩
    refine groupAt_iff (valid.clear there) there le_rfl (show 1 ≤ call.buflen by omega) r
      (caller_sentinel valid there (by omega) zero) (caller_sound valid there)
      (fun x le lt => write32_apply_of_disjoint (by omega)) fun x le lt => ?_
    have low : call.buf + 1 ≤ x := le
    have high : x < call.buf + call.buflen := lt
    exact write32_apply_of_disjoint (by omega)

theorem RecordCall.Valid.pointers (valid : call.Valid memSize size) (pos : 0 < size) :
    ¬ (call.out = 0 ∨ call.result = 0 ∨ memSize ≤ call.out ∨ memSize ≤ call.result) := by
  have out := valid.out
  have result := valid.result
  omega

end Caller

/-- `root` of the user database. -/
def rootUser : HostPasswd where
  name := some ⟨[114, 111, 111, 116], by decide⟩
  passwd := some ⟨[120], by decide⟩
  uid := 0
  gid := 0
  gecos := some ⟨[114, 111, 111, 116], by decide⟩
  dir := some ⟨[47, 114, 111, 111, 116], by decide⟩
  shell := some ⟨[47, 98, 105, 110, 47, 115, 104], by decide⟩

/-- A call with `buflen` bytes of buffer. -/
def rootCall (buflen : ℕ) : RecordCall := ⟨1024, 2048, buflen, 512⟩

theorem rootCall_valid {buflen : ℕ} (le : buflen ≤ 1024) : (rootCall buflen).Valid 65536 wasmPasswdSz where
  small := by decide
  out := show 1024 ≠ 0 ∧ 1024 + wasmPasswdSz ≤ 65536 by decide
  result := show 512 ≠ 0 ∧ 512 + 4 ≤ 65536 by decide
  apart := show 512 + 4 ≤ 1024 ∨ 1024 + wasmPasswdSz ≤ 512 by decide
  buf := fun _ => by
    unfold rootCall wasmPasswdSz
    simp only
    omega

end Yos
