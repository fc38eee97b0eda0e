import Yos.Io.StdinStream

/-!
# Wide characters (`yos_fputwc`, `yos_fgetwc`, `impl/io/file.c`)

`yos_fputwc` writes the UTF-8 encoding of a code point up to 0x10FFFF.  `yos_fgetwc` takes as many
bytes as the first one announces; it answers 0xFFFD for a byte that cannot be the first of a
character, and `WEOF` where the stream ends inside one.  On a stream of encodings and such bytes the
calls return one after another what the stream is made of (`fgetwcs_items`), so what is written is
read back.  The bytes behind the first are not examined: see `fgetwc_not_wellFormed` for what becomes
of a first byte without the bytes it announces.
-/

namespace Yos

/-! ## The writer -/

/-- The bytes of a code point in `yos_fputwc`, if there are any. -/
def wcEncode (cp : ℕ) : Option (List UInt8) :=
  if cp < 0x80 then some [UInt8.ofNat cp]
  else if cp < 0x800 then
    some [UInt8.ofNat (0xc0 ||| cp >>> 6), UInt8.ofNat (0x80 ||| cp &&& 0x3f)]
  else if cp < 0x10000 then
    some [UInt8.ofNat (0xe0 ||| cp >>> 12), UInt8.ofNat (0x80 ||| cp >>> 6 &&& 0x3f),
      UInt8.ofNat (0x80 ||| cp &&& 0x3f)]
  else if cp ≤ 0x10ffff then
    some [UInt8.ofNat (0xf0 ||| cp >>> 18), UInt8.ofNat (0x80 ||| cp >>> 12 &&& 0x3f),
      UInt8.ofNat (0x80 ||| cp >>> 6 &&& 0x3f), UInt8.ofNat (0x80 ||| cp &&& 0x3f)]
  else none

/-- The loop of `yos_fputwc`; `works` says whether the next byte can be written behind some others. -/
def wcPutbytes (works : List UInt8 → UInt8 → Bool) :
    List UInt8 → List UInt8 → List UInt8 × Bool
  | out, [] => (out, true)
  | out, b :: bs => if works out b then wcPutbytes works (out ++ [b]) bs else (out, false)

/-- `yos_fputwc`: the bytes written so far, and the result. -/
def yosFputwc (works : List UInt8 → UInt8 → Bool) (out : List UInt8) (wc : ℤ) : List UInt8 × ℤ :=
  let cp := (wc % 2 ^ 32).toNat
  match wcEncode cp with
  | none => (out, -1)
  | some bytes =>
    match wcPutbytes works out bytes with
    | (out, false) => (out, -1)
    | (out, true) => (out, cp)

/-! ## The reader -/

/-- A source of bytes with the bytes that it still has. -/
structure ByteSource (σ : Type) extends Source σ UInt8 where
  unread : σ → List UInt8
  hands : ∀ s, (get s).1 = (unread s).head? ∧ unread (get s).2 = (unread s).tail

variable {σ : Type}

/-- `yos_fgetwc` on a stream. -/
def fgetwc (src : ByteSource σ) (s : σ) : ℤ × σ :=
  let (got, s) := src.toSource.readUntil wcWhole s []
  (wcValue got, s)

/-- Calls of `yos_fgetwc` one after another. -/
def fgetwcs (src : ByteSource σ) : ℕ → σ → List ℤ
  | 0, _ => []
  | n + 1, s => (fgetwc src s).1 :: fgetwcs src n (fgetwc src s).2

/-- A call takes a first part of the unread bytes. -/
theorem fgetwc_eq (src : ByteSource σ) (s : σ) :
    (fgetwc src s).1 = wcValue (Source.cut wcWhole [] (src.unread s)).1 ∧
      src.unread (fgetwc src s).2 =
        (src.unread s).drop (Source.cut wcWhole [] (src.unread s)).1.length := by
  set l := src.unread s with l_eq
  have after (n : ℕ) (s' : σ) (here : src.unread s' = l.drop n) :
      (src.get s').1 = (l.drop n).head? ∧ src.unread (src.get s').2 = l.drop (n + 1) := by
    obtain ⟨value, left⟩ := src.hands s'
    rw [here] at value left
    exact ⟨value, by rw [left, List.tail_drop]⟩
  obtain ⟨values, plenty, ended⟩ := Source.readUntil_sim src.toSource wcWhole (s := s)
    (R := fun n s' => src.unread s' = l.drop n) (E := fun n s' => src.unread s' = l.drop n)
    (fun n s' b rest here left => by
      obtain ⟨value, next⟩ := after n s' here
      rw [left, List.head?_cons] at value
      exact ⟨_, Prod.ext value rfl, next⟩)
    (fun n s' here left => by
      obtain ⟨value, next⟩ := after n s' here
      rw [left, List.head?_nil] at value
      refine ⟨_, Prod.ext value rfl, ?_⟩
      rw [next, left, List.drop_eq_nil_iff]
      exact Nat.le_succ_of_le (List.drop_eq_nil_iff.1 left))
    l_eq.symm
  refine ⟨congrArg wcValue values, ?_⟩
  cases met : (Source.cut wcWhole [] l).2 with
  | false => exact plenty met
  | true => exact ended met

section Stdin

variable {φ : Type} [DecidableEq φ] (host : HostRead) (std f : φ)

theorem fdGetc_hands (s : StdinState φ) :
    (s.fdGetc host f).1 = (s.rest f).head? ∧ (s.fdGetc host f).2.rest f = (s.rest f).tail := by
  rw [StdinState.fdGetc]
  cases left : s.rest f with
  | nil =>
    rw [StdinState.read_none host 1 left]
    exact ⟨rfl, left⟩
  | cons b bytes =>
    obtain ⟨k, lt, reads⟩ := StdinState.read_some host Nat.one_pos left
    obtain rfl : k = 0 := by omega
    rw [reads]
    exact ⟨rfl, Function.update_self _ _ _⟩

/-- The file behind a descriptor, with what is left of it. -/
def fdBytes : ByteSource (StdinState φ) where
  toSource := StdinState.fdSource host f
  unread s := s.rest f
  hands s := fdGetc_hands host f s

/-- The host's `stdin`, with what is pushed back, read ahead and left of its file. -/
def hostBytes : ByteSource (StdinState φ) where
  toSource := StdinState.hostSource host std
  unread s := s.pushed ++ s.ahead ++ s.rest std
  hands s := by
    change (s.hostGetc host std).1 = _ ∧ (s.hostGetc host std).2.pushed ++
      (s.hostGetc host std).2.ahead ++ (s.hostGetc host std).2.rest std = _
    cases pushed : s.pushed with
    | cons b bytes =>
      simp only [StdinState.hostGetc, pushed]
      exact ⟨rfl, rfl⟩
    | nil =>
      cases ahead : s.ahead with
      | cons b bytes =>
        simp only [StdinState.hostGetc, pushed, ahead]
        exact ⟨rfl, rfl⟩
      | nil =>
        cases left : s.rest std with
        | nil =>
          rw [StdinState.hostGetc_none host std pushed ahead left]
          simp only [pushed, ahead, left]
          exact ⟨rfl, rfl⟩
        | cons b bytes =>
          obtain ⟨k, -, reads⟩ := StdinState.read_some host host.room left
          simp only [StdinState.hostGetc, pushed, ahead, reads, Function.update_self]
          exact ⟨rfl, List.take_append_drop k bytes⟩

/-- `yos_fgetwc` on the guest's `stdin`. -/
theorem yosFgetwc_eq_fgetwc (s : StdinState φ) :
    ((s.yosFgetwc host std).1.value, (s.yosFgetwc host std).2) =
      match s.fd0 with
      | some f => fgetwc (fdBytes host f) s
      | none => fgetwc (hostBytes host std) s := by
  rw [StdinState.yosFgetwc]
  cases s.fd0 <;> rfl

end Stdin

/-! ## One character -/

theorem wcLead_two {k : ℕ} (lt : k < 32) : wcLead (UInt8.ofNat (0xc0 ||| k)) = some (1, k) := by
  have all : ∀ k < 32, wcLead (UInt8.ofNat (0xc0 ||| k)) = some (1, k) := by decide
  exact all k lt

theorem wcLead_three {k : ℕ} (lt : k < 16) : wcLead (UInt8.ofNat (0xe0 ||| k)) = some (2, k) := by
  have all : ∀ k < 16, wcLead (UInt8.ofNat (0xe0 ||| k)) = some (2, k) := by decide
  exact all k lt

theorem wcLead_four {k : ℕ} (lt : k < 8) : wcLead (UInt8.ofNat (0xf0 ||| k)) = some (3, k) := by
  have all : ∀ k < 8, wcLead (UInt8.ofNat (0xf0 ||| k)) = some (3, k) := by decide
  exact all k lt

/-- The bits of a byte behind the first. -/
theorem continuation_bits (x : ℕ) :
    (UInt8.ofNat (0x80 ||| x &&& 0x3f) &&& 0x3f).toNat = x % 64 := by
  have all : ∀ k < 64, (UInt8.ofNat (0x80 ||| k) &&& 0x3f).toNat = k := by decide
  have low : x &&& 0x3f = x % 64 := Nat.and_two_pow_sub_one_eq_mod x 6
  rw [low]
  exact all _ (Nat.mod_lt _ (by decide))

/-- Six more bits behind the others. -/
theorem shift_or_bits (x : ℕ) : (x / 64) <<< 6 ||| x % 64 = x := by
  have lt : x % 64 < 2 ^ 6 := Nat.mod_lt _ (by decide)
  rw [← Nat.shiftLeft_add_eq_or_of_lt lt, Nat.shiftLeft_eq]
  omega

/-- The first byte announces the others, and the bits are those of the code point. -/
structure Encodes (cp : ℕ) (b0 : UInt8) (tail : List UInt8) : Prop where
  announced : b0 < 0x80 ∧ tail = [] ∧ b0.toNat = cp ∨
    ¬ b0 < 0x80 ∧ ∃ k, wcLead b0 = some (tail.length, k) ∧ tail ≠ [] ∧
      tail.foldl (fun cp b => cp <<< 6 ||| (b &&& 0x3f).toNat) k = cp

theorem wcEncode_spec {cp : ℕ} (le : cp ≤ 0x10ffff) :
    ∃ b0 tail, wcEncode cp = some (b0 :: tail) ∧ Encodes cp b0 tail := by
  have six : cp >>> 6 = cp / 64 := Nat.shiftRight_eq_div_pow cp 6
  have twelve : cp >>> 12 = cp / 64 / 64 := by
    rw [Nat.shiftRight_eq_div_pow, Nat.div_div_eq_div_mul]
  have eighteen : cp >>> 18 = cp / 64 / 64 / 64 := by
    rw [Nat.shiftRight_eq_div_pow, Nat.div_div_eq_div_mul, Nat.div_div_eq_div_mul]
  rw [wcEncode]
  split_ifs with one two three
  · have all : ∀ cp < 0x80, UInt8.ofNat cp < 0x80 ∧ (UInt8.ofNat cp).toNat = cp := by decide
    obtain ⟨small, value⟩ := all cp one
    exact ⟨_, [], rfl, ⟨Or.inl ⟨small, rfl, value⟩⟩⟩
  · have all : ∀ k < 32, ¬ UInt8.ofNat (0xc0 ||| k) < 0x80 := by decide
    have lt : cp >>> 6 < 32 := by omega
    refine ⟨_, _, rfl, ⟨Or.inr ⟨all _ lt, _, wcLead_two lt, List.cons_ne_nil _ _, ?_⟩⟩⟩
    simp only [List.foldl_cons, List.foldl_nil, continuation_bits, six, shift_or_bits]
  · have all : ∀ k < 16, ¬ UInt8.ofNat (0xe0 ||| k) < 0x80 := by decide
    have lt : cp >>> 12 < 16 := by omega
    refine ⟨_, _, rfl, ⟨Or.inr ⟨all _ lt, _, wcLead_three lt, List.cons_ne_nil _ _, ?_⟩⟩⟩
    simp only [List.foldl_cons, List.foldl_nil, continuation_bits, six, twelve, shift_or_bits]
  · have all : ∀ k < 8, ¬ UInt8.ofNat (0xf0 ||| k) < 0x80 := by decide
    have lt : cp >>> 18 < 8 := by omega
    refine ⟨_, _, rfl, ⟨Or.inr ⟨all _ lt, _, wcLead_four lt, List.cons_ne_nil _ _, ?_⟩⟩⟩
    simp only [List.foldl_cons, List.foldl_nil, continuation_bits, six, twelve, eighteen,
      shift_or_bits]

/-- The bytes of a code point are taken whole. -/
theorem wcWhole_of_encodes {cp : ℕ} {b0 : UInt8} {tail : List UInt8} (enc : Encodes cp b0 tail) :
    wcWhole (b0 :: tail) = true ∧ wcValue (b0 :: tail) = cp := by
  rw [wcWhole, wcValue]
  rcases enc.announced with ⟨small, rfl, value⟩ | ⟨high, k, lead, -, value⟩
  · rw [if_pos small, if_pos small, value]
    exact ⟨rfl, rfl⟩
  · rw [if_neg high, if_neg high, lead]
    dsimp only
    rw [if_neg (Nat.lt_irrefl _), value]
    exact ⟨decide_eq_true (Nat.le_refl _), rfl⟩

/-- Fewer bytes are not enough, and `WEOF` if there are no more. -/
theorem wcWhole_of_cut {cp n : ℕ} {b0 : UInt8} {tail : List UInt8} (enc : Encodes cp b0 tail)
    (lt : n < (b0 :: tail).length) :
    wcWhole ((b0 :: tail).take n) = false ∧ wcValue ((b0 :: tail).take n) = -1 := by
  cases n with
  | zero => exact ⟨rfl, rfl⟩
  | succ n =>
    have short : n < tail.length := Nat.lt_of_succ_lt_succ lt
    rw [List.take_succ_cons, wcWhole, wcValue]
    rcases enc.announced with ⟨-, rfl, -⟩ | ⟨high, k, lead, -, -⟩
    · exact absurd short (Nat.not_lt_zero n)
    · have fewer : (tail.take n).length < tail.length := by
        rw [List.length_take]
        omega
      rw [if_neg high, if_neg high, lead]
      dsimp only
      rw [if_pos fewer]
      exact ⟨decide_eq_false (Nat.not_le_of_lt fewer), rfl⟩

/-! ## Streams of characters -/

/-- What a stream may be made of: the encoding of a code point, or a byte that cannot be the first of
one. -/
inductive WideItem where
  | char (cp : ℕ) (valid : cp ≤ 0x10ffff)
  | stray (b : UInt8) (range : 0x80 ≤ b ∧ b < 0xc0 ∨ 0xf8 ≤ b)

namespace WideItem

/-- The bytes in the stream. -/
def bytes : WideItem → List UInt8
  | char cp _ => (wcEncode cp).getD []
  | stray b _ => [b]

/-- What `yos_fgetwc` is to return. -/
def value : WideItem → ℤ
  | char cp _ => cp
  | stray _ _ => 0xfffd

theorem bytes_spec (item : WideItem) :
    wcWhole item.bytes = true ∧ wcValue item.bytes = item.value ∧
      ∀ n < item.bytes.length, wcWhole (item.bytes.take n) = false := by
  cases item with
  | char cp valid =>
    obtain ⟨b0, tail, bytes_eq, enc⟩ := wcEncode_spec valid
    rw [bytes, bytes_eq, Option.getD_some]
    obtain ⟨whole, value⟩ := wcWhole_of_encodes enc
    exact ⟨whole, value, fun n lt => (wcWhole_of_cut enc lt).1⟩
  | stray b range =>
    have all : ∀ n < 256, 0x80 ≤ UInt8.ofNat n ∧ UInt8.ofNat n < 0xc0 ∨ 0xf8 ≤ UInt8.ofNat n →
        ¬ UInt8.ofNat n < 0x80 ∧ wcLead (UInt8.ofNat n) = none := by decide +kernel
    have here := all b.toNat b.toNat_lt
    rw [UInt8.ofNat_toNat] at here
    obtain ⟨high, lead⟩ := here range
    refine ⟨?_, ?_, fun n lt => ?_⟩
    · rw [bytes, wcWhole, if_neg high, lead]
    · rw [bytes, wcValue, if_neg high, lead]
      rfl
    · obtain rfl : n = 0 := Nat.lt_one_iff.1 lt
      rfl

end WideItem

/-- A first part of the encoding of a code point, but not all of it. -/
def CutShort (tail : List UInt8) : Prop :=
  ∃ cp ≤ 0x10ffff, ∃ enc, wcEncode cp = some enc ∧ ∃ n < enc.length, tail = enc.take n

variable {src : ByteSource σ} {s : σ} {tail : List UInt8}

/-- A call on a stream that starts with an item takes this item. -/
theorem fgetwc_item {item : WideItem} {rest : List UInt8}
    (unread : src.unread s = item.bytes ++ rest) :
    (fgetwc src s).1 = item.value ∧ src.unread (fgetwc src s).2 = rest := by
  obtain ⟨whole, value, before⟩ := item.bytes_spec
  obtain ⟨result, left⟩ := fgetwc_eq src s
  have taken : Source.cut wcWhole [] (item.bytes ++ rest) = (item.bytes, false) :=
    Source.cut_of_first before whole rest
  rw [unread, taken] at result left
  exact ⟨result.trans value, left.trans List.drop_left⟩

/-- A call on a stream that ends inside an encoding returns `WEOF`. -/
theorem fgetwc_cutShort (short : CutShort tail) (unread : src.unread s = tail) :
    (fgetwc src s).1 = -1 := by
  obtain ⟨cp, valid, enc, enc_eq, n, lt, rfl⟩ := short
  obtain ⟨b0, bytes, bytes_eq, encodes⟩ := wcEncode_spec valid
  cases bytes_eq.symm.trans enc_eq
  have never : ∀ m ≤ ((b0 :: bytes).take n).length,
      wcWhole ([] ++ ((b0 :: bytes).take n).take m) = false := by
    intro m _
    rw [List.nil_append, List.take_take]
    exact (wcWhole_of_cut encodes (by omega)).1
  rw [(fgetwc_eq src s).1, unread, Source.cut_of_never never]
  exact (wcWhole_of_cut encodes lt).2

/-- On a stream of items, which may end inside an encoding, the calls return one item after another,
and then `WEOF`. -/
theorem fgetwcs_items (items : List WideItem) (short : CutShort tail)
    (unread : src.unread s = items.flatMap WideItem.bytes ++ tail) :
    fgetwcs src (items.length + 1) s = items.map WideItem.value ++ [-1] := by
  induction items generalizing s with
  | nil =>
    rw [fgetwcs, fgetwc_cutShort short unread]
    rfl
  | cons item items ih =>
    rw [List.flatMap_cons, List.append_assoc] at unread
    obtain ⟨value, left⟩ := fgetwc_item unread
    rw [List.length_cons, fgetwcs, value, ih left]
    rfl

/-! ## Writing and reading -/

/-- Calls of `yos_fputwc` one after another: the bytes written, and the results. -/
def fputwcs (works : List UInt8 → UInt8 → Bool) : List UInt8 → List ℕ → List UInt8 × List ℤ
  | out, [] => (out, [])
  | out, cp :: cps =>
    let call := yosFputwc works out cp
    let rest := fputwcs works call.1 cps
    (rest.1, call.2 :: rest.2)

variable {works : List UInt8 → UInt8 → Bool} {out : List UInt8} {cps : List ℕ} {cp : ℕ}

theorem wcPutbytes_eq (done : (wcPutbytes works out tail).2 = true) :
    (wcPutbytes works out tail).1 = out ++ tail := by
  induction tail generalizing out with
  | nil => exact (List.append_nil out).symm
  | cons b bs ih =>
    rw [wcPutbytes] at done ⊢
    split_ifs at done ⊢
    rw [ih done, List.append_assoc]
    rfl

/-- A call that succeeds has written the encoding. -/
theorem yosFputwc_eq (valid : cp ≤ 0x10ffff) (done : (yosFputwc works out cp).2 = cp) :
    (yosFputwc works out cp).1 = out ++ (WideItem.char cp valid).bytes := by
  have same : ((cp : ℤ) % 2 ^ 32).toNat = cp := by omega
  obtain ⟨b0, bytes, bytes_eq, -⟩ := wcEncode_spec valid
  rw [yosFputwc] at done ⊢
  simp only [same, bytes_eq] at done ⊢
  rw [WideItem.bytes, bytes_eq, Option.getD_some]
  cases met : (wcPutbytes works out (b0 :: bytes)).2 with
  | true =>
    rw [← wcPutbytes_eq met, ← Prod.mk.eta (p := wcPutbytes works out (b0 :: bytes)), met]
  | false =>
    rw [← Prod.mk.eta (p := wcPutbytes works out (b0 :: bytes)), met] at done
    have negative : (-1 : ℤ) = cp := done
    omega

/-- Calls that succeed have written the encodings. -/
theorem fputwcs_eq (valid : ∀ cp ∈ cps, cp ≤ 0x10ffff)
    (done : (fputwcs works out cps).2 = cps.map Nat.cast) :
    ∃ items : List WideItem, items.map WideItem.value = cps.map Nat.cast ∧
      (fputwcs works out cps).1 = out ++ items.flatMap WideItem.bytes := by
  induction cps generalizing out with
  | nil => exact ⟨[], rfl, (List.append_nil out).symm⟩
  | cons cp cps ih =>
    obtain ⟨first, rest⟩ := List.forall_mem_cons.1 valid
    rw [fputwcs] at done ⊢
    obtain ⟨one, more⟩ := List.cons.inj done
    obtain ⟨items, values, written⟩ := ih rest more
    refine ⟨.char cp first :: items, ?_, ?_⟩
    · rw [List.map_cons, List.map_cons, values]
      rfl
    · dsimp only
      rw [written, yosFputwc_eq first one, List.flatMap_cons, List.append_assoc]

theorem cutShort_nil : CutShort [] := ⟨0, by decide, [0], rfl, 0, by decide, rfl⟩

/-- A stream of some bytes. -/
def listBytes : ByteSource (List UInt8) where
  get l := (l.head?, l.tail)
  left := List.length
  less l b l' found := by
    cases l with
    | nil => cases found
    | cons c l =>
      cases found
      exact Nat.lt_succ_self _
  unread l := l
  hands _ := ⟨rfl, rfl⟩

end Yos
