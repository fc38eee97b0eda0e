import Yos.Libc.ScanfText

/-!
# Runs of a scan

For a directive the code does what C does exactly where the directive is one that it can do (`agrees_iff`).  Of a number
that is so where the code reads the item that C reads (`readable_iff`) and stores an object of the same size.  A scan
goes from directive to directive, and calls of `fscanf` from line to line.
-/

namespace Yos

namespace Scanf

open Numeral Bytes
open Printf (Guest front percent front_cons)

/-! ## Characters -/

section Characters

/-- What is left of a text in a field behind its first `i` characters. -/
def cutFrom (cap : Option ℕ) (i : ℕ) (l : List UInt8) : List UInt8 :=
  match cap with
  | none => l
  | some n => l.take (n - i)

theorem cutFrom_cons (cap : Option ℕ) (i : ℕ) (c : UInt8) (l : List UInt8) :
    cutFrom cap i (c :: l) = if cap.all (i < ·) then c :: cutFrom cap (i + 1) l else [] := by
  cases cap with
  | none => rfl
  | some n =>
    rw [cutFrom, Option.all_some]
    by_cases lt : i < n
    · rw [decide_eq_true lt, if_pos rfl, show n - i = n - (i + 1) + 1 by omega, List.take_succ_cons]
      rfl
    · rw [decide_eq_false lt, if_neg Bool.false_ne_true, Nat.sub_eq_zero_of_le (Nat.le_of_not_lt lt), List.take_zero]

/-- The loop stores the characters in front that pass the test, as far as the field goes. -/
theorem runLoop_eq (g : Guest) (p : ℕ) (ok : UInt8 → Bool) (cap : Option ℕ) (l : List UInt8) (i : ℕ) :
    runLoop g p ok cap l i = (arrayStores g p i ((cutFrom cap i l).takeWhile ok),
      i + ((cutFrom cap i l).takeWhile ok).length) := by
  induction l generalizing i with
  | nil =>
    have nil : cutFrom cap i [] = [] := by cases cap <;> simp [cutFrom]
    rw [nil]
    rfl
  | cons c l ih =>
    rw [runLoop, cutFrom_cons]
    cases room : cap.all (i < ·) with
    | false => simp [arrayStores]
    | true =>
      rw [if_pos rfl, Bool.and_true]
      cases passes : ok c with
      | false => simp [passes, arrayStores]
      | true =>
        rw [if_pos rfl, ih, List.takeWhile_cons_of_pos passes, List.length_cons, arrayStores]
        exact Prod.ext rfl (Nat.add_right_comm i 1 _)

theorem arrayStores_append (g : Guest) (p i : ℕ) (l m : List UInt8) :
    arrayStores g p i (l ++ m) = arrayStores g p i l ++ arrayStores g p (i + l.length) m := by
  induction l generalizing i with
  | nil => rfl
  | cons c l ih =>
    rw [List.cons_append, arrayStores, ih, arrayStores, List.append_assoc, List.length_cons,
      show i + 1 + l.length = i + (l.length + 1) by omega]

theorem arrayStores_null (g : Guest) (i : ℕ) (l : List UInt8) : arrayStores g 0 i l = [] := by
  induction l generalizing i with
  | nil => rfl
  | cons c l ih => rw [arrayStores, ih, storeByte, if_neg fun h => h.1 rfl, List.append_nil]

theorem Scan.store_nil (s : Scan) : s.store [] = s := by rw [Scan.store, List.append_nil]

/-- The conversions of characters assign what they take. -/
theorem taken_eq_assign (g : Guest) (suppress : Bool) (s : Scan) (i : ℕ) (l : List UInt8) :
    taken suppress ((destination g suppress s).2.store (arrayStores g (destination g suppress s).1 0 l)) i =
      assign g suppress (s.read i) fun p => arrayStores g p 0 l := by
  cases suppress with
  | true =>
    show (s.store (arrayStores g 0 0 l)).read i = s.read i
    rw [arrayStores_null, s.store_nil]
  | false => rfl

theorem fieldCap_value (w : Width) : fieldCap w.value = w.value := by
  rw [fieldCap, Width.value]
  by_cases nil : w.digits = []
  · rw [if_pos nil]
    rfl
  · rw [if_neg nil, Option.filter_some, if_pos (decide_eq_true (w.pos nil))]

end Characters

/-! ## Numerals -/

section Buffer

variable {base cap n : ℕ} {l b : List UInt8}

/-- The code finds the mark of an item. -/
theorem marked_take_iff (known : base ≠ 0) : marked base (b.take n) = true ↔
    base = 16 ∧ 1 < n ∧ front b = 48 ∧ isHexMark (front b.tail) = true := by
  rw [marked_iff]
  constructor
  · rintro ⟨sixteen, x, rest, eq, hex⟩
    obtain ⟨n, rfl⟩ : ∃ k, n = k + 2 := by
      have length := congrArg List.length eq
      rw [List.length_take, List.length_cons, List.length_cons] at length
      exact ⟨n - 2, by omega⟩
    match b, eq with
    | z :: y :: b, eq =>
      obtain ⟨zero, more⟩ := List.cons.inj (eq : z :: y :: b.take n = 48 :: x :: rest)
      obtain ⟨same, -⟩ := List.cons.inj more
      exact ⟨sixteen.resolve_left known, by omega, zero, same ▸ hex⟩
  · rintro ⟨sixteen, lt, zero, hex⟩
    obtain ⟨n, rfl⟩ : ∃ k, n = k + 2 := ⟨n - 2, by omega⟩
    match b, zero, hex with
    | z :: y :: b, zero, hex =>
      exact ⟨.inr sixteen, y, b.take n, by rw [show z = 48 from zero]; rfl, hex⟩

theorem scratchDigit_of_ne_zero (bases : base = 8 ∨ base = 10 ∨ base = 16) : scratchDigit base = isDigit base := by
  funext c
  rcases bases with rfl | rfl | rfl <;> simp [scratchDigit]

/-- Every figure is a hexadecimal digit. -/
theorem scratchDigit_zero : scratchDigit 0 = isDigit 16 := by
  funext c
  cases hex : isDigit 16 c with
  | true => simp [scratchDigit, hex]
  | false =>
    have figure : ∀ r ≤ 16, isDigit r c = false := fun r le => by
      rw [Bool.eq_false_iff]
      exact fun h => absurd (isDigit_mono le h) (by rw [hex]; exact Bool.false_ne_true)
    simp [scratchDigit, figure]

/-- What the buffer holds of a text that fits in it. -/
def held (base : ℕ) (t : List UInt8) : List UInt8 :=
  if base = 0 then t.take (signLength t) ++ (t.drop (signLength t)).takeWhile (isDigit 16) else item base t

theorem scratchOf_eq_held (bases : base = 0 ∨ base = 8 ∨ base = 10 ∨ base = 16) (pos : 0 < cap) (l : List UInt8) :
    scratchOf base cap l = held base (l.take cap) := by
  have short := signLength_le_one l
  have sign : (l.take (signLength l)).length = signLength l := by
    rw [List.length_take, Nat.min_eq_left (signLength_le l)]
  have front_take : (l.take cap).take (signLength l) = l.take (signLength l) := by
    rw [List.take_take, Nat.min_eq_left (by omega)]
  have behind : (l.take cap).drop (signLength l) = (l.drop (signLength l)).take (cap - signLength l) := List.drop_take
  rw [held, signLength_take pos, front_take, behind]
  simp only [scratchOf, if_pos pos, sign]
  generalize l.drop (signLength l) = b at behind ⊢
  by_cases open_ : base = 0
  · rw [if_pos open_, if_neg (fun h => by omega), List.append_nil, List.length_nil, List.drop_zero, Nat.sub_zero, open_,
      scratchDigit_zero]
  · have mark : (if base = 16 ∧ signLength l + 1 < cap ∧ front b = 48 ∧ isHexMark (front b.tail) = true then b.take 2
        else []) = (b.take (cap - signLength l)).take (markLength base (b.take (cap - signLength l))) := by
      have iff : marked base (b.take (cap - signLength l)) = true ↔
          base = 16 ∧ signLength l + 1 < cap ∧ front b = 48 ∧ isHexMark (front b.tail) = true := by
        rw [marked_take_iff open_, show 1 < cap - signLength l ↔ signLength l + 1 < cap by omega]
      rw [markLength]
      by_cases marks : marked base (b.take (cap - signLength l)) = true
      · have room := (iff.1 marks).2.1
        rw [if_pos (iff.1 marks), if_pos marks, List.take_take, Nat.min_eq_left (by omega)]
      · rw [if_neg fun h => marks (iff.2 h), if_neg marks, List.take_zero]
    have length : ((b.take (cap - signLength l)).take (markLength base (b.take (cap - signLength l)))).length =
        markLength base (b.take (cap - signLength l)) := by
      rw [List.length_take, Nat.min_eq_left (markLength_le _ _)]
    rw [if_neg open_, mark, length, scratchDigit_of_ne_zero (bases.resolve_left open_), item, itemBody, itemDigits,
      signLength_take pos, front_take, behind, List.append_assoc, itemRadix_of_ne_zero open_, List.drop_take]

end Buffer

section Reading

variable {base n : ℕ} {l b : List UInt8}

theorem held_front (base : ℕ) (l : List UInt8) : held base l <+: l := by
  rw [held]
  split_ifs
  · obtain ⟨rest, eq⟩ := List.takeWhile_prefix (l := l.drop (signLength l)) (isDigit 16)
    exact ⟨rest, by rw [List.append_assoc, eq, List.take_append_drop]⟩
  · exact item_front base l

theorem takeWhile_of_marked (mark : marked base b = true) (pos : 0 < n) : (b.take n).takeWhile (isDigit 16) = [48] := by
  obtain ⟨-, x, rest, rfl, hex⟩ := marked_iff.1 mark
  obtain ⟨n, rfl⟩ := Nat.exists_eq_succ_of_ne_zero pos.ne'
  rw [List.take_succ_cons, List.takeWhile_cons_of_pos (by decide)]
  cases n with
  | zero => rfl
  | succ n =>
    rw [List.take_succ_cons, List.takeWhile_cons_of_neg]
    rw [isDigit_of_isHexMark hex (by omega)]
    exact Bool.false_ne_true

/-- Digits have no mark. -/
theorem marked_of_digits (digits : ∀ c ∈ b, isDigit 16 c = true) : marked base b = false := by
  rw [Bool.eq_false_iff]
  intro mark
  obtain ⟨-, x, rest, rfl, hex⟩ := marked_iff.1 mark
  have digit := digits x (by simp)
  rw [isDigit_of_isHexMark hex (by omega)] at digit
  cases digit

/-- No figure is in front of a text. -/
def Figureless (b : List UInt8) : Prop := ∀ c ∈ b.head?, isDigit 10 c = false

theorem figureless_cons {c : UInt8} : Figureless (c :: b) ↔ isDigit 10 c = false :=
  ⟨fun h => h c rfl, fun h _ mem => Option.some.inj mem ▸ h⟩

theorem itemDigits_eq_nil_iff (plain : marked 0 b = false) : itemDigits 0 b = [] ↔ Figureless b := by
  rw [itemDigits_of_unmarked plain]
  cases b with
  | nil => exact iff_of_true rfl fun c mem => by cases mem
  | cons c b =>
    have radix : itemRadix 0 (c :: b) = if c = 48 then 8 else 10 := by
      rw [itemRadix, if_pos rfl, plain, if_neg Bool.false_ne_true]
      exact if_congr Option.some_inj rfl rfl
    rw [radix, figureless_cons]
    by_cases zero : c = 48
    · rw [if_pos zero, zero, List.takeWhile_cons_of_pos (by decide)]
      exact iff_of_false (List.cons_ne_nil _ _) (by decide)
    · rw [if_neg zero]
      cases digit : isDigit 10 c with
      | true => simp [digit]
      | false => simp [digit]

theorem figureless_takeWhile (pos : 0 < n) (b : List UInt8) :
    Figureless ((b.take n).takeWhile (isDigit 16)) ↔ Figureless b := by
  obtain ⟨n, rfl⟩ := Nat.exists_eq_succ_of_ne_zero pos.ne'
  cases b with
  | nil => exact Iff.rfl
  | cons c b =>
    rw [List.take_succ_cons, figureless_cons]
    cases hex : isDigit 16 c with
    | true => rw [List.takeWhile_cons_of_pos hex, figureless_cons]
    | false =>
      rw [List.takeWhile_cons_of_neg (by rw [hex]; exact Bool.false_ne_true)]
      refine iff_of_true (fun d mem => by cases mem) ?_
      rw [Bool.eq_false_iff]
      exact fun digit => absurd (isDigit_mono (show 10 ≤ 16 by omega) digit) (by rw [hex]; exact Bool.false_ne_true)

end Reading

section Readable

variable {base : ℕ} {l : List UInt8}

/-- The code reads the item in front of a field, or finds no numeral where C finds none. -/
def Reads (base : ℕ) (l : List UInt8) : Prop :=
  if itemDigits base (l.drop (signLength l)) = [] then (parse base (held base (l.take 63))).length = 0
  else (held base (l.take 63)).length = (item base l).length

theorem readable_iff_known (known : base ≠ 0) (solid : Solid l) : Readable base l ↔ Reads base l := by
  have text : held base (l.take 63) = (item base l).take 63 := by rw [held, if_neg known, item_take solid]
  have size := List.length_take (i := 63) (l := item base l)
  rw [Reads, text]
  by_cases nil : itemDigits base (l.drop (signLength l)) = []
  · have short := length_item_le nil
    have solid' := solid_of_front solid (item_front base l)
    rw [if_pos nil, List.take_of_length_le (by omega), length_parse_eq_zero_iff solid', (sign_item base l).1,
      (sign_item base l).2]
    cases mark : marked base (l.drop (signLength l)) with
    | true =>
      refine iff_of_false (fun h => (h.2.1 mark).2 nil) fun h => ?_
      obtain ⟨sixteen, x, rest, eq, hex⟩ := marked_iff.1 mark
      have body : itemBody base (l.drop (signLength l)) = [48, x] := by
        rw [itemBody, nil, List.append_nil, markLength, if_pos mark, eq]
        rfl
      rw [body, marked_iff.2 ⟨sixteen, x, [], rfl, hex⟩] at h
      exact absurd h.2 (by decide)
    | false =>
      refine iff_of_true ⟨by omega, fun marks => ?_, fun open_ => absurd open_ known⟩ ?_
      · rw [mark] at marks
        cases marks
      · rw [itemBody_of_unmarked mark, nil]
        exact ⟨by rw [itemDigits, List.drop_nil, List.takeWhile_nil], rfl⟩
  · rw [if_neg nil, size]
    constructor
    · rintro ⟨short, -, -⟩
      omega
    · intro same
      exact ⟨by omega, fun _ => ⟨known, nil⟩, fun open_ => absurd open_ known⟩

theorem held_open (l : List UInt8) : held 0 (l.take 63) =
    l.take (signLength l) ++ ((l.drop (signLength l)).take (63 - signLength l)).takeWhile (isDigit 16) := by
  have short := signLength_le_one l
  rw [held, if_pos rfl, signLength_take (by omega), List.take_take, Nat.min_eq_left (by omega), List.drop_take]

/-- For an item with digits and no mark, the code is to stop where they do. -/
theorem readable_iff_plain (plain : marked 0 (l.drop (signLength l)) = false)
    (ne : itemDigits 0 (l.drop (signLength l)) ≠ []) :
    Readable 0 l ↔ (held 0 (l.take 63)).length = (item 0 l).length := by
  have short := signLength_le_one l
  have length := length_item 0 l
  rw [markLength, plain, if_neg Bool.false_ne_true, Nat.zero_add] at length
  have behind : l.drop (item 0 l).length =
      (l.drop (signLength l)).drop (itemDigits 0 (l.drop (signLength l))).length := by rw [length, List.drop_drop]
  rw [held_open, List.length_append, List.length_take, Nat.min_eq_left (signLength_le l), Readable, behind, length]
  have digits := itemDigits_of_unmarked plain
  generalize itemDigits 0 (l.drop (signLength l)) = ds at digits ne ⊢
  have radix : itemRadix 0 (l.drop (signLength l)) ≤ 16 := by
    rw [itemRadix, if_pos rfl, plain, if_neg Bool.false_ne_true]
    split_ifs <;> omega
  generalize l.drop (signLength l) = b at plain digits radix ⊢
  obtain ⟨rest, rfl⟩ : ds <+: b := digits ▸ List.takeWhile_prefix _
  have hex : ∀ c ∈ ds, isDigit 16 c = true := fun c mem => by
    rw [digits] at mem
    exact isDigit_mono radix (List.mem_takeWhile_imp mem)
  have stop : isDigit 16 (front rest) = false ↔ (rest.takeWhile (isDigit 16)).length = 0 := by
    cases rest with
    | nil => exact iff_of_true (by decide) rfl
    | cons c rest =>
      rw [front_cons, List.takeWhile_cons]
      cases isDigit 16 c <;> simp
  rw [List.drop_left, plain, stop, ← List.take_takeWhile, List.takeWhile_append_of_pos hex, List.length_take,
    List.length_append]
  constructor
  · rintro ⟨fits, -, ends⟩
    rcases (ends rfl) with nil | full | stops
    · exact absurd nil ne
    · omega
    · omega
  · intro same
    refine ⟨by omega, fun mark => absurd mark Bool.false_ne_true, fun _ => .inr ?_⟩
    omega

theorem readable_iff_open (solid : Solid l) : Readable 0 l ↔ Reads 0 l := by
  have short := signLength_le_one l
  have front : ((l.drop (signLength l)).take (63 - signLength l)).takeWhile (isDigit 16) <+: l.drop (signLength l) :=
    (List.takeWhile_prefix _).trans (List.take_prefix _ _)
  have sign := sign_of_front front
  have text := held_open l
  have prefixes : held 0 (l.take 63) <+: l := (held_front 0 _).trans (List.take_prefix _ _)
  have digits : ∀ c ∈ ((l.drop (signLength l)).take (63 - signLength l)).takeWhile (isDigit 16), isDigit 16 c = true :=
    fun c mem => List.mem_takeWhile_imp mem
  have none : (parse 0 (held 0 (l.take 63))).length = 0 ↔ Figureless (l.drop (signLength l)) := by
    rw [length_parse_eq_zero_iff (solid_of_front solid prefixes), text, sign.1, sign.2,
      itemDigits_eq_nil_iff (marked_of_digits digits), marked_of_digits digits, figureless_takeWhile (by omega)]
    exact and_iff_left rfl
  rw [Reads]
  cases mark : marked 0 (l.drop (signLength l)) with
  | true =>
    refine iff_of_false (fun h => (h.2.1 mark).1 rfl) ?_
    split_ifs with nil
    · obtain ⟨-, x, rest, eq, -⟩ := marked_iff.1 mark
      rw [none, eq, figureless_cons]
      decide
    · rw [text, List.length_append, takeWhile_of_marked mark (by omega), length_item, markLength, if_pos mark,
        List.length_take, Nat.min_eq_left (signLength_le l), List.length_singleton]
      omega
  | false =>
    split_ifs with nil
    · have small := length_item_le nil
      refine iff_of_true ⟨by omega, fun marks => ?_, fun _ => .inl nil⟩ (none.2 ((itemDigits_eq_nil_iff mark).1 nil))
      rw [mark] at marks
      cases marks
    · exact readable_iff_plain mark nil

/-- The condition on the input is exact. -/
theorem readable_iff (base : ℕ) (solid : Solid l) : Readable base l ↔ Reads base l := by
  by_cases open_ : base = 0
  · rw [open_]
    exact readable_iff_open solid
  · exact readable_iff_known open_ solid

end Readable

/-! ## The code and C -/

section Words

variable (g : Guest) (src : List UInt8) (suppress : Bool) (w : Width) (s : Scan)

theorem destination_pos : (destination g suppress s).2.pos = s.pos := by cases suppress <;> rfl

/-- The characters in front of a field that pass a test. -/
def fieldOf (w : Width) (ok : UInt8 → Bool) (l : List UInt8) : List UInt8 := (w.cut l).takeWhile ok

theorem runLoop_field (p : ℕ) (ok : UInt8 → Bool) (l : List UInt8) :
    runLoop g p ok (fieldCap w.value) l 0 = (arrayStores g p 0 (fieldOf w ok l), (fieldOf w ok l).length) := by
  rw [fieldCap_value, runLoop_eq, Nat.zero_add]
  rfl

/-- The characters of an array, and the NUL behind them. -/
theorem arrayStores_nul (p : ℕ) (l : List UInt8) :
    arrayStores g p 0 l ++ storeByte g p l.length 0 = arrayStores g p 0 (l ++ [0]) := by
  rw [arrayStores_append, Nat.zero_add, arrayStores, arrayStores, List.append_nil]

theorem scanWord_eq : scanWord g src suppress w.value s =
    if behindSpace src s = [] then .stop (s.nmatches == 0)
    else .next (assign g suppress ((skipWs src s).read (fieldOf w (fun c => !isSpace c) (behindSpace src s)).length)
      fun p => arrayStores g p 0 (fieldOf w (fun c => !isSpace c) (behindSpace src s) ++ [0])) := by
  rw [scanWord]
  refine if_congr Iff.rfl rfl ?_
  simp only [destination_pos, runLoop_field, arrayStores_nul]
  exact congrArg Effect.next (taken_eq_assign g suppress (skipWs src s) _ _)

theorem scanSet_eq (accept : UInt8 → Bool) : scanSet g src suppress w.value accept s =
    if src.drop s.pos = [] then .stop (s.nmatches == 0)
    else if fieldOf w accept (src.drop s.pos) = [] then .stop false
    else .next (assign g suppress (s.read (fieldOf w accept (src.drop s.pos)).length)
      fun p => arrayStores g p 0 (fieldOf w accept (src.drop s.pos) ++ [0])) := by
  rw [scanSet]
  refine if_congr Iff.rfl rfl ?_
  simp only [destination_pos, runLoop_field, arrayStores_nul, List.length_eq_zero_iff]
  refine if_congr Iff.rfl rfl ?_
  exact congrArg Effect.next (taken_eq_assign g suppress s _ _)

theorem scanChars_eq : scanChars g src suppress w.value s =
    if src.drop s.pos = [] then .stop (s.nmatches == 0)
    else .next (assign g suppress (s.read ((src.drop s.pos).take (w.value.getD 1)).length)
      fun p => arrayStores g p 0 ((src.drop s.pos).take (w.value.getD 1))) := by
  have all : ∀ l : List UInt8, l.takeWhile (fun _ => true) = l := fun l => List.takeWhile_eq_self_iff.2 fun _ _ => rfl
  rw [scanChars]
  refine if_congr Iff.rfl rfl ?_
  simp only [destination_pos, fieldCap_value, runLoop_eq, cutFrom, Nat.sub_zero, Nat.zero_add, all]
  exact congrArg Effect.next (taken_eq_assign g suppress s _ _)

end Words

section Integers

variable (g : Guest) (src : List UInt8) (suppress : Bool) (w : Width) (len : Length) (conv : IntConv) (s : Scan)

theorem solid_behindSpace : Solid (behindSpace src s) := by
  have behind : behindSpace src s = (src.drop s.pos).dropWhile isSpace := by
    rw [← Printf.drop_takeWhile, List.drop_drop]
    rfl
  intro c mem
  rw [behind] at mem
  have head := List.head?_dropWhile_not isSpace (src.drop s.pos)
  rw [Option.mem_def.1 mem] at head
  exact head

theorem Width.cut_front (l : List UInt8) : w.cut l <+: l := by
  rw [Width.cut]
  split
  · exact List.prefix_refl l
  · exact List.take_prefix _ l

theorem Width.value_pos {n : ℕ} (mem : n ∈ w.value) : 0 < n := by
  rw [Width.value] at mem
  split_ifs at mem with nil
  · cases mem
  · exact Option.some.inj mem ▸ w.pos nil

theorem scratchCap_pos : 0 < scratchCap w.value := by
  rcases eq : w.value with _ | n
  · decide
  · rw [scratchCap]
    split_ifs with fits
    · exact fits.1
    · decide

theorem Width.take_cut (l : List UInt8) : (w.cut l).take 63 = l.take (scratchCap w.value) := by
  rw [Width.cut]
  rcases eq : w.value with _ | n
  · rfl
  · have pos := w.value_pos (Option.mem_def.2 eq)
    rw [scratchCap, List.take_take]
    split_ifs with fits
    · rw [Nat.min_eq_right (by omega)]
    · rw [Nat.min_eq_left (by omega)]

/-- The numeral that the code reads of a field. -/
def numeralOf (base : ℕ) (l : List UInt8) : Parsed := parse base (held base (l.take 63))

/-- What the code does for a number in a field behind the white space. -/
def codeNumber (l : List UInt8) : Effect :=
  if (numeralOf conv.base l).length = 0 then .stop false
  else .next (assign g suppress (s.read (held conv.base (l.take 63)).length) fun p =>
    object g p (lowBytes (storeSize len.code) (conv.value (numeralOf conv.base l))))

theorem object_eq {bytes : List UInt8} (ne : bytes ≠ []) (p : ℕ) :
    (if p ≠ 0 ∧ p < g.memorySize then object g p bytes else []) = object g p bytes := by
  have pos := List.length_pos_iff.2 ne
  by_cases valid : p ≠ 0 ∧ p + bytes.length ≤ g.memorySize
  · rw [if_pos ⟨valid.1, by omega⟩]
  · rw [object, if_neg valid, ite_self]

theorem length_lowBytes (n : ℕ) (v : ℤ) : (lowBytes n v).length = n := by
  rw [lowBytes, List.length_map, List.length_range]

theorem storeSize_pos (length : ℕ) : 0 < storeSize length := by
  rw [storeSize]
  split_ifs <;> omega

theorem scanInt_eq : scanInt g src suppress w.value len.code conv.char s =
    if behindSpace src s = [] then .stop (s.nmatches == 0)
    else codeNumber g suppress len conv (skipWs src s) (w.cut (behindSpace src s)) := by
  have base : convBase conv.char = conv.base := by cases conv <;> rfl
  have bases : conv.base = 0 ∨ conv.base = 8 ∨ conv.base = 10 ∨ conv.base = 16 := by cases conv <;> decide
  have value : ∀ n, (if conv.char = 100 ∨ conv.char = 105 then (cStrtol 64 n).value else (cStrtoul 64 n).value) =
      conv.value n := fun n => by cases conv <;> rfl
  have scratch : scratchOf conv.base (scratchCap w.value) (src.drop (skipWs src s).pos) =
      held conv.base ((w.cut (behindSpace src s)).take 63) := by
    rw [scratchOf_eq_held bases (scratchCap_pos w), w.take_cut]
    rfl
  have bytes : ∀ v, lowBytes (storeSize len.code) v ≠ [] := fun v nil => by
    have pos := storeSize_pos len.code
    rw [← length_lowBytes (storeSize len.code) v, nil] at pos
    exact absurd pos (Nat.lt_irrefl 0)
  rw [scanInt, codeNumber]
  refine if_congr Iff.rfl rfl ?_
  have fold : parse conv.base (held conv.base ((w.cut (behindSpace src s)).take 63)) =
      numeralOf conv.base (w.cut (behindSpace src s)) := rfl
  simp only [base, scratch, fold, value, object_eq g (bytes _)]
  by_cases nil : held conv.base ((w.cut (behindSpace src s)).take 63) = []
  · have zero : (numeralOf conv.base (w.cut (behindSpace src s))).length = 0 := by
      rw [numeralOf, nil]
      exact Nat.eq_zero_of_le_zero (length_parse_le _ [])
    rw [if_pos nil, if_pos zero]
  · rw [if_neg nil]
    refine if_congr Iff.rfl rfl ?_
    cases suppress <;> rfl

end Integers

/-- An iteration of the code does what C does for the directive. -/
def Agrees (converted : Bool) (s : Scan) : Effect → Outcome → Prop
  | .next s', .done s'' => s' = s''
  | .stop hitEof, .fails eof _ =>
    (if s.nmatches = 0 ∧ hitEof then (-1 : ℤ) else s.nmatches) = if eof && !converted then (-1 : ℤ) else s.nmatches
  | _, _ => False

section Agreement

variable {g : Guest} {src : List UInt8} {converted : Bool} {s : Scan}

theorem agrees_fails (converted : Bool) (s : Scan) (pos : ℕ) : Agrees converted s (.stop false) (.fails false pos) := by
  simp [Agrees]

/-- At the end of the input the code returns `EOF` if nothing is assigned, and C if nothing is converted. -/
theorem agrees_eof_iff (first : converted = false → s.nmatches = 0) {hitEof : Bool}
    (hit : s.nmatches = 0 → hitEof = true) (pos : ℕ) :
    Agrees converted s (.stop hitEof) (.fails true pos) ↔ ¬ Unassigned converted s := by
  rw [Agrees, Unassigned]
  by_cases none : s.nmatches = 0
  · rw [if_pos ⟨none, hit none⟩, none]
    cases converted <;> simp
  · cases converted with
    | false => exact absurd (first rfl) none
    | true => simp [none]

theorem agrees_lit_iff (first : converted = false → s.nmatches = 0) (c : UInt8) (plain) :
    Agrees converted s (codeStep g src s (.lit c plain)) (cStep g src s (.lit c plain)) ↔
      Good g src converted s (.lit c plain) := by
  rw [codeStep, cStep, cLiteral, Good]
  by_cases nil : src.drop s.pos = []
  · rw [if_pos nil, if_pos nil, agrees_eof_iff first fun _ => rfl]
    exact ⟨fun h _ => h, fun h => h nil⟩
  · rw [if_neg nil, if_neg nil]
    refine iff_of_true ?_ fun h => absurd h nil
    by_cases same : front (src.drop s.pos) = c
    · rw [if_neg (not_not.2 same), if_pos same]
      exact rfl
    · rw [if_pos same, if_neg same]
      exact agrees_fails converted s s.pos

theorem agrees_word_iff (first : converted = false → s.nmatches = 0) (suppress : Bool) (w : Width) :
    Agrees converted s (codeStep g src s (.word suppress w)) (cStep g src s (.word suppress w)) ↔
      (behindSpace src s = [] → ¬ Unassigned converted s) := by
  rw [codeStep, scanWord_eq, cStep]
  show Agrees converted s _ (if behindSpace src s = [] then _ else _) ↔ _
  by_cases nil : behindSpace src s = []
  · rw [if_pos nil, if_pos nil, agrees_eof_iff first beq_iff_eq.2]
    exact ⟨fun h _ => h, fun h => h nil⟩
  · rw [if_neg nil, if_neg nil]
    exact iff_of_true rfl fun h => absurd h nil

theorem agrees_set_iff (first : converted = false → s.nmatches = 0) (suppress : Bool) (w : Width) (set : ScanSet) :
    Agrees converted s (codeStep g src s (.set suppress w set)) (cStep g src s (.set suppress w set)) ↔
      (src.drop s.pos = [] → ¬ Unassigned converted s) := by
  rw [codeStep, scanSet_eq, cStep]
  by_cases nil : src.drop s.pos = []
  · rw [if_pos nil, if_pos nil, agrees_eof_iff first beq_iff_eq.2]
    exact ⟨fun h _ => h, fun h => h nil⟩
  · rw [if_neg nil, if_neg nil]
    refine iff_of_true ?_ fun h => absurd h nil
    by_cases none : fieldOf w set.has (src.drop s.pos) = []
    · rw [if_pos none]
      exact (if_pos none).symm ▸ agrees_fails converted s s.pos
    · rw [if_neg none]
      exact (if_neg none).symm ▸ rfl

theorem agrees_chars_iff (first : converted = false → s.nmatches = 0) (suppress : Bool) (w : Width) :
    Agrees converted s (codeStep g src s (.chars suppress w)) (cStep g src s (.chars suppress w)) ↔
      if src.drop s.pos = [] then ¬ Unassigned converted s
      else w.value.getD 1 ≤ (src.drop s.pos).length := by
  rw [codeStep, scanChars_eq, cStep]
  by_cases nil : src.drop s.pos = []
  · rw [if_pos nil, if_pos nil, if_pos nil, agrees_eof_iff first beq_iff_eq.2]
  · rw [if_neg nil, if_neg nil, if_neg nil]
    by_cases short : (src.drop s.pos).length < w.value.getD 1
    · rw [if_pos short]
      exact iff_of_false id (Nat.not_le.2 short)
    · rw [if_neg short, List.length_take, Nat.min_eq_left (Nat.not_lt.1 short)]
      exact iff_of_true rfl (Nat.not_lt.1 short)

theorem agrees_stop_eof_iff (converted : Bool) (s : Scan) (pos : ℕ) :
    Agrees converted s (.stop false) (.fails true pos) ↔ converted = true := by
  rw [Agrees]
  cases converted with
  | true => simp
  | false =>
    refine iff_of_false (fun h => ?_) Bool.false_ne_true
    simp at h

theorem agrees_percent_iff :
    Agrees converted s (codeStep g src s .percent) (cStep g src s .percent) ↔ Good g src converted s .percent := by
  rw [codeStep, cStep, cLiteral, Good]
  show Agrees converted s _
    (if behindSpace src s = [] then _ else if front (behindSpace src s) = percent then _ else _) ↔ _
  by_cases here : front (src.drop s.pos) = percent
  · have still : skipWs src s = s := by
      rw [skipWs]
      rcases eq : src.drop s.pos with _ | ⟨c, rest⟩
      · rfl
      · rw [eq] at here
        rw [List.takeWhile_cons_of_neg (by rw [show c = percent from here]; decide)]
        rfl
    have same : behindSpace src s = src.drop s.pos := by rw [behindSpace, still]
    have ne : src.drop s.pos ≠ [] := fun nil => by
      rw [nil] at here
      exact absurd here (by decide)
    rw [if_pos here, same, if_neg ne, if_pos here, still]
    exact iff_of_true rfl (.inl here)
  · rw [if_neg here, or_iff_right here]
    by_cases nil : behindSpace src s = []
    · rw [if_pos nil, agrees_stop_eof_iff, nil]
      exact ⟨fun h => ⟨by decide, fun _ => h⟩, fun h => h.2 rfl⟩
    · rw [if_neg nil]
      by_cases there : front (behindSpace src s) = percent
      · rw [if_pos there]
        exact iff_of_false id fun h => h.1 there
      · rw [if_neg there]
        exact iff_of_true (agrees_fails converted s _) ⟨there, fun h => absurd h nil⟩

/-- Objects of two sizes for a value are stored alike only where nothing is. -/
theorem object_eq_iff (g : Guest) (p size stored : ℕ) (v : ℤ) :
    object g p (lowBytes size v) = object g p (lowBytes stored v) ↔
      size = stored ∨ p = 0 ∨ g.memorySize < p + min size stored := by
  rw [object, object, length_lowBytes, length_lowBytes]
  by_cases null : p = 0
  · rw [if_neg fun h => h.1 null, if_neg fun h => h.1 null]
    exact iff_of_true rfl (.inr (.inl null))
  · by_cases fits : p + size ≤ g.memorySize <;> by_cases fits' : p + stored ≤ g.memorySize
    · rw [if_pos ⟨null, fits⟩, if_pos ⟨null, fits'⟩]
      constructor
      · intro eq
        have bytes : lowBytes size v = lowBytes stored v := by simpa using eq
        exact .inl (by rw [← length_lowBytes size v, bytes, length_lowBytes])
      · rintro (rfl | none | none)
        · rfl
        · exact absurd none null
        · omega
    · rw [if_pos ⟨null, fits⟩, if_neg fun h => fits' h.2]
      exact iff_of_false (List.cons_ne_nil _ _) (by omega)
    · rw [if_neg fun h => fits h.2, if_pos ⟨null, fits'⟩]
      exact iff_of_false (List.cons_ne_nil _ _).symm (by omega)
    · rw [if_neg fun h => fits h.2, if_neg fun h => fits' h.2]
      exact iff_of_true rfl (by omega)

theorem store_inj {l m : List Store} : s.store l = s.store m ↔ l = m := by
  rw [Scan.store, Scan.store, Scan.mk.injEq]
  simp

theorem agrees_count_iff (len : Length) :
    Agrees converted s (codeStep g src s (.count len)) (cStep g src s (.count len)) ↔ Sized g s len.size 4 := by
  rw [Sized, ← object_eq_iff g (vaP g s).1 len.size 4 s.pos]
  exact (store_inj (s := (vaP g s).2)).trans eq_comm

theorem count_inj {t : Scan} : s.count = t.count ↔ s = t := by
  constructor
  · intro h
    cases s
    cases t
    simpa [Scan.count] using h
  · exact congrArg Scan.count

theorem assign_object_iff (suppress : Bool) (size stored n : ℕ) (v : ℤ) :
    assign g suppress ((skipWs src s).read n) (fun p => object g p (lowBytes stored v)) =
        assign g suppress ((skipWs src s).read n) (fun p => object g p (lowBytes size v)) ↔
      (suppress = false → Sized g s size stored) := by
  cases suppress with
  | true => exact iff_of_true rfl fun h => absurd h.symm Bool.false_ne_true
  | false =>
    have sized : object g (vaP g s).1 (lowBytes stored v) = object g (vaP g s).1 (lowBytes size v) ↔
        Sized g s size stored := by
      rw [Sized, ← object_eq_iff g (vaP g s).1 size stored v]
      exact eq_comm
    have stores := count_inj.trans ((store_inj (s := (vaP g ((skipWs src s).read n)).2)).trans sized)
    exact stores.trans ⟨fun h _ => h, fun h => h rfl⟩

theorem assign_pos (g : Guest) (suppress : Bool) (s : Scan) (stores : ℕ → List Store) :
    (assign g suppress s stores).pos = s.pos := by cases suppress <;> rfl

/-- C's execution of a conversion of an integer, in a field behind the white space. -/
def cNumber (g : Guest) (suppress : Bool) (len : Length) (conv : IntConv) (s : Scan) (l : List UInt8) : Outcome :=
  if item conv.base l ≠ [] ∧ (parse conv.base (item conv.base l)).length = (item conv.base l).length then
    .done (assign g suppress (s.read (item conv.base l).length) fun p =>
      object g p (lowBytes len.size (conv.value (parse conv.base (item conv.base l)))))
  else .fails false (s.read (item conv.base l).length).pos

/-- The code does what C does where it can read the numeral and store the number. -/
theorem agrees_number_iff (converted : Bool) (suppress : Bool) (len : Length) (conv : IntConv) {l : List UInt8}
    (solid : Solid l) :
    Agrees converted s (codeNumber g suppress len conv (skipWs src s) l) (cNumber g suppress len conv (skipWs src s) l) ↔
      Readable conv.base l ∧ (suppress = false → itemDigits conv.base (l.drop (signLength l)) ≠ [] →
        Sized g s len.size (storeSize len.code)) := by
  have reads := readable_iff conv.base solid
  have whole := item_isNumeral_iff conv.base solid
  rw [codeNumber, cNumber]
  rw [Reads] at reads
  by_cases digits : itemDigits conv.base (l.drop (signLength l)) = []
  · rw [if_pos digits] at reads
    rw [if_neg fun h => whole.1 h digits, reads, and_iff_left fun _ ne => absurd digits ne]
    by_cases zero : (numeralOf conv.base l).length = 0
    · rw [if_pos zero]
      exact iff_of_true (agrees_fails converted s _) zero
    · rw [if_neg zero]
      exact iff_of_false id zero
  · rw [if_neg digits] at reads
    rw [if_pos (whole.2 digits), reads]
    by_cases same : (held conv.base (l.take 63)).length = (item conv.base l).length
    · have front : held conv.base (l.take 63) <+: l := (held_front _ _).trans (List.take_prefix _ _)
      have text := (List.prefix_of_prefix_length_le front (item_front conv.base l) same.le).eq_of_length same
      have number : numeralOf conv.base l = parse conv.base (item conv.base l) := by rw [numeralOf, text]
      have pos := List.length_pos_iff.2 (whole.2 digits).1
      rw [number, if_neg (by rw [(whole.2 digits).2]; omega), and_iff_right same, same]
      refine (assign_object_iff suppress len.size (storeSize len.code) _ _).trans ?_
      exact ⟨fun h plain _ => h plain, fun h plain => h plain digits⟩
    · refine iff_of_false (fun agrees => ?_) fun h => same h.1
      split_ifs at agrees
      · exact agrees
      · have pos := congrArg Scan.pos (agrees : assign _ _ _ _ = assign _ _ _ _)
        rw [assign_pos, assign_pos] at pos
        exact same (Nat.add_left_cancel pos)

theorem agrees_int_iff (first : converted = false → s.nmatches = 0) (suppress : Bool) (w : Width) (len : Length)
    (conv : IntConv) (small : w.Small) :
    Agrees converted s (codeStep g src s (.int suppress w len conv)) (cStep g src s (.int suppress w len conv)) ↔
      Good g src converted s (.int suppress w len conv) := by
  have solid := solid_of_front (solid_behindSpace src s) (w.cut_front (behindSpace src s))
  rw [codeStep, scanInt_eq, Good, and_iff_right small]
  show Agrees converted s _ (if behindSpace src s = [] then .fails true _
    else cNumber g suppress len conv (skipWs src s) (w.cut (behindSpace src s))) ↔ _
  by_cases nil : behindSpace src s = []
  · rw [if_pos nil, if_pos nil, if_pos nil, agrees_eof_iff first beq_iff_eq.2]
  · rw [if_neg nil, if_neg nil, if_neg nil]
    exact agrees_number_iff converted suppress len conv solid

end Agreement

/-! ## Runs -/

section Runs

variable {g : Guest} {src : List UInt8} {converted : Bool} {s : Scan}

theorem Good.small {d : Directive} (good : Good g src converted s d) : d.Small := by
  cases d with
  | space | lit | percent | count => trivial
  | int | word | chars | set => exact good.1

/-- The code does what C does for a directive exactly where the directive is one that it can do. -/
theorem agrees_iff (first : converted = false → s.nmatches = 0) (d : Directive) (small : d.Small) :
    Agrees converted s (codeStep g src s d) (cStep g src s d) ↔ Good g src converted s d := by
  cases d with
  | space c white => exact iff_of_true rfl trivial
  | lit c plain => exact agrees_lit_iff first c plain
  | percent => exact agrees_percent_iff
  | count len => exact agrees_count_iff len
  | int suppress w len conv => exact agrees_int_iff first suppress w len conv small
  | word suppress w => exact (agrees_word_iff first suppress w).trans (and_iff_right small).symm
  | chars suppress w => exact (agrees_chars_iff first suppress w).trans (and_iff_right small).symm
  | set suppress w set => exact (agrees_set_iff first suppress w set).trans (and_iff_right small).symm

/-- A directive that converts nothing assigns nothing. -/
theorem cStep_nmatches {d : Directive} (none : d.converts = false) {s' : Scan} (done : cStep g src s d = .done s') :
    s'.nmatches = s.nmatches := by
  have literal : ∀ (c : UInt8) (t : Scan), cLiteral src c t = .done s' → s'.nmatches = t.nmatches := by
    intro c t done
    rw [cLiteral] at done
    split_ifs at done
    cases done
    rfl
  cases d with
  | space c white =>
    cases done
    rfl
  | lit c plain => exact literal c s done
  | percent => exact literal percent (skipWs src s) done
  | count len =>
    cases done
    rfl
  | int | word | chars | set => cases none

theorem Directive.text_ne_nil (d : Directive) : d.text ≠ [] := by cases d <;> exact List.cons_ne_nil _ _

theorem cScan_ret (ds : List Directive) (converted : Bool) (s : Scan) : (cScan g src ds converted s).ret ≠ none := by
  induction ds generalizing converted s with
  | nil => exact Option.some_ne_none _
  | cons d ds ih =>
    rw [cScan]
    cases cStep g src s d with
    | done s' => exact ih _ s'
    | fails eof pos => exact Option.some_ne_none _

theorem Run.after_inj {t : Scan} {r r' : Run} : r.after s = r'.after t ↔ s = t ∧ r = r' := by
  cases r
  cases r'
  simp [Run.after, and_assoc]

/-- The code scans as C does exactly where every directive is one that it can do. -/
theorem scanLoop_eq_iff (strtod : HostStrtod) (ds : List Directive) (first : converted = false → s.nmatches = 0)
    {fuel : ℕ} (room : (formatText ds).length ≤ fuel) :
    scanLoop strtod g src fuel (formatText ds) s = cScan g src ds converted s ↔ AllGood g src ds converted s := by
  induction ds generalizing converted s fuel with
  | nil => cases fuel <;> exact iff_of_true rfl trivial
  | cons d ds ih =>
    have text : formatText (d :: ds) = d.text ++ formatText ds := List.flatMap_cons
    have ne : d.text ++ formatText ds ≠ [] := fun nil => d.text_ne_nil (List.append_eq_nil_iff.1 nil).1
    have longer := List.length_pos_iff.2 d.text_ne_nil
    have ret : (cScan g src (d :: ds) converted s).ret ≠ none := cScan_ret (d :: ds) converted s
    rw [text, List.length_append] at room
    obtain ⟨fuel, rfl⟩ : ∃ k, fuel = k + 1 := ⟨fuel - 1, by omega⟩
    have step := scanStep_text strtod g src d (formatText ds) s
    rw [text, scanLoop, if_neg ne, AllGood]
    by_cases small : d.Small
    · rw [step.1 small, ← agrees_iff first d small, cScan]
      have more : ∀ s', cStep g src s d = .done s' → ((converted || d.converts) = false → s'.nmatches = 0) := by
        intro s' done none
        rw [Bool.or_eq_false_iff] at none
        rw [cStep_nmatches none.2 done, first none.1]
      rw [cScan] at ret
      generalize cStep g src s d = outcome at more ret ⊢
      cases codeStep g src s d with
      | next s₁ =>
        cases outcome with
        | done s₂ =>
          rw [Run.after_inj]
          refine and_congr_right fun eq => ?_
          obtain rfl : s₁ = s₂ := eq
          exact ih (more s₁ rfl) (by omega)
        | fails eof pos => exact iff_of_false (fun eq => by cases congrArg Run.states eq) fun h => h.1
      | stop hitEof =>
        cases outcome with
        | done s₂ => exact iff_of_false (fun eq => by cases congrArg Run.states eq) fun h => h.1
        | fails eof pos =>
          rw [and_true]
          exact ⟨fun eq => Option.some.inj (congrArg Run.ret eq), congrArg fun n => Run.mk [] (some n)⟩
      | undefined => exact iff_of_false (fun eq => ret (congrArg Run.ret eq).symm) fun h => h.1
    · rw [step.2 small]
      exact iff_of_false (fun eq => ret (congrArg Run.ret eq).symm) fun h => small h.1.small

theorem doScan_eq_iff (strtod : HostStrtod) (g : Guest) (src : List UInt8) (ds : List Directive) (va : ℕ) :
    doScan strtod g src (formatText ds) va = cScan g src ds false ⟨0, va, 0, []⟩ ↔
      AllGood g src ds false ⟨0, va, 0, []⟩ :=
  scanLoop_eq_iff strtod ds (fun _ => rfl) le_rfl

end Runs

/-! ## Calls on a stream -/

section Streams

variable {h : Session} {c : Call}

theorem fgets_ne_nil {room : ℕ} {stream : List UInt8} (some : 0 < room) (ne : stream ≠ []) :
    fgets room stream ≠ [] := by
  obtain ⟨room, rfl⟩ := Nat.exists_eq_succ_of_ne_zero some.ne'
  cases stream with
  | nil => exact absurd rfl ne
  | cons c stream =>
    rw [fgets]
    split_ifs <;> exact List.cons_ne_nil _ _

/-- A call that the code can do is one of C. -/
theorem codeCall_eq (strtod : HostStrtod) (lined : Lined h c) : codeCall strtod h c = cCall h c := by
  obtain ⟨format, fits⟩ := lined
  have code : yosFscanf strtod h.guest (some h.stream) c.fmt c.va =
      if h.line = [] then (⟨[], some (-1)⟩, some h.stream)
      else (doScan strtod h.guest (h.line.takeWhile (· ≠ 0)) (formatText c.format) c.va,
        some (h.stream.drop h.line.length)) := by
    unfold yosFscanf
    rw [format]
    rfl
  split_ifs at fits with ended
  · have line : h.line = [] := by
      rw [Session.line, ended]
      rfl
    rw [codeCall, code, if_pos line, cCall, ended, fits, List.drop_nil]
    rfl
  · obtain ⟨solid, same, ends, good⟩ := fits
    have text : h.line.takeWhile (· ≠ 0) = h.line :=
      List.takeWhile_eq_self_iff.2 fun x mem => decide_eq_true fun zero => solid (zero ▸ mem)
    have run : doScan strtod h.guest h.line (formatText c.format) c.va =
        cScan h.guest h.line c.format false c.start := (doScan_eq_iff strtod h.guest h.line c.format c.va).2 good
    have ne : h.line ≠ [] := fgets_ne_nil (show 0 < lineSize - 1 by decide) ended
    rw [codeCall, code, if_neg ne, text, run, same, cCall, ends]
    rfl

/-- Calls that the code can do follow one another as in C. -/
theorem calls_eq (strtod : HostStrtod) {cs : List Call} (lined : AllLined cs h) :
    calls (codeCall strtod) cs h = calls cCall cs h := by
  induction cs generalizing h with
  | nil => rfl
  | cons c cs ih =>
    rw [calls, calls, codeCall_eq strtod lined.1, ih lined.2]

end Streams

/-- `sscanf` does what C's does exactly where it can do every directive, and calls of `fscanf` that it can do follow one
another as in C. -/
theorem scanf_as_c (strtod : HostStrtod) :
    (∀ (g : Guest) (src fmt va : ℕ) (text : List UInt8) (ds : List Directive),
      wstrCheck g.memory g.memorySize src = some text → wstrCheck g.memory g.memorySize fmt = some (formatText ds) →
      (yosSscanf strtod g src fmt va = cScan g text ds false ⟨0, va, 0, []⟩ ↔
        AllGood g text ds false ⟨0, va, 0, []⟩)) ∧
    (∀ (cs : List Call) (h : Session), AllLined cs h → calls (codeCall strtod) cs h = calls cCall cs h) := by
  refine ⟨fun g src fmt va text ds input format => ?_, fun cs h lined => calls_eq strtod lined⟩
  unfold yosSscanf
  rw [input, format]
  exact doScan_eq_iff strtod g text ds va

/-- A host that reads no floating-point numbers. -/
def noFloats : HostStrtod := ⟨fun _ => 0, fun _ => [], fun _ => []⟩

/-- A guest with `7` at 16, `%d` at 20, the addresses 48 and 52 at 24, and `%d` with a newline at 32. -/
def sevenGuest : Guest :=
  ⟨fun i => [55, 0, 0, 0, 37, 100, 0, 0, 48, 0, 0, 0, 52, 0, 0, 0, 37, 100, 10, 0].getD (i - 16) 0, 64⟩

/-- `%d` -/
def decimal : Directive := .int false noWidth .none .d

/-- `fscanf` of `%d` and a newline. -/
def decimalCall : Call := ⟨32, 24, [decimal, .space 10 (by decide)]⟩

theorem scanf_as_c_seven :
    yosSscanf noFloats sevenGuest 16 20 24 = cScan sevenGuest [55] [decimal] false ⟨0, 24, 0, []⟩ ∧
      calls (codeCall noFloats) [decimalCall, decimalCall] ⟨sevenGuest, [55, 10, 56, 10]⟩ =
        calls cCall [decimalCall, decimalCall] ⟨sevenGuest, [55, 10, 56, 10]⟩ :=
  ⟨((scanf_as_c noFloats).1 sevenGuest 16 20 24 [55] [decimal] (by decide +kernel) (by decide +kernel)).2
      (by decide +kernel),
    (scanf_as_c noFloats).2 [decimalCall, decimalCall] ⟨sevenGuest, [55, 10, 56, 10]⟩ (by decide +kernel)⟩

/-- The code reads `12ab` with `%i%s` as one number, and C as a number and a word. -/
theorem scanf_takes_letters :
    doScan noFloats sevenGuest [49, 50, 97, 98] (formatText [.int false noWidth .none .i, .word false noWidth]) 24 ≠
      cScan sevenGuest [49, 50, 97, 98] [.int false noWidth .none .i, .word false noWidth] false ⟨0, 24, 0, []⟩ := by
  decide +kernel

end Scanf

end Yos
