import Mathlib.Data.List.Infix
import Yos.Lib.Numeral

/-!
# Items

C's `scanf` reads the longest item in front of a text: a numeral, or a text that a numeral starts with
(`item_begins`, `length_le_item`).  An item with digits is a numeral (`parse_item`), and in a part of the text
there is that part of the item (`item_take`).
-/

namespace Numeral

/-- `0x` in front of a text, in a base whose numerals it may start. -/
def marked (base : ℕ) : List UInt8 → Bool
  | z :: x :: _ => (base == 0 || base == 16) && z == 48 && isHexMark x
  | _ => false

/-- The length of the mark. -/
def markLength (base : ℕ) (l : List UInt8) : ℕ := if marked base l then 2 else 0

/-- The radix of a text that may be cut off behind its mark. -/
def itemRadix (base : ℕ) (l : List UInt8) : ℕ :=
  if base = 0 then if marked base l then 16 else if l.head? = some 48 then 8 else 10 else base

/-- The digits in front of a text, after its mark. -/
def itemDigits (base : ℕ) (l : List UInt8) : List UInt8 :=
  (l.drop (markLength base l)).takeWhile (isDigit (itemRadix base l))

/-- The mark of a text with its digits. -/
def itemBody (base : ℕ) (l : List UInt8) : List UInt8 := l.take (markLength base l) ++ itemDigits base l

/-- The longest prefix of a text that is a numeral, or that a numeral starts with. -/
def item (base : ℕ) (l : List UInt8) : List UInt8 :=
  l.take (signLength l) ++ itemBody base (l.drop (signLength l))

/-- A text that a numeral starts with. -/
def Begins (base : ℕ) (m : List UInt8) : Prop := ∃ more negative n, IsNumeral base (m ++ more) negative n

/-- A text without white space in front. -/
def Solid (l : List UInt8) : Prop := ∀ c ∈ l.head?, isSpace c = false

section Items

variable {base n : ℕ} {l m more : List UInt8}

theorem marked_iff : marked base l = true ↔
    (base = 0 ∨ base = 16) ∧ ∃ x rest, l = 48 :: x :: rest ∧ isHexMark x := by
  constructor
  · intro h
    match l, h with
    | z :: x :: rest, h =>
      simp only [marked, Bool.and_eq_true, Bool.or_eq_true, beq_iff_eq] at h
      exact ⟨h.1.1, x, rest, by rw [h.1.2], h.2⟩
  · rintro ⟨sixteen, x, rest, rfl, mark⟩
    simp [marked, sixteen, mark]

theorem itemRadix_of_ne_zero (known : base ≠ 0) (l : List UInt8) : itemRadix base l = base := if_neg known

theorem itemRadix_of_marked (mark : marked base l = true) : itemRadix base l = 16 := by
  rcases (marked_iff.1 mark).1 with rfl | rfl
  · rw [itemRadix, if_pos rfl, if_pos mark]
  · rfl

theorem isDigit_mono {r r' : ℕ} (le : r ≤ r') {c : UInt8} (h : isDigit r c = true) : isDigit r' c = true := by
  unfold isDigit at h ⊢
  rw [Option.any_eq_true] at h ⊢
  obtain ⟨d, eq, lt⟩ := h
  exact ⟨d, eq, decide_eq_true (lt_of_lt_of_le (of_decide_eq_true lt) le)⟩

theorem itemBody_front (base : ℕ) (l : List UInt8) : itemBody base l <+: l := by
  obtain ⟨rest, eq⟩ := List.takeWhile_prefix (l := l.drop (markLength base l)) (isDigit (itemRadix base l))
  exact ⟨rest, by rw [itemBody, List.append_assoc, itemDigits, eq, List.take_append_drop]⟩

theorem item_front (base : ℕ) (l : List UInt8) : item base l <+: l := by
  obtain ⟨rest, eq⟩ := itemBody_front base (l.drop (signLength l))
  exact ⟨rest, by rw [item, List.append_assoc, eq, List.take_append_drop]⟩

/-- Digits in front of a mark are but the one of the mark. -/
theorem length_le_one_of_marked {radix : ℕ} (le : radix ≤ 33) (mark : marked base l = true)
    (all : ∀ c ∈ m, isDigit radix c) (front : m <+: l) : m.length ≤ 1 := by
  obtain ⟨-, x, rest, rfl, hex⟩ := marked_iff.1 mark
  match m, front with
  | [], _ => exact Nat.zero_le _
  | [_], _ => exact le_rfl
  | _ :: y :: _, front =>
    have same : y = x := by
      rw [List.cons_prefix_cons, List.cons_prefix_cons] at front
      exact front.2.1
    have digit := all y (by simp)
    rw [same, isDigit_of_isHexMark hex le] at digit
    exact absurd digit Bool.false_ne_true

theorem length_itemBody_of_marked (mark : marked base l = true) :
    (itemBody base l).length = 2 + (itemDigits base l).length := by
  obtain ⟨-, x, rest, rfl, -⟩ := marked_iff.1 mark
  rw [itemBody, List.length_append, markLength, if_pos mark]
  rfl

theorem itemDigits_of_unmarked (plain : marked base l = false) :
    itemDigits base l = l.takeWhile (isDigit (itemRadix base l)) := by
  rw [itemDigits, markLength, plain, if_neg Bool.false_ne_true, List.drop_zero]

theorem itemBody_of_unmarked (plain : marked base l = false) : itemBody base l = itemDigits base l := by
  rw [itemBody, markLength, plain, if_neg Bool.false_ne_true, List.take_zero, List.nil_append]

/-- Digits of the radix in front of a text are in its item. -/
theorem length_le_itemBody (radix : ℕ) (le : marked base l = true → radix ≤ 33)
    (same : marked base l = false → itemRadix base l = radix) (all : ∀ c ∈ m, isDigit radix c) (front : m <+: l) :
    m.length ≤ (itemBody base l).length := by
  cases mark : marked base l with
  | true =>
    have short := length_le_one_of_marked (le mark) mark all front
    rw [length_itemBody_of_marked mark]
    omega
  | false =>
    rw [itemBody_of_unmarked mark, itemDigits_of_unmarked mark, same mark]
    exact length_le_takeWhile all front

/-- No number's start in front of a text is longer than the body of its item. -/
theorem length_le_body (magnitude : IsMagnitude base (m ++ more) n) (front : m <+: l) :
    m.length ≤ (itemBody base l).length := by
  generalize eq : m ++ more = whole at magnitude
  cases magnitude with
  | given known ne digits =>
    refine length_le_itemBody base (fun mark => ?_) (fun _ => itemRadix_of_ne_zero known l) (fun c mem => ?_) front
    · have := (marked_iff.1 mark).1
      omega
    · exact digits c (eq ▸ List.mem_append_left _ mem)
  | @octal ds unknown digits =>
    match m, front with
    | [], _ => exact Nat.zero_le _
    | c :: m', front =>
      obtain ⟨rfl, -⟩ := List.cons.inj (eq : c :: (m' ++ more) = 48 :: ds)
      have all : ∀ d ∈ 48 :: ds, isDigit 8 d = true := List.forall_mem_cons.2 ⟨by decide, digits⟩
      refine length_le_itemBody _ (fun _ => by omega) (fun plain => ?_)
        (fun d mem => all d (eq ▸ List.mem_append_left _ mem)) front
      obtain ⟨rest, rfl⟩ := front
      rw [itemRadix, if_pos unknown, plain, if_neg Bool.false_ne_true]
      exact if_pos rfl
  | @decimal c ds unknown lead digits =>
    match m, front with
    | [], _ => exact Nat.zero_le _
    | d :: m', front =>
      obtain ⟨rfl, -⟩ := List.cons.inj (eq : d :: (m' ++ more) = c :: ds)
      refine length_le_itemBody _ (fun _ => by omega) (fun plain => ?_)
        (fun d mem => digits d (eq ▸ List.mem_append_left _ mem)) front
      obtain ⟨rest, rfl⟩ := front
      rw [itemRadix, if_pos unknown, plain, if_neg Bool.false_ne_true]
      exact if_neg fun h => lead (Option.some.inj h)
  | @hex x ds sixteen mark ne digits =>
    match m, front with
    | [], _ => exact Nat.zero_le _
    | [z], front =>
      obtain ⟨rfl, -⟩ := List.cons.inj (eq : z :: more = 48 :: x :: ds)
      obtain ⟨rest, rfl⟩ := front
      refine length_le_itemBody (if base = 0 then 8 else base) (fun _ => ?_) (fun plain => ?_)
        (fun c mem => ?_) ⟨rest, rfl⟩
      · split_ifs <;> omega
      · rw [itemRadix, plain]
        rfl
      · obtain rfl := List.mem_singleton.1 mem
        rcases sixteen with rfl | rfl <;> decide
    | z :: y :: m', front =>
      obtain ⟨rfl, tail⟩ := List.cons.inj (eq : z :: y :: (m' ++ more) = 48 :: x :: ds)
      obtain ⟨rfl, rfl⟩ := List.cons.inj tail
      obtain ⟨rest, rfl⟩ := front
      have is : marked base (48 :: y :: m' ++ rest) = true :=
        marked_iff.2 ⟨sixteen, y, m' ++ rest, rfl, mark⟩
      rw [length_itemBody_of_marked is, itemDigits, itemRadix_of_marked is, markLength, if_pos is]
      have le := length_le_takeWhile (fun c mem => digits c (List.mem_append_left _ mem))
        (List.prefix_append m' rest)
      simp only [List.length_cons, List.cons_append, List.drop_succ_cons, List.drop_zero]
      omega

/-- No prefix that a numeral starts with is longer than the item. -/
theorem length_le_item (solid : Solid l) (begins : Begins base m) (front : m <+: l) :
    m.length ≤ (item base l).length := by
  obtain ⟨more, negative, n, numeral⟩ := begins
  match m, front with
  | [], _ => exact Nat.zero_le _
  | c :: m', front =>
    obtain ⟨rest, rfl⟩ := front
    have black : isSpace c = false := solid c rfl
    generalize eq : c :: m' ++ more = whole at numeral
    have unspaced : ∀ spaces tail, (∀ d ∈ spaces, isSpace d = true) → c :: m' ++ more = spaces ++ tail →
        spaces = [] := by
      rintro (_ | ⟨d, spaces⟩) tail blank h
      · rfl
      · obtain ⟨rfl, -⟩ := List.cons.inj (h : c :: (m' ++ more) = d :: (spaces ++ tail))
        have white := blank c (by simp)
        rw [black] at white
        cases white
    cases numeral with
    | unsigned blank magnitude =>
      obtain rfl := unspaced _ _ blank eq
      obtain ⟨d, tail, radix, rfl, digit⟩ := magnitude.head
      obtain ⟨rfl, -⟩ := List.cons.inj (eq : c :: (m' ++ more) = d :: tail)
      have none : signLength (c :: m' ++ rest) = 0 := by
        rw [List.cons_append, signLength, isSign_of_isDigit digit, if_neg Bool.false_ne_true]
      rw [List.nil_append] at eq
      rw [item, none, List.take_zero, List.nil_append, List.drop_zero]
      exact length_le_body (by rw [eq]; exact magnitude) (List.prefix_append _ _)
    | signed blank sign magnitude =>
      obtain rfl := unspaced _ _ blank eq
      obtain ⟨rfl, tail⟩ := List.cons.inj (eq : c :: (m' ++ more) = _ :: _)
      have one : signLength (c :: m' ++ rest) = 1 := by
        rw [List.cons_append, signLength, if_pos sign]
      rw [← tail] at magnitude
      have le := length_le_body magnitude
        (List.prefix_append _ rest)
      rw [item, one]
      show m'.length + 1 ≤ ((c :: (m' ++ rest)).take 1 ++ itemBody base (m' ++ rest)).length
      rw [List.length_append, List.take_succ_cons, List.take_zero, List.length_singleton]
      omega

theorem prefix_of_unmarked (plain : marked base l = false) :
    prefixLength base l = 0 ∧ radixOf base l = itemRadix base l := by
  have pre : ¬ ((base = 0 ∨ base = 16) ∧ hasHexPrefix l = true) := by
    rintro ⟨sixteen, pre⟩
    obtain ⟨x, c, rest, rfl, hex, -⟩ := hasHexPrefix_iff.1 pre
    rw [marked_iff.2 ⟨sixteen, x, c :: rest, rfl, hex⟩] at plain
    cases plain
  refine ⟨if_neg pre, ?_⟩
  by_cases known : base = 0
  · have plain' : ¬ hasHexPrefix l = true := fun h => pre ⟨.inl known, h⟩
    rw [radixOf, if_pos known, if_neg plain', itemRadix, if_pos known, plain, if_neg Bool.false_ne_true]
  · rw [radixOf, if_neg known, itemRadix_of_ne_zero known]

theorem digitsOf_of_unmarked (plain : marked base l = false) : digitsOf base l = itemDigits base l := by
  rw [digitsOf, (prefix_of_unmarked plain).1, (prefix_of_unmarked plain).2, List.drop_zero, itemDigits_of_unmarked plain]

/-- With digits behind it, what marks an item is the prefix of a numeral. -/
theorem prefix_of_itemDigits (ne : itemDigits base l ≠ []) :
    prefixLength base l = markLength base l ∧ radixOf base l = itemRadix base l := by
  cases mark : marked base l with
  | true =>
    have radix := itemRadix_of_marked mark
    obtain ⟨sixteen, x, rest, rfl, hex⟩ := marked_iff.1 mark
    have pre : hasHexPrefix (48 :: x :: rest) = true := by
      rw [itemDigits, markLength, if_pos mark, radix] at ne
      match rest, ne with
      | c :: rest, ne =>
        cases digit : isDigit 16 c with
        | true => exact hasHexPrefix_iff.2 ⟨x, c, rest, rfl, hex, digit⟩
        | false => exact absurd (List.takeWhile_cons_of_neg (by rw [digit]; exact Bool.false_ne_true)) ne
    constructor
    · rw [prefixLength, if_pos ⟨sixteen, pre⟩, markLength, if_pos mark]
    · rw [radix]
      rcases sixteen with rfl | rfl
      · rw [radixOf, if_pos rfl, if_pos pre]
      · rfl
  | false =>
    rw [markLength, mark, if_neg Bool.false_ne_true]
    exact prefix_of_unmarked mark

theorem takeWhile_isSpace (solid : Solid l) : l.takeWhile isSpace = [] := by
  cases l with
  | nil => rfl
  | cons c rest => exact List.takeWhile_cons_of_neg (by rw [solid c rfl]; exact Bool.false_ne_true)

theorem unspaced_of_solid (solid : Solid l) : unspaced l = l := by
  cases l with
  | nil => rfl
  | cons c rest => exact List.dropWhile_cons_of_neg (by rw [solid c rfl]; exact Bool.false_ne_true)

theorem signLength_le (l : List UInt8) : signLength l ≤ l.length := by
  cases l with
  | nil => exact le_rfl
  | cons c rest =>
    rw [signLength, List.length_cons]
    split_ifs <;> omega

theorem signLength_take (pos : 0 < n) (l : List UInt8) : signLength (l.take n) = signLength l := by
  obtain ⟨n, rfl⟩ := Nat.exists_eq_succ_of_ne_zero pos.ne'
  cases l <;> rfl

theorem signLength_le_one (l : List UInt8) : signLength l ≤ 1 := by
  cases l with
  | nil => exact Nat.zero_le _
  | cons c rest =>
    rw [signLength]
    split_ifs <;> omega

theorem markLength_le (base : ℕ) (l : List UInt8) : markLength base l ≤ l.length := by
  rw [markLength]
  split_ifs with marks
  · obtain ⟨-, x, rest, rfl, -⟩ := marked_iff.1 marks
    rw [List.length_cons, List.length_cons]
    omega
  · exact Nat.zero_le _

/-- The length of an item: a sign, a mark, and digits. -/
theorem length_item (base : ℕ) (l : List UInt8) : (item base l).length = signLength l +
    (markLength base (l.drop (signLength l)) + (itemDigits base (l.drop (signLength l))).length) := by
  rw [item, itemBody, List.length_append, List.length_append, List.length_take, List.length_take,
    Nat.min_eq_left (signLength_le l), Nat.min_eq_left (markLength_le _ _)]

/-- An item without digits is short. -/
theorem length_item_le (nil : itemDigits base (l.drop (signLength l)) = []) : (item base l).length ≤ 3 := by
  have sign := signLength_le_one l
  rw [length_item, nil, markLength, List.length_nil]
  split_ifs <;> omega

/-- The length of the numeral of a text without white space in front. -/
theorem length_parse_of_solid (solid : Solid l) : (parse base l).length =
    if digitsOf base (l.drop (signLength l)) = [] then 0
    else signLength l + prefixLength base (l.drop (signLength l)) + (digitsOf base (l.drop (signLength l))).length := by
  rw [parse, bodyOf, unspaced_of_solid solid, takeWhile_isSpace solid]
  split_ifs with nil
  · rfl
  · show [].length + _ + _ + _ = _
    rw [List.length_nil, Nat.zero_add]

/-- An item with digits is the longest numeral in front of the text. -/
theorem item_eq_take (solid : Solid l) (ne : itemDigits base (l.drop (signLength l)) ≠ []) :
    item base l = l.take (parse base l).length ∧ (parse base l).length = (item base l).length := by
  have same := prefix_of_itemDigits ne
  have digits : digitsOf base (l.drop (signLength l)) = itemDigits base (l.drop (signLength l)) := by
    rw [digitsOf, same.1, same.2, itemDigits]
  have length : (parse base l).length = (item base l).length := by
    rw [length_parse_of_solid solid, digits, if_neg ne, same.1, length_item, Nat.add_assoc]
  exact ⟨by rw [length]; exact List.prefix_iff_eq_take.1 (item_front base l), length⟩

theorem solid_of_front (solid : Solid l) (front : m <+: l) : Solid m := by
  obtain ⟨rest, rfl⟩ := front
  intro c mem
  apply solid
  rw [List.head?_append, Option.mem_def.1 mem]
  rfl

/-- The sign in front of a text, with a part of what is behind it. -/
theorem sign_of_front (front : m <+: l.drop (signLength l)) :
    signLength (l.take (signLength l) ++ m) = signLength l ∧ (l.take (signLength l) ++ m).drop (signLength l) = m := by
  have length : (l.take (signLength l)).length = signLength l := by
    rw [List.length_take, Nat.min_eq_left (signLength_le l)]
  refine ⟨?_, List.drop_left' length⟩
  cases l with
  | nil =>
    rw [List.drop_nil] at front
    rw [List.prefix_nil.1 front, List.take_nil, List.nil_append]
  | cons c rest =>
    cases sign : isSign c with
    | true =>
      have one : signLength (c :: rest) = 1 := if_pos sign
      rw [one]
      exact if_pos sign
    | false =>
      have none : signLength (c :: rest) = 0 := by rw [signLength, sign, if_neg Bool.false_ne_true]
      rw [none, List.drop_zero] at front
      rw [none, List.take_zero, List.nil_append]
      cases m with
      | nil => rfl
      | cons d m =>
        obtain rfl := (List.cons_prefix_cons.1 front).1
        rw [signLength, sign, if_neg Bool.false_ne_true]

theorem sign_item (base : ℕ) (l : List UInt8) : signLength (item base l) = signLength l ∧
    (item base l).drop (signLength l) = itemBody base (l.drop (signLength l)) :=
  sign_of_front (itemBody_front base _)

/-- A text is no numeral, and none is in front of it, where it has neither digits nor a mark. -/
theorem length_parse_eq_zero_iff (solid : Solid l) : (parse base l).length = 0 ↔
    itemDigits base (l.drop (signLength l)) = [] ∧ marked base (l.drop (signLength l)) = false := by
  rw [length_parse_of_solid solid]
  generalize l.drop (signLength l) = b
  by_cases nil : itemDigits base b = []
  · cases mark : marked base b with
    | true =>
      have digits : digitsOf base b ≠ [] := by
        obtain ⟨sixteen, x, rest, rfl, hex⟩ := marked_iff.1 mark
        have zero : isDigit (radixOf base (48 :: x :: rest)) 48 = true := by
          rw [radixOf]
          rcases sixteen with rfl | rfl
          · cases hasHexPrefix (48 :: x :: rest) with
            | true => exact show isDigit 16 48 = true by decide
            | false => exact show isDigit 8 48 = true by decide
          · exact show isDigit 16 48 = true by decide
        have plain : hasHexPrefix (48 :: x :: rest) = false := by
          rw [Bool.eq_false_iff, Ne, hasHexPrefix_iff]
          rintro ⟨y, c, rest', eq, -, digit⟩
          obtain ⟨-, rfl, rfl⟩ : 48 = 48 ∧ x = y ∧ rest = c :: rest' := by simpa using eq
          rw [itemDigits, itemRadix_of_marked mark, markLength, if_pos mark] at nil
          exact absurd nil (by simp [digit])
        rw [digitsOf, prefixLength, if_neg (fun h => by rw [plain] at h; exact absurd h.2 Bool.false_ne_true),
          List.drop_zero, List.takeWhile_cons_of_pos zero]
        exact List.cons_ne_nil _ _
      have pos := List.length_pos_iff.2 digits
      rw [if_neg digits]
      exact iff_of_false (by omega) (fun h => absurd h.2 (by decide))
    | false =>
      rw [digitsOf_of_unmarked mark, if_pos nil]
      exact iff_of_true rfl ⟨nil, rfl⟩
  · have same := prefix_of_itemDigits nil
    have digits : digitsOf base b = itemDigits base b := by rw [digitsOf, same.1, same.2, itemDigits]
    have pos := List.length_pos_iff.2 nil
    rw [digits, if_neg nil]
    exact iff_of_false (by omega) fun h => nil h.1

/-- The numeral of an item. -/
theorem length_parse_item (solid : Solid l) : (parse base (item base l)).length =
    if digitsOf base (itemBody base (l.drop (signLength l))) = [] then 0
    else signLength l + prefixLength base (itemBody base (l.drop (signLength l))) +
      (digitsOf base (itemBody base (l.drop (signLength l)))).length := by
  rw [length_parse_of_solid (solid_of_front solid (item_front base l)), (sign_item base l).1, (sign_item base l).2]

/-- An item with digits is a numeral as a whole. -/
theorem parse_item (solid : Solid l) (ne : itemDigits base (l.drop (signLength l)) ≠ []) :
    (parse base (item base l)).length = (item base l).length ∧ item base l ≠ [] := by
  obtain ⟨eq, length⟩ := item_eq_take solid ne
  have pos : 0 < (item base l).length := by
    have digits := List.length_pos_iff.2 ne
    rw [length_item]
    omega
  have numeral := parse_isNumeral (length ▸ pos)
  rw [← eq] at numeral
  exact ⟨le_antisymm (length_parse_le base _) (length_le_parse numeral (List.prefix_refl _)),
    List.length_pos_iff.1 pos⟩

/-- A mark without digits is no numeral, but its zero is. -/
theorem parse_item_of_mark (solid : Solid l) (mark : marked base (l.drop (signLength l)) = true)
    (nil : itemDigits base (l.drop (signLength l)) = []) :
    (parse base (item base l)).length < (item base l).length := by
  obtain ⟨sixteen, x, rest, eq, hex⟩ := marked_iff.1 mark
  have body : itemBody base (l.drop (signLength l)) = [48, x] := by
    rw [itemBody, nil, List.append_nil, markLength, if_pos mark, eq]
    rfl
  have length : (item base l).length = signLength l + 2 := by
    rw [length_item, nil, markLength, if_pos mark]
    rfl
  have zero : ∀ r ≤ 33, isDigit r 48 = true → [48, x].takeWhile (isDigit r) = [48] := fun r le digit => by
    rw [List.takeWhile_cons_of_pos digit,
      List.takeWhile_cons_of_neg (by rw [isDigit_of_isHexMark hex le]; exact Bool.false_ne_true)]
  have digits : digitsOf base [48, x] = [48] := by
    rcases sixteen with rfl | rfl
    · exact zero 8 (by omega) (by decide)
    · exact zero 16 (by omega) (by decide)
  rw [length_parse_item solid, body, digits, if_neg (List.cons_ne_nil _ _), length, List.length_singleton,
    prefixLength, if_neg (by simp [hasHexPrefix])]
  omega

/-- An item is a numeral as a whole if it has digits. -/
theorem item_isNumeral_iff (base : ℕ) (solid : Solid l) :
    item base l ≠ [] ∧ (parse base (item base l)).length = (item base l).length ↔
      itemDigits base (l.drop (signLength l)) ≠ [] := by
  constructor
  · rintro ⟨ne, whole⟩ nil
    cases mark : marked base (l.drop (signLength l)) with
    | true => exact absurd whole (parse_item_of_mark solid mark nil).ne
    | false =>
      have zero : (parse base (item base l)).length = 0 := by
        rw [length_parse_item solid, itemBody_of_unmarked mark, nil, digitsOf_nil, if_pos rfl]
      exact ne (List.length_eq_zero_iff.1 (whole ▸ zero))
  · intro ne
    exact ⟨(parse_item solid ne).2, (parse_item solid ne).1⟩

/-- The item is a text that a numeral starts with. -/
theorem item_begins (base : ℕ) (solid : Solid l) : Begins base (item base l) := by
  by_cases nil : itemDigits base (l.drop (signLength l)) = []
  · have more : ∃ more n, IsMagnitude base (itemBody base (l.drop (signLength l)) ++ more) n := by
      refine ⟨[48], ?_⟩
      cases mark : marked base (l.drop (signLength l)) with
      | true =>
        obtain ⟨sixteen, x, rest, eq, hex⟩ := marked_iff.1 mark
        refine ⟨value 16 [48], ?_⟩
        rw [itemBody, nil, List.append_nil, markLength, if_pos mark, eq]
        refine .hex sixteen hex (List.cons_ne_nil _ _) fun c mem => ?_
        obtain rfl := List.mem_singleton.1 mem
        decide
      | false =>
        rw [itemBody_of_unmarked mark, nil, List.nil_append]
        by_cases known : base = 0
        · exact ⟨_, .octal known (by simp)⟩
        · refine ⟨_, .given known (List.cons_ne_nil _ _) fun c mem => ?_⟩
          obtain rfl := List.mem_singleton.1 mem
          exact decide_eq_true (Nat.pos_of_ne_zero known)
    obtain ⟨more, n, magnitude⟩ := more
    have blank : ∀ c ∈ ([] : List UInt8), isSpace c = true := by simp
    rw [Begins, item]
    match l, solid with
    | [], _ => exact ⟨more, false, n, .unsigned blank magnitude⟩
    | c :: rest, _ =>
      cases sign : isSign c with
      | true =>
        have one : signLength (c :: rest) = 1 := if_pos sign
        rw [one] at magnitude ⊢
        exact ⟨more, c == 45, n, .signed blank sign magnitude⟩
      | false =>
        have none : signLength (c :: rest) = 0 := by rw [signLength, sign, if_neg Bool.false_ne_true]
        rw [none] at magnitude ⊢
        have numeral := IsNumeral.unsigned blank magnitude
        exact ⟨more, false, n, numeral⟩
  · obtain ⟨eq, length⟩ := item_eq_take solid nil
    have pos : 0 < (parse base l).length := by
      rw [length]
      exact List.length_pos_iff.2 (parse_item solid nil).2
    have numeral := parse_isNumeral pos
    rw [← eq] at numeral
    exact ⟨[], _, _, by rw [List.append_nil]; exact numeral⟩

/-- A part of the text in front has the part of the item. -/
theorem item_take (solid : Solid l) (k : ℕ) : item base (l.take k) = (item base l).take k := by
  have short := solid_of_front solid (List.take_prefix k l)
  have front : (item base l).take k <+: l.take k := (item_front base l).take k
  have le := length_le_item solid (item_begins base short)
    ((item_front base (l.take k)).trans (List.take_prefix k l))
  have part : Begins base ((item base l).take k) := by
    obtain ⟨more, negative, n, numeral⟩ := item_begins base solid
    refine ⟨(item base l).drop k ++ more, negative, n, ?_⟩
    rw [← List.append_assoc, List.take_append_drop]
    exact numeral
  have ge := length_le_item short part front
  have bound := (item_front base (l.take k)).length_le
  rw [List.length_take] at ge bound
  have same : (item base (l.take k)).length = ((item base l).take k).length := by
    rw [List.length_take]
    omega
  exact ((List.prefix_of_prefix_length_le (item_front base (l.take k)) front same.le).eq_of_length same)

end Items

end Numeral
