import Mathlib.Data.List.TakeWhile
import Mathlib.Data.Nat.Notation

/-!
# Numerals

The numerals that C's `strtol` reads: white space, a sign, and digits of a base, after `0x` where
the base is 16 or left open.  `parse` finds the longest prefix of a text that is a numeral
(`parse_isNumeral`, `length_le_parse`).
-/

namespace Numeral

/-! ## Characters -/

/-- White space. -/
def isSpace (c : UInt8) : Bool := c == 32 || (9 ≤ c && c ≤ 13)

/-- The value of a digit; letters of either case follow the ten figures. -/
def digitValue (c : UInt8) : Option ℕ :=
  if 48 ≤ c ∧ c ≤ 57 then some (c.toNat - 48)
  else if 65 ≤ c ∧ c ≤ 90 then some (c.toNat - 55)
  else if 97 ≤ c ∧ c ≤ 122 then some (c.toNat - 87)
  else none

/-- A digit of a radix. -/
def isDigit (radix : ℕ) (c : UInt8) : Bool := (digitValue c).any (· < radix)

/-- A plus or a minus. -/
def isSign (c : UInt8) : Bool := c == 43 || c == 45

/-- The `x` of a hexadecimal prefix. -/
def isHexMark (c : UInt8) : Bool := c == 120 || c == 88

/-- The number that digits stand for. -/
def value (radix : ℕ) (digits : List UInt8) : ℕ :=
  digits.foldl (fun n c => radix * n + (digitValue c).getD 0) 0

theorem le_of_isDigit {radix : ℕ} {c : UInt8} (h : isDigit radix c = true) : 48 ≤ c.toNat := by
  unfold isDigit digitValue at h
  simp only [UInt8.le_iff_toNat_le, UInt8.reduceToNat] at h
  split_ifs at h with h₁ h₂ h₃
  · exact h₁.1
  · omega
  · omega
  · simp at h

theorem isSpace_of_isDigit {radix : ℕ} {c : UInt8} (h : isDigit radix c = true) : isSpace c = false := by
  have low := le_of_isDigit h
  have high : ¬ c.toNat ≤ 13 := by omega
  have ne : c ≠ 32 := by rintro rfl; simp at low
  simp [isSpace, ne, UInt8.le_iff_toNat_le, high]

theorem isSign_of_isDigit {radix : ℕ} {c : UInt8} (h : isDigit radix c = true) : isSign c = false := by
  have low := le_of_isDigit h
  simp only [isSign, Bool.or_eq_false_iff, beq_eq_false_iff_ne]
  constructor <;> (rintro rfl; simp at low)

theorem isSpace_of_isSign {c : UInt8} (h : isSign c = true) : isSpace c = false := by
  simp only [isSign, Bool.or_eq_true, beq_iff_eq] at h
  rcases h with rfl | rfl <;> decide

theorem isDigit_of_isHexMark {c : UInt8} (h : isHexMark c = true) {radix : ℕ} (le : radix ≤ 33) :
    isDigit radix c = false := by
  simp only [isHexMark, Bool.or_eq_true, beq_iff_eq] at h
  rcases h with rfl | rfl <;> exact decide_eq_false (by show ¬ 33 < radix; omega)

/-! ## Numerals -/

/-- The numerals without a sign.  The base zero leaves the radix to the numeral. -/
inductive IsMagnitude (base : ℕ) : List UInt8 → ℕ → Prop
  | given {l} (known : base ≠ 0) (ne : l ≠ []) (digits : ∀ c ∈ l, isDigit base c) :
      IsMagnitude base l (value base l)
  | octal {l} (unknown : base = 0) (digits : ∀ c ∈ l, isDigit 8 c) :
      IsMagnitude base (48 :: l) (value 8 (48 :: l))
  | decimal {c l} (unknown : base = 0) (lead : c ≠ 48) (digits : ∀ d ∈ c :: l, isDigit 10 d) :
      IsMagnitude base (c :: l) (value 10 (c :: l))
  | hex {x l} (sixteen : base = 0 ∨ base = 16) (mark : isHexMark x) (ne : l ≠ [])
      (digits : ∀ c ∈ l, isDigit 16 c) : IsMagnitude base (48 :: x :: l) (value 16 l)

/-- The numerals: whether there is a minus, and the number after it. -/
inductive IsNumeral (base : ℕ) : List UInt8 → Bool → ℕ → Prop
  | unsigned {spaces l n} (blank : ∀ c ∈ spaces, isSpace c) (magnitude : IsMagnitude base l n) :
      IsNumeral base (spaces ++ l) false n
  | signed {spaces c l n} (blank : ∀ c ∈ spaces, isSpace c) (sign : isSign c)
      (magnitude : IsMagnitude base l n) : IsNumeral base (spaces ++ c :: l) (c == 45) n

/-! ## The longest numeral -/

/-- The length of the sign in front of a text. -/
def signLength : List UInt8 → ℕ
  | [] => 0
  | c :: _ => if isSign c then 1 else 0

/-- `0x` and a hexadecimal digit. -/
def hasHexPrefix : List UInt8 → Bool
  | z :: x :: c :: _ => z == 48 && isHexMark x && isDigit 16 c
  | _ => false

/-- The radix of a text in a base. -/
def radixOf (base : ℕ) (l : List UInt8) : ℕ :=
  if base = 0 then if hasHexPrefix l then 16 else if l.head? = some 48 then 8 else 10 else base

/-- The length of the hexadecimal prefix that is no part of the digits. -/
def prefixLength (base : ℕ) (l : List UInt8) : ℕ :=
  if (base = 0 ∨ base = 16) ∧ hasHexPrefix l then 2 else 0

/-- The digits in front of a text, after its prefix. -/
def digitsOf (base : ℕ) (l : List UInt8) : List UInt8 :=
  (l.drop (prefixLength base l)).takeWhile (isDigit (radixOf base l))

/-- A numeral in front of a text, with its length; the length is zero if there is none. -/
structure Parsed where
  negative : Bool
  magnitude : ℕ
  length : ℕ
deriving DecidableEq, Repr

/-- The text without its white space. -/
def unspaced (s : List UInt8) : List UInt8 := s.dropWhile isSpace

/-- The text without its white space and its sign. -/
def bodyOf (s : List UInt8) : List UInt8 := (unspaced s).drop (signLength (unspaced s))

/-- The longest numeral in front of a text. -/
def parse (base : ℕ) (s : List UInt8) : Parsed :=
  if digitsOf base (bodyOf s) = [] then ⟨false, 0, 0⟩
  else ⟨(unspaced s).head? == some 45,
    value (radixOf base (bodyOf s)) (digitsOf base (bodyOf s)),
    (s.takeWhile isSpace).length + signLength (unspaced s) + prefixLength base (bodyOf s) +
      (digitsOf base (bodyOf s)).length⟩

section Longest

variable {base n : ℕ} {l s : List UInt8} {negative : Bool}

theorem digitsOf_nil : digitsOf base [] = [] := by rw [digitsOf, List.drop_nil, List.takeWhile_nil]

theorem isDigit_of_mem_digitsOf {c : UInt8} (mem : c ∈ digitsOf base l) :
    isDigit (radixOf base l) c = true :=
  List.mem_takeWhile_imp mem

/-- Digits in front of a text are no more than the text's own. -/
theorem length_le_takeWhile {p : UInt8 → Bool} {l m : List UInt8} (all : ∀ c ∈ l, p c)
    (front : l <+: m) : l.length ≤ (m.takeWhile p).length := by
  obtain ⟨rest, rfl⟩ := front
  rw [List.takeWhile_append_of_pos all, List.length_append]
  exact Nat.le_add_right _ _

/-- After a hexadecimal prefix there are digits, and without one the digits are at the front. -/
theorem hasHexPrefix_iff : hasHexPrefix l = true ↔
    ∃ x c rest, l = 48 :: x :: c :: rest ∧ isHexMark x ∧ isDigit 16 c := by
  constructor
  · intro h
    match l, h with
    | z :: x :: c :: rest, h =>
      simp only [hasHexPrefix, Bool.and_eq_true, beq_iff_eq] at h
      exact ⟨x, c, rest, by rw [h.1.1], h.1.2, h.2⟩
  · rintro ⟨x, c, rest, rfl, mark, digit⟩
    simp [hasHexPrefix, mark, digit]

/-- In front of a hexadecimal prefix there is but one digit of a smaller radix. -/
theorem length_le_one {radix : ℕ} (le : radix ≤ 33) (hex : hasHexPrefix s = true)
    (all : ∀ c ∈ l, isDigit radix c) (front : l <+: s) : l.length ≤ 1 := by
  obtain ⟨x, c, rest, rfl, mark, -⟩ := hasHexPrefix_iff.1 hex
  match l, front with
  | [], _ => exact Nat.zero_le _
  | [_], _ => exact le_rfl
  | _ :: y :: _, front =>
    have same : y = x := by
      rw [List.cons_prefix_cons, List.cons_prefix_cons] at front
      exact front.2.1
    have digit := all y (by simp)
    rw [same, isDigit_of_isHexMark mark le] at digit
    exact absurd digit Bool.false_ne_true

theorem length_le_digitsOf (magnitude : IsMagnitude base l n) (front : l <+: s) :
    l.length ≤ prefixLength base s + (digitsOf base s).length := by
  cases magnitude with
  | given known ne digits =>
    by_cases hex : base = 16 ∧ hasHexPrefix s = true
    · have le := length_le_one (by omega) hex.2 digits front
      rw [prefixLength, if_pos ⟨Or.inr hex.1, hex.2⟩]
      omega
    · have none : prefixLength base s = 0 := if_neg fun h => hex ⟨h.1.resolve_left known, h.2⟩
      rw [digitsOf, none, List.drop_zero, radixOf, if_neg known, Nat.zero_add]
      exact length_le_takeWhile digits front
  | @octal l unknown digits =>
    have all : ∀ c ∈ 48 :: l, isDigit 8 c := List.forall_mem_cons.2 ⟨by decide, digits⟩
    cases hex : hasHexPrefix s with
    | true =>
      have le := length_le_one (by omega) hex all front
      rw [prefixLength, if_pos ⟨Or.inl unknown, hex⟩]
      omega
    | false =>
      have none : prefixLength base s = 0 := if_neg fun h => by simp [hex] at h
      obtain ⟨rest, rfl⟩ := front
      rw [digitsOf, none, List.drop_zero, radixOf, if_pos unknown, hex,
        if_neg Bool.false_ne_true, if_pos (show (48 :: l ++ rest).head? = some 48 from rfl),
        Nat.zero_add]
      exact length_le_takeWhile all ⟨rest, rfl⟩
  | @decimal c l unknown lead digits =>
    obtain ⟨rest, rfl⟩ := front
    have hex : ¬ hasHexPrefix (c :: l ++ rest) = true := fun h => by
      obtain ⟨x, d, rest', eq, -⟩ := hasHexPrefix_iff.1 h
      exact lead (List.cons.inj eq).1
    have none : prefixLength base (c :: l ++ rest) = 0 := if_neg fun h => hex h.2
    have zero : ¬ (c :: l ++ rest).head? = some 48 := fun h => lead (Option.some.inj h)
    rw [digitsOf, none, List.drop_zero, radixOf, if_pos unknown, if_neg hex, if_neg zero,
      Nat.zero_add]
    exact length_le_takeWhile digits ⟨rest, rfl⟩
  | @hex x l sixteen mark ne digits =>
    obtain ⟨rest, rfl⟩ := front
    obtain ⟨c, l', rfl⟩ := List.exists_cons_of_ne_nil ne
    have hex : hasHexPrefix (48 :: x :: c :: l' ++ rest) = true :=
      hasHexPrefix_iff.2 ⟨x, c, l' ++ rest, rfl, mark, digits c (by simp)⟩
    have two : prefixLength base (48 :: x :: c :: l' ++ rest) = 2 := if_pos ⟨sixteen, hex⟩
    have radix : radixOf base (48 :: x :: c :: l' ++ rest) = 16 := by
      rcases sixteen with rfl | rfl
      · rw [radixOf, if_pos rfl, if_pos hex]
      · rfl
    have le := length_le_takeWhile digits (List.prefix_append (c :: l') rest)
    rw [digitsOf, two, radix]
    simp only [List.length_cons, List.cons_append, List.drop_succ_cons, List.drop_zero] at le ⊢
    omega

/-- A numeral starts with a digit. -/
theorem IsMagnitude.head (magnitude : IsMagnitude base l n) :
    ∃ c rest radix, l = c :: rest ∧ isDigit radix c = true := by
  cases magnitude with
  | given known ne digits =>
    obtain ⟨c, rest, rfl⟩ := List.exists_cons_of_ne_nil ne
    exact ⟨c, rest, base, rfl, digits c (by simp)⟩
  | octal unknown digits => exact ⟨48, _, 8, rfl, by decide⟩
  | decimal unknown lead digits => exact ⟨_, _, 10, rfl, digits _ (by simp)⟩
  | hex sixteen mark ne digits => exact ⟨48, _, 16, rfl, by decide⟩

/-- White space before something else is the white space that the parser skips. -/
theorem unspaced_append {spaces : List UInt8} (blank : ∀ c ∈ spaces, isSpace c) {c : UInt8}
    (solid : isSpace c = false) (rest : List UInt8) :
    (spaces ++ c :: rest).takeWhile isSpace = spaces ∧ unspaced (spaces ++ c :: rest) = c :: rest := by
  constructor
  · rw [List.takeWhile_append_of_pos blank, List.takeWhile_cons_of_neg (by simp [solid]),
      List.append_nil]
  · rw [unspaced, List.dropWhile_append_of_pos blank, List.dropWhile_cons_of_neg (by simp [solid])]

theorem prefixLength_of_digitsOf_nil (nil : digitsOf base s = []) : prefixLength base s = 0 := by
  by_contra h
  have hex : (base = 0 ∨ base = 16) ∧ hasHexPrefix s = true := by
    by_contra out
    exact h (if_neg out)
  obtain ⟨x, c, rest, rfl, mark, digit⟩ := hasHexPrefix_iff.1 hex.2
  have radix : radixOf base (48 :: x :: c :: rest) = 16 := by
    rcases hex.1 with rfl | rfl
    · rw [radixOf, if_pos rfl, if_pos hex.2]
    · rfl
  rw [digitsOf, prefixLength, if_pos hex, radix] at nil
  simp [digit] at nil

/-- A number after the white space and the sign is no longer than what the parser reads. -/
theorem add_length_le_parse (magnitude : IsMagnitude base l n) (front : l <+: bodyOf s) :
    (s.takeWhile isSpace).length + signLength (unspaced s) + l.length ≤ (parse base s).length := by
  have le := length_le_digitsOf magnitude front
  have digits : digitsOf base (bodyOf s) ≠ [] := fun nil => by
    obtain ⟨c, rest, -, rfl, -⟩ := magnitude.head
    rw [prefixLength_of_digitsOf_nil nil, nil] at le
    exact absurd le (by simp)
  rw [parse, if_neg digits]
  show _ ≤ (s.takeWhile isSpace).length + _ + _ + _
  omega

/-- No numeral in front of a text is longer than the one that `parse` finds. -/
theorem length_le_parse (numeral : IsNumeral base l negative n) (front : l <+: s) :
    l.length ≤ (parse base s).length := by
  obtain ⟨rest, rfl⟩ := front
  cases numeral with
  | @unsigned spaces m n blank magnitude =>
    obtain ⟨c, m', radix, rfl, digit⟩ := magnitude.head
    have skip := unspaced_append blank (isSpace_of_isDigit digit) (m' ++ rest)
    have eq : spaces ++ c :: m' ++ rest = spaces ++ c :: (m' ++ rest) := by simp
    have unsigned : signLength (c :: (m' ++ rest)) = 0 := by
      rw [signLength, isSign_of_isDigit digit, if_neg Bool.false_ne_true]
    have body : bodyOf (spaces ++ c :: (m' ++ rest)) = c :: m' ++ rest := by
      rw [bodyOf, skip.2, unsigned]
      rfl
    have le := add_length_le_parse magnitude (body ▸ List.prefix_append (c :: m') rest)
    rw [skip.1, skip.2, unsigned] at le
    rw [eq, List.length_append]
    exact le
  | @signed spaces c m n blank sign magnitude =>
    have skip := unspaced_append blank (isSpace_of_isSign sign) (m ++ rest)
    have eq : spaces ++ c :: m ++ rest = spaces ++ c :: (m ++ rest) := by simp
    have one : signLength (c :: (m ++ rest)) = 1 := by rw [signLength, if_pos sign]
    have body : bodyOf (spaces ++ c :: (m ++ rest)) = m ++ rest := by
      rw [bodyOf, skip.2, one]
      rfl
    have le := add_length_le_parse magnitude (body ▸ List.prefix_append m rest)
    rw [skip.1, skip.2, one] at le
    rw [eq, List.length_append, List.length_cons]
    omega

theorem take_digitsOf (base : ℕ) (l : List UInt8) :
    l.take (prefixLength base l + (digitsOf base l).length) =
      l.take (prefixLength base l) ++ digitsOf base l := by
  rw [List.take_add]
  exact congrArg _ (List.prefix_iff_eq_take.1 (List.takeWhile_prefix _)).symm

/-- What `parse` finds is inside the text. -/
theorem length_parse_le (base : ℕ) (s : List UInt8) : (parse base s).length ≤ s.length := by
  rw [parse]
  split_ifs with nil
  · exact Nat.zero_le _
  · show (s.takeWhile isSpace).length + _ + _ + _ ≤ s.length
    have split : s.takeWhile isSpace ++ s.dropWhile isSpace = s := List.takeWhile_append_dropWhile
    have whole := congrArg List.length split
    have sign : signLength (unspaced s) ≤ (unspaced s).length := by
      cases unspaced s with
      | nil => exact le_rfl
      | cons c rest =>
        rw [signLength, List.length_cons]
        split_ifs <;> omega
    have body : (bodyOf s).length = (unspaced s).length - signLength (unspaced s) := List.length_drop
    have taken := congrArg List.length (take_digitsOf base (bodyOf s))
    have pos := List.length_pos_iff.2 nil
    rw [List.length_append, List.length_take, List.length_take] at taken
    rw [List.length_append] at whole
    rw [← unspaced] at whole
    omega

/-- The prefix with the digits is a number of the base. -/
theorem isMagnitude_digitsOf (ne : digitsOf base l ≠ []) :
    IsMagnitude base (l.take (prefixLength base l) ++ digitsOf base l)
      (value (radixOf base l) (digitsOf base l)) := by
  have digits : ∀ c ∈ digitsOf base l, isDigit (radixOf base l) c = true :=
    fun c mem => isDigit_of_mem_digitsOf mem
  by_cases hex : (base = 0 ∨ base = 16) ∧ hasHexPrefix l = true
  · have radix : radixOf base l = 16 := by
      rcases hex.1 with rfl | rfl
      · rw [radixOf, if_pos rfl, if_pos hex.2]
      · rfl
    rw [radix] at digits ⊢
    rw [prefixLength, if_pos hex]
    obtain ⟨x, c, rest, rfl, mark, -⟩ := hasHexPrefix_iff.1 hex.2
    exact .hex hex.1 mark ne digits
  · rw [prefixLength, if_neg hex, List.take_zero, List.nil_append]
    by_cases known : base = 0
    · have plain : hasHexPrefix l = false := Bool.eq_false_iff.2 fun h => hex ⟨Or.inl known, h⟩
      have front : digitsOf base l <+: l := by
        rw [digitsOf, prefixLength, if_neg hex]
        exact List.takeWhile_prefix _
      have radix : radixOf base l = if l.head? = some 48 then 8 else 10 := by
        rw [radixOf, if_pos known, plain, if_neg Bool.false_ne_true]
      obtain ⟨c, ds, eq⟩ := List.exists_cons_of_ne_nil ne
      rw [eq] at front digits ⊢
      obtain ⟨rest, rfl⟩ := front
      by_cases zero : c = 48
      · subst zero
        rw [radix, if_pos (show (48 :: ds ++ rest).head? = some 48 from rfl)] at digits ⊢
        exact .octal known fun d mem => digits d (List.mem_cons_of_mem _ mem)
      · have lead : ¬ (c :: ds ++ rest).head? = some 48 := fun h => zero (Option.some.inj h)
        rw [radix, if_neg lead] at digits ⊢
        exact .decimal known zero digits
    · rw [radixOf, if_neg known] at digits ⊢
      exact .given known ne digits

/-- What `parse` finds is a numeral. -/
theorem parse_isNumeral (some : 0 < (parse base s).length) :
    IsNumeral base (s.take (parse base s).length) (parse base s).negative (parse base s).magnitude := by
  have ne : digitsOf base (bodyOf s) ≠ [] := fun nil => by
    rw [parse, if_pos nil] at some
    exact absurd some (lt_irrefl 0)
  have magnitude := isMagnitude_digitsOf ne
  have blank : ∀ c ∈ s.takeWhile isSpace, isSpace c = true := fun c mem => List.mem_takeWhile_imp mem
  have whole : s = s.takeWhile isSpace ++ unspaced s := List.takeWhile_append_dropWhile.symm
  rw [parse, if_neg ne]
  show IsNumeral base (s.take (_ + _ + _ + _)) _ _
  have front (t : List UInt8) (k : ℕ) :
      (s.takeWhile isSpace ++ t).take ((s.takeWhile isSpace).length + k) =
        s.takeWhile isSpace ++ t.take k := List.take_length_add_append k
  rw [Nat.add_assoc, Nat.add_assoc, show s.take _ = _ from congrArg (List.take _) whole, front]
  match eq : unspaced s with
  | [] => exact absurd (by rw [bodyOf, eq, List.drop_nil, digitsOf_nil]) ne
  | c :: rest =>
    cases sign : isSign c with
    | true =>
      have body : bodyOf s = rest := by rw [bodyOf, eq, signLength, if_pos sign]; rfl
      rw [signLength, if_pos sign, Nat.add_comm 1, List.take_succ_cons, body, take_digitsOf]
      rw [body] at magnitude
      exact .signed blank sign magnitude
    | false =>
      have body : bodyOf s = c :: rest := by
        rw [bodyOf, eq, signLength, sign, if_neg Bool.false_ne_true]
        rfl
      have plus : ((c :: rest).head? == Option.some 45) = false := by
        rw [List.head?_cons, beq_eq_false_iff_ne]
        intro h
        rw [Option.some.inj h] at sign
        exact absurd sign (by decide)
      rw [plus, signLength, sign, if_neg Bool.false_ne_true, Nat.zero_add, body, take_digitsOf]
      rw [body] at magnitude
      exact .unsigned blank magnitude

end Longest

end Numeral
