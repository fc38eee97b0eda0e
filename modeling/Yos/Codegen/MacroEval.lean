import Yos.Lib.CConst
import Mathlib.Data.List.DropRight

/-!
# Macro constants (`codegen/extract.py`)

`_try_eval_macro_to_int` evaluates the body of a macro on its tokens: it takes parentheses off that are
around the whole body, reads a literal with Python's `int(s, 0)`, knows `-` and `~` before a literal and a
shift of two literals, and folds a chain of literals with `|`, `&`, `^`, `+` and `-` from left to right,
all on Python's integers.  `macro_meets` says for which bodies this is the value of C.
-/

namespace Yos.Codegen

open CConst

/-! ## Python's integers -/

/-- Digits of a radix, with single underscores between them; `after` says that a digit is in front. -/
def digitsOk (radix : ℕ) : (after : Bool) → List UInt8 → Bool
  | after, [] => after
  | after, c :: s =>
    if c = 95 then after && digitsOk radix false s else Numeral.isDigit radix c && digitsOk radix true s

/-- The number of such digits. -/
def intDigits (radix : ℕ) (s : List UInt8) : Option ℕ :=
  if digitsOk radix false s then some (Numeral.value radix (s.filter (· ≠ 95))) else none

/-- The digits after a prefix may follow an underscore. -/
def prefixedDigits (radix : ℕ) : List UInt8 → Option ℕ
  | [] => none
  | c :: s => intDigits radix (if c = 95 then s else c :: s)

/-- `int(s, 0)` without a sign; zeros in front are allowed only to zero. -/
def intNat : List UInt8 → Option ℕ
  | 48 :: c :: s =>
    if Numeral.isHexMark c then prefixedDigits 16 s
    else if c = 111 ∨ c = 79 then prefixedDigits 8 s
    else if c = 98 ∨ c = 66 then prefixedDigits 2 s
    else (intDigits 10 (48 :: c :: s)).filter (· = 0)
  | s => intDigits 10 s

/-- `int(s, 0)`, of a text without white space, which no token has. -/
def pyInt : List UInt8 → Option ℤ
  | 45 :: s => (intNat s).map fun n => -(n : ℤ)
  | 43 :: s => (intNat s).map fun n => (n : ℤ)
  | s => (intNat s).map fun n => (n : ℤ)

/-! ## The evaluator -/

/-- The characters `uUlL`. -/
def isSuffixChar (c : UInt8) : Bool := c ∈ ([117, 85, 108, 76] : List UInt8)

/-- `_strip_int_suffix`. -/
def stripIntSuffix (s : List UInt8) : List UInt8 := s.rdropWhile isSuffixChar

/-- `_parse_int_literal`. -/
def parseIntLiteral (s : List UInt8) : Option ℤ := pyInt (stripIntSuffix s)

section Unwrap

variable {α : Type*}

/-- Takes a pair of parentheses off as long as there is one around everything. -/
def unwrapLoop (isOpen isClose : α → Bool) : (fuel : ℕ) → List α → List α
  | 0, rhs => rhs
  | fuel + 1, rhs =>
    if 2 ≤ rhs.length ∧ rhs.head?.any isOpen ∧ rhs.getLast?.any isClose then
      unwrapLoop isOpen isClose fuel rhs.tail.dropLast
    else rhs

/-- The loop ends before the list does. -/
def unwrap (isOpen isClose : α → Bool) (rhs : List α) : List α :=
  unwrapLoop isOpen isClose rhs.length rhs

end Unwrap

/-- The texts `|`, `&`, `^`, `+` and `-`. -/
def isChainText (t : List UInt8) : Bool := t ∈ ([[124], [38], [94], [43], [45]] : List (List UInt8))

/-- One step of the chain. -/
def applyOp (op : List UInt8) (acc v : ℤ) : Option ℤ :=
  if op = [124] then some (Int.lor acc v)
  else if op = [38] then some (Int.land acc v)
  else if op = [94] then some (Int.xor acc v)
  else if op = [43] then some (acc + v)
  else if op = [45] then some (acc - v)
  else none

/-- The loop over the chain takes two tokens at a time, and leaves a last single one. -/
def foldChain (acc : ℤ) : List (List UInt8) → Option ℤ
  | op :: t :: rest =>
    (parseIntLiteral t).bind fun v => (applyOp op acc v).bind fun acc => foldChain acc rest
  | _ => some acc

/-- The last part of `_try_eval_macro_to_int`. -/
def evalChain (rhs : List (List UInt8)) : Option ℤ :=
  if rhs.all fun t => isChainText t || (parseIntLiteral t).isSome then
    (rhs.head?.bind parseIntLiteral).bind fun acc => foldChain acc rhs.tail
  else none

/-- The body without parentheses around it.  A shift by a negative number raises an exception; no token
is one. -/
def evalRhs (rhs : List (List UInt8)) : Option ℤ :=
  match rhs with
  | [] => none
  | [t] => parseIntLiteral t
  | [t, s] =>
    if t = [45] ∨ t = [126] then
      (parseIntLiteral s).map fun v => if t = [45] then -v else (-v - 1) % 2 ^ 64
    else evalChain rhs
  | [t, o, s] =>
    if o = [60, 60] ∨ o = [62, 62] then
      match parseIntLiteral t, parseIntLiteral s with
      | some a, some b =>
        if b < 0 then none else some (if o = [60, 60] then a * 2 ^ b.toNat else a / 2 ^ b.toNat)
      | _, _ => none
    else evalChain rhs
  | _ => evalChain rhs

/-- `_try_eval_macro_to_int`, of the spellings of the tokens, the name of the macro first. -/
def tryEvalMacroToInt (toks : List (List UInt8)) : Option ℤ :=
  if toks.length < 2 then none else evalRhs (unwrap (· == [40]) (· == [41]) toks.tail)

/-! ## Tokens -/

/-- The spelling of an operator. -/
def opText : Binary → List UInt8
  | .or => [124]
  | .xor => [94]
  | .and => [38]
  | .shl => [60, 60]
  | .shr => [62, 62]
  | .add => [43]
  | .sub => [45]

/-- The spelling of a token. -/
def spell : Tok → List UInt8
  | .lit l => l.digits ++ l.suffix.text
  | .lparen => [40]
  | .rparen => [41]
  | .tilde => [126]
  | .op o => opText o

/-- Python reads the literal: it is not octal, or it is zero. -/
def Read (l : Literal) : Prop := Numeral.radixOf 0 l.digits = 8 → l.value = 0

instance (l : Literal) : Decidable (Read l) := inferInstanceAs (Decidable (_ → _))

/-- The value of a literal that Python reads. -/
def readLit (l : Literal) : Option ℤ := if Read l then some l.value else none

example : parseIntLiteral [48, 120, 49, 70, 85, 76] = some 31 := by decide +kernel
example : parseIntLiteral [48, 49, 48] = none := by decide +kernel

section Literals

variable {radix : ℕ} {c : UInt8} {s : List UInt8} {l : Literal}

theorem isDigit_mono {r : ℕ} (h : Numeral.isDigit radix c = true) (le : radix ≤ r) :
    Numeral.isDigit r c = true := by
  simp only [Numeral.isDigit, Option.any_eq_true, decide_eq_true_eq] at h ⊢
  obtain ⟨n, value, lt⟩ := h
  exact ⟨n, value, lt.trans_le le⟩

theorem isSuffixChar_of_isDigit (h : Numeral.isDigit 16 c = true) : isSuffixChar c = false := by
  by_contra suffix
  simp only [isSuffixChar, Bool.not_eq_false, decide_eq_true_eq, List.mem_cons, List.not_mem_nil,
    or_false] at suffix
  rcases suffix with rfl | rfl | rfl | rfl <;> exact absurd h (by decide)

theorem ne_underscore (h : Numeral.isDigit 16 c = true) : c ≠ 95 := by
  rintro rfl
  exact absurd h (by decide)

theorem digitsOk_of_digits {after : Bool} (le : radix ≤ 16) (ne : s ≠ [] ∨ after = true)
    (digits : ∀ c ∈ s, Numeral.isDigit radix c) : digitsOk radix after s = true := by
  induction s generalizing after with
  | nil => exact ne.resolve_left fun h => h rfl
  | cons c s ih =>
    have digit := digits c List.mem_cons_self
    rw [digitsOk, if_neg (ne_underscore (isDigit_mono digit le)), digit, Bool.true_and]
    exact ih (Or.inr rfl) fun d mem => digits d (List.mem_cons_of_mem c mem)

theorem intDigits_of_digits (le : radix ≤ 16) (ne : s ≠ []) (digits : ∀ c ∈ s, Numeral.isDigit radix c) :
    intDigits radix s = some (Numeral.value radix s) := by
  have all : s.filter (· ≠ 95) = s := List.filter_eq_self.2 fun c mem =>
    decide_eq_true (ne_underscore (isDigit_mono (digits c mem) le))
  rw [intDigits, digitsOk_of_digits le (Or.inl ne) digits, if_pos rfl, all]

/-- Digits stand for zero in every radix or in none. -/
theorem value_eq_zero_iff (pos : 0 < radix) :
    Numeral.value radix s = 0 ↔ ∀ c ∈ s, (Numeral.digitValue c).getD 0 = 0 := by
  have from_any (n : ℕ) : s.foldl (fun n c => radix * n + (Numeral.digitValue c).getD 0) n = 0 ↔
      n = 0 ∧ ∀ c ∈ s, (Numeral.digitValue c).getD 0 = 0 := by
    induction s generalizing n with
    | nil => simp
    | cons c s ih =>
      rw [List.foldl_cons, ih, List.forall_mem_cons, Nat.add_eq_zero_iff, Nat.mul_eq_zero]
      constructor
      · rintro ⟨⟨zero, digit⟩, rest⟩
        exact ⟨zero.resolve_left pos.ne', digit, rest⟩
      · rintro ⟨zero, digit, rest⟩
        exact ⟨⟨Or.inr zero, digit⟩, rest⟩
  rw [Numeral.value, from_any 0]
  exact and_iff_right rfl

theorem radixOf_octal (digits : ∀ c ∈ s, Numeral.isDigit 8 c) : Numeral.radixOf 0 (48 :: s) = 8 := by
  have plain : Numeral.hasHexPrefix (48 :: s) ≠ true := fun h => by
    obtain ⟨x, d, rest, eq, mark, -⟩ := Numeral.hasHexPrefix_iff.1 h
    have digit := digits x (by rw [(List.cons.inj eq).2]; exact List.mem_cons_self)
    rw [Numeral.isDigit_of_isHexMark mark (by decide)] at digit
    exact absurd digit Bool.false_ne_true
  rw [Numeral.radixOf, if_pos rfl, if_neg plain, if_pos (List.head?_cons)]

theorem radixOf_decimal (lead : c ≠ 48) : Numeral.radixOf 0 (c :: s) = 10 := by
  have plain : Numeral.hasHexPrefix (c :: s) ≠ true := fun h => by
    obtain ⟨x, d, rest, eq, -⟩ := Numeral.hasHexPrefix_iff.1 h
    exact lead (List.cons.inj eq).1
  rw [Numeral.radixOf, if_pos rfl, if_neg plain, List.head?_cons,
    if_neg fun h => lead (Option.some.inj h)]

theorem radixOf_hex (mark : Numeral.isHexMark c) (ne : s ≠ []) (digits : ∀ d ∈ s, Numeral.isDigit 16 d) :
    Numeral.radixOf 0 (48 :: c :: s) = 16 := by
  obtain ⟨d, rest, rfl⟩ := List.exists_cons_of_ne_nil ne
  rw [Numeral.radixOf, if_pos rfl,
    if_pos (Numeral.hasHexPrefix_iff.2 ⟨c, d, rest, rfl, mark, digits d List.mem_cons_self⟩)]

/-- Zeros in front of a decimal number are read only if it is zero, which an octal one then is too. -/
theorem intNat_octal (digits : ∀ c ∈ s, Numeral.isDigit 8 c) :
    intNat (48 :: s) = if Numeral.value 8 (48 :: s) = 0 then some 0 else none := by
  have all : ∀ c ∈ 48 :: s, Numeral.isDigit 8 c := List.forall_mem_cons.2 ⟨by decide, digits⟩
  have read := intDigits_of_digits (by decide) (List.cons_ne_nil 48 s) fun c mem =>
    isDigit_mono (all c mem) (show 8 ≤ 10 by decide)
  have same : Numeral.value 10 (48 :: s) = 0 ↔ Numeral.value 8 (48 :: s) = 0 := by
    rw [value_eq_zero_iff (by decide), value_eq_zero_iff (by decide)]
  match s, digits with
  | [], _ => rfl
  | c :: s, digits =>
    have digit := digits c List.mem_cons_self
    have plain : ¬ Numeral.isHexMark c = true := fun mark => by
      rw [Numeral.isDigit_of_isHexMark mark (by decide)] at digit
      exact absurd digit Bool.false_ne_true
    have octal : ¬ (c = 111 ∨ c = 79) := by
      rintro (rfl | rfl) <;> exact absurd digit (by decide)
    have binary : ¬ (c = 98 ∨ c = 66) := by
      rintro (rfl | rfl) <;> exact absurd digit (by decide)
    rw [intNat, if_neg plain, if_neg octal, if_neg binary, read, Option.filter_some]
    simp only [decide_eq_true_eq, same]
    split_ifs with zero
    · rw [same.2 zero]
    · rfl

theorem intNat_decimal (lead : c ≠ 48) (digits : ∀ d ∈ c :: s, Numeral.isDigit 10 d) :
    intNat (c :: s) = some (Numeral.value 10 (c :: s)) := by
  have read := intDigits_of_digits (by decide) (List.cons_ne_nil c s) digits
  unfold intNat
  split
  next eq => exact absurd (List.cons.inj eq).1 lead
  next => exact read

theorem intNat_hex (mark : Numeral.isHexMark c) (ne : s ≠ []) (digits : ∀ d ∈ s, Numeral.isDigit 16 d) :
    intNat (48 :: c :: s) = some (Numeral.value 16 s) := by
  obtain ⟨d, rest, rfl⟩ := List.exists_cons_of_ne_nil ne
  rw [intNat, if_pos mark, prefixedDigits, if_neg (ne_underscore (digits d List.mem_cons_self))]
  exact intDigits_of_digits le_rfl ne digits

/-- The first character of a literal is a figure. -/
theorem literal_head (l : Literal) : ∃ c s, l.digits = c :: s ∧ Numeral.isDigit 10 c = true := by
  obtain ⟨digits, value, magnitude, suffix⟩ := l
  cases magnitude with
  | given known => exact absurd rfl known
  | octal _ digits => exact ⟨48, _, rfl, by decide⟩
  | decimal _ _ digits => exact ⟨_, _, rfl, digits _ List.mem_cons_self⟩
  | hex => exact ⟨48, _, rfl, by decide⟩

/-- The last character of its digits is a digit. -/
theorem literal_last (l : Literal) (ne : l.digits ≠ []) :
    Numeral.isDigit 16 (l.digits.getLast ne) = true := by
  obtain ⟨digits, value, magnitude, suffix⟩ := l
  cases magnitude with
  | given known => exact absurd rfl known
  | @octal s _ digits =>
    have all : ∀ c ∈ 48 :: s, Numeral.isDigit 8 c := List.forall_mem_cons.2 ⟨by decide, digits⟩
    exact isDigit_mono (all _ (List.getLast_mem ne)) (by decide)
  | decimal _ _ digits => exact isDigit_mono (digits _ (List.getLast_mem ne)) (by decide)
  | @hex c s _ _ some digits =>
    have last : (48 :: c :: s).getLast ne = s.getLast some := by
      rw [List.getLast_cons (List.cons_ne_nil c s), List.getLast_cons some]
    exact digits _ (last ▸ List.getLast_mem some)

theorem isSuffixChar_suffix (x : Suffix) (mem : c ∈ x.text) : isSuffixChar c = true := by
  obtain ⟨u, l, unsignedMark, longMark, longFirst⟩ := x
  have mem : c ∈ u ∨ c ∈ l := by
    unfold Suffix.text at mem
    split_ifs at mem
    · exact (List.mem_append.1 mem).symm
    · exact List.mem_append.1 mem
  rcases mem with mem | mem
  · have all : ∀ t ∈ ([[], [117], [85]] : List (List UInt8)), ∀ c ∈ t, isSuffixChar c = true := by decide +kernel
    exact all u unsignedMark c mem
  · have all : ∀ t ∈ ([[], [108], [76], [108, 108], [76, 76]] : List (List UInt8)),
        ∀ c ∈ t, isSuffixChar c = true := by decide +kernel
    exact all l longMark c mem

/-- The suffix is what is stripped. -/
theorem stripIntSuffix_spell (l : Literal) : stripIntSuffix (spell (.lit l)) = l.digits := by
  have suffix : ∀ c ∈ l.suffix.text.reverse, isSuffixChar c = true := fun c mem =>
    isSuffixChar_suffix l.suffix (List.mem_reverse.1 mem)
  have digits : l.digits.rdropWhile isSuffixChar = l.digits :=
    List.rdropWhile_eq_self_iff.2 fun ne => by
      rw [isSuffixChar_of_isDigit (literal_last l ne)]
      exact Bool.false_ne_true
  show ((l.digits ++ l.suffix.text).reverse.dropWhile isSuffixChar).reverse = _
  rw [List.reverse_append, List.dropWhile_append_of_pos suffix]
  exact digits

theorem intNat_digits (l : Literal) : intNat l.digits = if Read l then some l.value else none := by
  obtain ⟨digits, value, magnitude, suffix⟩ := l
  cases magnitude with
  | given known => exact absurd rfl known
  | @octal s _ digits =>
    refine (intNat_octal digits).trans ?_
    by_cases zero : Numeral.value 8 (48 :: s) = 0
    · have read : Read ⟨_, _, .octal rfl digits, suffix⟩ := fun _ => zero
      rw [if_pos zero, if_pos read]
      exact congrArg some zero.symm
    · have unread : ¬ Read ⟨_, _, .octal rfl digits, suffix⟩ := fun read =>
        zero (read (radixOf_octal digits))
      rw [if_neg zero, if_neg unread]
  | decimal _ lead digits =>
    have read : Read ⟨_, _, .decimal rfl lead digits, suffix⟩ := fun octal =>
      absurd ((radixOf_decimal lead).symm.trans octal) (by decide)
    exact (intNat_decimal lead digits).trans (if_pos read).symm
  | hex sixteen mark ne digits =>
    have read : Read ⟨_, _, .hex sixteen mark ne digits, suffix⟩ := fun octal =>
      absurd ((radixOf_hex mark ne digits).symm.trans octal) (by decide)
    exact (intNat_hex mark ne digits).trans (if_pos read).symm

/-- `_parse_int_literal`, of a literal. -/
theorem parse_lit (l : Literal) : parseIntLiteral (spell (.lit l)) = readLit l := by
  obtain ⟨c, s, eq, digit⟩ := literal_head l
  have unsigned : pyInt l.digits = (intNat l.digits).map fun n => (n : ℤ) := by
    rw [eq, pyInt]
    · intro t eq
      rw [(List.cons.inj eq).1] at digit
      exact absurd digit (by decide)
    · intro t eq
      rw [(List.cons.inj eq).1] at digit
      exact absurd digit (by decide)
  rw [parseIntLiteral, stripIntSuffix_spell, unsigned, intNat_digits, readLit]
  split_ifs <;> rfl

end Literals

section Tokens

variable {l : Literal} {t : Tok} {ts : List Tok}

/-- The spelling of a literal is not that of another token. -/
theorem spell_lit_ne (l : Literal) {c : UInt8} (other : Numeral.isDigit 10 c = false) (s : List UInt8) :
    spell (.lit l) ≠ c :: s := by
  obtain ⟨d, r, eq, digit⟩ := literal_head l
  intro same
  have head : d :: (r ++ l.suffix.text) = c :: s := by
    rw [← same, spell, eq]
    rfl
  rw [(List.cons.inj head).1, other] at digit
  exact absurd digit Bool.false_ne_true

/-- The value of a token as a literal. -/
def readTok : Tok → Option ℤ
  | .lit l => readLit l
  | _ => none

theorem parse_spell (t : Tok) : parseIntLiteral (spell t) = readTok t := by
  cases t with
  | lit l => exact parse_lit l
  | op o => cases o <;> rfl
  | _ => rfl

/-- The operators of chains. -/
def chainOp (o : Binary) : Bool := !o.isShift

/-- The tokens of chains. -/
def chainTok : Tok → Bool
  | .lit l => Read l
  | .op o => chainOp o
  | _ => false

theorem chainTok_iff (t : Tok) :
    (isChainText (spell t) || (parseIntLiteral (spell t)).isSome) = chainTok t := by
  rw [parse_spell]
  cases t with
  | lit l =>
    have other : isChainText (spell (.lit l)) = false := by
      simp only [isChainText, decide_eq_false_iff_not, List.mem_cons, List.not_mem_nil, or_false, not_or]
      exact ⟨spell_lit_ne l (by decide) _, spell_lit_ne l (by decide) _, spell_lit_ne l (by decide) _,
        spell_lit_ne l (by decide) _, spell_lit_ne l (by decide) _⟩
    rw [other, Bool.false_or]
    by_cases read : Read l <;> simp [readTok, readLit, chainTok, read]
  | op o => cases o <;> rfl
  | _ => rfl

theorem applyOp_chain {o : Binary} (chain : chainOp o = true) (acc v : ℤ) :
    applyOp (opText o) acc v = some (o.exact acc v) := by
  cases o <;> first | rfl | exact absurd chain (by decide)

theorem applyOp_lit (l : Literal) (acc v : ℤ) : applyOp (spell (.lit l)) acc v = none := by
  rw [applyOp, if_neg (spell_lit_ne l (by decide) _), if_neg (spell_lit_ne l (by decide) _),
    if_neg (spell_lit_ne l (by decide) _), if_neg (spell_lit_ne l (by decide) _),
    if_neg (spell_lit_ne l (by decide) _)]

/-! ## Chains -/

/-- The operators with the literals after them, as far as they alternate. -/
def links : List Tok → List (Binary × Literal)
  | .op o :: .lit l :: ts => (o, l) :: links ts
  | _ => []

/-- The tokens behind them. -/
def unlinked : List Tok → List Tok
  | .op _ :: .lit _ :: ts => unlinked ts
  | ts => ts

/-- The exact value of the chain from left to right. -/
def foldLinks (acc : ℤ) (ps : List (Binary × Literal)) : ℤ :=
  ps.foldl (fun acc p => p.1.exact acc p.2.value) acc

theorem links_append (ts : List Tok) :
    (links ts).flatMap (fun p => [.op p.1, .lit p.2]) ++ unlinked ts = ts := by
  fun_induction links ts with
  | case1 o l ts ih =>
    rw [unlinked, List.flatMap_cons, List.append_assoc, ih]
    rfl
  | case2 ts other =>
    rw [unlinked]
    · rfl
    · exact other

/-- The loop reads the links, and a single token behind them is not looked at. -/
theorem foldChain_spell (chain : ∀ t ∈ ts, chainTok t = true) (acc : ℤ) :
    foldChain acc (ts.map spell) =
      if (unlinked ts).length ≤ 1 then some (foldLinks acc (links ts)) else none := by
  induction ts using links.induct generalizing acc with
  | case1 o l ts ih =>
    have op : chainTok (.op o) = true := chain _ (by simp)
    have read : Read l := of_decide_eq_true (chain (.lit l) (by simp))
    have rest := ih (fun t mem => chain t (by simp [mem])) (o.exact acc l.value)
    rw [List.map_cons, List.map_cons, foldChain, parse_lit, readLit, if_pos read, Option.bind_some]
    rw [show spell (.op o) = opText o from rfl, applyOp_chain op, Option.bind_some, rest]
    rfl
  | case2 ts other =>
    match ts, other, chain with
    | [], _, _ => rfl
    | [t], _, _ => cases t <;> rfl
    | t :: u :: ts, other, chain =>
      have behind : unlinked (t :: u :: ts) = t :: u :: ts := by
        rw [unlinked]
        exact other
      rw [behind, if_neg (by simp)]
      rw [List.map_cons, List.map_cons, foldChain, parse_spell]
      cases u with
      | lit l =>
        cases t with
        | lit k =>
          cases readTok (.lit l) with
          | none => rfl
          | some v => rw [Option.bind_some, applyOp_lit, Option.bind_none]
        | op o => exact absurd rfl (other o l ts)
        | _ => exact absurd (chain _ List.mem_cons_self) Bool.false_ne_true
      | _ => rfl

/-! ## Bodies -/

/-- What the evaluator distinguishes in a body without parentheses around it. -/
inductive Shape where
  | lone (l : Literal)
  | neg (l : Literal)
  | compl (l : Literal)
  | shift (a : Literal) (o : Binary) (b : Literal)
  | chain (l : Literal) (ts : List Tok)
  | other

/-- The shape of a body. -/
def shape : List Tok → Shape
  | [.lit l] => .lone l
  | [.op .sub, .lit l] => .neg l
  | [.tilde, .lit l] => .compl l
  | [.lit a, .op .shl, .lit b] => .shift a .shl b
  | [.lit a, .op .shr, .lit b] => .shift a .shr b
  | .lit l :: ts => .chain l ts
  | _ => .other

/-- The bodies of a shape. -/
def Shape.Of : Shape → List Tok → Prop
  | .lone l, ts => ts = [.lit l]
  | .neg l, ts => ts = [.op .sub, .lit l]
  | .compl l, ts => ts = [.tilde, .lit l]
  | .shift a o b, ts => chainOp o = false ∧ ts = [.lit a, .op o, .lit b]
  | .chain l rest, ts => rest ≠ [] ∧ ts = .lit l :: rest
  | .other, _ => True

theorem shape_spec (ts : List Tok) : (shape ts).Of ts := by
  unfold shape
  split
  next => rfl
  next => rfl
  next => rfl
  next => exact ⟨rfl, rfl⟩
  next => exact ⟨rfl, rfl⟩
  next some _ _ => exact ⟨some, rfl⟩
  next => trivial

/-- What is evaluated of a shape. -/
def evalShape : Shape → Option ℤ
  | .lone l => readLit l
  | .neg l => (readLit l).map fun v => -v
  | .compl l => (readLit l).map fun v => (-v - 1) % 2 ^ 64
  | .shift a o b => if Read a ∧ Read b then some (o.exact a.value b.value) else none
  | .chain l ts =>
    if Read l ∧ (∀ t ∈ ts, chainTok t = true) ∧ (unlinked ts).length ≤ 1 then
      some (foldLinks l.value (links ts))
    else none
  | .other => none

theorem all_chain_iff (ts : List Tok) :
    (ts.map spell).all (fun t => isChainText t || (parseIntLiteral t).isSome) = true ↔
      ∀ t ∈ ts, chainTok t = true := by
  rw [List.all_map, List.all_eq_true]
  exact forall₂_congr fun t _ => by rw [Function.comp_apply, chainTok_iff]

theorem evalChain_lit (l : Literal) (ts : List Tok) :
    evalChain ((Tok.lit l :: ts).map spell) = evalShape (.chain l ts) := by
  unfold evalChain evalShape
  simp only [all_chain_iff, List.forall_mem_cons]
  by_cases read : Read l
  · by_cases chain : ∀ t ∈ ts, chainTok t = true
    · have all : chainTok (.lit l) = true ∧ ∀ t ∈ ts, chainTok t = true := ⟨decide_eq_true read, chain⟩
      rw [if_pos all, List.map_cons, List.head?_cons, List.tail_cons, Option.bind_some, parse_lit, readLit,
        if_pos read, Option.bind_some, foldChain_spell chain]
      by_cases short : (unlinked ts).length ≤ 1
      · rw [if_pos short, if_pos ⟨read, chain, short⟩]
      · rw [if_neg short, if_neg fun all => short all.2.2]
    · rw [if_neg fun all => chain all.2, if_neg fun all => chain all.2.1]
  · rw [if_neg fun all => read (of_decide_eq_true all.1), if_neg fun all => read all.1]

/-- A chain that does not begin with a literal has no value. -/
theorem evalChain_plain (plain : ∀ l, t ≠ .lit l) (ts : List Tok) :
    evalChain ((t :: ts).map spell) = none := by
  have unread : parseIntLiteral (spell t) = none := by
    rw [parse_spell]
    cases t with
    | lit l => exact absurd rfl (plain l)
    | _ => rfl
  unfold evalChain
  rw [List.map_cons, List.head?_cons, Option.bind_some, unread, Option.bind_none, ite_self]

theorem evalRhs_pair (t s : Tok) : evalRhs [spell t, spell s] = evalShape (shape [t, s]) := by
  cases t with
  | lit l =>
    have other : ¬ (spell (.lit l) = [45] ∨ spell (.lit l) = [126]) := by
      rintro (h | h)
      · exact spell_lit_ne l (by decide) _ h
      · exact spell_lit_ne l (by decide) _ h
    have chain : shape [.lit l, s] = .chain l [s] := by
      cases s with
      | op o => cases o <;> rfl
      | _ => rfl
    rw [evalRhs, if_neg other, chain]
    exact evalChain_lit l [s]
  | tilde =>
    have compl : evalRhs [spell .tilde, spell s] =
        (parseIntLiteral (spell s)).map fun v => (-v - 1) % 2 ^ 64 := rfl
    rw [compl, parse_spell]
    cases s <;> rfl
  | op o =>
    by_cases minus : o = .sub
    · subst minus
      have neg : evalRhs [spell (.op .sub), spell s] =
          (parseIntLiteral (spell s)).map fun v => -v := rfl
      rw [neg, parse_spell]
      cases s <;> rfl
    · have other : ¬ (spell (.op o) = [45] ∨ spell (.op o) = [126]) := by
        cases o <;> first | exact absurd rfl minus | decide
      have plain : shape [.op o, s] = .other := by
        cases o <;> first | exact absurd rfl minus | rfl
      rw [evalRhs, if_neg other, plain]
      exact evalChain_plain (by simp) [s]
  | lparen => exact @evalChain_plain .lparen (by simp) [s]
  | rparen => exact @evalChain_plain .rparen (by simp) [s]

theorem shape_plain (plain : ∀ l, t ≠ .lit l) (long : 2 ≤ ts.length) : shape (t :: ts) = .other := by
  unfold shape
  split
  next eq => exact absurd (List.cons.inj eq).1 (plain _)
  next eq => simp [(List.cons.inj eq).2] at long
  next eq => simp [(List.cons.inj eq).2] at long
  next eq => exact absurd (List.cons.inj eq).1 (plain _)
  next eq => exact absurd (List.cons.inj eq).1 (plain _)
  next eq => exact absurd (List.cons.inj eq).1 (plain _)
  next => rfl

theorem shape_chain (some : ts ≠ []) (noShift : ∀ o b, ts = [.op o, .lit b] → chainOp o = true) :
    shape (.lit l :: ts) = .chain l ts := by
  unfold shape
  split
  next eq => exact absurd (List.cons.inj eq).2 some
  next eq => simp at eq
  next eq => simp at eq
  next eq => exact absurd (noShift _ _ (List.cons.inj eq).2) (by decide)
  next eq => exact absurd (noShift _ _ (List.cons.inj eq).2) (by decide)
  next eq => rw [Tok.lit.inj (List.cons.inj eq).1, (List.cons.inj eq).2]
  next other => exact absurd rfl (other l ts)

/-- A shift is not read as a chain. -/
theorem evalShape_chain_shift {o : Binary} (shift : chainOp o = false) (l : Literal) (s : Tok) :
    evalShape (.chain l [.op o, s]) = none := by
  refine if_neg fun chain => ?_
  have op : chainTok (.op o) = true := chain.2.1 _ List.mem_cons_self
  rw [chainTok, shift] at op
  exact absurd op Bool.false_ne_true

theorem evalRhs_shift {o : Binary} (shift : chainOp o = false) (t s : Tok) :
    evalRhs [spell t, spell (.op o), spell s] = evalShape (shape [t, .op o, s]) := by
  have unfolded : evalRhs [spell t, spell (.op o), spell s] =
      match readTok t, readTok s with
      | some a, some b => if b < 0 then none else some (o.exact a b)
      | _, _ => none := by
    rw [← parse_spell, ← parse_spell]
    cases o <;> first | rfl | exact absurd shift (by decide)
  rw [unfolded]
  cases t with
  | lit a =>
    cases s with
    | lit b =>
      have both : shape [.lit a, .op o, .lit b] = .shift a o b := by
        cases o <;> first | rfl | exact absurd shift (by decide)
      rw [both, evalShape, readTok, readTok, readLit, readLit]
      by_cases left : Read a
      · by_cases right : Read b
        · rw [if_pos left, if_pos right, if_pos ⟨left, right⟩]
          exact if_neg (Int.natCast_nonneg _).not_gt
        · rw [if_pos left, if_neg right, if_neg fun all : Read a ∧ Read b => right all.2]
      · rw [if_neg left, if_neg fun all : Read a ∧ Read b => left all.1]
    | _ =>
      rw [shape_chain (by simp) (by simp), evalShape_chain_shift shift]
      cases readTok (.lit a) <;> rfl
  | _ =>
    rw [shape_plain (by simp) (by simp)]
    rfl

/-- The evaluator, of tokens: what it evaluates is their shape. -/
theorem evalRhs_spell (ts : List Tok) : evalRhs (ts.map spell) = evalShape (shape ts) := by
  have chained (t : Tok) (rest : List Tok) (long : 2 ≤ rest.length)
      (noShift : ∀ o b, rest = [.op o, .lit b] → chainOp o = true) :
      evalChain ((t :: rest).map spell) = evalShape (shape (t :: rest)) := by
    by_cases lit : ∃ l, t = .lit l
    · obtain ⟨l, rfl⟩ := lit
      rw [shape_chain (List.ne_nil_of_length_pos (by omega)) noShift]
      exact evalChain_lit l rest
    · have plain : ∀ l, t ≠ .lit l := fun l eq => lit ⟨l, eq⟩
      rw [shape_plain plain long]
      exact evalChain_plain plain rest
  match ts with
  | [] => rfl
  | [t] =>
    show parseIntLiteral (spell t) = _
    rw [parse_spell]
    cases t with
    | op o => cases o <;> rfl
    | _ => rfl
  | [t, s] => exact evalRhs_pair t s
  | [t, u, s] =>
    by_cases shift : ∃ o, u = .op o ∧ chainOp o = false
    · obtain ⟨o, rfl, shift⟩ := shift
      exact evalRhs_shift shift t s
    · have unshifted : ¬ (spell u = [60, 60] ∨ spell u = [62, 62]) := by
        cases u with
        | lit l =>
          rintro (h | h)
          · exact spell_lit_ne l (by decide) _ h
          · exact spell_lit_ne l (by decide) _ h
        | op o => cases o <;> first | decide | exact absurd ⟨_, rfl, rfl⟩ shift
        | _ => decide
      show (if spell u = [60, 60] ∨ spell u = [62, 62] then _ else evalChain _) = _
      rw [if_neg unshifted]
      refine chained t [u, s] (by simp) fun o b eq => ?_
      cases chain : chainOp o with
      | true => rfl
      | false => exact absurd ⟨o, (List.cons.inj eq).1, chain⟩ shift
  | t :: u :: s :: r :: rest => exact chained t (u :: s :: r :: rest) (by simp) (by simp)

end Tokens

section Unwrap

variable {α β : Type*} {isOpen isClose : β → Bool}

theorem unwrapLoop_map (f : α → β) (fuel : ℕ) (l : List α) :
    unwrapLoop isOpen isClose fuel (l.map f) =
      (unwrapLoop (fun x => isOpen (f x)) (fun x => isClose (f x)) fuel l).map f := by
  induction fuel generalizing l with
  | zero => rfl
  | succ fuel ih =>
    unfold unwrapLoop
    rw [List.length_map, List.head?_map, List.getLast?_map, Option.any_map, Option.any_map]
    split_ifs
    · rw [← ih, List.map_dropLast, List.map_tail]
    · rfl

/-- The loop takes as many opening as closing parentheses off. -/
theorem unwrapLoop_spec [DecidableEq α] (a b : α) (fuel : ℕ) (l : List α) :
    ∃ k, l = List.replicate k a ++ unwrapLoop (· == a) (· == b) fuel l ++ List.replicate k b := by
  induction fuel generalizing l with
  | zero => exact ⟨0, by simp [unwrapLoop]⟩
  | succ fuel ih =>
    unfold unwrapLoop
    split_ifs with wrapped
    · obtain ⟨long, first, last⟩ := wrapped
      obtain ⟨k, inner⟩ := ih l.tail.dropLast
      refine ⟨k + 1, ?_⟩
      match l, long, first, last with
      | c :: d :: l, _, first, last =>
        have first : c = a := by simpa using first
        have split := List.dropLast_append_getLast (List.cons_ne_nil d l)
        have last : (d :: l).getLast (List.cons_ne_nil d l) = b := by
          rw [List.getLast?_cons_cons, List.getLast?_eq_some_getLast (List.cons_ne_nil d l)] at last
          simpa using last
        rw [last] at split
        rw [List.tail_cons] at inner ⊢
        rw [List.replicate_succ, List.replicate_succ', List.cons_append, List.cons_append, ← List.append_assoc,
          ← inner, split, first]
    · exact ⟨0, by simp⟩

end Unwrap

/-- The body without parentheses around it. -/
def core (body : List Tok) : List Tok := unwrap (· == .lparen) (· == .rparen) body

theorem core_spec (body : List Tok) :
    ∃ k, body = List.replicate k .lparen ++ core body ++ List.replicate k .rparen :=
  unwrapLoop_spec _ _ _ _

theorem spell_paren (t : Tok) :
    (spell t == [40]) = (t == .lparen) ∧ (spell t == [41]) = (t == .rparen) := by
  cases t with
  | lit l =>
    have left : spell (.lit l) ≠ [40] := spell_lit_ne l (by decide) _
    have right : spell (.lit l) ≠ [41] := spell_lit_ne l (by decide) _
    rw [beq_eq_false_iff_ne.2 left, beq_eq_false_iff_ne.2 right]
    exact ⟨rfl, rfl⟩
  | op o => cases o <;> exact ⟨rfl, rfl⟩
  | _ => exact ⟨rfl, rfl⟩

theorem unwrap_spell (body : List Tok) :
    unwrap (· == [40]) (· == [41]) (body.map spell) = (core body).map spell := by
  have opens : (fun t => spell t == [40]) = (· == Tok.lparen) := funext fun t => (spell_paren t).1
  have closes : (fun t => spell t == [41]) = (· == Tok.rparen) := funext fun t => (spell_paren t).2
  rw [unwrap, unwrapLoop_map, opens, closes, List.length_map]
  rfl

/-- `_try_eval_macro_to_int`, of a body of such tokens. -/
theorem tryEval_spell (name : List UInt8) (body : List Tok) :
    tryEvalMacroToInt (name :: body.map spell) = evalShape (shape (core body)) := by
  unfold tryEvalMacroToInt
  rw [List.tail_cons, unwrap_spell, evalRhs_spell]
  split_ifs with short
  · have nil : body = [] := by
      rw [List.length_cons, List.length_map] at short
      exact List.eq_nil_of_length_eq_zero (by omega)
    rw [nil]
    rfl
  · rfl

/-! ## Where the value is that of C -/

/-- Macros are evaluated as C does: a value that is found is that of the body as an expression of C, and
one is found for every literal. -/
structure MacroOk (m : DataModel) (name : List UInt8) (body : List Tok) : Prop where
  value : ∀ v, tryEvalMacroToInt (name :: body.map spell) = some v →
    ∃ c : Val, Denotes m 0 body c ∧ c.value = v
  literal : ∀ l, body = [.lit l] → tryEvalMacroToInt (name :: body.map spell) ≠ none

/-- Along a chain every operand and every exact result is a value of the joint type. -/
def Exact (m : DataModel) : IntType → ℤ → List (Binary × Literal) → Prop
  | _, _, [] => True
  | t, n, (o, l) :: ps =>
    ∃ w, l.typed m = some w ∧ (t.join w.type).Holds n ∧ (t.join w.type).Holds (o.exact n l.value) ∧
      Exact m (t.join w.type) (o.exact n l.value) ps

/-- No operator binds tighter than one in front of it. -/
def Sorted (ps : List (Binary × Literal)) : Prop := ps.Pairwise fun p q => q.1.level ≤ p.1.level

/-- Where the evaluator finds the value of C, if it finds one: every literal has a type; `-` is before a
signed literal or a zero, and `~` before one of the unsigned type of 64 bits; a shift is by less than the
width and within the type; a chain ends with a literal, no operator in it binds tighter than one in front
of it, and it stays within the types. -/
def Shape.Meets (m : DataModel) : Shape → Prop
  | .lone l => Read l → (l.typed m).isSome
  | .neg l => Read l → ∃ v, l.typed m = some v ∧ (v.type.unsigned = true → l.value = 0)
  | .compl l => Read l → ∃ v, l.typed m = some v ∧ v.type = ⟨64, true⟩
  | .shift a o b => Read a → Read b → ∃ v w, a.typed m = some v ∧ b.typed m = some w ∧
      (b.value : ℤ) < v.type.width ∧ v.type.Holds (o.exact a.value b.value)
  | .chain l ts => Read l → (∀ t ∈ ts, chainTok t = true) → (unlinked ts).length ≠ 1 ∧
      (unlinked ts = [] → ∃ v, l.typed m = some v ∧ Sorted (links ts) ∧ Exact m v.type v.value (links ts))
  | .other => True

/-- The condition on a body; a literal on its own is not octal or it is zero. -/
structure Meets (m : DataModel) (body : List Tok) : Prop where
  shape : (shape (core body)).Meets m
  octal : ∀ l, body = [.lit l] → Read l

/-- The body is a chain of three literals or more. -/
def LongChain (body : List Tok) : Prop :=
  ∃ l ts, shape (core body) = .chain l ts ∧ unlinked ts = [] ∧ 2 ≤ (links ts).length

section Meets

variable {m : DataModel} {l : Literal} {t : Tok} {ts : List Tok} {v : ℤ}

/-- A chain from left to right is an expression with the exact value. -/
theorem denotes_links {n : ℕ} {a : Val} {ps : List (Binary × Literal)} (left : Denotes m n ts a)
    (binds : ∀ p ∈ ps, p.1.level ≤ n) (sorted : Sorted ps) (plain : ∀ p ∈ ps, chainOp p.1 = true)
    (exact : Exact m a.type a.value ps) :
    ∃ c : Val, Denotes m 0 (ts ++ ps.flatMap fun p => [.op p.1, .lit p.2]) c ∧
      c.value = foldLinks a.value ps := by
  induction ps generalizing n ts a with
  | nil => exact ⟨a, by simpa using left.weaken_le (Nat.zero_le n), rfl⟩
  | cons p ps ih =>
    obtain ⟨o, l⟩ := p
    obtain ⟨w, typed, holdsLeft, holdsResult, rest⟩ := exact
    have value := Literal.value_of_typed typed
    have holdsRight : (a.type.join w.type).Holds w.value := by
      rw [IntType.join_comm]
      exact w.holds.join (value ▸ Int.natCast_nonneg _) _
    have noShift : o.isShift = false := by simpa [chainOp] using plain (o, l) List.mem_cons_self
    rw [← value] at holdsResult rest
    have applied := Binary.apply_of_holds noShift holdsLeft holdsRight holdsResult
    have right : Denotes m (o.level + 1) [.lit l] w :=
      (Denotes.lit typed).weaken_le (by have := o.level_le; omega)
    have next := Denotes.binary (left.weaken_le (binds (o, l) List.mem_cons_self)) right applied
    obtain ⟨c, denotes, eq⟩ := ih next (fun p mem => List.rel_of_pairwise_cons sorted mem) sorted.of_cons
      (fun p mem => plain p (List.mem_cons_of_mem _ mem)) rest
    refine ⟨c, ?_, ?_⟩
    · simpa only [List.flatMap_cons, List.append_assoc, List.cons_append, List.nil_append] using denotes
    · rw [eq, foldLinks, foldLinks, List.foldl_cons, ← value]

theorem readLit_eq_some_iff : readLit l = some v ↔ Read l ∧ (l.value : ℤ) = v := by
  unfold readLit
  split_ifs with read <;> simp [read]

/-- Under the condition what is evaluated is the value of C. -/
theorem denotes_of_meets (meets : (shape ts).Meets m) (eval : evalShape (shape ts) = some v) :
    ∃ c : Val, Denotes m 0 ts c ∧ c.value = v := by
  have spec := shape_spec ts
  revert spec meets eval
  cases shape ts with
  | lone l =>
    intro meets eval (spec : ts = [.lit l])
    obtain ⟨read, rfl⟩ := readLit_eq_some_iff.1 eval
    obtain ⟨a, typed⟩ := Option.isSome_iff_exists.1 (meets read)
    exact ⟨a, spec ▸ (Denotes.lit typed).weaken_le (Nat.zero_le 6), Literal.value_of_typed typed⟩
  | neg l =>
    intro meets eval (spec : ts = [.op .sub, .lit l])
    obtain ⟨n, lit, rfl⟩ := Option.map_eq_some_iff.1 eval
    obtain ⟨read, rfl⟩ := readLit_eq_some_iff.1 lit
    obtain ⟨a, typed, zero⟩ := meets read
    have value := Literal.value_of_typed typed
    have holds : a.type.Holds (-a.value) :=
      a.holds.neg (value ▸ Int.natCast_nonneg _) fun unsigned => by rw [value, zero unsigned]; rfl
    have denotes := Denotes.unary (u := .neg) ((Denotes.lit typed).weaken_le (by decide)) (fit_of_holds holds)
    exact ⟨_, spec ▸ denotes.weaken_le (Nat.zero_le 5), by rw [← value]⟩
  | compl l =>
    intro meets eval (spec : ts = [.tilde, .lit l])
    obtain ⟨n, lit, rfl⟩ := Option.map_eq_some_iff.1 eval
    obtain ⟨read, rfl⟩ := readLit_eq_some_iff.1 lit
    obtain ⟨a, typed, type⟩ := meets read
    have value := Literal.value_of_typed typed
    have wrapped : a.type.Holds (a.type.wrap (-a.value - 1)) := IntType.holds_wrap (by rw [type]) _
    have denotes := Denotes.unary (u := .compl) ((Denotes.lit typed).weaken_le (by decide)) (dif_pos wrapped)
    refine ⟨_, spec ▸ denotes.weaken_le (Nat.zero_le 5), ?_⟩
    show a.type.wrap (-a.value - 1) = _
    rw [type, value]
    rfl
  | shift a o b =>
    intro meets eval (spec : chainOp o = false ∧ ts = [.lit a, .op o, .lit b])
    obtain ⟨shift, rfl⟩ := spec
    simp only [evalShape] at eval
    split_ifs at eval with read
    obtain ⟨x, y, left, right, narrow, holds⟩ := meets read.1 read.2
    have valueLeft := Literal.value_of_typed left
    have valueRight := Literal.value_of_typed right
    rw [← valueLeft, ← valueRight] at holds eval
    rw [← valueRight] at narrow
    have applied : o.apply x y = some ⟨x.type, o.exact x.value y.value, holds⟩ := by
      have isShift : o.isShift = true := by simpa [chainOp] using shift
      have inside : 0 ≤ y.value ∧ y.value < x.type.width ∧ (o = .shl → 0 ≤ x.value) :=
        ⟨valueRight ▸ Int.natCast_nonneg _, narrow, fun _ => valueLeft ▸ Int.natCast_nonneg _⟩
      rw [Binary.apply, if_pos isShift, if_pos inside, fit_of_holds holds]
    have first : Denotes m o.level [.lit a] x :=
      (Denotes.lit left).weaken_le (o.level_le.trans (by decide))
    have second : Denotes m (o.level + 1) [.lit b] y :=
      (Denotes.lit right).weaken_le (Nat.succ_le_of_lt (o.level_le.trans_lt (by decide)))
    have denotes := Denotes.binary first second applied
    exact ⟨_, denotes.weaken_le (Nat.zero_le _), Option.some.inj eval⟩
  | chain l rest =>
    intro meets eval (spec : rest ≠ [] ∧ ts = .lit l :: rest)
    obtain ⟨-, rfl⟩ := spec
    simp only [evalShape] at eval
    split_ifs at eval with chain
    obtain ⟨read, toks, short⟩ := chain
    obtain ⟨notOne, ends⟩ := meets read toks
    have nil : unlinked rest = [] := List.eq_nil_of_length_eq_zero (by omega)
    obtain ⟨a, typed, sorted, exact⟩ := ends nil
    have whole := links_append rest
    rw [nil, List.append_nil] at whole
    have plain : ∀ p ∈ links rest, chainOp p.1 = true := fun p mem =>
      toks (.op p.1) (whole ▸ List.mem_flatMap.2 ⟨p, mem, List.mem_cons_self⟩)
    obtain ⟨c, denotes, value⟩ := denotes_links (Denotes.lit typed)
      (fun p _ => p.1.level_le.trans (by decide)) sorted plain exact
    rw [whole] at denotes
    refine ⟨c, denotes, ?_⟩
    rw [value, Literal.value_of_typed typed]
    exact Option.some.inj eval
  | other => exact fun _ eval => absurd eval (by simp [evalShape])

/-- The complement in 64 bits is that in an unsigned type of 64 bits only. -/
theorem type_of_compl (a : Val) {n : ℕ} (width : a.type.width = 32 ∨ a.type.width = 64) (value : a.value = n)
    (same : (-(n : ℤ) - 1) % 2 ^ 64 = a.type.wrap (-n - 1)) : a.type = ⟨64, true⟩ := by
  obtain ⟨⟨w, unsigned⟩, x, holds⟩ := a
  have value : x = n := value
  cases unsigned with
  | false =>
    have negative : (-(n : ℤ) - 1) % 2 ^ 64 = -n - 1 := same
    omega
  | true =>
    have reduced : (-(n : ℤ) - 1) % 2 ^ 64 = (-n - 1) % 2 ^ w := same
    have width : w = 32 ∨ w = 64 := width
    rcases width with rfl | rfl
    · have high : x ≤ 2 ^ 32 - 1 := holds.2
      omega
    · rfl

/-- Links with a single token behind them are no expression. -/
theorem scan_dangling (dangling : (unlinked ts).length = 1) (chain : ∀ t ∈ ts, chainTok t = true)
    (st : List Pending) (a : Val) (k : ℕ) :
    scan m st (some a) (ts ++ List.replicate k .rparen) = none := by
  induction ts using links.induct generalizing st a with
  | case1 o l ts ih =>
    rw [unlinked] at dangling
    have rest := ih dangling fun t mem => chain t (by simp [mem])
    rw [List.cons_append, List.cons_append, scan]
    refine Option.bind_eq_none_iff.2 fun q _ => ?_
    rw [scan]
    refine Option.bind_eq_none_iff.2 fun v _ => ?_
    exact Option.bind_eq_none_iff.2 fun r _ => rest r.1 r.2
  | case2 ts other =>
    rw [unlinked] at dangling
    · obtain ⟨t, rfl⟩ := List.length_eq_one_iff.1 dangling
      cases t with
      | lit l => rfl
      | op o =>
        rw [List.singleton_append, scan]
        refine Option.bind_eq_none_iff.2 fun q _ => ?_
        cases k <;> rfl
      | _ => exact absurd (chain _ List.mem_cons_self) Bool.false_ne_true
    · exact other

section Wrapped

variable {k : ℕ} {a b c : Literal} {o : Binary} {r : Val}

theorem neg_of_evaluate (eval : evaluate m (List.replicate k .lparen ++ [.op .sub, .lit l] ++
      List.replicate k .rparen) = some r) (value : r.value = -l.value) :
    ∃ x, l.typed m = some x ∧ (x.type.unsigned = true → l.value = 0) := by
  obtain ⟨x, typed, applied⟩ := Option.bind_eq_some_iff.1 ((evaluate_unary .neg l k).symm.trans eval)
  have litValue := Literal.value_of_typed typed
  have holds := holds_of_fit applied (by rw [value, litValue])
  refine ⟨x, typed, fun unsigned => ?_⟩
  have low := holds.1
  rw [IntType.min, if_pos unsigned, litValue] at low
  omega

theorem compl_of_evaluate (eval : evaluate m (List.replicate k .lparen ++ [.tilde, .lit l] ++
      List.replicate k .rparen) = some r) (value : r.value = (-l.value - 1) % 2 ^ 64) :
    ∃ x, l.typed m = some x ∧ x.type = ⟨64, true⟩ := by
  obtain ⟨x, typed, applied⟩ := Option.bind_eq_some_iff.1 ((evaluate_unary .compl l k).symm.trans eval)
  have wrapped := (type_of_fit applied).2
  rw [value, Literal.value_of_typed typed] at wrapped
  exact ⟨x, typed, type_of_compl x (Literal.width_of_typed typed) (Literal.value_of_typed typed) wrapped⟩

/-- The value of an operator on two literals comes from their values. -/
theorem applied_of_evaluate (eval : evaluate m (List.replicate k .lparen ++ [.lit a, .op o, .lit b] ++
      List.replicate k .rparen) = some r) :
    ∃ x y, a.typed m = some x ∧ b.typed m = some y ∧ o.apply x y = some r := by
  rw [evaluate_binary] at eval
  obtain ⟨x, left, eval⟩ := Option.bind_eq_some_iff.1 eval
  obtain ⟨y, right, applied⟩ := Option.bind_eq_some_iff.1 eval
  exact ⟨x, y, left, right, applied⟩

theorem shift_of_evaluate (shift : chainOp o = false)
    (eval : evaluate m (List.replicate k .lparen ++ [.lit a, .op o, .lit b] ++
      List.replicate k .rparen) = some r) (value : r.value = o.exact a.value b.value) :
    ∃ x y, a.typed m = some x ∧ b.typed m = some y ∧ (b.value : ℤ) < x.type.width ∧
      x.type.Holds (o.exact a.value b.value) := by
  obtain ⟨x, y, left, right, applied⟩ := applied_of_evaluate eval
  have isShift : o.isShift = true := by simpa [chainOp] using shift
  have valueRight := Literal.value_of_typed right
  rw [Binary.apply, if_pos isShift] at applied
  split_ifs at applied with inside
  rw [Literal.value_of_typed left, valueRight] at applied
  exact ⟨x, y, left, right, valueRight ▸ inside.2.1, holds_of_fit applied value⟩

theorem exact_of_evaluate (plain : chainOp o = true)
    (eval : evaluate m (List.replicate k .lparen ++ [.lit a, .op o, .lit b] ++
      List.replicate k .rparen) = some r) (value : r.value = o.exact a.value b.value) :
    ∃ x, a.typed m = some x ∧ Exact m x.type x.value [(o, b)] := by
  obtain ⟨x, y, left, right, applied⟩ := applied_of_evaluate eval
  have noShift : o.isShift = false := by simpa [chainOp] using plain
  have valueLeft := Literal.value_of_typed left
  have valueRight := Literal.value_of_typed right
  have holdsLeft : (x.type.join y.type).Holds x.value :=
    x.holds.join (valueLeft ▸ Int.natCast_nonneg _) _
  have holdsRight : (x.type.join y.type).Holds y.value := by
    rw [IntType.join_comm]
    exact y.holds.join (valueRight ▸ Int.natCast_nonneg _) _
  rw [Binary.apply, noShift, if_neg Bool.false_ne_true] at applied
  simp only [IntType.wrap_of_holds holdsLeft, IntType.wrap_of_holds holdsRight] at applied
  rw [valueLeft, valueRight] at applied
  refine ⟨x, left, y, right, holdsLeft, ?_, trivial⟩
  rw [valueLeft]
  exact holds_of_fit applied value

end Wrapped

/-- Where what is evaluated is the value of C, the condition holds, or the body is a long chain. -/
theorem meets_of_denotes (k : ℕ) (value : ∀ v, evalShape (shape ts) = some v →
      ∃ c : Val, Denotes m 0 (List.replicate k .lparen ++ ts ++ List.replicate k .rparen) c ∧ c.value = v)
    (short : ¬ ∃ l rest, shape ts = .chain l rest ∧ unlinked rest = [] ∧ 2 ≤ (links rest).length) :
    (shape ts).Meets m := by
  have value (v : ℤ) (eval : evalShape (shape ts) = some v) : ∃ c : Val,
      evaluate m (List.replicate k .lparen ++ ts ++ List.replicate k .rparen) = some c ∧ c.value = v := by
    obtain ⟨c, denotes, eq⟩ := value v eval
    exact ⟨c, evaluate_of_denotes denotes, eq⟩
  have spec := shape_spec ts
  revert spec value short
  cases shape ts with
  | lone l =>
    intro _ value (spec : ts = [.lit l]) read
    obtain ⟨c, found, -⟩ := value _ (readLit_eq_some_iff.2 ⟨read, rfl⟩)
    rw [spec, evaluate_lit] at found
    exact Option.isSome_of_mem found
  | neg l =>
    intro _ value (spec : ts = [.op .sub, .lit l]) read
    obtain ⟨c, found, eq⟩ := value (-l.value)
      (Option.map_eq_some_iff.2 ⟨_, readLit_eq_some_iff.2 ⟨read, rfl⟩, rfl⟩)
    exact neg_of_evaluate (spec ▸ found) eq
  | compl l =>
    intro _ value (spec : ts = [.tilde, .lit l]) read
    obtain ⟨c, found, eq⟩ := value ((-l.value - 1) % 2 ^ 64)
      (Option.map_eq_some_iff.2 ⟨_, readLit_eq_some_iff.2 ⟨read, rfl⟩, rfl⟩)
    exact compl_of_evaluate (spec ▸ found) eq
  | shift a o b =>
    intro _ value (spec : chainOp o = false ∧ ts = [.lit a, .op o, .lit b]) left right
    obtain ⟨c, found, eq⟩ := value (o.exact a.value b.value) (if_pos ⟨left, right⟩)
    exact shift_of_evaluate spec.1 (spec.2 ▸ found) eq
  | chain l rest =>
    intro short value (spec : rest ≠ [] ∧ ts = .lit l :: rest) read toks
    obtain ⟨some, rfl⟩ := spec
    have evaluated (le : (unlinked rest).length ≤ 1) :
        evalShape (.chain l rest) = Option.some (foldLinks l.value (links rest)) :=
      if_pos ⟨read, toks, le⟩
    refine ⟨fun one => ?_, fun nil => ?_⟩
    · obtain ⟨c, found, -⟩ := value _ (evaluated one.le)
      rw [evaluate_parens] at found
      obtain ⟨a, -, found⟩ := Option.bind_eq_some_iff.1 found
      rw [settle_parens, Option.bind_some] at found
      exact absurd (found.symm.trans (scan_dangling one toks _ a k)) (Option.some_ne_none c)
    · have whole := links_append rest
      rw [nil, List.append_nil] at whole
      obtain ⟨c, found, eq⟩ := value _ (evaluated (by rw [nil]; exact Nat.zero_le 1))
      rcases form : links rest with _ | ⟨⟨o, r⟩, _ | ⟨p, ps⟩⟩
      · rw [form] at whole
        exact absurd whole.symm some
      · rw [form] at whole eq
        have rest : rest = [.op o, .lit r] := whole.symm
        rw [rest] at toks found
        obtain ⟨x, typed, exact⟩ := exact_of_evaluate (toks (.op o) List.mem_cons_self) found eq
        exact ⟨x, typed, List.pairwise_singleton _ _, exact⟩
      · exact absurd ⟨l, rest, rfl, nil, by rw [form]; simp⟩ short
  | other => exact fun _ _ _ => trivial

/-- Under the condition a macro is evaluated as C does.  Conversely, a macro that is evaluated as C does
meets the condition, or its body is a long chain, which may have the value of C by chance. -/
theorem macro_constants (m : DataModel) (name : List UInt8) (body : List Tok) :
    (Meets m body → MacroOk m name body) ∧ (MacroOk m name body → Meets m body ∨ LongChain body) := by
  obtain ⟨k, whole⟩ := core_spec body
  constructor
  · intro meets
    refine ⟨fun v eval => ?_, ?_⟩
    · rw [tryEval_spell] at eval
      obtain ⟨c, denotes, value⟩ := denotes_of_meets meets.shape eval
      exact ⟨c, whole ▸ denotes.parens k, value⟩
    · rintro l rfl
      rw [tryEval_spell]
      exact Option.ne_none_iff_exists'.2 ⟨_, readLit_eq_some_iff.2 ⟨meets.octal l rfl, rfl⟩⟩
  · intro ok
    by_cases long : LongChain body
    · exact Or.inr long
    · refine Or.inl ⟨meets_of_denotes k (fun v eval => ?_) long, ?_⟩
      · rw [← whole]
        exact ok.value v ((tryEval_spell name body).trans eval)
      · rintro l rfl
        by_contra unread
        refine ok.literal l rfl ?_
        rw [tryEval_spell]
        exact if_neg unread

end Meets

/-! ## Examples -/

/-- A `long` of 64 bits. -/
def lp64 : DataModel := ⟨64, Or.inr rfl⟩

theorem nil_mem_suffixes :
    [] ∈ ([[], [117], [85]] : List (List UInt8)) ∧
      [] ∈ ([[], [108], [76], [108, 108], [76, 76]] : List (List UInt8)) := by
  decide

/-- No suffix. -/
def noSuffix : Suffix := ⟨[], [], nil_mem_suffixes.1, nil_mem_suffixes.2, false⟩

/-- A decimal literal of one figure. -/
def figure (c : UInt8) (lead : c ≠ 48) (digit : ∀ d ∈ [c], Numeral.isDigit 10 d) : Literal :=
  ⟨[c], Numeral.value 10 [c], .decimal rfl lead digit, noSuffix⟩

/-- An octal literal. -/
def octal (s : List UInt8) (digits : ∀ c ∈ s, Numeral.isDigit 8 c) : Literal :=
  ⟨48 :: s, Numeral.value 8 (48 :: s), .octal rfl digits, noSuffix⟩

/-- `4 | 2` -/
def orBody : List Tok :=
  [.lit (figure 52 (by decide) (by decide +kernel)), .op .or, .lit (figure 50 (by decide) (by decide +kernel))]

/-- `4 | 1 & 2` -/
def orAndBody : List Tok :=
  [.lit (figure 52 (by decide) (by decide +kernel)), .op .or, .lit (figure 49 (by decide) (by decide +kernel)), .op .and,
    .lit (figure 50 (by decide) (by decide +kernel))]

/-- `~0` -/
def complBody : List Tok := [.tilde, .lit (octal [] (by decide +kernel))]

/-- `010` -/
def octalBody : List Tok := [.lit (octal [49, 48] (by decide +kernel))]

/-- `#define M 4 | 2`. -/
theorem macro_constants_or :
    tryEvalMacroToInt ([77] :: orBody.map spell) = some 6 ∧ MacroOk lp64 [77] orBody := by
  refine ⟨by decide +kernel, (macro_constants lp64 [77] orBody).1 ⟨fun _ _ => ?_, fun l eq => ?_⟩⟩
  · refine ⟨by decide, fun _ => ⟨⟨⟨32, false⟩, 4, by decide⟩, by decide +kernel, ?_⟩⟩
    exact ⟨List.pairwise_singleton _ _, ⟨⟨32, false⟩, 2, by decide⟩, by decide +kernel, by decide,
      by decide +kernel, trivial⟩
  · exact absurd (congrArg List.length eq) (by decide : ¬ 3 = 1)

/-- `4 | 1 & 2` is 0 and not 4, `~0` is positive, and `010` is not evaluated. -/
theorem macro_constants_wrong :
    ¬ MacroOk lp64 [77] orAndBody ∧ ¬ MacroOk lp64 [77] complBody ∧ ¬ MacroOk lp64 [77] octalBody := by
  refine ⟨fun ok => ?_, fun ok => ?_, fun ok => ok.literal _ rfl (by decide +kernel)⟩
  · obtain ⟨c, denotes, value⟩ := ok.value 0 (by decide +kernel)
    have four : (evaluate lp64 orAndBody).map Val.value = some 4 := by decide +kernel
    rw [evaluate_of_denotes denotes, Option.map_some, value] at four
    exact absurd four (by decide)
  · obtain ⟨c, denotes, value⟩ := ok.value (2 ^ 64 - 1) (by decide +kernel)
    have negative : (evaluate lp64 complBody).map Val.value = some (-1) := by decide +kernel
    rw [evaluate_of_denotes denotes, Option.map_some, value] at negative
    exact absurd negative (by decide)

end Yos.Codegen
