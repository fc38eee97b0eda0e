import Yos.Libc.Scanf

/-!
# Directives in a format

Where the text of a directive is in front of a format, an iteration of `do_scan` does the directive and goes on behind
its text (`scanStep_text`).
-/

namespace Yos

namespace Scanf

open Numeral Bytes
open Printf (Guest front percent isDigitChar front_nil front_cons)

/-! ## Directives in a format -/

section Parsing

variable {f : List UInt8} {c : UInt8}

theorem isDigitChar_digitChar (d : Fin 10) : isDigitChar (digitChar d) = true := by
  revert d
  decide

theorem toNat_digitChar (d : Fin 10) : (digitChar d).toNat - 48 = d.val := by
  revert d
  decide

theorem le_foldl_append (digits : List (Fin 10)) (w : ℕ) : w ≤ digits.foldl append w := by
  induction digits generalizing w with
  | nil => exact le_rfl
  | cons d digits ih => exact le_trans (by rw [append]; omega) (ih (append w d))

theorem widthLoop_stop (stop : isDigitChar (front f) = false) (w : ℕ) : widthLoop w f = some (w, f) := by
  cases f with
  | nil => rfl
  | cons c f => rw [widthLoop, if_neg (by rw [show isDigitChar c = false from stop]; exact Bool.false_ne_true)]

/-- The loop reads a number that is an `int`, and no greater one. -/
theorem widthLoop_digits (stop : isDigitChar (front f) = false) (digits : List (Fin 10)) {w : ℕ} (small : w < 2 ^ 31) :
    widthLoop w (digits.map digitChar ++ f) =
      if digits.foldl append w < 2 ^ 31 then some (digits.foldl append w, f) else none := by
  induction digits generalizing w with
  | nil =>
    rw [List.foldl_nil, if_pos small]
    exact widthLoop_stop stop w
  | cons d digits ih =>
    have le := le_foldl_append digits (append w d)
    rw [List.map_cons, List.cons_append, widthLoop, if_pos (isDigitChar_digitChar d), toNat_digitChar, List.foldl_cons]
    by_cases fits : append w d < 2 ^ 31
    · rw [← append, if_pos fits, ih fits]
    · rw [← append, if_neg fits, if_neg (by omega)]

theorem parseWidth_chars (stop : isDigitChar (front f) = false) (w : Width) :
    (w.Small → parseWidth (w.chars ++ f) = some (w.value, f)) ∧ (¬ w.Small → parseWidth (w.chars ++ f) = none) := by
  by_cases nil : w.digits = []
  · have none : w.value = none := if_pos nil
    have chars : w.chars = [] := by rw [Width.chars, nil, List.map_nil]
    refine ⟨fun _ => ?_, fun big => absurd (fun n mem => by rw [none] at mem; cases mem) big⟩
    rw [chars, none, List.nil_append, parseWidth, stop, if_neg Bool.false_ne_true]
  · have value : w.value = some (number w.digits) := if_neg nil
    have head : isDigitChar (front (w.chars ++ f)) = true := by
      rw [Width.chars]
      rcases eq : w.digits with _ | ⟨d, digits⟩
      · exact absurd eq nil
      · exact isDigitChar_digitChar d
    have loop : widthLoop 0 (w.chars ++ f) = if number w.digits < 2 ^ 31 then some (number w.digits, f) else none :=
      widthLoop_digits stop w.digits (by decide)
    have small : w.Small ↔ number w.digits < 2 ^ 31 := by
      rw [Width.Small, value]
      exact ⟨fun h => h _ rfl, fun h n mem => Option.some.inj mem ▸ h⟩
    rw [parseWidth, if_pos head, small, value, loop]
    constructor
    · intro lt
      rw [if_pos lt]
      rfl
    · intro ge
      rw [if_neg ge]
      rfl

/-- A character that no part of a conversion in front of it takes. -/
def Ends (c : UInt8) : Prop :=
  isDigitChar c = false ∧ c ≠ Printf.star ∧ c ≠ 104 ∧ c ≠ 108 ∧ c ≠ 106 ∧ c ≠ 122 ∧ c ≠ 116 ∧ c ≠ 76

instance (c : UInt8) : Decidable (Ends c) := inferInstanceAs (Decidable (_ ∧ _))

theorem parseLength_chars (ends : Ends c) (len : Length) :
    parseLength (len.chars ++ c :: f) = (len.code, c :: f) := by
  obtain ⟨-, -, h, l, j, z, t, L⟩ := ends
  cases len <;> simp [parseLength, Length.chars, Length.code, h, l, j, z, t, L]

theorem front_length (ends : Ends c) (len : Length) :
    isDigitChar (front (len.chars ++ c :: f)) = false ∧ front (len.chars ++ c :: f) ≠ Printf.star := by
  cases len
  case none => exact ⟨ends.1, ends.2.1⟩
  all_goals exact ⟨rfl, by simp [Length.chars, Printf.star]⟩

theorem front_width (ends : Ends c) (w : Width) (len : Length) :
    front (w.chars ++ (len.chars ++ c :: f)) ≠ Printf.star := by
  rw [Width.chars]
  rcases w.digits with _ | ⟨d, digits⟩
  · exact (front_length ends len).2
  · intro eq
    have digit := isDigitChar_digitChar d
    rw [show digitChar d = Printf.star from eq] at digit
    exact absurd digit (by decide)

/-- The parser of a conversion reads what its parts stand for. -/
theorem parseSpec_chars (ends : Ends c) (suppress : Bool) (w : Width) (len : Length) :
    (w.Small → parseSpec (starChars suppress ++ w.chars ++ len.chars ++ c :: f) =
      some ⟨suppress, w.value, len.code, c :: f⟩) ∧
    (¬ w.Small → parseSpec (starChars suppress ++ w.chars ++ len.chars ++ c :: f) = none) := by
  have width := parseWidth_chars (front_length (f := f) ends len).1 w
  have length := parseLength_chars (f := f) ends len
  have parts : parseSpec (starChars suppress ++ w.chars ++ len.chars ++ c :: f) =
      (parseWidth (w.chars ++ (len.chars ++ c :: f))).map fun wf =>
        ⟨suppress, wf.1, (parseLength wf.2).1, (parseLength wf.2).2⟩ := by
    rw [List.append_assoc, List.append_assoc, parseSpec]
    cases suppress with
    | true => rfl
    | false =>
      have front := beq_eq_false_iff_ne.2 (front_width (f := f) ends w len)
      rw [starChars, if_neg Bool.false_ne_true, List.nil_append, front]
      rfl
  rw [parts]
  constructor
  · intro small
    rw [width.1 small, Option.map_some]
    show some (Spec.mk _ _ (parseLength _).1 (parseLength _).2) = _
    rw [length]
  · intro big
    rw [width.2 big, Option.map_none]

end Parsing

section Sets

variable {f rest : List UInt8} {c : UInt8} {accept : UInt8 → Bool}

/-- No range begins in front of a text. -/
def Closes (rest : List UInt8) : Prop :=
  ¬ (front rest = 45 ∧ front rest.tail ≠ 0 ∧ front rest.tail ≠ 93)

theorem setLoop_char (plain : c ≠ 0 ∧ c ≠ 93) (closes : Closes rest) (fuel : ℕ) (accept : UInt8 → Bool) :
    setLoop (fuel + 1) accept (c :: rest) = setLoop fuel (fun x => accept x || x == c) rest := by
  have open_ : ¬ (front (c :: rest) = 0 ∨ front (c :: rest) = 93) := not_or.2 plain
  have closed : ¬ (front (c :: rest).tail = 45 ∧
      front ((c :: rest).drop 2) ≠ 0 ∧ front ((c :: rest).drop 2) ≠ 93) := by
    rw [List.drop_succ_cons, List.drop_one]
    exact closes
  rw [setLoop, if_neg open_, if_neg closed]
  rfl

theorem setLoop_range {a b : UInt8} (first : a ≠ 0 ∧ a ≠ 93) (last : b ≠ 0 ∧ b ≠ 93) (fuel : ℕ)
    (accept : UInt8 → Bool) :
    setLoop (fuel + 1) accept (a :: 45 :: b :: rest) = setLoop fuel (fun x => accept x || inRange a b x) rest := by
  have open_ : ¬ (front (a :: 45 :: b :: rest) = 0 ∨ front (a :: 45 :: b :: rest) = 93) := not_or.2 first
  rw [setLoop, if_neg open_, if_pos ⟨rfl, last⟩]
  rfl

theorem setLoop_close (fuel : ℕ) (accept : UInt8 → Bool) : setLoop fuel accept (93 :: f) = (accept, 93 :: f) := by
  cases fuel with
  | zero => rfl
  | succ fuel => rw [setLoop, if_pos (.inr rfl)]

/-- The parts of a scanset with its end. -/
def setRest (items : List SetItem) (dash : Bool) (f : List UInt8) : List UInt8 :=
  items.flatMap SetItem.chars ++ ((if dash then [45] else []) ++ 93 :: f)

theorem setRest_cons (item : SetItem) (items : List SetItem) (dash : Bool) (f : List UInt8) :
    setRest (item :: items) dash f = item.chars ++ setRest items dash f := by
  rw [setRest, List.flatMap_cons, List.append_assoc, setRest]

theorem closes_setRest {items : List SetItem} (plain : ∀ item ∈ items, item.Plain) (dash : Bool) (f : List UInt8) :
    Closes (setRest items dash f) := by
  rintro ⟨minus, -, open_⟩
  rcases items with _ | ⟨item, items⟩
  · cases dash with
    | true => exact open_ rfl
    | false => exact absurd (show (93 : UInt8) = 45 from minus) (by decide)
  · have here := plain item (List.mem_cons_self ..)
    rw [setRest_cons] at minus
    cases item with
    | char c => exact here.2.2 minus
    | range a b => exact here.1.2.2 minus

theorem inRange_of_le {a b : UInt8} (le : a ≤ b) (x : UInt8) : inRange a b x = (a ≤ x && x ≤ b) :=
  if_neg (UInt8.not_lt.2 le)

/-- The loop takes what the parts stand for. -/
theorem setLoop_items {items : List SetItem} (plain : ∀ item ∈ items, item.Plain) (dash : Bool) (f : List UInt8)
    {fuel : ℕ} (room : (setRest items dash f).length ≤ fuel) (accept : UInt8 → Bool) :
    setLoop fuel accept (setRest items dash f) =
      (fun x => accept x || items.any (·.has x) || (dash && x == 45), 93 :: f) := by
  induction items generalizing fuel accept with
  | nil =>
    cases dash with
    | true =>
      obtain ⟨fuel, rfl⟩ : ∃ k, fuel = k + 1 := ⟨fuel - 1, by simp [setRest] at room; omega⟩
      have closes : Closes (93 :: f) := by simp [Closes]
      have step := setLoop_char (c := 45) (by decide) closes fuel accept
      simp only [setRest, List.flatMap_nil, List.nil_append, if_true, List.cons_append, step, setLoop_close,
        List.any_nil, Bool.or_false, Bool.true_and]
    | false =>
      simp only [setRest, List.flatMap_nil, List.nil_append, Bool.false_eq_true, if_false, setLoop_close,
        List.any_nil, Bool.or_false, Bool.false_and]
  | cons item items ih =>
    have here := plain item (List.mem_cons_self ..)
    have more := fun item mem => plain item (List.mem_cons_of_mem _ mem)
    rw [setRest_cons] at room ⊢
    cases item with
    | char c =>
      rw [SetItem.chars, List.singleton_append, List.length_cons] at room
      obtain ⟨fuel, rfl⟩ : ∃ k, fuel = k + 1 := ⟨fuel - 1, by omega⟩
      rw [SetItem.chars, List.singleton_append, setLoop_char ⟨here.1, here.2.1⟩ (closes_setRest more dash f),
        ih more (by omega)]
      simp only [List.any_cons, SetItem.has, Bool.or_assoc]
    | range a b =>
      rw [SetItem.chars, List.length_append, List.length_cons] at room
      obtain ⟨fuel, rfl⟩ : ∃ k, fuel = k + 1 := ⟨fuel - 1, by omega⟩
      rw [show SetItem.chars (.range a b) ++ setRest items dash f = a :: 45 :: b :: setRest items dash f from rfl,
        setLoop_range ⟨here.1.1, here.1.2.1⟩ here.2.1, ih more (by omega)]
      simp only [List.any_cons, SetItem.has, inRange_of_le here.2.2, Bool.or_assoc]

theorem ScanSet.chars_append (set : ScanSet) (f : List UInt8) :
    set.chars ++ f = (if set.negate then [94] else []) ++ (set.lead ++ setRest set.items set.dash f) := by
  simp only [ScanSet.chars, ScanSet.tail, setRest, List.append_assoc, List.singleton_append]

/-- A `]` in front is the one that stands for itself. -/
theorem ScanSet.front_lead (set : ScanSet) (f : List UInt8) :
    (front (set.lead ++ setRest set.items set.dash f) == 93) = set.lead.contains 93 := by
  rcases set.leads with nil | close | dash
  · rw [nil, List.nil_append]
    refine beq_eq_false_iff_ne.2 ?_
    rcases eq : set.items with _ | ⟨item, items⟩
    · rw [set.ne nil eq]
      show (45 : UInt8) ≠ 93
      decide
    · have here := set.plain item (eq ▸ List.mem_cons_self ..)
      rw [setRest_cons]
      cases item with
      | char c => exact here.2.1
      | range a b => exact here.1.2.1
  · rw [close]
    rfl
  · rw [dash]
    rfl

theorem ScanSet.front_chars (set : ScanSet) (f : List UInt8) : (front (set.chars ++ f) == 94) = set.negate := by
  rw [set.chars_append]
  cases caret : set.negate with
  | true => rfl
  | false =>
    refine beq_eq_false_iff_ne.2 ?_
    rw [if_neg Bool.false_ne_true, List.nil_append]
    rcases set.leads with nil | close | dash
    · have first := set.caret caret nil
      rw [nil, List.nil_append, setRest]
      generalize set.items.flatMap SetItem.chars = chars at first ⊢
      cases chars with
      | nil =>
        cases set.dash with
        | true => exact show (45 : UInt8) ≠ 94 by decide
        | false => exact show (93 : UInt8) ≠ 94 by decide
      | cons c chars => exact first
    · rw [close]
      exact show (93 : UInt8) ≠ 94 by decide
    · rw [dash]
      exact show (45 : UInt8) ≠ 94 by decide

/-- The parser of a scanset finds the characters that it stands for. -/
theorem parseSet_chars (set : ScanSet) (f : List UInt8) : parseSet (set.chars ++ f) = (set.has, f) := by
  have behind : (if set.negate then (set.chars ++ f).tail else set.chars ++ f) =
      set.lead ++ setRest set.items set.dash f := by
    rw [set.chars_append]
    cases set.negate <;> rfl
  have loop : ∀ body, body = (if set.lead.contains 93 then (set.lead ++ setRest set.items set.dash f).tail
        else set.lead ++ setRest set.items set.dash f) →
      setLoop body.length (fun c => set.lead.contains 93 && c == 93) body =
        (fun x => set.lead.contains x || set.items.any (·.has x) || (set.dash && x == 45), 93 :: f) := by
    rintro body rfl
    rcases set.leads with nil | close | dash
    · rw [nil]
      exact setLoop_items set.plain set.dash f le_rfl _
    · rw [close]
      refine (setLoop_items set.plain set.dash f le_rfl _).trans ?_
      simp only [List.contains_cons, List.contains_nil, Bool.or_false, Bool.true_and, beq_self_eq_true]
    · rw [dash]
      refine (setLoop_char (c := 45) (by decide) (closes_setRest set.plain set.dash f) _ _).trans ?_
      refine (setLoop_items set.plain set.dash f le_rfl _).trans ?_
      simp only [List.contains_cons, List.contains_nil, Bool.or_false]
      rfl
  rw [parseSet]
  simp only [set.front_chars, behind, set.front_lead, loop _ rfl]
  refine Prod.ext (funext fun c => ?_) rfl
  show _ = ((_ || _ || set.tail.contains c) != set.negate)
  have tail : set.tail.contains c = (set.dash && c == 45) := by
    rw [ScanSet.tail]
    cases set.dash with
    | true => rw [if_pos rfl, List.contains_cons, List.contains_nil, Bool.or_false, Bool.true_and]
    | false => rfl
  rw [tail]

end Sets

/-! ## A directive in front of a format -/

section Directives

variable (strtod : HostStrtod) (g : Guest) (src : List UInt8) {c : UInt8}

/-- What the code does for a directive. -/
def codeStep (s : Scan) : Directive → Effect
  | .space _ _ => .next (skipWs src s)
  | .lit c _ =>
    if src.drop s.pos = [] then .stop true
    else if front (src.drop s.pos) ≠ c then .stop false else .next (s.read 1)
  | .percent => if front (src.drop s.pos) = percent then .next (s.read 1) else .stop false
  | .count _ => scanCount g false s
  | .int suppress width len conv => scanInt g src suppress width.value len.code conv.char s
  | .word suppress width => scanWord g src suppress width.value s
  | .chars suppress width => scanChars g src suppress width.value s
  | .set suppress width set => scanSet g src suppress width.value set.has s

/-- The width of a directive is an `int`. -/
def Directive.Small : Directive → Prop
  | space _ _ | lit _ _ | percent | count _ => True
  | int _ width _ _ | word _ width | chars _ width | set _ width _ => width.Small

/-- No width. -/
def noWidth : Width := ⟨[], fun ne => absurd rfl ne⟩

theorem noWidth_small : noWidth.Small := fun _ mem => by cases mem

/-- The code gets to a conversion with what its parts stand for. -/
theorem scanStep_conversion (ends : Ends c) (suppress : Bool) (w : Width) (len : Length) (f : List UInt8) (s : Scan) :
    (w.Small → scanStep strtod g src (percent :: (starChars suppress ++ w.chars ++ len.chars ++ c :: f)) s =
      convert strtod g src ⟨suppress, w.value, len.code, c :: f⟩ s) ∧
    (¬ w.Small → scanStep strtod g src (percent :: (starChars suppress ++ w.chars ++ len.chars ++ c :: f)) s =
      (.undefined, [])) := by
  have parsed := parseSpec_chars (f := f) ends suppress w len
  rw [scanStep, front_cons, if_neg (by decide), if_neg (not_not.2 rfl), List.tail_cons]
  constructor
  · intro small
    rw [parsed.1 small]
  · intro big
    rw [parsed.2 big]

theorem ends_intConv (conv : IntConv) : Ends conv.char := by cases conv <;> decide

/-- The code does a directive in front of a format and goes on behind it, if its width is an `int`. -/
theorem scanStep_text (d : Directive) (f : List UInt8) (s : Scan) :
    (d.Small → scanStep strtod g src (d.text ++ f) s = (codeStep g src s d, f)) ∧
    (¬ d.Small → scanStep strtod g src (d.text ++ f) s = (.undefined, [])) := by
  have conversion := fun (c : UInt8) (ends : Ends c) suppress w len f =>
    scanStep_conversion strtod g src ends suppress w len f s
  cases d with
  | space c white =>
    exact ⟨fun _ => if_pos white, fun big => absurd trivial big⟩
  | lit c plain =>
    refine ⟨fun _ => ?_, fun big => absurd trivial big⟩
    show scanStep strtod g src (c :: f) s = _
    rw [scanStep, front_cons, plain.1, if_neg Bool.false_ne_true, if_pos plain.2.1]
    rfl
  | percent =>
    refine ⟨fun _ => ?_, fun big => absurd trivial big⟩
    exact (conversion percent (by decide) false noWidth .none f).1 noWidth_small
  | count len =>
    refine ⟨fun _ => ?_, fun big => absurd trivial big⟩
    have text : (Directive.count len).text ++ f =
        percent :: (starChars false ++ noWidth.chars ++ len.chars ++ 110 :: f) := by
      rw [Directive.text, List.cons_append, List.append_assoc]
      rfl
    rw [text, (conversion 110 (by decide) false noWidth len f).1 noWidth_small]
    rfl
  | int suppress w len conv =>
    have text : (Directive.int suppress w len conv).text ++ f =
        percent :: (starChars suppress ++ w.chars ++ len.chars ++ conv.char :: f) := by
      rw [Directive.text, List.cons_append, List.append_assoc, List.singleton_append]
    have both := conversion conv.char (ends_intConv conv) suppress w len f
    rw [text]
    refine ⟨fun small => ?_, both.2⟩
    rw [both.1 small]
    cases conv <;> rfl
  | word suppress w =>
    have text : (Directive.word suppress w).text ++ f =
        percent :: (starChars suppress ++ w.chars ++ Length.none.chars ++ 115 :: f) := by
      rw [Directive.text, List.cons_append, List.append_assoc, List.singleton_append, Length.chars, List.append_nil]
    have both := conversion 115 (by decide) suppress w .none f
    rw [text]
    exact ⟨both.1, both.2⟩
  | chars suppress w =>
    have text : (Directive.chars suppress w).text ++ f =
        percent :: (starChars suppress ++ w.chars ++ Length.none.chars ++ 99 :: f) := by
      rw [Directive.text, List.cons_append, List.append_assoc, List.singleton_append, Length.chars, List.append_nil]
    have both := conversion 99 (by decide) suppress w .none f
    rw [text]
    exact ⟨both.1, both.2⟩
  | set suppress w set =>
    have text : (Directive.set suppress w set).text ++ f =
        percent :: (starChars suppress ++ w.chars ++ Length.none.chars ++ 91 :: (set.chars ++ f)) := by
      rw [Directive.text, List.cons_append, List.append_assoc, List.cons_append, Length.chars, List.append_nil]
    have both := conversion 91 (by decide) suppress w .none (set.chars ++ f)
    rw [text]
    refine ⟨fun small => ?_, both.2⟩
    rw [both.1 small]
    show (scanSet g src suppress w.value (parseSet (set.chars ++ f)).1 s, (parseSet (set.chars ++ f)).2) = _
    rw [parseSet_chars]
    rfl

end Directives

end Scanf

end Yos
