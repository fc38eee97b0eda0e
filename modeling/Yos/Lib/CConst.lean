import Yos.Lib.Numeral
import Mathlib.Data.Int.Bitwise
import Mathlib.Algebra.Order.Ring.Int
import Mathlib.Tactic.Linarith

/-!
# Constant expressions of C

Integer literals, parentheses, the unary operators `-`, `+` and `~`, shifts and the operators `|`, `^`,
`&`, `+` and `-`, with the types that C gives them.  `Denotes` is the grammar with the values of its
phrases; `evaluate` reads an expression from left to right and finds the value that it denotes
(`evaluate_of_denotes`), so there is but one (`Denotes.unique`).
-/

namespace CConst

/-! ## Types -/

/-- The width of `long`; `int` has 32 bits and `long long` 64. -/
structure DataModel where
  long : ℕ
  known : long = 32 ∨ long = 64

/-- An integer type.  Two types with one width and signedness have the same values, and they are not
told apart. -/
structure IntType where
  width : ℕ
  unsigned : Bool
deriving DecidableEq, Repr

namespace IntType

variable {s t : IntType} {n : ℤ}

/-- The least value. -/
def min (t : IntType) : ℤ := if t.unsigned then 0 else -2 ^ (t.width - 1)

/-- The greatest value. -/
def max (t : IntType) : ℤ := if t.unsigned then 2 ^ t.width - 1 else 2 ^ (t.width - 1) - 1

/-- The type has the value. -/
def Holds (t : IntType) (n : ℤ) : Prop := t.min ≤ n ∧ n ≤ t.max

instance (t : IntType) (n : ℤ) : Decidable (t.Holds n) := inferInstanceAs (Decidable (_ ∧ _))

/-- A number reduced to the values of an unsigned type. -/
def wrap (t : IntType) (n : ℤ) : ℤ := if t.unsigned then n % 2 ^ t.width else n

/-- The type of the usual arithmetic conversions: the wider one, unsigned if an unsigned operand has its
width. -/
def join (s t : IntType) : IntType :=
  ⟨Nat.max s.width t.width, (s.unsigned && t.width ≤ s.width) || (t.unsigned && s.width ≤ t.width)⟩

theorem join_comm (s t : IntType) : s.join t = t.join s := by
  rw [join, join, Bool.or_comm, show Nat.max _ _ = _ from Nat.max_comm _ _]

theorem wrap_of_holds (h : t.Holds n) : t.wrap n = n := by
  cases unsigned : t.unsigned with
  | false => rw [wrap, unsigned, if_neg Bool.false_ne_true]
  | true =>
    rw [Holds, min, max, unsigned, if_pos rfl, if_pos rfl] at h
    rw [wrap, unsigned, if_pos rfl]
    exact Int.emod_eq_of_lt h.1 (by omega)

theorem holds_wrap (unsigned : t.unsigned = true) (n : ℤ) : t.Holds (t.wrap n) := by
  have pos : (0 : ℤ) < 2 ^ t.width := by positivity
  have low := Int.emod_nonneg n pos.ne'
  have high := Int.emod_lt_of_pos n pos
  rw [Holds, min, max, wrap, unsigned, if_pos rfl, if_pos rfl, if_pos rfl]
  omega

theorem two_pow_le {k l : ℕ} (le : k ≤ l) : (2 : ℤ) ^ k ≤ 2 ^ l :=
  pow_le_pow_right₀ (by norm_num) le

/-- A value that is not negative stays a value under the usual conversions. -/
theorem Holds.join (h : s.Holds n) (nonneg : 0 ≤ n) (t : IntType) : (s.join t).Holds n := by
  have wider : s.width ≤ (s.join t).width := Nat.le_max_left _ _
  have bound := h.2
  unfold Holds IntType.min IntType.max
  cases joined : (s.join t).unsigned with
  | true =>
    have own : s.max ≤ 2 ^ s.width - 1 := by
      have le := two_pow_le (Nat.sub_le s.width 1)
      unfold IntType.max
      split_ifs <;> omega
    have le := two_pow_le wider
    simp only [if_true]
    omega
  | false =>
    have own : s.max ≤ 2 ^ ((s.join t).width - 1) - 1 := by
      unfold IntType.max
      cases unsigned : s.unsigned with
      | false =>
        have le := two_pow_le (Nat.sub_le_sub_right wider 1)
        rw [if_neg Bool.false_ne_true]
        omega
      | true =>
        have narrow : s.width < t.width := by
          by_contra le
          rw [IntType.join, unsigned, Bool.true_and] at joined
          simp only [Bool.or_eq_false_iff, decide_eq_false_iff_not] at joined
          exact joined.1 (Nat.le_of_not_lt le)
        have wide : t.width ≤ (s.join t).width := Nat.le_max_right _ _
        have le := two_pow_le (show s.width ≤ (s.join t).width - 1 by omega)
        rw [if_pos rfl]
        omega
    have pos : (0 : ℤ) < 2 ^ ((s.join t).width - 1) := by positivity
    simp only [Bool.false_eq_true, if_false]
    omega

/-- A signed type has the negative of such a value, and an unsigned one that of zero. -/
theorem Holds.neg (h : t.Holds n) (nonneg : 0 ≤ n) (zero : t.unsigned = true → n = 0) : t.Holds (-n) := by
  cases unsigned : t.unsigned with
  | true =>
    rw [zero unsigned] at h ⊢
    exact h
  | false =>
    have bound := h.2
    unfold max at bound
    unfold Holds min max
    rw [unsigned, if_neg Bool.false_ne_true] at bound
    simp only [unsigned, Bool.false_eq_true, if_false]
    omega

end IntType

/-- A value with its type. -/
structure Val where
  type : IntType
  value : ℤ
  holds : type.Holds value
deriving DecidableEq

/-- The value of an operation whose exact result is given; there is none if a signed type has not got
it. -/
def fit (t : IntType) (n : ℤ) : Option Val :=
  if h : t.Holds (t.wrap n) then some ⟨t, t.wrap n, h⟩ else none

section Fit

variable {t : IntType} {n : ℤ} {v : Val}

theorem fit_of_holds (h : t.Holds n) : fit t n = some ⟨t, n, h⟩ := by
  have same := IntType.wrap_of_holds h
  unfold fit
  simp only [same, dif_pos h]

theorem type_of_fit (h : fit t n = some v) : v.type = t ∧ v.value = t.wrap n := by
  unfold fit at h
  split_ifs at h
  obtain rfl := Option.some.inj h
  exact ⟨rfl, rfl⟩

/-- A result that is the exact one is a value of the type. -/
theorem holds_of_fit (h : fit t n = some v) (exact : v.value = n) : t.Holds n := by
  have type := (type_of_fit h).1
  have holds := v.holds
  rwa [type, exact] at holds

end Fit

/-! ## Literals -/

/-- The suffix of a literal: a mark for `unsigned`, one for `long` or `long long`, and their order. -/
structure Suffix where
  u : List UInt8
  l : List UInt8
  unsignedMark : u ∈ ([[], [117], [85]] : List (List UInt8))
  longMark : l ∈ ([[], [108], [76], [108, 108], [76, 76]] : List (List UInt8))
  longFirst : Bool
deriving DecidableEq

/-- The suffix as it is written. -/
def Suffix.text (s : Suffix) : List UInt8 := if s.longFirst then s.l ++ s.u else s.u ++ s.l

/-- An integer literal: octal and hexadecimal ones start with a zero. -/
structure Literal where
  digits : List UInt8
  value : ℕ
  magnitude : Numeral.IsMagnitude 0 digits value
  suffix : Suffix
deriving DecidableEq

namespace Literal

/-- The widths of the types with the suffix. -/
def widths (l : Literal) (m : DataModel) : List ℕ := [32, m.long, 64].drop l.suffix.l.length

/-- The signedness of the types with the suffix; a decimal literal without it is signed. -/
def signs (l : Literal) : List Bool :=
  if l.suffix.u ≠ [] then [true]
  else if Numeral.radixOf 0 l.digits = 10 then [false] else [false, true]

/-- The types that a literal may have, in the order in which they are tried. -/
def candidates (l : Literal) (m : DataModel) : List IntType :=
  (l.widths m).flatMap fun w => l.signs.map fun u => ⟨w, u⟩

/-- The value with the first type that has it. -/
def typed (l : Literal) (m : DataModel) : Option Val :=
  (l.candidates m).findSome? fun t => if h : t.Holds l.value then some ⟨t, l.value, h⟩ else none

variable {l : Literal} {m : DataModel} {v : Val}

theorem typed_spec (h : l.typed m = some v) : v.value = l.value ∧ v.type ∈ l.candidates m := by
  obtain ⟨t, mem, eq⟩ := List.exists_of_findSome?_eq_some h
  split_ifs at eq with holds
  obtain rfl := Option.some.inj eq
  exact ⟨rfl, mem⟩

theorem value_of_typed (h : l.typed m = some v) : v.value = l.value := (typed_spec h).1

theorem width_of_typed (h : l.typed m = some v) : v.type.width = 32 ∨ v.type.width = 64 := by
  obtain ⟨w, mem, u, -, eq⟩ : ∃ w ∈ l.widths m, ∃ u, u ∈ l.signs ∧ ⟨w, u⟩ = v.type := by
    have mem := (typed_spec h).2
    simpa only [candidates, List.mem_flatMap, List.mem_map] using mem
  have listed : w ∈ [32, m.long, 64] := List.mem_of_mem_drop mem
  rw [← eq]
  rcases m.known with known | known <;> simp [known] at listed <;> omega

end Literal

/-! ## Expressions -/

/-- The operators with two operands. -/
inductive Binary where
  | or
  | xor
  | and
  | shl
  | shr
  | add
  | sub
deriving DecidableEq, Repr

/-- The operators with one operand. -/
inductive Unary where
  | neg
  | plus
  | compl
deriving DecidableEq, Repr

/-- The tokens of expressions. -/
inductive Tok where
  | lit (l : Literal)
  | lparen
  | rparen
  | tilde
  | op (o : Binary)
deriving DecidableEq

/-- The token of the operator; `-` and `+` are binary operators too. -/
def Unary.tok : Unary → Tok
  | .neg => .op .sub
  | .plus => .op .add
  | .compl => .tilde

/-- How tightly an operator binds. -/
def Binary.level : Binary → ℕ
  | .or => 0
  | .xor => 1
  | .and => 2
  | .shl | .shr => 3
  | .add | .sub => 4

theorem Binary.level_le (o : Binary) : o.level ≤ 4 := by cases o <;> decide

/-- The exact result. -/
def Binary.exact : Binary → ℤ → ℤ → ℤ
  | .or, a, b => Int.lor a b
  | .xor, a, b => Int.xor a b
  | .and, a, b => Int.land a b
  | .shl, a, b => a * 2 ^ b.toNat
  | .shr, a, b => a / 2 ^ b.toNat
  | .add, a, b => a + b
  | .sub, a, b => a - b

/-- The operator is a shift, whose result has the type of the left operand. -/
def Binary.isShift (o : Binary) : Bool := o == .shl || o == .shr

/-- The value of an operator on two values.  A shift is by less than the width, and `<<` does not take a
negative number. -/
def Binary.apply (o : Binary) (a b : Val) : Option Val :=
  if o.isShift then
    if 0 ≤ b.value ∧ b.value < a.type.width ∧ (o = .shl → 0 ≤ a.value) then
      fit a.type (o.exact a.value b.value)
    else none
  else
    let t := a.type.join b.type
    fit t (o.exact (t.wrap a.value) (t.wrap b.value))

/-- An operator whose operands and exact result are values of the joint type. -/
theorem Binary.apply_of_holds {o : Binary} {a b : Val} (plain : o.isShift = false)
    (left : (a.type.join b.type).Holds a.value) (right : (a.type.join b.type).Holds b.value)
    (result : (a.type.join b.type).Holds (o.exact a.value b.value)) :
    o.apply a b = some ⟨a.type.join b.type, o.exact a.value b.value, result⟩ := by
  rw [Binary.apply, plain, if_neg Bool.false_ne_true]
  show fit _ (o.exact (IntType.wrap _ a.value) (IntType.wrap _ b.value)) = _
  rw [IntType.wrap_of_holds left, IntType.wrap_of_holds right, fit_of_holds result]

/-- The value of an operator on one value. -/
def Unary.apply : Unary → Val → Option Val
  | .neg, v => fit v.type (-v.value)
  | .plus, v => some v
  | .compl, v => fit v.type (-v.value - 1)

/-- The tokens are an expression with the value.  The first argument is the level of the grammar: that
of the operators, from `|` up, then 5 for unary and 6 for primary expressions. -/
inductive Denotes (m : DataModel) : ℕ → List Tok → Val → Prop
  | lit {l : Literal} {v} (typed : l.typed m = some v) : Denotes m 6 [.lit l] v
  | paren {ts v} (inner : Denotes m 0 ts v) : Denotes m 6 (.lparen :: (ts ++ [.rparen])) v
  | unary {u : Unary} {ts v w} (operand : Denotes m 5 ts v) (value : u.apply v = some w) :
      Denotes m 5 (u.tok :: ts) w
  | binary {o : Binary} {xs ys a b c} (left : Denotes m o.level xs a) (right : Denotes m (o.level + 1) ys b)
      (value : o.apply a b = some c) : Denotes m o.level (xs ++ .op o :: ys) c
  | weaken {n ts v} (tighter : Denotes m (n + 1) ts v) : Denotes m n ts v

variable {m : DataModel}

theorem Denotes.weaken_le {n k : ℕ} {ts : List Tok} {v : Val} (le : n ≤ k) (h : Denotes m k ts v) :
    Denotes m n ts v := by
  induction k, le using Nat.le_induction with
  | base => exact h
  | succ k _ ih => exact ih (.weaken h)

/-- Parentheses around an expression. -/
theorem Denotes.parens {ts : List Tok} {v : Val} (h : Denotes m 0 ts v) (k : ℕ) :
    Denotes m 0 (List.replicate k .lparen ++ ts ++ List.replicate k .rparen) v := by
  induction k with
  | zero => simpa using h
  | succ k ih =>
    have wrapped := (Denotes.paren ih).weaken_le (Nat.zero_le 6)
    rw [List.replicate_succ, List.replicate_succ']
    simpa only [List.cons_append, List.append_assoc] using wrapped

/-! ## Reading from left to right -/

/-- What waits for an operand to end. -/
inductive Pending where
  | paren
  | unary (u : Unary)
  | binary (a : Val) (o : Binary)
deriving DecidableEq

/-- The unary operators in front of an operand are applied. -/
def settle : List Pending → Val → Option (List Pending × Val)
  | .unary u :: st, v => (u.apply v).bind (settle st)
  | st, v => some (st, v)

/-- The operators that bind at least as tightly as a level are applied. -/
def reduce (p : ℕ) : List Pending → Val → Option (List Pending × Val)
  | .binary a o :: st, v =>
    if p ≤ o.level then (o.apply a v).bind (reduce p st) else some (.binary a o :: st, v)
  | st, v => some (st, v)

/-- Reads tokens with the operators that wait and, after an operand, its value. -/
def scan (m : DataModel) : List Pending → Option Val → List Tok → Option Val
  | st, none, .lit l :: ts =>
    (l.typed m).bind fun v => (settle st v).bind fun q => scan m q.1 (some q.2) ts
  | st, none, .lparen :: ts => scan m (.paren :: st) none ts
  | st, none, .tilde :: ts => scan m (.unary .compl :: st) none ts
  | st, none, .op .sub :: ts => scan m (.unary .neg :: st) none ts
  | st, none, .op .add :: ts => scan m (.unary .plus :: st) none ts
  | st, some v, .op o :: ts =>
    (reduce o.level st v).bind fun q => scan m (.binary q.2 o :: q.1) none ts
  | st, some v, .rparen :: ts =>
    (reduce 0 st v).bind fun q =>
      match q.1 with
      | .paren :: st' => (settle st' q.2).bind fun r => scan m r.1 (some r.2) ts
      | _ => none
  | st, some v, [] => (reduce 0 st v).bind fun q => if q.1 = [] then some q.2 else none
  | _, _, _ => none

/-- The value of an expression. -/
def evaluate (m : DataModel) (ts : List Tok) : Option Val := scan m [] none ts

/-- An operand has ended. -/
def resume (m : DataModel) (st : List Pending) (v : Val) (ts : List Tok) : Option Val :=
  (settle st v).bind fun q => scan m q.1 (some q.2) ts

/-- What may wait for an expression of a level. -/
def Guards (n : ℕ) : List Pending → Prop
  | .unary _ :: _ => 5 ≤ n
  | .binary _ o :: _ => o.level < n
  | _ => True

/-- What may follow an expression of a level. -/
def Follows (n : ℕ) : List Tok → Prop
  | .op o :: _ => o.level ≤ n
  | _ => True

section Scan

variable {n : ℕ} {st : List Pending} {ts : List Tok} {v : Val} {o : Binary}

theorem Guards.succ (h : Guards n st) : Guards (n + 1) st := by
  match st, h with
  | [], _ => trivial
  | .paren :: _, _ => trivial
  | .unary _ :: _, h => exact Nat.le_succ_of_le h
  | .binary _ _ :: _, h => exact Nat.lt_succ_of_lt h

theorem Follows.succ (h : Follows n ts) : Follows (n + 1) ts := by
  match ts, h with
  | [], _ => trivial
  | .lit _ :: _, _ => trivial
  | .lparen :: _, _ => trivial
  | .rparen :: _, _ => trivial
  | .tilde :: _, _ => trivial
  | .op _ :: _, h => exact Nat.le_succ_of_le h

theorem Guards.settle (h : Guards o.level st) (v : Val) : settle st v = some (st, v) := by
  match st, h with
  | [], _ => rfl
  | .paren :: _, _ => rfl
  | .unary _ :: _, h => exact absurd (h.trans o.level_le) (by decide)
  | .binary _ _ :: _, _ => rfl

theorem Guards.reduce (h : Guards o.level st) (v : Val) : reduce o.level st v = some (st, v) := by
  match st, h with
  | [], _ => rfl
  | .paren :: _, _ => rfl
  | .unary _ :: _, _ => rfl
  | .binary _ _ :: _, h => exact if_neg (Nat.not_le.2 h)

/-- A right operand that has ended is applied before the end, a parenthesis, and an operator that binds
no tighter. -/
theorem scan_binary {a b c : Val} (value : o.apply a b = some c) (follows : Follows o.level ts)
    (st : List Pending) : scan m (.binary a o :: st) (some b) ts = scan m st (some c) ts := by
  have reduced (p : ℕ) (le : p ≤ o.level) : reduce p (.binary a o :: st) b = reduce p st c := by
    rw [reduce, if_pos le, value, Option.bind_some]
  match ts, follows with
  | [], _ => simp only [scan, reduced 0 (Nat.zero_le _)]
  | .lit _ :: _, _ => rfl
  | .lparen :: _, _ => rfl
  | .rparen :: _, _ => simp only [scan, reduced 0 (Nat.zero_le _)]
  | .tilde :: _, _ => rfl
  | .op _ :: _, le => simp only [scan, reduced _ le]

theorem scan_of_denotes (h : Denotes m n ts v) (guards : Guards n st) {rest : List Tok}
    (follows : Follows n rest) : scan m st none (ts ++ rest) = resume m st v rest := by
  induction h generalizing st rest with
  | lit typed =>
    show (_ : Option Val).bind _ = _
    rw [typed]
    rfl
  | @paren ts v inner ih =>
    have read := @ih (.paren :: st) trivial (.rparen :: rest) trivial
    rw [List.cons_append, List.append_assoc, List.singleton_append]
    show scan m (.paren :: st) none (ts ++ .rparen :: rest) = _
    rw [read]
    rfl
  | @unary u ts v w operand value ih =>
    have read := @ih (.unary u :: st) (le_refl 5) rest follows
    have pushed : scan m st none (u.tok :: (ts ++ rest)) = scan m (.unary u :: st) none (ts ++ rest) := by
      cases u <;> rfl
    rw [List.cons_append, pushed, read, resume, settle, value, Option.bind_some]
    rfl
  | @binary o xs ys a b c left right value ihLeft ihRight =>
    have readLeft := @ihLeft st guards (.op o :: (ys ++ rest)) (le_refl o.level)
    have readRight := @ihRight (.binary a o :: st) (Nat.lt_succ_self _) rest follows.succ
    rw [List.append_assoc, List.cons_append, readLeft, resume, guards.settle, Option.bind_some, scan,
      guards.reduce, Option.bind_some, readRight, resume, settle, Option.bind_some]
    · rw [scan_binary value follows, resume, guards.settle, Option.bind_some]
    · exact fun u st eq => absurd eq (by simp)
  | weaken tighter ih => exact ih guards.succ follows.succ

/-- The value that an expression denotes is found. -/
theorem evaluate_of_denotes (h : Denotes m n ts v) : evaluate m ts = some v := by
  have guards : Guards n [] := trivial
  have follows : Follows n [] := trivial
  have read := scan_of_denotes h guards follows
  rw [List.append_nil] at read
  exact read

theorem Denotes.unique {w : Val} {k : ℕ} (h : Denotes m n ts v) (other : Denotes m k ts w) : v = w :=
  Option.some.inj ((evaluate_of_denotes h).symm.trans (evaluate_of_denotes other))

end Scan

/-! ## Parentheses around an expression -/

section Parens

variable {ts : List Tok} {v : Val} {k : ℕ}

theorem settle_parens (k : ℕ) (v : Val) :
    settle (List.replicate k .paren) v = some (List.replicate k .paren, v) := by
  cases k <;> rfl

theorem scan_opens (st : List Pending) (ts : List Tok) :
    scan m st none (List.replicate k .lparen ++ ts) = scan m (List.replicate k .paren ++ st) none ts := by
  induction k generalizing st with
  | zero => rfl
  | succ k ih =>
    rw [List.replicate_succ, List.cons_append]
    show scan m (.paren :: st) none _ = _
    rw [ih, List.replicate_succ', List.append_assoc]
    rfl

theorem scan_closes (k : ℕ) (v : Val) :
    scan m (List.replicate k .paren) (some v) (List.replicate k .rparen) = some v := by
  induction k with
  | zero => rfl
  | succ k ih =>
    rw [List.replicate_succ, List.replicate_succ]
    show (settle (List.replicate k .paren) v).bind _ = _
    rw [settle_parens, Option.bind_some]
    exact ih

/-- The value in parentheses of what begins after them. -/
theorem evaluate_parens (ts : List Tok) : evaluate m (List.replicate k .lparen ++ ts ++ List.replicate k .rparen) =
    scan m (List.replicate k .paren) none (ts ++ List.replicate k .rparen) := by
  rw [evaluate, List.append_assoc, scan_opens, List.append_nil]

theorem evaluate_lit (l : Literal) (k : ℕ) :
    evaluate m (List.replicate k .lparen ++ [.lit l] ++ List.replicate k .rparen) = l.typed m := by
  rw [evaluate_parens]
  show (l.typed m).bind _ = _
  cases l.typed m with
  | none => rfl
  | some v =>
    rw [Option.bind_some, settle_parens, Option.bind_some]
    exact scan_closes k v

theorem evaluate_unary (u : Unary) (l : Literal) (k : ℕ) :
    evaluate m (List.replicate k .lparen ++ [u.tok, .lit l] ++ List.replicate k .rparen) =
      (l.typed m).bind u.apply := by
  have pushed : scan m (List.replicate k .paren) none (u.tok :: .lit l :: List.replicate k .rparen) =
      scan m (.unary u :: List.replicate k .paren) none (.lit l :: List.replicate k .rparen) := by
    cases u <;> rfl
  rw [evaluate_parens]
  refine pushed.trans ?_
  show (l.typed m).bind _ = _
  cases l.typed m with
  | none => rfl
  | some v =>
    rw [Option.bind_some, Option.bind_some, settle]
    cases u.apply v with
    | none => rfl
    | some w =>
      rw [Option.bind_some, settle_parens, Option.bind_some]
      exact scan_closes k w

theorem evaluate_binary (o : Binary) (a b : Literal) (k : ℕ) :
    evaluate m (List.replicate k .lparen ++ [.lit a, .op o, .lit b] ++ List.replicate k .rparen) =
      (a.typed m).bind fun v => (b.typed m).bind (o.apply v) := by
  have reduced (p : ℕ) (v : Val) :
      reduce p (List.replicate k .paren) v = some (List.replicate k .paren, v) := by
    cases k <;> rfl
  have closed (v w : Val) :
      scan m (.binary v o :: List.replicate k .paren) (some w) (List.replicate k .rparen) = o.apply v w := by
    cases value : o.apply v w with
    | none => cases k <;> (show (_ : Option _).bind _ = _; rw [reduce, if_pos (Nat.zero_le _), value]; rfl)
    | some c =>
      rw [scan_binary value (by cases k <;> trivial)]
      exact scan_closes k c
  rw [evaluate_parens]
  show (a.typed m).bind _ = _
  cases a.typed m with
  | none => rfl
  | some v =>
    rw [Option.bind_some, settle_parens, Option.bind_some, Option.bind_some]
    show (reduce o.level (List.replicate k .paren) v).bind _ = _
    rw [reduced, Option.bind_some]
    show (b.typed m).bind _ = _
    cases b.typed m with
    | none => rfl
    | some w =>
      rw [Option.bind_some, settle, Option.bind_some, Option.bind_some]
      · exact closed v w
      · exact fun u st eq => absurd eq (by simp)

end Parens

end CConst
