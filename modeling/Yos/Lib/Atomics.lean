import Yos.Lib.Bytes
import Yos.Lib.Spans

/-!
# Programs of atomic accesses

A program is a tree of atomic accesses to a memory with the loops between them; it may also call other
code.  `All R p` says that every access of `p` meets `R`, in whatever order the steps of other
programs come between, and has one rule per construct.  An access reads and writes only the bytes it
touches (`after_of_not_touches`, `answers_congr`).
-/

open Word

/-- The number of `n` bytes at `a`, the lowest first. -/
def Bytes.number (m : Bytes) (a : ℕ) : ℕ → ℕ
  | 0 => 0
  | n + 1 => (m a).toNat + 256 * m.number (a + 1) n

theorem Bytes.number_congr {m m' : Bytes} {a n : ℕ} (same : ∀ x, a ≤ x → x < a + n → m' x = m x) :
    m'.number a n = m.number a n := by
  induction n generalizing a with
  | zero => rfl
  | succ n ih =>
    rw [Bytes.number, Bytes.number, same a (by omega) (by omega),
      ih fun x low high => same x (by omega) (by omega)]

/-- An access to memory.  `cas` has an expected and a new value, `wait` and `notify` are those of a
futex, and `copy` takes `n` bytes out of memory. -/
inductive Atomic where
  | load (a : ℕ)
  | store (a v : ℕ)
  | exchange (a v : ℕ)
  | cas (a expected desired : ℕ)
  | add (a v : ℕ)
  | wait (a expected : ℕ)
  | notify (a : ℕ)
  | copy (a n : ℕ)
deriving DecidableEq, Repr

namespace Atomic

/-- The bytes of the access. -/
def span : Atomic → Span
  | load a | store a _ | exchange a _ | cas a _ _ | add a _ | wait a _ => ⟨a, 4⟩
  | notify a => ⟨a, 0⟩
  | copy a n => ⟨a, n⟩

/-- The access reads or writes the byte `x`. -/
def Touches (act : Atomic) (x : ℕ) : Prop := act.span.Has x

/-- The memory after the access. -/
def after (m : Bytes) : Atomic → Bytes
  | load _ | wait _ _ | notify _ | copy _ _ => m
  | store a v | exchange a v => m.write32 a v
  | cas a expected desired => if m.read32 a = expected then m.write32 a desired else m
  | add a v => m.write32 a (u32 (m.read32 a + v))

/-- What the access may return: the old word, or for a wait 1 if the word is another and 0 or 2 when
the wait ends, which it may do at any time. -/
def Answers (m : Bytes) : Atomic → ℕ → Prop
  | load a, r | exchange a _, r | cas a _ _, r | add a _, r => r = m.read32 a
  | store _ _, r | notify _, r => r = 0
  | wait a expected, r => (r = 1 ∧ m.read32 a ≠ expected) ∨ r = 0 ∨ r = 2
  | copy a n, r => r = m.number a n

section Bytes

variable {act : Atomic} {m m' : Bytes} {r x : ℕ}

theorem after_of_not_touches (far : ¬ act.Touches x) : act.after m x = m x := by
  have write {a v : ℕ} (far : ¬ Span.Has ⟨a, 4⟩ x) : m.write32 a v x = m x :=
    Bytes.write32_apply_of_disjoint (by
      simp only [Span.Has] at far
      omega)
  cases act with
  | load | wait | notify | copy => rfl
  | store | exchange | add => exact write far
  | cas a expected desired =>
    rw [after]
    split
    · exact write far
    · rfl

theorem answers_congr (same : ∀ x, act.Touches x → m' x = m x) :
    act.Answers m' r ↔ act.Answers m r := by
  have word {a : ℕ} (same : ∀ x, Span.Has ⟨a, 4⟩ x → m' x = m x) : m'.read32 a = m.read32 a :=
    Bytes.read32_congr fun x low high => same x ⟨low, high⟩
  cases act with
  | load | exchange | cas | add | wait => rw [Answers, Answers, word same]
  | store | notify => exact Iff.rfl
  | copy a n =>
    have bytes : m'.number a n = m.number a n :=
      Bytes.number_congr fun x low high => same x ⟨low, high⟩
    rw [Answers, Answers, bytes]

end Bytes

/-- A program.  `guest` calls other code, which may fail; `loop` runs its body on a word until it gives
a result. -/
inductive Prog : Type → Type 1 where
  | ret {α : Type} (a : α) : Prog α
  | access {α : Type} (act : Atomic) (next : ℕ → Prog α) : Prog α
  | guest {α : Type} (next : Bool → Prog α) : Prog α
  | loop {α β : Type} (body : ℕ → Prog (ℕ ⊕ β)) (n : ℕ) (next : β → Prog α) : Prog α

namespace Prog

variable {α β : Type}

/-- One program after the other. -/
def bind : Prog α → (α → Prog β) → Prog β
  | .ret a, f => f a
  | .access act next, f => .access act fun r => (next r).bind f
  | .guest next, f => .guest fun failed => (next failed).bind f
  | .loop body n next, f => .loop body n fun b => (next b).bind f

instance : Monad Prog where
  pure := Prog.ret
  bind := Prog.bind

/-- A single access. -/
def act (a : Atomic) : Prog ℕ := .access a .ret

/-- Run `body` from `n` until it gives a result. -/
def repeat_ (body : ℕ → Prog (ℕ ⊕ β)) (n : ℕ) : Prog β := .loop body n .ret

/-- The next round of a loop. -/
def unroll (body : ℕ → Prog (ℕ ⊕ β)) (n : ℕ) (next : β → Prog α) : Prog α :=
  (body n).bind fun
    | .inl n => .loop body n next
    | .inr b => next b

/-- A step of the program on its own. -/
inductive Step {α : Type} : Bytes → Prog α → Bytes → Prog α → Prop where
  | access {m : Bytes} {act : Atomic} {next : ℕ → Prog α} {r : ℕ} (answers : act.Answers m r) :
      Step m (.access act next) (act.after m) (next r)
  | loop {β : Type} {m : Bytes} {body : ℕ → Prog (ℕ ⊕ β)} {n : ℕ} {next : β → Prog α} :
      Step m (.loop body n next) m (unroll body n next)

/-- Every access meets `R`. -/
def All (R : Atomic → Prop) : {α : Type} → Prog α → Prop
  | _, .ret _ => True
  | _, .access act next => R act ∧ ∀ r, All R (next r)
  | _, .guest next => ∀ failed, All R (next failed)
  | _, .loop body _ next => (∀ n, All R (body n)) ∧ ∀ b, All R (next b)

section Rules

variable {R : Atomic → Prop} {p : Prog α} {f : α → Prog β}

theorem all_ret (a : α) : All R (pure a : Prog α) := trivial

theorem all_act {a : Atomic} (meets : R a) : All R (act a) := ⟨meets, fun _ => trivial⟩

theorem all_guest {next : Bool → Prog α} (then_ : ∀ failed, All R (next failed)) :
    All R (.guest next) :=
  then_

theorem All.bind (first : All R p) (then_ : ∀ a, All R (f a)) : All R (p >>= f) := by
  change All R (Prog.bind p f)
  induction p with
  | ret a => exact then_ a
  | access act next ih => exact ⟨first.1, fun r => ih r (first.2 r) then_⟩
  | guest next ih => exact fun failed => ih failed (first failed) then_
  | loop body n next _ ih => exact ⟨first.1, fun b => ih b (first.2 b) then_⟩

theorem all_repeat {body : ℕ → Prog (ℕ ⊕ β)} (round : ∀ n, All R (body n)) (n : ℕ) :
    All R (repeat_ body n) :=
  ⟨round, fun _ => trivial⟩

theorem all_ite {c : Prop} [Decidable c] {q : Prog α} (yes : All R p) (no : All R q) :
    All R (if c then p else q) := by
  split
  · exact yes
  · exact no

theorem All.step {m m' : Bytes} {p' : Prog α} (all : All R p) (step : Step m p m' p') :
    All R p' := by
  cases step with
  | access answers => exact all.2 _
  | loop =>
    refine All.bind (all.1 _) fun done => ?_
    cases done with
    | inl n => exact all
    | inr b => exact all.2 b

end Rules

end Prog

end Atomic
