import Mathlib.Tactic.Common

/-!
# Labelled transition systems

A `System` has initial states and labelled steps.  `S.ReachableIf ok s` says that `s` is reached by
steps whose source state and label meet `ok`; `S.Reachable` puts no condition on the steps.  Safety
is proved by `ReachableIf.invariant`: what holds initially and is kept by every allowed step holds
in every state reached.

`S.beside start follow own` runs `S` together with another state, which follows the steps of `S` and
has steps of its own that leave `S` where it is.
-/

/-- Initial states and labelled steps. -/
structure System (σ : Type*) (α : Type*) where
  init : σ → Prop
  step : σ → α → σ → Prop

namespace System

variable {σ α : Type*} {S : System σ α} {ok : σ → α → Prop} {s s' : σ}

/-- The states reached by steps that meet `ok`. -/
inductive ReachableIf (S : System σ α) (ok : σ → α → Prop) : σ → Prop where
  | init {s : σ} (start : S.init s) : ReachableIf S ok s
  | step {s s' : σ} {a : α} (before : ReachableIf S ok s) (allowed : ok s a)
      (next : S.step s a s') : ReachableIf S ok s'

/-- The states reached by any steps. -/
def Reachable (S : System σ α) : σ → Prop := S.ReachableIf fun _ _ => True

theorem Reachable.start (start : S.init s) : S.Reachable s := ReachableIf.init start

theorem Reachable.next {a : α} (before : S.Reachable s) (next : S.step s a s') : S.Reachable s' :=
  ReachableIf.step before trivial next

theorem ReachableIf.reachable (run : S.ReachableIf ok s) : S.Reachable s := by
  induction run with
  | init h => exact .start h
  | step _ _ next ih => exact ih.next next

/-- The invariant rule. -/
theorem ReachableIf.invariant {I : σ → Prop} (start : ∀ s, S.init s → I s)
    (kept : ∀ s a s', I s → ok s a → S.step s a s' → I s') (run : S.ReachableIf ok s) : I s := by
  induction run with
  | init h => exact start _ h
  | step _ allowed next ih => exact kept _ _ _ ih allowed next

/-- The invariant rule when every step is allowed. -/
theorem Reachable.invariant {I : σ → Prop} (start : ∀ s, S.init s → I s)
    (kept : ∀ s a s', I s → S.step s a s' → I s') (run : S.Reachable s) : I s :=
  ReachableIf.invariant start (fun s a s' hs _ => kept s a s' hs) run

/-- The steps `as` lead from the first state to the second. -/
inductive Run (S : System σ α) : σ → List α → σ → Prop where
  | refl (s : σ) : Run S s [] s
  | snoc {s s' s'' : σ} {as : List α} {a : α} (before : Run S s as s') (next : S.step s' a s'') :
      Run S s (as ++ [a]) s''

theorem Run.reachable {as : List α} (run : S.Run s as s') (from_ : S.Reachable s) : S.Reachable s' := by
  induction run with
  | refl => exact from_
  | snoc _ next ih => exact ih.next next

/-- What every step keeps, a run keeps. -/
theorem Run.keeps {I : σ → Prop} {as : List α} (kept : ∀ s a s', I s → S.step s a s' → I s')
    (run : S.Run s as s') (start : I s) : I s' := by
  induction run with
  | refl => exact start
  | snoc _ next ih => exact kept _ _ _ ih next

/-! ## A state beside a system -/

section Beside

variable {τ β : Type*} {start : τ} {follow : σ → α → τ → τ} {own : σ → τ → β → τ → Prop}

/-- `S` together with a state that follows its steps and has steps of its own. -/
def beside (S : System σ α) (start : τ) (follow : σ → α → τ → τ) (own : σ → τ → β → τ → Prop) :
    System (σ × τ) (α ⊕ β) where
  init s := S.init s.1 ∧ s.2 = start
  step s a s' :=
    match a with
    | .inl a => S.step s.1 a s'.1 ∧ s'.2 = follow s.1 a s.2
    | .inr b => s'.1 = s.1 ∧ own s.1 s.2 b s'.2

variable {allowed : σ × τ → α ⊕ β → Prop} {p : σ × τ}

/-- The first state makes a run of `S`. -/
theorem ReachableIf.fst (ok : σ → α → Prop) (base : ∀ p a, allowed p (.inl a) → ok p.1 a)
    (run : (S.beside start follow own).ReachableIf allowed p) : S.ReachableIf ok p.1 := by
  induction run with
  | init h => exact .init h.1
  | @step p p' a _ holds next ih =>
    cases a with
    | inl a => exact ih.step (base p a holds) next.1
    | inr b =>
      rw [next.1]
      exact ih

/-- The invariant rule for a state beside a system. -/
theorem ReachableIf.beside_invariant {I : σ → τ → Prop} (ok : σ → α → Prop)
    (base : ∀ p a, allowed p (.inl a) → ok p.1 a) (init : ∀ s, S.init s → I s start)
    (step : ∀ s x a s', S.ReachableIf ok s → I s x → allowed (s, x) (.inl a) → S.step s a s' →
      I s' (follow s a x))
    (alone : ∀ s x b x', S.ReachableIf ok s → I s x → allowed (s, x) (.inr b) → own s x b x' → I s x')
    (run : (S.beside start follow own).ReachableIf allowed p) : I p.1 p.2 := by
  induction run with
  | init h =>
    rw [h.2]
    exact init _ h.1
  | @step p p' a before holds next ih =>
    cases a with
    | inl a =>
      rw [next.2]
      exact step _ _ _ _ (before.fst ok base) ih holds next.1
    | inr b =>
      rw [next.1]
      exact alone _ _ _ _ (before.fst ok base) ih holds next.2

end Beside

/-! ## Executable runs -/

/-- Make a list of steps that pass a test. -/
def runIf (step : σ → α → Option σ) (test : σ → α → Bool) (s : σ) : List α → Option σ
  | [] => some s
  | a :: rest => if test s a then (step s a).bind fun s => runIf step test s rest else none

/-- A run of a step function whose test implies `ok`. -/
theorem ReachableIf.runIf {step : σ → α → Option σ} {test : σ → α → Bool} {as : List α}
    (steps : ∀ s a s', step s a = some s' → S.step s a s')
    (tests : ∀ s a, S.ReachableIf ok s → test s a = true → ok s a)
    (before : S.ReachableIf ok s) (made : System.runIf step test s as = some s') :
    S.ReachableIf ok s' := by
  induction as generalizing s with
  | nil =>
    cases made
    exact before
  | cons a rest ih =>
    rw [System.runIf] at made
    split at made
    · next passed =>
      obtain ⟨middle, next, later⟩ := Option.bind_eq_some_iff.mp made
      exact ih (before.step (tests s a before passed) (steps s a middle next)) later
    · cases made

section Beside

variable {τ β : Type*} {start : τ} {follow : σ → α → τ → τ} {own : σ → τ → β → τ → Prop} {p p' : σ × τ}

/-- A step of a step function, with the state beside it. -/
def besideStep (step : σ → α → Option σ) (follow : σ → α → τ → τ) (act : σ → τ → β → Option τ)
    (p : σ × τ) : α ⊕ β → Option (σ × τ)
  | .inl a => (step p.1 a).map fun s => (s, follow p.1 a p.2)
  | .inr b => (act p.1 p.2 b).map fun x => (p.1, x)

theorem beside_step {step : σ → α → Option σ} {act : σ → τ → β → Option τ}
    (steps : ∀ s a s', step s a = some s' → S.step s a s')
    (acts : ∀ s x b x', act s x b = some x' → own s x b x') {a : α ⊕ β}
    (next : besideStep step follow act p a = some p') : (S.beside start follow own).step p a p' := by
  cases a with
  | inl a =>
    obtain ⟨s, moved, rfl⟩ := Option.map_eq_some_iff.mp next
    exact ⟨steps _ _ _ moved, rfl⟩
  | inr b =>
    obtain ⟨x, made, rfl⟩ := Option.map_eq_some_iff.mp next
    exact ⟨rfl, acts _ _ _ _ made⟩

end Beside

end System
