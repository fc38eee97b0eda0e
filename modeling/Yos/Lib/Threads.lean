import Yos.Lib.System
import Mathlib.Algebra.BigOperators.Group.Finset.Piecewise
import Mathlib.Algebra.Order.BigOperators.Group.Finset
import Mathlib.Logic.Function.Basic

/-!
# Threads over a shared state

Threads are numbered by an arbitrary type.  A program is a relation for one atomic step of one
thread; the step may notify, which wakes every parked thread.  Invariants are proved from a
condition on the single steps: every thread fits its own place (`Each.step`); at most one thread
holds a resource, and the shared state tells whether one does (`Exclusive.step`); what the resource
guards is in order whenever it is free (`Guarded.step`); if a thread is parked, the shared state or
another thread guarantees that somebody will look after it (`Covered.step`).  What finitely many
threads hold together is counted by `total`, which a step changes by what its own thread gains or
loses (`total_after`).
-/

namespace Threads

variable {ι σ τ : Type*}

/-- The shared state and the state of every thread. -/
structure State (ι σ τ : Type*) where
  shared : σ
  own : ι → τ

/-- What the threads run: `step sh t sh' t' n` is an atomic step that takes the shared state from
`sh` to `sh'` and the thread from `t` to `t'`, and notifies if `n` is true; `wake` is what a
notification does to a thread. -/
structure Program (σ τ : Type*) where
  step : σ → τ → σ → τ → Bool → Prop
  wake : τ → τ

section Total

variable [Fintype ι] {s : State ι σ τ} {w : τ → ℕ}

/-- What the threads hold together. -/
def total (w : τ → ℕ) (s : State ι σ τ) : ℕ := ∑ j, w (s.own j)

/-- A thread holds no more than all together. -/
theorem le_total (w : τ → ℕ) (s : State ι σ τ) (j : ι) : w (s.own j) ≤ total w s :=
  Finset.single_le_sum (f := fun j => w (s.own j)) (fun _ _ => Nat.zero_le _) (Finset.mem_univ j)

theorem total_eq_zero_iff : total w s = 0 ↔ ∀ j, w (s.own j) = 0 := by
  simp [total]

end Total

variable [DecidableEq ι]

/-- The state after a step of the thread `i`. -/
def State.after (P : Program σ τ) (s : State ι σ τ) (i : ι) (sh : σ) (t : τ) (notify : Bool) :
    State ι σ τ :=
  ⟨sh, Function.update (if notify then fun j => P.wake (s.own j) else s.own) i t⟩

/-- All interleavings of the threads of a program. -/
def Program.system (P : Program σ τ) (init : State ι σ τ → Prop) : System (State ι σ τ) ι where
  init := init
  step s i s' := ∃ sh t notify, P.step s.shared (s.own i) sh t notify ∧ s' = s.after P i sh t notify

variable {P : Program σ τ} {s : State ι σ τ} {i j : ι} {sh : σ} {t : τ} {notify : Bool}

@[simp] theorem after_shared : (s.after P i sh t notify).shared = sh := rfl

@[simp] theorem after_own_self : (s.after P i sh t notify).own i = t := by
  simp [State.after]

theorem after_own_quiet (other : j ≠ i) : (s.after P i sh t false).own j = s.own j :=
  Function.update_of_ne other _ _

theorem after_own_woken (other : j ≠ i) : (s.after P i sh t true).own j = P.wake (s.own j) :=
  Function.update_of_ne other _ _

theorem after_own_other (other : j ≠ i) :
    (s.after P i sh t notify).own j = s.own j ∨
      (s.after P i sh t notify).own j = P.wake (s.own j) := by
  cases notify
  · exact Or.inl (after_own_quiet other)
  · exact Or.inr (after_own_woken other)

/-- A property of threads that waking does not change stays the same for the other threads. -/
theorem after_other_iff {Q : τ → Prop} (stable : ∀ t, Q (P.wake t) ↔ Q t) (other : j ≠ i) :
    Q ((s.after P i sh t notify).own j) ↔ Q (s.own j) := by
  obtain h | h : (s.after P i sh t notify).own j = s.own j ∨
      (s.after P i sh t notify).own j = P.wake (s.own j) := after_own_other other
  · rw [h]
  · rw [h]
    exact stable _

/-- A property of every thread is kept by a step if it holds of the thread after the step and of the
other threads as they are. -/
theorem Each.step {Q : τ → Prop} (stable : ∀ t, Q t → Q (P.wake t))
    (others : ∀ j, j ≠ i → Q (s.own j)) (self : Q t) :
    ∀ j, Q ((s.after P i sh t notify).own j) := by
  intro j
  by_cases other : j = i
  · subst other
    rw [after_own_self]
    exact self
  · obtain h | h : (s.after P i sh t notify).own j = s.own j ∨
        (s.after P i sh t notify).own j = P.wake (s.own j) := after_own_other other
    · rw [h]
      exact others j other
    · rw [h]
      exact stable _ (others j other)

/-- A property of every woken thread holds of all threads after a notification if it holds of the thread
that notifies. -/
theorem Each.woken {Q : τ → Prop} (woken : ∀ t, Q (P.wake t)) (self : Q t) :
    ∀ j, Q ((s.after P i sh t true).own j) := by
  intro j
  by_cases other : j = i
  · subst other
    rw [after_own_self]
    exact self
  · rw [after_own_woken other]
    exact woken _

/-! ## Exclusion -/

/-- At most one thread holds the resource, and it is free iff none does. -/
def Exclusive (holds : τ → Prop) (free : σ → Prop) (s : State ι σ τ) : Prop :=
  (∀ i j, holds (s.own i) → holds (s.own j) → i = j) ∧ (free s.shared ↔ ∀ i, ¬ holds (s.own i))

/-- A step acquires the free resource, releases it, or changes neither side. -/
def ExclusiveStep (holds : τ → Prop) (free : σ → Prop) (sh : σ) (t : τ) (sh' : σ) (t' : τ) : Prop :=
  (¬ holds t ∧ free sh ∧ holds t' ∧ ¬ free sh') ∨ (holds t ∧ ¬ holds t' ∧ free sh') ∨
    ((holds t' ↔ holds t) ∧ (free sh' ↔ free sh))

theorem Exclusive.step {holds : τ → Prop} {free : σ → Prop}
    (stable : ∀ t, holds (P.wake t) ↔ holds t) (inv : Exclusive holds free s)
    (step : ExclusiveStep holds free s.shared (s.own i) sh t) :
    Exclusive holds free (s.after P i sh t notify) := by
  obtain ⟨unique, freeIff⟩ := inv
  have others : ∀ j, j ≠ i → (holds ((s.after P i sh t notify).own j) ↔ holds (s.own j)) :=
    fun j other => after_other_iff stable other
  have self : holds ((s.after P i sh t notify).own i) ↔ holds t := by rw [after_own_self]
  unfold Exclusive
  rw [after_shared]
  rcases step with ⟨h, hfree, h', hfree'⟩ | ⟨h, h', hfree'⟩ | ⟨same, sameFree⟩
  · have none := freeIff.1 hfree
    have only : ∀ j, holds ((s.after P i sh t notify).own j) → j = i := fun j hj => by
      by_contra other
      exact none j ((others j other).1 hj)
    refine ⟨fun j k hj hk => (only j hj).trans (only k hk).symm, ?_⟩
    exact ⟨fun hf => absurd hf hfree', fun hn => absurd (self.2 h') (hn i)⟩
  · have gone : ∀ j, ¬ holds ((s.after P i sh t notify).own j) := fun j hj => by
      by_cases other : j = i
      · subst other
        exact h' (self.1 hj)
      · exact other (unique j i ((others j other).1 hj) h)
    exact ⟨fun j k hj => absurd hj (gone j), ⟨fun _ => gone, fun _ => hfree'⟩⟩
  · have all : ∀ j, holds ((s.after P i sh t notify).own j) ↔ holds (s.own j) := fun j => by
      by_cases other : j = i
      · subst other
        exact self.trans same
      · exact others j other
    simp only [all]
    exact ⟨unique, sameFree.trans freeIff⟩

/-! ## Guarded data -/

/-- The shared state meets `R` while nobody holds the resource, and `Q` for the place of the
holder. -/
def Guarded (holds : τ → Prop) (R : σ → Prop) (Q : σ → τ → Prop) (s : State ι σ τ) : Prop :=
  ((∀ i, ¬ holds (s.own i)) → R s.shared) ∧ ∀ i, holds (s.own i) → Q s.shared (s.own i)

/-- A step of the holder goes from `Q` to `Q`, or to `R` when it releases; a step that acquires goes
from `R` to `Q`; every other step keeps both. -/
structure GuardedStep (holds : τ → Prop) (R : σ → Prop) (Q : σ → τ → Prop) (sh : σ) (t : τ) (sh' : σ)
    (t' : τ) : Prop where
  hold : holds t → Q sh t → holds t' → Q sh' t'
  release : holds t → Q sh t → ¬ holds t' → R sh'
  acquire : ¬ holds t → R sh → holds t' → Q sh' t'
  free : ¬ holds t → ¬ holds t' → R sh → R sh'
  frame : ¬ holds t → ∀ u, Q sh u → Q sh' u

theorem Guarded.step {holds : τ → Prop} {free : σ → Prop} {R : σ → Prop} {Q : σ → τ → Prop}
    (stable : ∀ t, holds (P.wake t) ↔ holds t) (woken : ∀ sh t, Q sh t → Q sh (P.wake t))
    (exclusive : Exclusive holds free s) (inv : Guarded holds R Q s)
    (taken : ¬ holds (s.own i) → holds t → free s.shared)
    (step : GuardedStep holds R Q s.shared (s.own i) sh t) :
    Guarded holds R Q (s.after P i sh t notify) := by
  obtain ⟨unique, freeIff⟩ := exclusive
  obtain ⟨unheld, held⟩ := inv
  have others : ∀ j, j ≠ i → (holds ((s.after P i sh t notify).own j) ↔ holds (s.own j)) :=
    fun j other => after_other_iff stable other
  refine ⟨fun none_ => ?_, ?_⟩
  · have mine : ¬ holds t := by
      have := none_ i
      rwa [after_own_self] at this
    by_cases before : holds (s.own i)
    · exact step.release before (held i before) mine
    · refine step.free before mine (unheld fun j hj => ?_)
      by_cases other : j = i
      · subst other
        exact before hj
      · exact none_ j ((others j other).2 hj)
  · refine Each.step (Q := fun u => holds u → Q sh u) (fun u fits holds => ?_) (fun j other hj => ?_)
      fun after => ?_
    · exact woken sh u (fits ((stable u).1 holds))
    · have before : ¬ holds (s.own i) := fun hi => other (unique j i hj hi)
      exact step.frame before _ (held j hj)
    · by_cases before : holds (s.own i)
      · exact step.hold before (held i before) after
      · exact step.acquire before (unheld (freeIff.1 (taken before after))) after

/-! ## Parked threads -/

/-- If a thread is parked, the shared state is armed or some thread is pending. -/
def Covered (parked pending : τ → Prop) (armed : σ → Prop) (s : State ι σ τ) : Prop :=
  (∃ i, parked (s.own i)) → armed s.shared ∨ ∃ i, pending (s.own i)

/-- A step notifies, leaves the shared state armed or the thread pending, or is a step of a thread
that was not pending while the shared state was not armed, and does not park. -/
def CoveredStep (parked pending : τ → Prop) (armed : σ → Prop) (sh : σ) (t : τ) (sh' : σ) (t' : τ)
    (notify : Bool) : Prop :=
  (notify = true ∧ ¬ parked t') ∨ armed sh' ∨ pending t' ∨
    (¬ armed sh ∧ ¬ pending t ∧ ¬ parked t' ∧ notify = false)

theorem Covered.step {parked pending : τ → Prop} {armed : σ → Prop}
    (woken : ∀ t, ¬ parked (P.wake t)) (inv : Covered parked pending armed s)
    (step : CoveredStep parked pending armed s.shared (s.own i) sh t notify) :
    Covered parked pending armed (s.after P i sh t notify) := by
  rintro ⟨j, hj⟩
  rcases step with ⟨rfl, h⟩ | h | h | ⟨unarmed, h, h', rfl⟩
  · by_cases other : j = i
    · subst other
      rw [after_own_self] at hj
      exact absurd hj h
    · rw [after_own_woken other] at hj
      exact absurd hj (woken _)
  · exact Or.inl h
  · exact Or.inr ⟨i, by rwa [after_own_self]⟩
  · have other : j ≠ i := by
      rintro rfl
      rw [after_own_self] at hj
      exact h' hj
    rw [after_own_quiet other] at hj
    obtain ⟨k, hk⟩ := (inv ⟨j, hj⟩).resolve_left unarmed
    refine Or.inr ⟨k, ?_⟩
    rwa [after_own_quiet (by rintro rfl; exact h hk)]

/-! ## Counting -/

section Count

variable [Fintype ι] {w : τ → ℕ}

/-- A step changes the total by what its own thread gains or loses. -/
theorem total_after (stable : ∀ t, w (P.wake t) = w t) :
    total w (s.after P i sh t notify) + w (s.own i) = total w s + w t := by
  have others : ∀ j ∈ Finset.univ \ {i}, w ((s.after P i sh t notify).own j) = w (s.own j) := by
    intro j hj
    have other : j ≠ i := by simpa using hj
    obtain h | h : (s.after P i sh t notify).own j = s.own j ∨
        (s.after P i sh t notify).own j = P.wake (s.own j) := after_own_other other
    · rw [h]
    · rw [h, stable]
  unfold total
  rw [Finset.sum_eq_sum_sdiff_singleton_add (Finset.mem_univ i) fun j => w (s.own j),
    Finset.sum_eq_sum_sdiff_singleton_add (Finset.mem_univ i)
      fun j => w ((s.after P i sh t notify).own j), Finset.sum_congr rfl others, after_own_self]
  omega

/-- Two threads hold no more than all together. -/
theorem add_le_total (w : τ → ℕ) (s : State ι σ τ) {j k : ι} (other : j ≠ k) :
    w (s.own j) + w (s.own k) ≤ total w s := by
  rw [← Finset.sum_pair (f := fun j => w (s.own j)) other]
  exact Finset.sum_le_sum_of_subset (Finset.subset_univ _)

end Count

end Threads
