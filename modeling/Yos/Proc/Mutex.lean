import Yos.Lib.Threads
import Yos.Lib.Word

/-!
# Mutexes and condition waits (`impl/proc/pthread.c`)

A mutex is a three-state futex word: 0 is free, 1 is held, 2 is held with possible waiters.  A
thread is the place it has reached in `mu_lock_cell`, `mu_unlock_cell`, `trylock`, `cond_wait` or
`cond_timedwait`, or in a signal; every access to the mutex word or to the sequence word of the
condition variable is one atomic step.  `m3Atomic_Wait32` compares and parks under the lock that
`m3Atomic_Notify` takes, so it is one step; `m3Atomic_Notify` wakes the waiters of every address.  A
parked thread may return at any time.

In every reachable state of any number of threads at most one holds the mutex, the word is 0 iff
none does, and a thread parked on the word is never forgotten (`mutex_correct`).
-/

namespace Yos

open Threads Word

/-- The words the threads share: the mutex and the sequence counter of the condition variable. -/
structure MutexCells where
  cell : ℕ
  seq : ℕ
deriving DecidableEq, Repr

/-- Where a thread is. -/
inductive MutexPc where
  /-- Outside every call, without the mutex. -/
  | idle
  /-- In `mu_lock_cell`, before its compare-exchange. -/
  | lockCas
  /-- In `mu_lock_cell`, before an exchange with 2. -/
  | lockXchg
  /-- In `mu_lock_cell`, before `m3Atomic_Wait32`. -/
  | lockWait
  /-- In `m3Atomic_Wait32` on the mutex word. -/
  | parked
  /-- In `trylock`, before its compare-exchange. -/
  | tryCas
  /-- Between a successful lock and the next call. -/
  | hold
  /-- In `mu_unlock_cell`, before its exchange with 0. -/
  | unlockXchg
  /-- In `mu_unlock_cell`, before `m3Atomic_Notify`. -/
  | unlockNotify
  /-- In `cond_wait` or `cond_timedwait`, before the sequence counter is read. -/
  | condLoad (timed : Bool)
  /-- In the `mu_unlock_cell` of a condition wait, before its exchange with 0. -/
  | condXchg (timed : Bool) (seq : ℕ)
  /-- In the `mu_unlock_cell` of a condition wait, before `m3Atomic_Notify`. -/
  | condNotify (timed : Bool) (seq : ℕ)
  /-- In a condition wait, before `m3Atomic_Wait32` on the sequence counter. -/
  | condWait (timed : Bool) (seq : ℕ)
  /-- In `m3Atomic_Wait32` on the sequence counter. -/
  | condParked (timed : Bool) (seq : ℕ)
  /-- In `cond_signal` or `cond_broadcast`, before `m3Atomic_Notify`; `held` says whether the caller
  holds the mutex. -/
  | signalNotify (held : Bool)
deriving DecidableEq, Repr

/-- The atomic steps of a thread. -/
inductive MutexStep : MutexCells → MutexPc → MutexCells → MutexPc → Bool → Prop where
  | lock (s) : MutexStep s .idle s .lockCas false
  | lockCas_ok (s) (free : s.cell = 0) : MutexStep s .lockCas { s with cell := 1 } .hold false
  | lockCas_fail (s) (taken : s.cell ≠ 0) :
      MutexStep s .lockCas s (if s.cell ≠ 2 then .lockXchg else .lockWait) false
  | lockXchg (s) :
      MutexStep s .lockXchg { s with cell := 2 } (if s.cell ≠ 0 then .lockWait else .hold) false
  | lockWait (s) : MutexStep s .lockWait s (if s.cell = 2 then .parked else .lockXchg) false
  | wake (s) : MutexStep s .parked s .lockXchg false
  | tryLock (s) : MutexStep s .idle s .tryCas false
  | tryCas_ok (s) (free : s.cell = 0) : MutexStep s .tryCas { s with cell := 1 } .hold false
  | tryCas_busy (s) (taken : s.cell ≠ 0) : MutexStep s .tryCas s .idle false
  | unlock (s) : MutexStep s .hold s .unlockXchg false
  | unlockXchg (s) :
      MutexStep s .unlockXchg { s with cell := 0 } (if s.cell = 2 then .unlockNotify else .idle) false
  | unlockNotify (s) : MutexStep s .unlockNotify s .idle true
  | cond (s) (timed) : MutexStep s .hold s (.condLoad timed) false
  | condLoad (s) (timed) : MutexStep s (.condLoad timed) s (.condXchg timed s.seq) false
  | condXchg (s) (timed) (seq) :
      MutexStep s (.condXchg timed seq) { s with cell := 0 }
        (if s.cell = 2 then .condNotify timed seq else .condWait timed seq) false
  | condNotify (s) (timed) (seq) :
      MutexStep s (.condNotify timed seq) s (.condWait timed seq) true
  | condWait (s) (timed) (seq) :
      MutexStep s (.condWait timed seq) s
        (if s.seq = seq then .condParked timed seq else .lockCas) false
  | condWake (s) (timed) (seq) : MutexStep s (.condParked timed seq) s .lockCas false
  | signal (s) (held) :
      MutexStep s (if held then .hold else .idle) { s with seq := u32 (s.seq + 1) }
        (.signalNotify held) false
  | signalNotify (s) (held) :
      MutexStep s (.signalNotify held) s (if held then .hold else .idle) true

/-- What a notification does to a thread: both waits return, and the thread goes on to the exchange
or to `mu_lock_cell`. -/
def MutexPc.woken : MutexPc → MutexPc
  | .parked => .lockXchg
  | .condParked _ _ => .lockCas
  | pc => pc

/-- The program of the threads that share one mutex. -/
def mutexProgram : Program MutexCells MutexPc := ⟨MutexStep, MutexPc.woken⟩

/-- Any number of threads from a fresh mutex. -/
def mutexSystem (ι : Type) [DecidableEq ι] : System (State ι MutexCells MutexPc) ι :=
  mutexProgram.system fun s => s.shared.cell = 0 ∧ ∀ i, s.own i = .idle

/-! ## The invariant -/

/-- The thread is between a successful lock and its unlocking exchange. -/
def MutexPc.Holds : MutexPc → Prop
  | .hold | .unlockXchg | .condLoad _ | .condXchg _ _ | .signalNotify true => True
  | _ => False

/-- The thread is between its unlocking exchange and its notification. -/
def MutexPc.Unlocking : MutexPc → Prop
  | .unlockNotify | .condNotify _ _ => True
  | _ => False

/-- The thread is between its unlocking exchange and its notification, or about to exchange the word
in `mu_lock_cell`. -/
def MutexPc.Pending (pc : MutexPc) : Prop := pc.Unlocking ∨ pc = .lockXchg

theorem MutexPc.holds_woken (pc : MutexPc) : pc.woken.Holds ↔ pc.Holds := by
  cases pc <;> exact Iff.rfl

theorem MutexPc.woken_ne_parked (pc : MutexPc) : pc.woken ≠ .parked := by
  cases pc <;> simp [MutexPc.woken]

/-- Every step acquires the free mutex, releases it, or changes neither the word's freedom nor the
holder. -/
theorem MutexStep.exclusive {s s' : MutexCells} {pc pc' : MutexPc} {n : Bool}
    (step : MutexStep s pc s' pc' n) :
    ExclusiveStep MutexPc.Holds (fun s => s.cell = 0) s pc s' pc' := by
  cases step with
  | lockCas_ok free | tryCas_ok free => exact Or.inl ⟨id, free, trivial, by simp⟩
  | lockXchg =>
    by_cases free : s.cell = 0
    · left
      simp [free, MutexPc.Holds]
    · right; right
      simp [free, MutexPc.Holds]
  | unlockXchg | condXchg =>
    right; left
    split_ifs <;> simp [MutexPc.Holds]
  | lockCas_fail | lockWait | condWait =>
    right; right
    split_ifs <;> simp [MutexPc.Holds]
  | signal held | signalNotify held =>
    right; right
    cases held <;> simp [MutexPc.Holds]
  | _ =>
    right; right
    simp [MutexPc.Holds]

/-- Every step keeps the parked threads in somebody's care. -/
theorem MutexStep.covered {s s' : MutexCells} {pc pc' : MutexPc} {n : Bool}
    (step : MutexStep s pc s' pc' n) :
    CoveredStep (· = .parked) MutexPc.Pending (fun s => s.cell = 2) s pc s' pc' n := by
  by_cases armed : s.cell = 2
  · cases step with
    | unlockXchg | condXchg =>
      right; right; left
      simp [armed, MutexPc.Pending, MutexPc.Unlocking]
    | unlockNotify | condNotify => exact Or.inl ⟨rfl, by simp⟩
    | signalNotify held => exact Or.inl ⟨rfl, by cases held <;> simp⟩
    | lockCas_ok free | tryCas_ok free => omega
    | lockXchg => exact Or.inr (Or.inl rfl)
    | _ => exact Or.inr (Or.inl armed)
  · cases step with
    | lockCas_fail | lockWait | wake =>
      right; right; left
      simp [armed, MutexPc.Pending]
    | lockXchg => exact Or.inr (Or.inl rfl)
    | unlockNotify | condNotify => exact Or.inl ⟨rfl, by simp⟩
    | signalNotify held => exact Or.inl ⟨rfl, by cases held <;> simp⟩
    | unlockXchg | condXchg =>
      right; right; right
      simp [armed, MutexPc.Pending, MutexPc.Unlocking]
    | condWait =>
      right; right; right
      split_ifs <;> simp [armed, MutexPc.Pending, MutexPc.Unlocking]
    | signal held =>
      right; right; right
      cases held <;> simp [armed, MutexPc.Pending, MutexPc.Unlocking]
    | _ =>
      right; right; right
      simp [armed, MutexPc.Pending, MutexPc.Unlocking]

/-! ## Correctness -/

section Correct

variable {ι : Type} [DecidableEq ι] {s : State ι MutexCells MutexPc}

/-- In every reachable state at most one thread holds the mutex, the word is 0 iff nobody does, and
when the word is 0 and no thread is about to notify or to exchange it, no thread is parked on it. -/
theorem mutex_correct (run : (mutexSystem ι).Reachable s) :
    (∀ i j, (s.own i).Holds → (s.own j).Holds → i = j) ∧
      (s.shared.cell = 0 ↔ ∀ i, ¬ (s.own i).Holds) ∧
      (s.shared.cell = 0 → (∀ i, ¬ (s.own i).Unlocking ∧ s.own i ≠ .lockXchg) →
        ∀ i, s.own i ≠ .parked) := by
  have exclusive : Exclusive MutexPc.Holds (fun c => c.cell = 0) s := by
    refine run.invariant (fun s start => ?_) fun s i s' inv step => ?_
    · obtain ⟨free, idle⟩ := start
      refine ⟨fun i j hi => ?_, fun _ i hi => ?_, fun _ => free⟩
      all_goals
        rw [idle i] at hi
        exact absurd hi id
    · obtain ⟨sh, pc, n, step, rfl⟩ := step
      exact inv.step MutexPc.holds_woken (MutexStep.exclusive step)
  have covered : Covered (· = .parked) MutexPc.Pending (fun c : MutexCells => c.cell = 2) s := by
    refine run.invariant (fun s start => ?_) fun s i s' inv step => ?_
    · rintro ⟨i, parked⟩
      rw [start.2 i] at parked
      exact absurd parked (by simp)
    · obtain ⟨sh, pc, n, step, rfl⟩ := step
      exact inv.step MutexPc.woken_ne_parked (MutexStep.covered step)
  refine ⟨exclusive.1, exclusive.2, fun free quiet i parked => ?_⟩
  rcases covered ⟨i, parked⟩ with armed | ⟨j, unlocking | exchanging⟩
  · omega
  · exact (quiet j).1 unlocking
  · exact (quiet j).2 exchanging

end Correct

/-- After thread 0 has locked the mutex it is the only holder. -/
theorem mutex_correct_first_lock :
    ∃ s : State ℕ MutexCells MutexPc, (mutexSystem ℕ).Reachable s ∧ (s.own 0).Holds ∧
      ∀ j, (s.own j).Holds → j = 0 := by
  have start : (mutexSystem ℕ).Reachable ⟨⟨0, 0⟩, fun _ => .idle⟩ := .start ⟨rfl, fun _ => rfl⟩
  have called := start.next (a := 0) ⟨_, _, _, .lock _, rfl⟩
  have locked := called.next (a := 0) ⟨_, _, _, .lockCas_ok _ rfl, rfl⟩
  obtain ⟨unique, -, -⟩ := mutex_correct locked
  exact ⟨_, locked, trivial, fun j hj => unique j 0 hj trivial⟩

end Yos
