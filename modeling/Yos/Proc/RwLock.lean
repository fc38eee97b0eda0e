import Yos.Lib.Threads

/-!
# Read-write locks (`impl/proc/pthread.c`)

A read-write lock is one word: 0 is free, `0xFFFFFFFF` is held by a writer, every other value is the
number of read locks held.  A thread is the place it has reached in `rw_rdlock_impl`,
`rw_wrlock_impl` or `rw_unlock_impl`, with the locks it holds; it may hold several read locks, and
calls `rw_unlock_impl` only while it holds one.  Every load, compare-exchange, wait and notification
is one atomic step.  A waiter parks on the value it has loaded before, which may have changed and
come back in between.

In every reachable state of any number of threads the word tells what is held, a writer is alone,
and a thread parked on the word is never forgotten (`rwlock_correct`).
-/

namespace Yos

open Threads

/-- `RW_WRITER`. -/
def rwWriter : ℕ := 0xFFFFFFFF

/-- Where a thread is; `try_` is `try_only` and `st` is the value it has loaded. -/
inductive RwPc where
  /-- Outside every call. -/
  | idle
  /-- In `rw_rdlock_impl`, at the top of the loop. -/
  | rdLoad (try_ : Bool)
  /-- In `rw_rdlock_impl`, before its compare-exchange. -/
  | rdCas (try_ : Bool) (st : ℕ)
  /-- In `rw_rdlock_impl`, before `m3Atomic_Wait32`. -/
  | rdWait (st : ℕ)
  | rdParked
  /-- In `rw_wrlock_impl`, at the top of the loop. -/
  | wrLoad (try_ : Bool)
  /-- In `rw_wrlock_impl`, before its compare-exchange with 0. -/
  | wrCas (try_ : Bool)
  /-- In `rw_wrlock_impl`, before `m3Atomic_Wait32`. -/
  | wrWait (st : ℕ)
  | wrParked
  /-- In `rw_unlock_impl`, at the top of the loop. -/
  | unlockLoad
  /-- In `rw_unlock_impl`, before its compare-exchange. -/
  | unlockCas (st : ℕ)
  /-- In `rw_unlock_impl`, before `m3Atomic_Notify`. -/
  | unlockNotify
deriving DecidableEq, Repr

/-- A thread and the locks it holds. -/
structure RwThread where
  reads : ℕ
  writes : Bool
  pc : RwPc
deriving DecidableEq, Repr

namespace RwThread

/-- The thread goes on at `pc`. -/
def goto (t : RwThread) (pc : RwPc) : RwThread := { t with pc }

/-- The thread gives a lock back. -/
def release (t : RwThread) : RwThread :=
  if t.writes then ⟨t.reads, false, .unlockNotify⟩ else ⟨t.reads - 1, false, .unlockNotify⟩

end RwThread

/-- The value `rw_unlock_impl` stores. -/
def rwUnlocked (st : ℕ) : ℕ := if st = rwWriter then 0 else st - 1

/-- The atomic steps of a thread. -/
inductive RwStep : ℕ → RwThread → ℕ → RwThread → Bool → Prop where
  | rdlock {c} {t : RwThread} (try_) (out : t.pc = .idle) : RwStep c t c (t.goto (.rdLoad try_)) false
  | rdLoad {c} {t : RwThread} (try_) (here : t.pc = .rdLoad try_) :
      RwStep c t c (t.goto (if c ≠ rwWriter ∧ c < rwWriter - 1 then .rdCas try_ c
        else if try_ then .idle else .rdWait c)) false
  | rdCas_ok {c} {t : RwThread} (try_) (here : t.pc = .rdCas try_ c) :
      RwStep c t (c + 1) { t with reads := t.reads + 1, pc := .idle } false
  | rdCas_fail {c} {t : RwThread} (try_) (st) (here : t.pc = .rdCas try_ st) (lost : c ≠ st) :
      RwStep c t c (t.goto (.rdLoad try_)) false
  | rdWait {c} {t : RwThread} (st) (here : t.pc = .rdWait st) :
      RwStep c t c (t.goto (if c = st then .rdParked else .rdLoad false)) false
  | rdWake {c} {t : RwThread} (here : t.pc = .rdParked) : RwStep c t c (t.goto (.rdLoad false)) false
  | wrlock {c} {t : RwThread} (try_) (out : t.pc = .idle) : RwStep c t c (t.goto (.wrLoad try_)) false
  | wrLoad {c} {t : RwThread} (try_) (here : t.pc = .wrLoad try_) :
      RwStep c t c (t.goto (if c = 0 then .wrCas try_ else if try_ then .idle else .wrWait c)) false
  | wrCas_ok {t : RwThread} (try_) (here : t.pc = .wrCas try_) :
      RwStep 0 t rwWriter { t with writes := true, pc := .idle } false
  | wrCas_fail {c} {t : RwThread} (try_) (here : t.pc = .wrCas try_) (lost : c ≠ 0) :
      RwStep c t c (t.goto (.wrLoad try_)) false
  | wrWait {c} {t : RwThread} (st) (here : t.pc = .wrWait st) :
      RwStep c t c (t.goto (if c = st then .wrParked else .wrLoad false)) false
  | wrWake {c} {t : RwThread} (here : t.pc = .wrParked) : RwStep c t c (t.goto (.wrLoad false)) false
  | unlock {c} {t : RwThread} (out : t.pc = .idle) (holds : t.writes = true ∨ 0 < t.reads) :
      RwStep c t c (t.goto .unlockLoad) false
  | unlockLoad {c} {t : RwThread} (here : t.pc = .unlockLoad) :
      RwStep c t c (t.goto (if c = 0 then .idle else .unlockCas c)) false
  | unlockCas_ok {c} {t : RwThread} (here : t.pc = .unlockCas c) :
      RwStep c t (rwUnlocked c) t.release false
  | unlockCas_fail {c} {t : RwThread} (st) (here : t.pc = .unlockCas st) (lost : c ≠ st) :
      RwStep c t c (t.goto .unlockLoad) false
  | unlockNotify {c} {t : RwThread} (here : t.pc = .unlockNotify) : RwStep c t c (t.goto .idle) true

/-- What a notification does to a thread. -/
def RwThread.woken (t : RwThread) : RwThread :=
  match t.pc with
  | .rdParked => t.goto (.rdLoad false)
  | .wrParked => t.goto (.wrLoad false)
  | _ => t

/-- The program of the threads that share one lock. -/
def rwProgram : Program ℕ RwThread := ⟨RwStep, RwThread.woken⟩

/-- Any number of threads from a fresh lock. -/
def rwSystem (ι : Type) [DecidableEq ι] : System (State ι ℕ RwThread) ι :=
  rwProgram.system fun s => s.shared = 0 ∧ ∀ i, s.own i = ⟨0, false, .idle⟩

/-! ## The invariant -/

/-- What the place of a thread says about the value it has loaded and the locks it holds. -/
def RwThread.Fits (t : RwThread) : Prop :=
  match t.pc with
  | .rdCas _ st => st < rwWriter - 1
  | .rdWait st => rwWriter - 1 ≤ st
  | .wrWait st => st ≠ 0
  | .unlockLoad => t.writes = true ∨ 0 < t.reads
  | .unlockCas st => (t.writes = true ∨ 0 < t.reads) ∧ st ≠ 0
  | _ => True

/-- The thread is in `m3Atomic_Wait32`. -/
def RwThread.Parked (t : RwThread) : Prop := t.pc = .rdParked ∨ t.pc = .wrParked

/-- The number of write locks the thread holds. -/
def RwThread.writeCount (t : RwThread) : ℕ := if t.writes then 1 else 0

/-- The word counts the locks held: one write lock and no read lock, or read locks only. -/
def RwCount (cell writes reads : ℕ) : Prop :=
  (cell = rwWriter ∧ writes = 1 ∧ reads = 0) ∨ (cell < rwWriter ∧ writes = 0 ∧ cell = reads)

theorem RwThread.fits_woken {t : RwThread} (fits : t.Fits) : t.woken.Fits := by
  unfold woken
  split
  · trivial
  · trivial
  · exact fits

theorem RwThread.reads_woken (t : RwThread) : t.woken.reads = t.reads := by
  unfold woken
  split <;> rfl

theorem RwThread.writeCount_woken (t : RwThread) : t.woken.writeCount = t.writeCount := by
  unfold woken
  split <;> rfl

theorem RwThread.not_parked_woken (t : RwThread) : ¬ t.woken.Parked := by
  unfold woken Parked
  split
  · simp [goto]
  · simp [goto]
  · next reading writing => exact fun parked => parked.elim reading writing

/-- A step leaves its thread at a place that fits. -/
theorem RwStep.fits {c c' : ℕ} {t t' : RwThread} {n : Bool} (step : RwStep c t c' t' n)
    (fits : t.Fits) : t'.Fits := by
  cases step with
  | rdLoad try_ here =>
    unfold RwThread.Fits RwThread.goto
    dsimp only
    split_ifs with low
    · exact low.2
    · trivial
    · dsimp only
      omega
  | wrLoad try_ here =>
    unfold RwThread.Fits RwThread.goto
    dsimp only
    split_ifs with free
    · trivial
    · trivial
    · exact free
  | unlock out holds => exact holds
  | unlockLoad here =>
    unfold RwThread.Fits at fits
    rw [here] at fits
    unfold RwThread.Fits RwThread.goto
    dsimp only
    split_ifs with free
    · trivial
    · exact ⟨fits, free⟩
  | unlockCas_fail st here lost =>
    unfold RwThread.Fits at fits
    rw [here] at fits
    exact fits.1
  | unlockCas_ok here =>
    unfold RwThread.release
    split <;> trivial
  | rdWait st here | wrWait st here =>
    unfold RwThread.Fits RwThread.goto
    dsimp only
    split_ifs <;> trivial
  | _ => trivial

/-- A step keeps the parked threads in somebody's care: threads park while the word is not 0, and
the unlocker that makes it 0 goes on to notify. -/
theorem RwStep.covered {c c' : ℕ} {t t' : RwThread} {n : Bool} (step : RwStep c t c' t' n)
    (fits : t.Fits) :
    CoveredStep RwThread.Parked (fun t => t.pc = .unlockNotify) (· ≠ 0) c t c' t' n := by
  unfold RwThread.Fits at fits
  cases step with
  | rdCas_ok try_ here => exact .inr (.inl (Nat.succ_ne_zero c))
  | wrCas_ok try_ here => exact .inr (.inl (by decide))
  | unlockCas_ok here =>
    refine .inr (.inr (.inl ?_))
    unfold RwThread.release
    split <;> rfl
  | unlockNotify here => exact .inl ⟨rfl, by simp [RwThread.Parked, RwThread.goto]⟩
  | rdWait st here =>
    rw [here] at fits
    by_cases free : c = 0
    · have apart : c ≠ st := by
        have := show rwWriter - 1 ≤ st from fits
        unfold rwWriter at this
        omega
      refine .inr (.inr (.inr ⟨fun armed => armed free, ?_, ?_, rfl⟩))
      · simp [here]
      · simp [RwThread.Parked, RwThread.goto, apart]
    · exact .inr (.inl free)
  | wrWait st here =>
    rw [here] at fits
    by_cases free : c = 0
    · have apart : c ≠ st := fun same => fits (same.symm.trans free)
      refine .inr (.inr (.inr ⟨fun armed => armed free, ?_, ?_, rfl⟩))
      · simp [here]
      · simp [RwThread.Parked, RwThread.goto, apart]
    · exact .inr (.inl free)
  | rdLoad try_ here | wrLoad try_ here | unlockLoad here =>
    by_cases free : c = 0
    · refine .inr (.inr (.inr ⟨fun armed => armed free, ?_, ?_, rfl⟩))
      · simp [here]
      · unfold RwThread.Parked RwThread.goto
        dsimp only
        split_ifs <;> simp
    · exact .inr (.inl free)
  | rdlock try_ here | wrlock try_ here | unlock here holds | rdCas_fail try_ st here lost
  | wrCas_fail try_ here lost | rdWake here | wrWake here | unlockCas_fail st here lost =>
    by_cases free : c = 0
    · refine .inr (.inr (.inr ⟨fun armed => armed free, ?_, ?_, rfl⟩))
      · simp [here]
      · simp [RwThread.Parked, RwThread.goto]
    · exact .inr (.inl free)

/-- A step changes what its thread holds as it changes the word. -/
theorem RwStep.count {c c' : ℕ} {t t' : RwThread} {n : Bool} (step : RwStep c t c' t' n)
    (fits : t.Fits) {writes reads writes' reads' : ℕ} (count : RwCount c writes reads)
    (oldWrites : t.writeCount ≤ writes) (oldReads : t.reads ≤ reads)
    (newWrites : writes' + t.writeCount = writes + t'.writeCount)
    (newReads : reads' + t.reads = reads + t'.reads) : RwCount c' writes' reads' := by
  unfold RwThread.Fits at fits
  have same : t'.writes = t.writes → t'.reads = t.reads → writes' = writes ∧ reads' = reads := by
    intro sameWrites sameReads
    unfold RwThread.writeCount at newWrites
    rw [sameWrites] at newWrites
    omega
  cases step with
  | rdCas_ok try_ here =>
    rw [here] at fits
    have low : c < rwWriter - 1 := fits
    obtain ⟨full, -, -⟩ | ⟨below, none_, rfl⟩ := count
    · omega
    · refine .inr ⟨by omega, ?_, ?_⟩
      · exact (Nat.add_right_cancel newWrites).trans none_
      · dsimp only at newReads
        omega
  | wrCas_ok try_ here =>
    obtain ⟨full, -, -⟩ | ⟨below, rfl, rfl⟩ := count
    · cases full
    · have free : t.writeCount = 0 := by omega
      have taken : RwThread.writeCount { t with writes := true, pc := .idle } = 1 := rfl
      refine .inl ⟨rfl, by omega, ?_⟩
      dsimp only at newReads
      omega
  | unlockCas_ok here =>
    rw [here] at fits
    obtain ⟨holds, used⟩ := fits
    unfold rwUnlocked
    unfold RwThread.release RwThread.writeCount at newWrites
    unfold RwThread.release at newReads
    unfold RwThread.writeCount at oldWrites
    have positive : 0 < rwWriter := by decide
    obtain ⟨rfl, rfl, rfl⟩ | ⟨below, rfl, rfl⟩ := count
    · rw [if_pos rfl]
      have writing : t.writes = true := holds.resolve_right (by omega)
      simp only [writing, if_true] at newWrites newReads
      exact .inr ⟨positive, by simpa using newWrites, by omega⟩
    · rw [if_neg (by omega)]
      have reading : t.writes = false := by
        by_contra writing
        rw [if_pos (by simpa using writing)] at oldWrites
        omega
      simp only [reading] at newWrites newReads holds
      have held : 0 < t.reads := by simpa using holds
      refine .inr ⟨by omega, by simpa using newWrites, ?_⟩
      simp only [Bool.false_eq_true, if_false] at newReads
      omega
  | _ =>
    obtain ⟨rfl, rfl⟩ := same rfl rfl
    exact count

/-! ## Correctness -/

section Correct

variable {ι : Type} [DecidableEq ι] {s : State ι ℕ RwThread}

/-- The invariant of the lock. -/
structure RwInv [Fintype ι] (s : State ι ℕ RwThread) : Prop where
  fits : ∀ i, (s.own i).Fits
  count : RwCount s.shared (total RwThread.writeCount s) (total RwThread.reads s)
  covered : Covered RwThread.Parked (fun t => t.pc = .unlockNotify) (· ≠ 0) s

theorem rwInv_of_reachable [Fintype ι] (run : (rwSystem ι).Reachable s) : RwInv s := by
  refine run.invariant (fun s start => ?_) fun s i s' inv step => ?_
  · obtain ⟨free, idle⟩ := start
    refine ⟨fun i => by rw [idle i]; trivial, ?_, ?_⟩
    · have noWrites : total RwThread.writeCount s = 0 :=
        total_eq_zero_iff.2 fun i => by rw [idle i]; rfl
      have noReads : total RwThread.reads s = 0 := total_eq_zero_iff.2 fun i => by rw [idle i]
      rw [free, noWrites, noReads]
      exact .inr ⟨by decide, rfl, rfl⟩
    · rintro ⟨i, parked⟩
      rw [idle i] at parked
      simp [RwThread.Parked] at parked
  · obtain ⟨c, t, n, step, rfl⟩ := step
    have fits := inv.fits i
    refine ⟨Each.step (fun t => RwThread.fits_woken) (fun j _ => inv.fits j)
      (RwStep.fits step fits), ?_, ?_⟩
    · exact RwStep.count step fits inv.count (le_total _ s i) (le_total _ s i)
        (total_after RwThread.writeCount_woken) (total_after RwThread.reads_woken)
    · exact inv.covered.step RwThread.not_parked_woken (RwStep.covered step fits)

/-- In every reachable state the word is `0xFFFFFFFF` iff exactly one thread holds the write lock,
and is else the number of read locks held; a writer holds the lock alone; and when the word is 0 and
no unlocker is about to notify, no thread is parked on it. -/
theorem rwlock_correct [Fintype ι] (run : (rwSystem ι).Reachable s) :
    (s.shared = rwWriter ↔ ∃! i, (s.own i).writes = true) ∧
      (s.shared ≠ rwWriter → s.shared = ∑ i, (s.own i).reads) ∧
      (∀ i j, (s.own i).writes = true →
        (s.own j).reads = 0 ∧ ((s.own j).writes = true → i = j)) ∧
      (s.shared = 0 → (∀ i, (s.own i).pc ≠ .unlockNotify) →
        ∀ i, (s.own i).pc ≠ .rdParked ∧ (s.own i).pc ≠ .wrParked) := by
  obtain ⟨-, count, covered⟩ := rwInv_of_reachable run
  have one : ∀ i, (s.own i).writes = true → 1 ≤ total RwThread.writeCount s := by
    intro i writing
    have le := le_total RwThread.writeCount s i
    rwa [RwThread.writeCount, if_pos writing] at le
  have unique : ∀ i j, (s.own i).writes = true → (s.own j).writes = true → i = j := by
    intro i j writingI writingJ
    by_contra other
    have le := add_le_total RwThread.writeCount s other
    rw [RwThread.writeCount, RwThread.writeCount, if_pos writingI, if_pos writingJ] at le
    obtain ⟨-, writes, -⟩ | ⟨-, writes, -⟩ := count <;> omega
  refine ⟨⟨fun full => ?_, fun ⟨i, writing, _⟩ => ?_⟩, fun notFull => ?_, fun i j writing => ?_,
    fun free quiet i => ?_⟩
  · have writes : total RwThread.writeCount s = 1 := by
      obtain ⟨-, writes, -⟩ | ⟨below, -, -⟩ := count <;> omega
    have some_ : ∃ i, (s.own i).writes = true := by
      by_contra none_
      have zero : total RwThread.writeCount s = 0 := total_eq_zero_iff.2 fun i =>
        if_neg fun writing => none_ ⟨i, writing⟩
      omega
    obtain ⟨i, writing⟩ := some_
    exact ⟨i, writing, fun j writingJ => unique j i writingJ writing⟩
  · have le := one i writing
    obtain ⟨full, -, -⟩ | ⟨-, writes, -⟩ := count
    · exact full
    · omega
  · obtain ⟨full, -, -⟩ | ⟨-, -, reads⟩ := count
    · exact absurd full notFull
    · exact reads
  · refine ⟨?_, unique i j writing⟩
    have le := one i writing
    obtain ⟨-, -, reads⟩ | ⟨-, writes, -⟩ := count
    · exact total_eq_zero_iff.1 reads j
    · omega
  · have parked : ¬ (s.own i).Parked := by
      intro parked
      obtain armed | ⟨j, pending⟩ := covered ⟨i, parked⟩
      · exact armed free
      · exact quiet j pending
    exact ⟨fun reading => parked (.inl reading), fun writing => parked (.inr writing)⟩

end Correct

/-- After thread 0 has taken a read lock, the word is 1. -/
theorem rwlock_correct_first_reader :
    ∃ s : State (Fin 2) ℕ RwThread, (rwSystem (Fin 2)).Reachable s ∧ s.shared = 1 ∧
      s.shared = ∑ i, (s.own i).reads := by
  have start : (rwSystem (Fin 2)).Reachable ⟨0, fun _ => ⟨0, false, .idle⟩⟩ :=
    .start ⟨rfl, fun _ => rfl⟩
  have called := start.next (a := 0) ⟨_, _, _, .rdlock false rfl, rfl⟩
  have loaded := called.next (a := 0) ⟨_, _, _, .rdLoad false rfl, rfl⟩
  have locked := loaded.next (a := 0) ⟨_, _, _, .rdCas_ok false rfl, rfl⟩
  exact ⟨_, locked, rfl, (rwlock_correct locked).2.1 (by decide)⟩

end Yos
