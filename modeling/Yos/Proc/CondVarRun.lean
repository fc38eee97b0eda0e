import Yos.Proc.CondVar

/-!
# Condition variables lose no wakeup

A signal is made by the holder of the mutex, so it is the only one under way (`CondStep.guarded`), and a
thread parks only if no signal came since it read the counter (`CondStep.parks`).  So a parked thread has
read the counter after every signal that has notified (`CondInv.parked`), and a thread whose wait began
earlier is not parked and has two steps left at most (`not_parked_overdue`, `overdue_steps`).
-/

namespace Yos

open Threads Word

/-! ## The thread by itself -/

/-- How often a wait that takes the mutex has given it back and taken it. -/
def CondWhy.tally : CondWhy → Option (ℕ × ℕ)
  | .lock => none
  | .wait _ _ => some (1, 0)

namespace CondPc

/-- The thread is between a successful lock and its unlocking exchange. -/
def Locked : CondPc → Prop
  | .hold | .unlockXchg | .condLoad _ | .condXchg _ _ | .condDone _ _ | .signalAdd _ | .signalNotify _ => True
  | _ => False

/-- The thread has given the mutex back in a condition wait and has not left `m3Atomic_Wait32`. -/
def Waiting : CondPc → Prop
  | .condNotify _ _ | .condWait _ _ | .condParked _ _ | .condWoken _ _ => True
  | _ => False

/-- The thread is parked on the counter. -/
def Parked : CondPc → Prop
  | .condParked _ _ => True
  | _ => False

/-- The counter as the wait has read it. -/
def read : CondPc → Option ℕ
  | .condXchg _ seq | .condNotify _ seq | .condWait _ seq | .condParked _ seq | .condWoken _ seq => some seq
  | _ => none

/-- How often a wait that is here has given the mutex back and taken it. -/
def tally : CondPc → Option (ℕ × ℕ)
  | .condLoad _ | .condXchg _ _ => some (0, 0)
  | .condNotify _ _ | .condWait _ _ | .condParked _ _ | .condWoken _ _ => some (1, 0)
  | .lockCas why | .lockXchg why | .lockWait why | .lockParked why => why.tally
  | .condDone _ _ => some (1, 1)
  | _ => none

end CondPc

/-- What a thread remembers after `signals` signals. -/
structure CondThread.Fits (signals : ℕ) (t : CondThread) : Prop where
  mine : t.mine = true ↔ t.pc.Locked
  read : ∀ seq, t.pc.read = some seq → seq = u32 t.seen ∧ t.seen ≤ signals
  tally : ∀ c, t.pc.tally = some c → (t.released, t.acquired) = c

section Thread

variable {s s' : CondCells} {t t' : CondThread} {n : Bool} {signals : ℕ}

theorem CondThread.Fits.mono {signals' : ℕ} (fits : t.Fits signals) (le : signals ≤ signals') :
    t.Fits signals' :=
  ⟨fits.mine, fun seq h => (fits.read seq h).imp_right (Nat.le_trans · le), fits.tally⟩

/-- A thread moves on with what it remembers. -/
theorem CondThread.Fits.goto {pc pc' : CondPc} (fits : (t.goto pc).Fits signals)
    (locked : pc'.Locked ↔ pc.Locked) (read : pc'.read = none ∨ pc'.read = pc.read)
    (tally : pc'.tally = none ∨ pc'.tally = pc.tally) : (t.goto pc').Fits signals := by
  refine ⟨fits.mine.trans locked.symm, fun seq h => fits.read seq ?_, fun c h => fits.tally c ?_⟩
  · rcases read with none | same
    · exact absurd (none.symm.trans h) (by simp)
    · exact same.symm.trans h
  · rcases tally with none | same
    · exact absurd (none.symm.trans h) (by simp)
    · exact same.symm.trans h

theorem CondThread.Fits.woken (fits : t.Fits signals) : t.woken.Fits signals := by
  obtain ⟨pc, mine, waits, seen, released, acquired⟩ := t
  have goto {pc pc' : CondPc} :=
    @CondThread.Fits.goto ⟨.idle, mine, waits, seen, released, acquired⟩ signals pc pc'
  cases pc with
  | lockParked why => exact goto fits Iff.rfl (Or.inl rfl) (Or.inr rfl)
  | condParked timed seq => exact goto fits Iff.rfl (Or.inr rfl) (Or.inr rfl)
  | _ => exact fits

/-- A wait that takes the mutex has given it back once and not taken it since. -/
theorem CondThread.Fits.take {pc : CondPc} {why : CondWhy} (fits : (t.goto pc).Fits signals)
    (tally : pc.tally = why.tally) : (t.take why.resume).Fits signals := by
  cases why with
  | lock => exact ⟨⟨fun _ => trivial, fun _ => rfl⟩, fun _ => nofun, fun _ => nofun⟩
  | wait timed r =>
    have counts : (t.released, t.acquired) = (1, 0) := fits.tally _ tally
    refine ⟨⟨fun _ => trivial, fun _ => rfl⟩, fun _ => nofun, fun c eq => ?_⟩
    have last : some (1, 1) = some c := eq
    obtain ⟨once, never⟩ := Prod.mk.inj counts
    rw [← Option.some.inj last]
    exact congrArg₂ Prod.mk once (congrArg (· + 1) never)

/-- A wait that gives the mutex back has done neither. -/
theorem CondThread.Fits.give {pc pc' : CondPc} (fits : (t.goto pc).Fits signals) (free : ¬ pc'.Locked)
    (read : pc'.read = none ∨ pc'.read = pc.read)
    (tally : pc'.tally = none ∨ pc.tally = some (0, 0) ∧ pc'.tally = some (1, 0)) :
    (t.give pc').Fits signals := by
  refine ⟨⟨nofun, fun locked => absurd locked free⟩, fun seq h => fits.read seq ?_, fun c h => ?_⟩
  · rcases read with none | same
    · exact absurd (none.symm.trans h) (by simp)
    · exact same.symm.trans h
  · rcases tally with none | ⟨before, after⟩
    · exact absurd (none.symm.trans h) (by simp)
    · have counts : (t.released, t.acquired) = (0, 0) := fits.tally _ before
      obtain ⟨never, neither⟩ := Prod.mk.inj counts
      rw [← Option.some.inj (after.symm.trans h)]
      exact congrArg₂ Prod.mk (congrArg (· + 1) never) neither

/-- A step leaves its thread with what it should remember. -/
theorem CondStep.fits (step : CondStep s t s' t' n) (counted : s.seq = u32 s.signals)
    (fits : t.Fits s.signals) : t'.Fits s'.signals := by
  cases step with
  | tryCas_ok t free => exact @CondThread.Fits.take t s.signals _ .lock fits rfl
  | lockCas_ok t why free | lockXchg_ok t why free => exact CondThread.Fits.take fits rfl
  | lockCas_fail t why taken | lockWait t why =>
    split_ifs <;> exact fits.goto Iff.rfl (Or.inl rfl) (Or.inr rfl)
  | lockXchg_fail t why taken | lockChanged t why changed =>
    exact fits.goto Iff.rfl (Or.inl rfl) (Or.inr rfl)
  | unlockXchg t => split_ifs <;> exact fits.give id (Or.inl rfl) (Or.inl rfl)
  | condXchg t timed seq => split_ifs <;> exact fits.give id (Or.inr rfl) (Or.inr ⟨rfl, rfl⟩)
  | cond t timed =>
    refine ⟨fits.mine, fun _ => nofun, fun c eq => ?_⟩
    exact Option.some.inj eq
  | condLoad t timed =>
    refine ⟨fits.mine, fun seq eq => ?_, fits.tally⟩
    have same : s.seq = seq := Option.some.inj eq
    exact ⟨same.symm.trans counted, Nat.le_refl _⟩
  | condNotify t timed seq => exact fits.goto Iff.rfl (Or.inr rfl) (Or.inr rfl)
  | condWait t timed seq =>
    split_ifs
    · exact fits.goto Iff.rfl (Or.inr rfl) (Or.inr rfl)
    · exact fits.goto Iff.rfl (Or.inl rfl) (Or.inr rfl)
  | condChanged | condTimeout | condLeave | condLate => exact fits.goto Iff.rfl (Or.inl rfl) (Or.inr rfl)
  | signalAdd t broadcast => exact (fits.mono (Nat.le_succ _)).goto Iff.rfl (Or.inl rfl) (Or.inl rfl)
  | _ => exact fits.goto Iff.rfl (Or.inl rfl) (Or.inl rfl)

theorem CondThread.locked_woken (t : CondThread) : t.woken.pc.Locked ↔ t.pc.Locked := by
  obtain ⟨pc, mine, waits, seen, released, acquired⟩ := t
  cases pc <;> exact Iff.rfl

/-- Every step acquires the free mutex, releases it, or changes neither the word's freedom nor the
holder. -/
theorem CondStep.exclusive (step : CondStep s t s' t' n) :
    ExclusiveStep (fun t : CondThread => t.pc.Locked) (fun s : CondCells => s.cell = 0) s t s' t' := by
  cases step with
  | tryCas_ok t free => exact Or.inl ⟨id, free, trivial, by simp⟩
  | lockCas_ok t why free | lockXchg_ok t why free =>
    refine Or.inl ⟨id, free, ?_, by simp⟩
    cases why <;> trivial
  | lockXchg_fail t why taken => exact Or.inr (Or.inr ⟨Iff.rfl, by simp [taken]⟩)
  | unlockXchg t | condXchg t timed seq =>
    refine Or.inr (Or.inl ⟨trivial, ?_, rfl⟩)
    split_ifs <;> exact id
  | lockCas_fail t why taken | lockWait t why | condWait t timed seq =>
    right; right
    split_ifs <;> exact ⟨Iff.rfl, Iff.rfl⟩
  | _ => exact Or.inr (Or.inr ⟨Iff.rfl, Iff.rfl⟩)

/-- The signals of the holder that have not notified yet. -/
def CondThread.owes (t : CondThread) : ℕ :=
  match t.pc with
  | .signalNotify _ => 1
  | _ => 0

theorem CondThread.owes_woken (t : CondThread) : t.woken.owes = t.owes := by
  obtain ⟨pc, mine, waits, seen, released, acquired⟩ := t
  cases pc <;> rfl

theorem CondThread.owes_of_not_locked (free : ¬ t.pc.Locked) : t.owes = 0 := by
  obtain ⟨pc, mine, waits, seen, released, acquired⟩ := t
  cases pc with
  | signalNotify broadcast => exact absurd trivial free
  | _ => rfl

/-- What a step adds to the signals, its thread owes or has notified. -/
theorem CondStep.balance (step : CondStep s t s' t' n) :
    s'.signals + s.notified + t.owes = s'.notified + s.signals + t'.owes := by
  cases step with
  | lockCas_ok t why free | lockXchg_ok t why free =>
    cases why <;> exact Nat.add_comm s.signals s.notified
  | lockCas_fail t why taken | unlockXchg t | condXchg t timed seq | lockWait t why | condWait t timed seq =>
    split_ifs <;> exact Nat.add_comm s.signals s.notified
  | signalAdd t broadcast =>
    change s.signals + 1 + s.notified + 0 = s.notified + s.signals + 1
    omega
  | signalNotify t broadcast =>
    change s.signals + s.notified + 1 = s.notified + 1 + s.signals + 0
    omega
  | _ => exact Nat.add_comm s.signals s.notified

/-- Only the holder of the mutex signals. -/
theorem CondStep.frame (step : CondStep s t s' t' n) (free : ¬ t.pc.Locked) :
    s'.signals = s.signals ∧ s'.notified = s.notified := by
  cases step with
  | signalAdd | signalNotify => exact absurd trivial free
  | _ => exact ⟨rfl, rfl⟩

/-- A signal of the holder is the only one that has not notified. -/
theorem CondStep.guarded (step : CondStep s t s' t' n) :
    GuardedStep (fun t : CondThread => t.pc.Locked) (fun s : CondCells => s.signals = s.notified)
      (fun s t => s.signals = s.notified + t.owes) s t s' t' := by
  have balance := step.balance
  constructor
  · intro _ before _
    omega
  · intro _ before free
    have none := CondThread.owes_of_not_locked free
    omega
  · intro free before _
    have none := CondThread.owes_of_not_locked free
    omega
  · intro free free' before
    have none := CondThread.owes_of_not_locked free
    have none' := CondThread.owes_of_not_locked free'
    omega
  · intro free u before
    obtain ⟨signals, notified⟩ := step.frame free
    rw [signals, notified]
    exact before

theorem CondStep.counted (step : CondStep s t s' t' n) (counted : s.seq = u32 s.signals) :
    s'.seq = u32 s'.signals := by
  cases step with
  | signalAdd t broadcast => exact (congrArg (fun seq => u32 (seq + 1)) counted).trans (u32_succ _)
  | _ => exact counted

theorem CondStep.mono (step : CondStep s t s' t' n) :
    s.signals ≤ s'.signals ∧ s.notified ≤ s'.notified := by
  cases step with
  | signalAdd => exact ⟨Nat.le_succ _, Nat.le_refl _⟩
  | signalNotify => exact ⟨Nat.le_refl _, Nat.le_succ _⟩
  | _ => exact ⟨Nat.le_refl _, Nat.le_refl _⟩

/-- A thread that notifies is not parked, and only a notification completes a signal. -/
theorem CondStep.notifies (step : CondStep s t s' t' n) :
    (n = true ∧ ¬ t'.pc.Parked) ∨ (n = false ∧ s'.notified = s.notified) := by
  cases step with
  | unlockNotify | condNotify | signalNotify | elsewhere => exact Or.inl ⟨rfl, id⟩
  | _ => exact Or.inr ⟨rfl, rfl⟩

theorem CondThread.not_parked_woken (t : CondThread) : ¬ t.woken.pc.Parked := by
  obtain ⟨pc, mine, waits, seen, released, acquired⟩ := t
  cases pc <;> exact id

/-- A thread parks only if there was no signal since it read the counter. -/
theorem CondStep.parks (step : CondStep s t s' t' n) (fits : t.Fits s.signals) (counted : s.seq = u32 s.signals)
    (few : s.signals < 2 ^ 32) (parked : t'.pc.Parked) : t'.seen = s.signals := by
  cases step with
  | condWait t timed seq =>
    by_cases same : s.seq = seq
    · obtain ⟨eq, le⟩ := fits.read seq rfl
      rw [counted, eq, u32_of_lt few] at same
      change t.seen ≤ s.signals at le
      change s.signals = u32 t.seen at same
      rw [u32_of_lt (by omega)] at same
      exact same.symm
    · rw [if_neg same] at parked
      exact absurd parked id
  | lockCas_ok t why free | lockXchg_ok t why free => cases why <;> exact absurd parked id
  | lockCas_fail | lockWait | unlockXchg | condXchg =>
    split_ifs at parked <;> exact absurd parked id
  | _ => exact absurd parked id

/-! ### One wait -/

/-- The thread has begun a wait and not given the mutex back in it. -/
def CondPc.Entering : CondPc → Prop
  | .condLoad _ | .condXchg _ _ => True
  | _ => False

/-- The thread is past giving the mutex back in its wait `w`, which saw `v` signals. -/
def CondThread.Past (w v : ℕ) (t : CondThread) : Prop :=
  w < t.waits ∨ t.waits = w ∧ t.seen = v ∧ ¬ t.pc.Entering

variable {w v : ℕ}

theorem CondThread.waits_woken (t : CondThread) : t.woken.waits = t.waits := by
  obtain ⟨pc, mine, waits, seen, released, acquired⟩ := t
  cases pc <;> rfl

theorem CondThread.Past.woken (past : t.Past w v) : t.woken.Past w v := by
  obtain ⟨pc, mine, waits, seen, released, acquired⟩ := t
  cases pc <;> exact past

theorem CondStep.waits_le (step : CondStep s t s' t' n) : t.waits ≤ t'.waits := by
  cases step with
  | cond t timed => exact Nat.le_succ _
  | _ => exact Nat.le_refl _

theorem CondStep.past (step : CondStep s t s' t' n) (past : t.Past w v) : t'.Past w v := by
  rcases past with later | ⟨same, seen, out⟩
  · exact Or.inl (Nat.lt_of_lt_of_le later step.waits_le)
  · cases step with
    | cond t timed =>
      left
      rw [← same]
      exact Nat.lt_succ_self _
    | condLoad | condXchg => exact absurd trivial out
    | lockCas_ok t why free | lockXchg_ok t why free => exact Or.inr ⟨same, seen, by cases why <;> exact id⟩
    | lockCas_fail | lockWait | condWait | unlockXchg =>
      refine Or.inr ⟨same, seen, ?_⟩
      split_ifs <;> exact id
    | _ => exact Or.inr ⟨same, seen, id⟩

/-- The steps a thread that is not parked still makes in `m3Atomic_Wait32` and on the way to it. -/
def CondPc.stepsLeft : CondPc → ℕ
  | .condNotify _ _ => 2
  | .condWait _ _ | .condParked _ _ | .condWoken _ _ => 1
  | _ => 0

/-- A thread that stays in its wait without parking comes nearer to the end. -/
theorem CondStep.advances (step : CondStep s t s' t' n) (out : ¬ t.pc.Entering) (waiting : t'.pc.Waiting)
    (free : ¬ t'.pc.Parked) : t.pc.Waiting ∧ t'.pc.stepsLeft + 1 = t.pc.stepsLeft := by
  cases step with
  | condNotify => exact ⟨trivial, rfl⟩
  | condXchg => exact absurd trivial out
  | condWait t timed seq =>
    split_ifs at waiting free
    · exact absurd trivial free
    · exact absurd waiting id
  | lockCas_ok t why _ | lockXchg_ok t why _ => cases why <;> exact absurd waiting id
  | lockCas_fail | lockWait | unlockXchg => split_ifs at waiting <;> exact absurd waiting id
  | _ => exact absurd waiting id

theorem CondThread.waiting_woken (t : CondThread) :
    (t.woken.pc.Waiting ↔ t.pc.Waiting) ∧ t.woken.pc.stepsLeft = t.pc.stepsLeft := by
  obtain ⟨pc, mine, waits, seen, released, acquired⟩ := t
  cases pc <;> exact ⟨Iff.rfl, rfl⟩

/-- A waiting thread that is not parked can make its next step. -/
theorem CondThread.enabled (waiting : t.pc.Waiting) (free : ¬ t.pc.Parked) :
    ∃ t' n, CondStep s t s t' n := by
  obtain ⟨pc, mine, waits, seen, released, acquired⟩ := t
  cases pc with
  | condNotify timed seq => exact ⟨_, _, .condNotify s ⟨.idle, mine, waits, seen, released, acquired⟩ timed seq⟩
  | condWait timed seq => exact ⟨_, _, .condWait s ⟨.idle, mine, waits, seen, released, acquired⟩ timed seq⟩
  | condWoken timed seq => exact ⟨_, _, .condLeave s ⟨.idle, mine, waits, seen, released, acquired⟩ timed seq⟩
  | condParked timed seq => exact absurd trivial free
  | _ => exact absurd waiting id

/-- The last step of a signal. -/
theorem CondStep.completes (step : CondStep s t s' t' n) {broadcast : Bool}
    (here : t.pc = .signalNotify broadcast) : s'.notified = s.notified + 1 := by
  cases step with
  | signalNotify t b => rfl
  | _ => exact nomatch here

end Thread

/-! ## All threads -/

section System

variable {ι : Type} {s s' : State ι CondCells CondThread}

/-- What holds of the threads together. -/
structure CondInv (s : State ι CondCells CondThread) : Prop where
  exclusive : Exclusive (fun t : CondThread => t.pc.Locked) (fun c : CondCells => c.cell = 0) s
  guarded : Guarded (fun t : CondThread => t.pc.Locked) (fun c : CondCells => c.signals = c.notified)
    (fun c t => c.signals = c.notified + t.owes) s
  counted : s.shared.seq = u32 s.shared.signals
  fits : ∀ i, (s.own i).Fits s.shared.signals
  /-- A parked thread has read the counter after every signal that has notified. -/
  parked : s.shared.signals < 2 ^ 32 → ∀ i, (s.own i).pc.Parked → s.shared.notified ≤ (s.own i).seen

theorem CondInv.notified_le (inv : CondInv s) : s.shared.notified ≤ s.shared.signals := by
  by_cases free : ∀ i, ¬ (s.own i).pc.Locked
  · exact Nat.le_of_eq (inv.guarded.1 free).symm
  · push Not at free
    obtain ⟨i, locked⟩ := free
    have count := inv.guarded.2 i locked
    omega

variable [DecidableEq ι]

theorem CondInv.step {i : ι} (inv : CondInv s) (step : (condSystem ι).step s i s') : CondInv s' := by
  have order := inv.notified_le
  obtain ⟨sh, t, n, step, rfl⟩ := step
  have taken (free : ¬ (s.own i).pc.Locked) (locked : t.pc.Locked) : s.shared.cell = 0 := by
    rcases CondStep.exclusive step with ⟨-, zero, -, -⟩ | ⟨locked', -, -⟩ | ⟨same, -⟩
    · exact zero
    · exact absurd locked' free
    · exact absurd (same.1 locked) free
  have mono := CondStep.mono step
  refine ⟨inv.exclusive.step CondThread.locked_woken (CondStep.exclusive step), ?_,
    CondStep.counted step inv.counted, ?_, fun few => ?_⟩
  · refine inv.guarded.step CondThread.locked_woken (fun sh t count => ?_) inv.exclusive taken
      (CondStep.guarded step)
    change _ = _ + t.woken.owes
    rw [CondThread.owes_woken]
    exact count
  · exact Each.step (fun t fits => fits.woken) (fun j _ => (inv.fits j).mono mono.1)
      (CondStep.fits step inv.counted (inv.fits i))
  · rw [after_shared] at few ⊢
    have before := inv.parked (by omega)
    rcases CondStep.notifies step with ⟨rfl, self⟩ | ⟨rfl, same⟩
    · exact Each.woken (Q := fun t : CondThread => t.pc.Parked → sh.notified ≤ t.seen)
        (fun t parked => absurd parked t.not_parked_woken) fun parked => absurd parked self
    · intro j parked
      by_cases other : j = i
      · subst other
        rw [after_own_self] at parked ⊢
        rw [CondStep.parks step (inv.fits j) inv.counted (by omega) parked]
        omega
      · rw [after_own_quiet other] at parked ⊢
        rw [same]
        exact before j parked

theorem CondInv.of_run (run : (condSystem ι).Reachable s) : CondInv s := by
  refine run.invariant (fun s start => ?_) fun s i s' inv step => inv.step step
  obtain ⟨fresh, idle⟩ := start
  have pc (i : ι) : (s.own i).pc = .idle := by rw [idle i]; rfl
  have free (i : ι) : ¬ (s.own i).pc.Locked := by
    rw [pc i]
    exact id
  refine ⟨⟨fun i j locked => absurd locked (free i), fun _ => free, fun _ => ?_⟩,
    ⟨fun _ => ?_, fun i locked => absurd locked (free i)⟩, ?_, fun i => ?_, fun _ i parked => ?_⟩
  · rw [fresh]
  · rw [fresh]
  · rw [fresh]
    rfl
  · rw [idle i]
    exact ⟨⟨nofun, fun locked => absurd locked id⟩, fun _ => nofun, fun _ => nofun⟩
  · rw [pc i] at parked
    exact absurd parked id

/-- Between the two states the thread `i` has gone through a signal or broadcast. -/
def SignalMade (i : ι) (s s' : State ι CondCells CondThread) : Prop :=
  ∃ broadcast as m, (s.own i).pc = .signalAdd broadcast ∧ (condSystem ι).Run s as m ∧
    (m.own i).pc = .signalNotify broadcast ∧ (condSystem ι).step m i s'

section Run

variable {i j : ι} {as : List ι} {w v : ℕ}

theorem CondInv.run (inv : CondInv s) (run : (condSystem ι).Run s as s') : CondInv s' :=
  run.keeps (fun _ _ _ inv step => inv.step step) inv

theorem run_mono (run : (condSystem ι).Run s as s') :
    s.shared.signals ≤ s'.shared.signals ∧ s.shared.notified ≤ s'.shared.notified := by
  induction run with
  | refl => exact ⟨Nat.le_refl _, Nat.le_refl _⟩
  | snoc _ next ih =>
    obtain ⟨sh, t, n, step, rfl⟩ := next
    have mono := CondStep.mono step
    exact ⟨ih.1.trans mono.1, ih.2.trans mono.2⟩

theorem run_past (run : (condSystem ι).Run s as s') (past : (s.own j).Past w v) : (s'.own j).Past w v := by
  refine run.keeps (I := fun u => (u.own j).Past w v) (fun u k u' past step => ?_) past
  obtain ⟨sh, t, n, step, rfl⟩ := step
  by_cases other : j = k
  · subst other
    rw [after_own_self]
    exact CondStep.past step past
  · obtain h | h : (u.after condProgram k sh t n).own j = u.own j ∨
        (u.after condProgram k sh t n).own j = (u.own j).woken := after_own_other other
    · rw [h]
      exact past
    · rw [h]
      exact past.woken

/-- A signal has notified when it returns, and the signals of others before it have as well. -/
theorem SignalMade.notified (inv : CondInv s) (signals : SignalMade i s s') :
    s.shared.signals < s'.shared.notified ∧ ∃ as, (condSystem ι).Run s as s' := by
  obtain ⟨broadcast, as, m, start, run, last, step⟩ := signals
  refine ⟨?_, as ++ [i], run.snoc step⟩
  have locked : (s.own i).pc.Locked := by
    rw [start]
    trivial
  have none : (s.own i).owes = 0 := by
    unfold CondThread.owes
    rw [start]
  have count := inv.guarded.2 i locked
  have mono := run_mono run
  obtain ⟨sh, t, n, step, rfl⟩ := step
  have one := CondStep.completes step last
  rw [after_shared]
  omega

/-- A thread whose wait began before a signal that has notified is not parked in it. -/
theorem not_parked_overdue (inv : CondInv s) (past : (s.own j).Past w v) (late : v < s.shared.notified)
    (run : (condSystem ι).Run s as s') (few : s'.shared.signals < 2 ^ 32) (same : (s'.own j).waits = w) :
    ¬ (s'.own j).pc.Parked := by
  intro parked
  have bound := (inv.run run).parked few j parked
  have mono := run_mono run
  rcases run_past run past with later | ⟨-, seen, -⟩
  · omega
  · omega

/-- Its wait ends after two steps of its own. -/
theorem overdue_steps (inv : CondInv s) (past : (s.own j).Past w v) (late : v < s.shared.notified)
    (run : (condSystem ι).Run s as s') (few : s'.shared.signals < 2 ^ 32) (waiting : (s'.own j).pc.Waiting)
    (same : (s'.own j).waits = w) : as.count j + (s'.own j).pc.stepsLeft ≤ 2 := by
  induction run with
  | refl =>
    rw [List.count_nil, Nat.zero_add]
    generalize (s.own j).pc = pc
    cases pc <;> simp [CondPc.stepsLeft]
  | @snoc u u' as k run step ih =>
    have free := not_parked_overdue inv past late (run.snoc step) few same
    have before := run_past run past
    obtain ⟨sh, t, n, step, rfl⟩ := step
    have mono := CondStep.mono step
    rw [after_shared] at few
    by_cases other : j = k
    · subst other
      rw [after_own_self] at waiting same free ⊢
      have le := CondStep.waits_le step
      obtain ⟨still, -, out⟩ : (u.own j).waits = w ∧ (u.own j).seen = v ∧ ¬ (u.own j).pc.Entering :=
        before.resolve_left (by omega)
      obtain ⟨waited, nearer⟩ := CondStep.advances step out waiting free
      have count := ih (by omega) waited still
      rw [List.count_append, List.count_singleton_self]
      omega
    · have quiet : (u.own j).pc.Waiting ∧ (u.own j).waits = w ∧
          ((u.after condProgram k sh t n).own j).pc.stepsLeft = (u.own j).pc.stepsLeft := by
        obtain h | h : (u.after condProgram k sh t n).own j = u.own j ∨
            (u.after condProgram k sh t n).own j = (u.own j).woken := after_own_other other
        · rw [h] at waiting same ⊢
          exact ⟨waiting, same, rfl⟩
        · rw [h] at waiting same ⊢
          exact ⟨(u.own j).waiting_woken.1.1 waiting, (u.own j).waits_woken ▸ same, (u.own j).waiting_woken.2⟩
      have count := ih (by omega) quiet.1 quiet.2.1
      rw [List.count_append, List.count_singleton, if_neg (by simpa using Ne.symm other), quiet.2.2]
      exact count

/-- A thread that waits has given the mutex back in this wait. -/
theorem CondThread.past_of_waiting {t : CondThread} (waiting : t.pc.Waiting) : t.Past t.waits t.seen := by
  obtain ⟨pc, mine, waits, seen, released, acquired⟩ := t
  refine Or.inr ⟨rfl, rfl, fun entering => ?_⟩
  cases pc with
  | condLoad | condXchg => exact absurd waiting id
  | _ => exact absurd entering id

theorem CondThread.Fits.seen_le {signals : ℕ} {t : CondThread} (fits : t.Fits signals)
    (waiting : t.pc.Waiting) : t.seen ≤ signals := by
  obtain ⟨pc, mine, waits, seen, released, acquired⟩ := t
  cases pc with
  | condNotify timed seq | condWait timed seq | condParked timed seq | condWoken timed seq =>
    exact (fits.read seq rfl).2
  | _ => exact absurd waiting id

/-- A signal without steps of other threads in between. -/
theorem signals_alone (t : CondThread) (broadcast : Bool) (here : s.own i = t.goto (.signalAdd broadcast)) :
    ∃ m, SignalMade i s m ∧ m.shared.signals = s.shared.signals + 1 ∧ ∀ k, k ≠ i → m.own k = (s.own k).woken := by
  have first : CondStep s.shared (s.own i) _ _ false := here ▸ CondStep.signalAdd s.shared t broadcast
  have add : (condSystem ι).step s i _ := ⟨_, _, _, first, rfl⟩
  refine ⟨_, ⟨broadcast, [] ++ [i], _, by rw [here]; rfl, .snoc (.refl s) add, ?_,
    ⟨_, _, _, by rw [after_own_self]; exact .signalNotify _ t broadcast, rfl⟩⟩, rfl, fun k other => ?_⟩
  · rw [after_own_self]
    rfl
  · rw [after_own_woken other, after_own_quiet other]
    rfl

end Run

/-- Every thread that waits when a signal or broadcast begins leaves: once the signal has returned, the
thread is not parked in this wait any more, it can always make its next step, and it leaves with its second
one.  A condition wait returns with the mutex, which it has given back once and taken once if it returns
`ETIMEDOUT`. -/
theorem cond_no_lost_wakeup (run : (condSystem ι).Reachable s) :
    (∀ i m, SignalMade i s m → ∀ as u, (condSystem ι).Run m as u → u.shared.signals < 2 ^ 32 →
      ∀ j, (s.own j).pc.Waiting → (u.own j).pc.Waiting → (u.own j).waits = (s.own j).waits →
        ¬ (u.own j).pc.Parked ∧ (∃ u', (condSystem ι).step u j u') ∧ as.count j < 2) ∧
    ∀ j timed r, (s.own j).pc = .condDone timed r →
      ((s.own j).mine = true ∧ s.shared.cell ≠ 0 ∧ ∀ k, (s.own k).mine = true → k = j) ∧
        (condResult timed r = etimedout → (s.own j).released = 1 ∧ (s.own j).acquired = 1) := by
  have inv := CondInv.of_run run
  refine ⟨fun i m signals as u later few j waited waiting same => ?_, fun j timed r done => ?_⟩
  · obtain ⟨late, _, between⟩ := signals.notified inv
    have seen := (inv.fits j).seen_le waited
    have past := run_past between (CondThread.past_of_waiting waited)
    have free := not_parked_overdue (inv.run between) past (by omega) later few same
    have count := overdue_steps (inv.run between) past (by omega) later few waiting same
    obtain ⟨t, n, step⟩ := CondThread.enabled (s := u.shared) waiting free
    refine ⟨free, ⟨_, _, t, n, step, rfl⟩, ?_⟩
    have some : 0 < (u.own j).pc.stepsLeft := by
      generalize (u.own j).pc = pc at waiting
      cases pc with
      | condNotify | condWait | condParked | condWoken => exact Nat.succ_pos _
      | _ => exact absurd waiting id
    omega
  · have locked : (s.own j).pc.Locked := by
      rw [done]
      trivial
    refine ⟨⟨(inv.fits j).mine.2 locked, fun zero => inv.exclusive.2.1 zero j locked, fun k mine =>
      inv.exclusive.1 k j ((inv.fits k).mine.1 mine) locked⟩, fun _ => ?_⟩
    have counts := (inv.fits j).tally (1, 1) (by rw [done]; rfl)
    exact Prod.mk.inj counts

end System

/-- Thread 0 sleeps in `cond_wait`; thread 1 takes the mutex and signals. -/
theorem cond_no_lost_wakeup_signal :
    ∃ s m : State ℕ CondCells CondThread, (condSystem ℕ).Reachable s ∧ SignalMade 1 s m ∧
      (s.own 0).pc = .condParked false 0 ∧ m.shared.signals < 2 ^ 32 ∧
      ¬ (m.own 0).pc.Parked ∧ ∃ u, (condSystem ℕ).step m 0 u := by
  have start : (condSystem ℕ).Reachable ⟨⟨0, 0, 0, 0⟩, fun _ => .fresh⟩ := .start ⟨rfl, fun _ => rfl⟩
  have lock0 := start.next (a := 0) ⟨_, _, _, .lock _ .fresh, rfl⟩
  have hold0 := lock0.next (a := 0) ⟨_, _, _, .lockCas_ok _ .fresh .lock rfl, rfl⟩
  have cond0 := hold0.next (a := 0) ⟨_, _, _, .cond _ ⟨.hold, true, 0, 0, 0, 1⟩ false, rfl⟩
  have load0 := cond0.next (a := 0) ⟨_, _, _, .condLoad _ ⟨.hold, true, 1, 0, 0, 0⟩ false, rfl⟩
  have give0 := load0.next (a := 0) ⟨_, _, _, .condXchg _ ⟨.hold, true, 1, 0, 0, 0⟩ false 0, rfl⟩
  have park0 := give0.next (a := 0) ⟨_, _, _, .condWait _ ⟨.hold, false, 1, 0, 1, 0⟩ false 0, rfl⟩
  have lock1 := park0.next (a := 1) ⟨_, _, _, .lock _ .fresh, rfl⟩
  have hold1 := lock1.next (a := 1) ⟨_, _, _, .lockCas_ok _ .fresh .lock rfl, rfl⟩
  have before := hold1.next (a := 1) ⟨_, _, _, .signal _ ⟨.hold, true, 0, 0, 0, 1⟩ false, rfl⟩
  obtain ⟨s, before, one, parked, first⟩ : ∃ s, (condSystem ℕ).Reachable s ∧
      s.own 1 = .goto ⟨.hold, true, 0, 0, 0, 1⟩ (.signalAdd false) ∧
      s.own 0 = .goto ⟨.idle, false, 1, 0, 1, 0⟩ (.condParked false 0) ∧ s.shared.signals = 0 :=
    ⟨_, before, rfl, rfl, rfl⟩
  obtain ⟨m, signals, count, woken⟩ := signals_alone _ _ one
  have few : m.shared.signals < 2 ^ 32 := by
    rw [count, first]
    decide
  have zero : m.own 0 = .goto ⟨.idle, false, 1, 0, 1, 0⟩ (.condWoken false 0) := by
    rw [woken 0 (by decide), parked]
    rfl
  obtain ⟨free, next, -⟩ := (cond_no_lost_wakeup before).1 1 m signals [] m (.refl m) few 0
    (by rw [parked]; trivial) (by rw [zero]; trivial) (by rw [zero, parked]; rfl)
  exact ⟨s, m, before, signals, by rw [parked]; rfl, few, free, next⟩

end Yos
