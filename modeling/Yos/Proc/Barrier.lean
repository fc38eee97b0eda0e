import Yos.Lib.Threads
import Yos.Lib.Word

/-!
# Barriers (`impl/proc/pthread.c`)

A barrier is five words: a futex mutex, the generation, the number of calls that have arrived, the
count, and the sequence word that waiters park on.  A thread is the place it has reached in
`pthread_barrier_wait`, in the `mu_lock_cell` and `mu_unlock_cell` it calls, or in a wait; every
access to a word is one atomic step.  The words wrap at 32 bits.

What the calls do is counted per generation: how many have arrived, and how many have returned
`PTHREAD_BARRIER_SERIAL_THREAD` or 0.  The generations are numbered without wrapping, `epoch` is the
number of those completed, and each thread keeps the generation its call belongs to and the one it
returned from last.
-/

namespace Yos

open Threads Word

/-- The words the mutex guards, with the number of completed generations and the number of calls that
have arrived in each. -/
structure BarrierData where
  generation : ℕ
  arrived : ℕ
  count : ℕ
  condSeq : ℕ
  epoch : ℕ
  arrivals : ℕ → ℕ

/-- The words of a barrier, and what its calls have returned so far. -/
structure BarrierCells where
  mu : ℕ
  data : BarrierData
  /-- The calls of a generation that have returned `PTHREAD_BARRIER_SERIAL_THREAD`. -/
  serials : ℕ → ℕ
  /-- The calls of a generation that have returned 0. -/
  zeros : ℕ → ℕ

/-- Why a call takes the mutex: it enters, or it looks at the generation again. -/
inductive BarrierWhy where
  | enter
  | again (gen : ℕ)
deriving DecidableEq, Repr

/-- What a call does when it has given the mutex back: it returns -1 or 0, or it sleeps. -/
inductive BarrierThen where
  | back (serial : Bool)
  | sleep (gen seq : ℕ)
deriving DecidableEq, Repr

/-- Where a thread is: the next access it makes. -/
inductive BarrierPc where
  | idle
  | muCas (why : BarrierWhy)
  | muXchg (why : BarrierWhy)
  | muWait (why : BarrierWhy)
  | muParked (why : BarrierWhy)
  | loadGen
  | loadArrived (gen : ℕ)
  | loadCount (gen arrived : ℕ)
  | storeArrived (gen arrived count : ℕ)
  | reset
  | addGen
  | addSeq
  | notify
  | check (gen : ℕ)
  | loadSeq (gen : ℕ)
  | unlockXchg (then_ : BarrierThen)
  | unlockNotify (then_ : BarrierThen)
  | wait (gen seq : ℕ)
  | parked (gen seq : ℕ)
deriving DecidableEq, Repr

/-- A thread, the generation its call belongs to from its arrival on, and the generation of its last
call. -/
structure BarrierThread where
  pc : BarrierPc
  mine : ℕ
  last : Option ℕ
deriving DecidableEq, Repr

/-- Where a call goes on when it has the mutex. -/
def BarrierWhy.resume : BarrierWhy → BarrierPc
  | .enter => .loadGen
  | .again gen => .check gen

/-- The thread goes on at `pc`. -/
def BarrierThread.goto (t : BarrierThread) (pc : BarrierPc) : BarrierThread := { t with pc }

/-- A call arrives. -/
def BarrierData.arrive (d : BarrierData) (arrived : ℕ) : BarrierData :=
  { d with arrived, arrivals := Function.update d.arrivals d.epoch (d.arrivals d.epoch + 1) }

/-- A generation is complete. -/
def BarrierData.advance (d : BarrierData) : BarrierData :=
  { d with generation := u32 (d.generation + 1), epoch := d.epoch + 1 }

/-- A call of the generation `g` returns. -/
def BarrierCells.return_ (s : BarrierCells) (g : ℕ) (serial : Bool) : BarrierCells :=
  if serial then { s with serials := Function.update s.serials g (s.serials g + 1) }
  else { s with zeros := Function.update s.zeros g (s.zeros g + 1) }

/-- The end of `mu_unlock_cell`. -/
def barrierResume (s : BarrierCells) (t : BarrierThread) : BarrierThen → BarrierCells × BarrierThread
  | .back serial => (s.return_ t.mine serial, { t with pc := .idle, last := some t.mine })
  | .sleep gen seq => (s, t.goto (.wait gen seq))

/-- The next step of a thread: the words and the thread after it, and whether it notifies. -/
def barrierStep (s : BarrierCells) (t : BarrierThread) : (BarrierCells × BarrierThread) × Bool :=
  match t.pc with
  | .idle => ((s, t.goto (.muCas .enter)), false)
  | .muCas why =>
    if s.mu = 0 then (({ s with mu := 1 }, t.goto why.resume), false)
    else ((s, t.goto (if s.mu ≠ 2 then .muXchg why else .muWait why)), false)
  | .muXchg why =>
    (({ s with mu := 2 }, t.goto (if s.mu ≠ 0 then .muWait why else why.resume)), false)
  | .muWait why => ((s, t.goto (if s.mu = 2 then .muParked why else .muXchg why)), false)
  | .muParked why => ((s, t.goto (.muXchg why)), false)
  | .loadGen => ((s, t.goto (.loadArrived s.data.generation)), false)
  | .loadArrived gen => ((s, t.goto (.loadCount gen (u32 (s.data.arrived + 1)))), false)
  | .loadCount gen arrived => ((s, t.goto (.storeArrived gen arrived s.data.count)), false)
  | .storeArrived gen arrived count =>
    (({ s with data := s.data.arrive arrived },
      ⟨if arrived = count then .reset else .check gen, s.data.epoch, t.last⟩), false)
  | .reset => (({ s with data := { s.data with arrived := 0 } }, t.goto .addGen), false)
  | .addGen => (({ s with data := s.data.advance }, t.goto .addSeq), false)
  | .addSeq =>
    (({ s with data := { s.data with condSeq := u32 (s.data.condSeq + 1) } }, t.goto .notify), false)
  | .notify => ((s, t.goto (.unlockXchg (.back true))), true)
  | .check gen =>
    ((s, t.goto (if s.data.generation = gen then .loadSeq gen else .unlockXchg (.back false))), false)
  | .loadSeq gen => ((s, t.goto (.unlockXchg (.sleep gen s.data.condSeq))), false)
  | .unlockXchg then_ =>
    if s.mu = 2 then (({ s with mu := 0 }, t.goto (.unlockNotify then_)), false)
    else (barrierResume { s with mu := 0 } t then_, false)
  | .unlockNotify then_ => (barrierResume s t then_, true)
  | .wait gen seq =>
    ((s, t.goto (if s.data.condSeq = seq then .parked gen seq else .muCas (.again gen))), false)
  | .parked gen _ => ((s, t.goto (.muCas (.again gen))), false)

/-- What a notification does to a thread. -/
def BarrierThread.woken (t : BarrierThread) : BarrierThread :=
  match t.pc with
  | .muParked why => t.goto (.muXchg why)
  | .parked gen _ => t.goto (.muCas (.again gen))
  | _ => t

/-- The program of the threads that share one barrier. -/
def barrierProgram : Program BarrierCells BarrierThread where
  step s t s' t' notify := barrierStep s t = ((s', t'), notify)
  wake := BarrierThread.woken

/-- What `pthread_barrier_init` stores. -/
def BarrierCells.fresh (count : ℕ) : BarrierCells :=
  ⟨0, ⟨0, 0, count, 0, 0, fun _ => 0⟩, fun _ => 0, fun _ => 0⟩

/-- Any number of threads from a fresh barrier. -/
def barrierSystem (ι : Type) [DecidableEq ι] (count : ℕ) :
    System (State ι BarrierCells BarrierThread) ι :=
  barrierProgram.system fun s => s.shared = .fresh count ∧ ∀ i, s.own i = ⟨.idle, 0, none⟩

/-! ## Places -/

/-- The part of a thread in its generation: it has not arrived, it will return 0, or it has completed
the generation and will return -1.  The last thread to arrive becomes the serial thread when it
advances the generation. -/
inductive BarrierRole where
  | outside
  | waiter
  | serial
deriving DecidableEq, Repr

/-- The part of a thread that waits for the mutex. -/
def BarrierWhy.role : BarrierWhy → BarrierRole
  | .enter => .outside
  | .again _ => .waiter

/-- The part of a thread that gives the mutex back. -/
def BarrierThen.role : BarrierThen → BarrierRole
  | .back true => .serial
  | .back false | .sleep _ _ => .waiter

namespace BarrierPc

/-- The part of a thread. -/
def role : BarrierPc → BarrierRole
  | .muCas why | .muXchg why | .muWait why | .muParked why => why.role
  | .reset | .addGen | .check _ | .loadSeq _ | .wait _ _ | .parked _ _ => .waiter
  | .addSeq | .notify => .serial
  | .unlockXchg then_ | .unlockNotify then_ => then_.role
  | .idle | .loadGen | .loadArrived _ | .loadCount _ _ | .storeArrived _ _ _ => .outside

/-- The thread holds the mutex. -/
def Holds : BarrierPc → Prop
  | .loadGen | .loadArrived _ | .loadCount _ _ | .storeArrived _ _ _ | .reset | .addGen | .addSeq
  | .notify | .check _ | .loadSeq _ | .unlockXchg _ => True
  | _ => False

/-- The thread is about to notify or to exchange the mutex. -/
def Pending : BarrierPc → Prop
  | .unlockNotify _ | .muXchg _ => True
  | _ => False

/-- The thread is parked on the mutex. -/
def MuParked : BarrierPc → Prop
  | .muParked _ => True
  | _ => False

/-- The thread is parked on the sequence word. -/
def SeqParked : BarrierPc → Prop
  | .parked _ _ => True
  | _ => False

end BarrierPc

theorem BarrierWhy.holds_resume (why : BarrierWhy) : why.resume.Holds := by
  cases why <;> trivial

theorem BarrierWhy.not_muParked_resume (why : BarrierWhy) : ¬ why.resume.MuParked := by
  cases why <;> exact id

theorem BarrierWhy.role_resume (why : BarrierWhy) : why.resume.role = why.role := by
  cases why <;> rfl

namespace BarrierThread

theorem holds_woken (t : BarrierThread) : t.woken.pc.Holds ↔ t.pc.Holds := by
  obtain ⟨pc, mine, last⟩ := t
  cases pc <;> exact Iff.rfl

theorem not_muParked_woken (t : BarrierThread) : ¬ t.woken.pc.MuParked := by
  obtain ⟨pc, mine, last⟩ := t
  cases pc <;> exact id

theorem role_woken (t : BarrierThread) : t.woken.pc.role = t.pc.role := by
  obtain ⟨pc, mine, last⟩ := t
  cases pc <;> rfl

theorem mine_woken (t : BarrierThread) : t.woken.mine = t.mine := by
  obtain ⟨pc, mine, last⟩ := t
  cases pc <;> rfl

theorem last_woken (t : BarrierThread) : t.woken.last = t.last := by
  obtain ⟨pc, mine, last⟩ := t
  cases pc <;> rfl

end BarrierThread

/-! ## The mutex -/

section Step

variable (s : BarrierCells) (t : BarrierThread)

theorem mu_return (g : ℕ) (serial : Bool) : (s.return_ g serial).mu = s.mu := by
  cases serial <;> rfl

theorem mu_resume (then_ : BarrierThen) : (barrierResume s t then_).1.mu = s.mu := by
  cases then_ with
  | back serial => exact mu_return s _ serial
  | sleep gen seq => rfl

theorem not_holds_resume (then_ : BarrierThen) : ¬ (barrierResume s t then_).2.pc.Holds := by
  cases then_ <;> exact id

theorem not_muParked_resume (then_ : BarrierThen) :
    ¬ (barrierResume s t then_).2.pc.MuParked := by
  cases then_ <;> exact id

/-- A step takes the free mutex, gives it back, or changes neither. -/
theorem barrierStep_exclusive :
    ExclusiveStep (fun t : BarrierThread => t.pc.Holds) (fun s : BarrierCells => s.mu = 0) s t
      (barrierStep s t).1.1 (barrierStep s t).1.2 := by
  obtain ⟨pc, mine, last⟩ := t
  cases pc with
  | muCas why =>
    simp only [barrierStep]
    split_ifs with free
    · exact .inl ⟨id, free, why.holds_resume, by simp⟩
    all_goals exact .inr (.inr ⟨Iff.rfl, Iff.rfl⟩)
  | muXchg why =>
    simp only [barrierStep]
    by_cases free : s.mu = 0
    · rw [if_neg (by simpa using free)]
      exact .inl ⟨id, free, why.holds_resume, by simp⟩
    · rw [if_pos free]
      exact .inr (.inr ⟨Iff.rfl, by simp [free]⟩)
  | unlockXchg then_ =>
    simp only [barrierStep]
    split_ifs with waiters
    · exact .inr (.inl ⟨trivial, id, rfl⟩)
    · exact .inr (.inl ⟨trivial, not_holds_resume _ _ then_, mu_resume _ _ then_⟩)
  | unlockNotify then_ =>
    simp only [barrierStep]
    refine .inr (.inr ⟨iff_of_false (not_holds_resume _ _ then_) id, ?_⟩)
    show (barrierResume s _ then_).1.mu = 0 ↔ s.mu = 0
    rw [mu_resume]
  | muWait why | check gen | wait gen seq =>
    simp only [barrierStep]
    split_ifs <;> exact .inr (.inr ⟨Iff.rfl, Iff.rfl⟩)
  | storeArrived gen arrived count =>
    simp only [barrierStep]
    split_ifs <;> exact .inr (.inr ⟨Iff.rfl, Iff.rfl⟩)
  | _ => exact .inr (.inr ⟨Iff.rfl, Iff.rfl⟩)

/-- A step keeps the threads parked on the mutex in somebody's care. -/
theorem barrierStep_covered :
    CoveredStep (fun t : BarrierThread => t.pc.MuParked) (fun t => t.pc.Pending)
      (fun s : BarrierCells => s.mu = 2) s t (barrierStep s t).1.1 (barrierStep s t).1.2
      (barrierStep s t).2 := by
  obtain ⟨pc, mine, last⟩ := t
  by_cases armed : s.mu = 2
  · cases pc with
    | muCas why =>
      simp only [barrierStep, if_neg (show s.mu ≠ 0 by omega)]
      exact .inr (.inl armed)
    | muXchg why => exact .inr (.inl rfl)
    | unlockXchg then_ =>
      simp only [barrierStep, if_pos armed]
      exact .inr (.inr (.inl trivial))
    | unlockNotify then_ => exact .inl ⟨rfl, not_muParked_resume _ _ then_⟩
    | notify => exact .inl ⟨rfl, id⟩
    | _ => exact .inr (.inl armed)
  · cases pc with
    | muCas why =>
      simp only [barrierStep, if_pos armed]
      split_ifs
      · exact .inr (.inr (.inr ⟨armed, id, why.not_muParked_resume, rfl⟩))
      · exact .inr (.inr (.inl trivial))
    | muXchg why => exact .inr (.inl rfl)
    | muWait why =>
      simp only [barrierStep, if_neg armed]
      exact .inr (.inr (.inl trivial))
    | muParked why => exact .inr (.inr (.inl trivial))
    | unlockXchg then_ =>
      simp only [barrierStep, if_neg armed]
      exact .inr (.inr (.inr ⟨armed, id, not_muParked_resume _ _ then_, rfl⟩))
    | unlockNotify then_ => exact .inl ⟨rfl, not_muParked_resume _ _ then_⟩
    | notify => exact .inl ⟨rfl, id⟩
    | check gen | wait gen seq | storeArrived gen arrived count =>
      simp only [barrierStep]
      split_ifs <;> exact .inr (.inr (.inr ⟨armed, id, id, rfl⟩))
    | _ => exact .inr (.inr (.inr ⟨armed, id, id, rfl⟩))

end Step

end Yos
