import Yos.Lib.Threads
import Yos.Lib.Word

/-!
# Condition variables (`impl/proc/pthread.c`)

A condition variable is a sequence counter: `cond_signal` and `cond_broadcast` add 1 to it and notify,
`cond_wait` reads it, releases the mutex and sleeps while the counter is the one it read.  A thread is
the place it has reached in these calls or in `mu_lock_cell` and `mu_unlock_cell`; every access to the
mutex word or the counter is one atomic step.  `m3Atomic_Wait32` compares and parks under the lock that
`m3Atomic_Notify` takes, so it is one step; `m3Atomic_Notify` wakes the waiters of every address, however
many it is asked to wake.  A parked thread leaves when it was notified, when the host wakes it and the word
has changed, or when its time is up.

The threads signal while they hold the mutex.  Beside the words are counted the signals that have added
to the counter, and those that have notified as well; each thread remembers how many signals there were
when it read the counter, and how often its wait has given the mutex back and taken it.
-/

namespace Yos

open Threads Word

/-- The mutex word and the counter, and how many signals have been made. -/
structure CondCells where
  cell : ℕ
  seq : ℕ
  /-- The signals and broadcasts that have added to the counter. -/
  signals : ℕ
  /-- Those that have notified. -/
  notified : ℕ
deriving DecidableEq, Repr

/-- Who takes the mutex: `pthread_mutex_lock`, or a condition wait after `m3Atomic_Wait32` has returned
`r`. -/
inductive CondWhy where
  | lock
  | wait (timed : Bool) (r : ℕ)
deriving DecidableEq, Repr

/-- Where a thread is: the next access it makes. -/
inductive CondPc where
  | idle
  | hold
  | tryCas
  | lockCas (why : CondWhy)
  | lockXchg (why : CondWhy)
  | lockWait (why : CondWhy)
  | lockParked (why : CondWhy)
  | unlockXchg
  | unlockNotify
  | condLoad (timed : Bool)
  | condXchg (timed : Bool) (seq : ℕ)
  | condNotify (timed : Bool) (seq : ℕ)
  | condWait (timed : Bool) (seq : ℕ)
  | condParked (timed : Bool) (seq : ℕ)
  /-- Notified in `m3Atomic_Wait32` on the counter. -/
  | condWoken (timed : Bool) (seq : ℕ)
  /-- Before the condition wait returns. -/
  | condDone (timed : Bool) (r : ℕ)
  | signalAdd (broadcast : Bool)
  | signalNotify (broadcast : Bool)
deriving DecidableEq, Repr

/-- A thread. -/
structure CondThread where
  pc : CondPc
  /-- Its last exchange found the mutex free, and it has not given it back since. -/
  mine : Bool
  /-- The condition waits it has begun. -/
  waits : ℕ
  /-- The signals made when its wait read the counter. -/
  seen : ℕ
  /-- How often its wait has given the mutex back. -/
  released : ℕ
  /-- How often its wait has taken the mutex. -/
  acquired : ℕ
deriving DecidableEq, Repr

/-- Where the thread goes on when it has the mutex. -/
def CondWhy.resume : CondWhy → CondPc
  | .lock => .hold
  | .wait timed r => .condDone timed r

/-- `ETIMEDOUT` as `cond_timedwait` has it. -/
def etimedout : ℕ := 110

/-- What a condition wait returns. -/
def condResult (timed : Bool) (r : ℕ) : ℕ := if timed ∧ r = 2 then etimedout else 0

namespace CondThread

variable (t : CondThread)

/-- The thread goes on at `pc`. -/
def goto (pc : CondPc) : CondThread := { t with pc }

/-- The thread has found the mutex free. -/
def take (pc : CondPc) : CondThread := { t with pc, mine := true, acquired := t.acquired + 1 }

/-- The thread has given the mutex back. -/
def give (pc : CondPc) : CondThread := { t with pc, mine := false, released := t.released + 1 }

/-- The thread begins a condition wait. -/
def begin_ (timed : Bool) : CondThread :=
  { t with pc := .condLoad timed, waits := t.waits + 1, released := 0, acquired := 0 }

/-- The wait has read the counter. -/
def sample (timed : Bool) (seq signals : ℕ) : CondThread :=
  { t with pc := .condXchg timed seq, seen := signals }

/-- What a notification does to a thread. -/
def woken : CondThread :=
  match t.pc with
  | .lockParked why => t.goto (.lockXchg why)
  | .condParked timed seq => t.goto (.condWoken timed seq)
  | _ => t

end CondThread

/-- The atomic steps of a thread. -/
inductive CondStep : CondCells → CondThread → CondCells → CondThread → Bool → Prop where
  | tryLock (s t) : CondStep s (.goto t .idle) s (t.goto .tryCas) false
  | tryCas_ok (s t) (free : s.cell = 0) :
      CondStep s (.goto t .tryCas) { s with cell := 1 } (t.take .hold) false
  | tryCas_busy (s t) (taken : s.cell ≠ 0) : CondStep s (.goto t .tryCas) s (t.goto .idle) false
  | lock (s t) : CondStep s (.goto t .idle) s (t.goto (.lockCas .lock)) false
  | lockCas_ok (s t why) (free : s.cell = 0) :
      CondStep s (.goto t (.lockCas why)) { s with cell := 1 } (t.take why.resume) false
  | lockCas_fail (s t why) (taken : s.cell ≠ 0) :
      CondStep s (.goto t (.lockCas why)) s
        (t.goto (if s.cell ≠ 2 then .lockXchg why else .lockWait why)) false
  | lockXchg_ok (s t why) (free : s.cell = 0) :
      CondStep s (.goto t (.lockXchg why)) { s with cell := 2 } (t.take why.resume) false
  | lockXchg_fail (s t why) (taken : s.cell ≠ 0) :
      CondStep s (.goto t (.lockXchg why)) { s with cell := 2 } (t.goto (.lockWait why)) false
  | lockWait (s t why) :
      CondStep s (.goto t (.lockWait why)) s
        (t.goto (if s.cell = 2 then .lockParked why else .lockXchg why)) false
  | lockChanged (s t why) (changed : s.cell ≠ 2) :
      CondStep s (.goto t (.lockParked why)) s (t.goto (.lockXchg why)) false
  | unlock (s t) : CondStep s (.goto t .hold) s (t.goto .unlockXchg) false
  | unlockXchg (s t) :
      CondStep s (.goto t .unlockXchg) { s with cell := 0 }
        (t.give (if s.cell = 2 then .unlockNotify else .idle)) false
  | unlockNotify (s t) : CondStep s (.goto t .unlockNotify) s (t.goto .idle) true
  | cond (s t timed) : CondStep s (.goto t .hold) s (t.begin_ timed) false
  | condLoad (s t timed) :
      CondStep s (.goto t (.condLoad timed)) s (t.sample timed s.seq s.signals) false
  | condXchg (s t timed seq) :
      CondStep s (.goto t (.condXchg timed seq)) { s with cell := 0 }
        (t.give (if s.cell = 2 then .condNotify timed seq else .condWait timed seq)) false
  | condNotify (s t timed seq) :
      CondStep s (.goto t (.condNotify timed seq)) s (t.goto (.condWait timed seq)) true
  | condWait (s t timed seq) :
      CondStep s (.goto t (.condWait timed seq)) s
        (t.goto (if s.seq = seq then .condParked timed seq else .lockCas (.wait timed 1))) false
  | condChanged (s t timed seq) (changed : s.seq ≠ seq) :
      CondStep s (.goto t (.condParked timed seq)) s (t.goto (.lockCas (.wait timed 0))) false
  | condTimeout (s t seq) :
      CondStep s (.goto t (.condParked true seq)) s (t.goto (.lockCas (.wait true 2))) false
  | condLeave (s t timed seq) :
      CondStep s (.goto t (.condWoken timed seq)) s (t.goto (.lockCas (.wait timed 0))) false
  | condLate (s t seq) :
      CondStep s (.goto t (.condWoken true seq)) s (t.goto (.lockCas (.wait true 2))) false
  | condReturn (s t timed r) : CondStep s (.goto t (.condDone timed r)) s (t.goto .hold) false
  | signal (s t broadcast) : CondStep s (.goto t .hold) s (t.goto (.signalAdd broadcast)) false
  | signalAdd (s t broadcast) :
      CondStep s (.goto t (.signalAdd broadcast))
        { s with seq := u32 (s.seq + 1), signals := s.signals + 1 } (t.goto (.signalNotify broadcast)) false
  | signalNotify (s t broadcast) :
      CondStep s (.goto t (.signalNotify broadcast)) { s with notified := s.notified + 1 } (t.goto .hold) true
  /-- A notification for another address. -/
  | elsewhere (s t) : CondStep s (.goto t .idle) s (t.goto .idle) true

/-- The program of the threads that share a mutex and a condition variable. -/
def condProgram : Program CondCells CondThread := ⟨CondStep, CondThread.woken⟩

/-- A thread that has done nothing yet. -/
def CondThread.fresh : CondThread := ⟨.idle, false, 0, 0, 0, 0⟩

/-- Any number of threads from a fresh mutex and a fresh condition variable. -/
def condSystem (ι : Type) [DecidableEq ι] : System (State ι CondCells CondThread) ι :=
  condProgram.system fun s => s.shared = ⟨0, 0, 0, 0⟩ ∧ ∀ i, s.own i = .fresh

end Yos
