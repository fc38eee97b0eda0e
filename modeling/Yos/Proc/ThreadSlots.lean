import Mathlib.Logic.Function.Basic
import Yos.Lib.System

/-!
# Thread slots (`impl/proc/pthread.c`)

A guest thread is an OS thread that runs `worker_main`, with a `host_thread` record that stands in one
of the slots `threads[1..127]`.  `host_pthread_create` and `yos_clone_thread` allocate the record and
take the slot; `host_pthread_join` waits for the thread and gives both back.  Every access to a record
and every section under `threads_mu` is one step of the thread that makes it, so the calls of different
threads interleave in any order.

Records and stacks are numbered in the order of their allocation and never used twice; a freed record
keeps its contents, and an access to it ends the run with `fault`.  The thread of the record `n` is the
thread `n`, and thread 0 is the main one.  `pthread_join` returns when the thread is done; it also
returns, with an error that `host_pthread_join` does not look at, when it would wait for the caller or
for a thread that joins the caller.  Fields no step depends on are left out, and so is `h == NULL`.
-/

namespace Yos

namespace ThreadSlots

/-- `WASM3MT_MAX_THREADS`. -/
def maxThreads : ℕ := 128

/-- `struct host_thread`, and whether it was freed. -/
structure HostThread where
  tid : ℕ
  osStarted : Bool
  joined : Bool
  isMaster : Bool
  /-- `owned_stack_base`, if not 0. -/
  ownedStack : Option ℕ
  freed : Bool
deriving DecidableEq, Repr

/-- What `calloc` returns. -/
def HostThread.fresh : HostThread := ⟨0, false, false, false, none, false⟩

/-- Where a call of `host_pthread_create` is, or one of `yos_clone_thread` on its own; `n` is the
record of the new thread. -/
inductive CreateStage where
  | malloc
  | calloc
  | alloc (n : ℕ)
  | setTid (n tid : ℕ)
  | spawn (n : ℕ)
  | setStarted (n : ℕ)
  | readTid (n : ℕ)
  /-- `host_lookup_thread`; the call has the tid only. -/
  | lookup (n tid : ℕ)
  | setStack (n : ℕ)
  | failSlot (n : ℕ)
  | failFree (n : ℕ)
  | failStack
deriving DecidableEq, Repr

/-- Where a call of `host_pthread_join` is, with the record it has found. -/
inductive JoinStage where
  | lookup (tid : ℕ)
  | joined (n tid : ℕ)
  | started (n tid : ℕ)
  | master (n tid : ℕ)
  | osTid (n tid : ℕ)
  /-- In `pthread_join`. -/
  | blocked (n tid : ℕ)
  | setJoined (n tid : ℕ)
  /-- Before it reads `trap` and `retval`. -/
  | result (n tid : ℕ)
  | testStack (n tid : ℕ)
  | freeStack (n tid : ℕ)
  | freeSlot (n tid : ℕ)
  | free (n : ℕ)
deriving DecidableEq, Repr

/-- Where a thread is; `clone` says that the call is not one of `host_pthread_create`, and `stack` is
`stack_base`, if not 0. -/
inductive ThreadPc where
  /-- In guest code. -/
  | run
  | create (clone : Bool) (stack : Option ℕ) (at_ : CreateStage)
  | join (at_ : JoinStage)
  | done
deriving DecidableEq, Repr

/-- A thread, and whether it was made by `yos_clone_thread` without `host_pthread_create`. -/
structure GuestThread where
  pc : ThreadPc
  clone : Bool
deriving DecidableEq, Repr

/-- The slots, the records, the threads, how often each stack was freed, the next record and stack, and
whether a freed record was accessed. -/
structure Slots where
  slots : ℕ → Option ℕ
  recs : ℕ → Option HostThread
  threads : ℕ → Option GuestThread
  frees : ℕ → ℕ
  nextRec : ℕ
  nextStack : ℕ
  fault : Bool

namespace Slots

variable (s : Slots)

/-- The thread `t` goes on at `pc`. -/
def goto (t : ℕ) (pc : ThreadPc) : Slots :=
  { s with threads := Function.update s.threads t ((s.threads t).map fun th => { th with pc }) }

/-- Assign to a record. -/
def write (n : ℕ) (r : HostThread) : Slots := { s with recs := Function.update s.recs n (some r) }

/-- Assign to a slot. -/
def setSlot (i : ℕ) (h : Option ℕ) : Slots := { s with slots := Function.update s.slots i h }

/-- `yos_free` of a stack, if there is one. -/
def freeStack : Option ℕ → Slots
  | none => s
  | some k => { s with frees := Function.update s.frees k (s.frees k + 1) }

/-- An access to a record. -/
def access (n : ℕ) (next : HostThread → Option Slots) : Option Slots :=
  match s.recs n with
  | none => none
  | some r => if r.freed then some { s with fault := true } else next r

/-- The scan of `host_alloc_tid`. -/
def freeSlot : Option ℕ := (List.range' 1 (maxThreads - 1)).find? fun i => (s.slots i).isNone

/-- `host_lookup_thread`. -/
def lookupThread (tid : ℕ) : Option ℕ := if maxThreads ≤ tid then none else s.slots tid

/-- `host_free_thread_slot`. -/
def freeThreadSlot (tid : ℕ) : Slots :=
  if tid = 0 then s else if tid < maxThreads then s.setSlot tid none else s

/-- The OS thread has ended. -/
def isDone (n : ℕ) : Bool := (s.threads n).map GuestThread.pc == some .done

/-- The thread `n` waits in `pthread_join` for the thread `t`. -/
def waitsFor (n t : ℕ) : Bool :=
  match (s.threads n).map GuestThread.pc with
  | some (.join (.blocked m _)) => m == t
  | _ => false

/-- `host_pthread_create` and `yos_clone_thread`; `ok` is the answer of an allocation or of
`pthread_create`. -/
def createStep (t : ℕ) (clone : Bool) (stack : Option ℕ) (ok : Bool) : CreateStage → Option Slots
  | .malloc =>
    if ok then
      some ({ s with nextStack := s.nextStack + 1 }.goto t (.create clone (some s.nextStack) .calloc))
    else some (s.goto t (.create clone none .calloc))
  | .calloc =>
    if ok then
      some ({ s.write s.nextRec .fresh with nextRec := s.nextRec + 1 }.goto t
        (.create clone stack (.alloc s.nextRec)))
    else some (s.goto t (.create clone stack .failStack))
  | .alloc n =>
    match s.freeSlot with
    | some i => s.access n fun r =>
      some (((s.setSlot i (some n)).write n { r with tid := i }).goto t
        (.create clone stack (.setTid n i)))
    | none => some (s.goto t (.create clone stack (.failFree n)))
  | .setTid n tid => s.access n fun r =>
    some ((s.write n { r with tid }).goto t (.create clone stack (.spawn n)))
  | .spawn n => s.access n fun _ =>
    if ok then
      some ({ s with threads := Function.update s.threads n (some ⟨.run, clone⟩) }.goto t
        (.create clone stack (.setStarted n)))
    else some (s.goto t (.create clone stack (.failSlot n)))
  | .setStarted n => s.access n fun r =>
    some ((s.write n { r with osStarted := true }).goto t (.create clone stack (.readTid n)))
  | .readTid n => s.access n fun r =>
    some (s.goto t (if stack.isSome then .create clone stack (.lookup n r.tid) else .run))
  | .lookup _ tid =>
    match s.lookupThread tid with
    | some m => some (s.goto t (.create clone stack (.setStack m)))
    | none => some (s.goto t .run)
  | .setStack n => s.access n fun r =>
    some ((s.write n { r with ownedStack := stack }).goto t .run)
  | .failSlot n => s.access n fun r =>
    some ((s.freeThreadSlot r.tid).goto t (.create clone stack (.failFree n)))
  | .failFree n => s.access n fun r =>
    some ((s.write n { r with freed := true }).goto t (.create clone stack .failStack))
  | .failStack => some ((s.freeStack stack).goto t .run)

/-- `host_pthread_join`. -/
def joinStep (t : ℕ) : JoinStage → Option Slots
  | .lookup tid =>
    match s.lookupThread tid with
    | some n => some (s.goto t (.join (.joined n tid)))
    | none => some (s.goto t .run)
  | .joined n tid => s.access n fun r =>
    some (s.goto t (if r.joined then .run else .join (.started n tid)))
  | .started n tid => s.access n fun r =>
    some (s.goto t (if r.osStarted then .join (.master n tid) else .run))
  | .master n tid => s.access n fun r =>
    some (s.goto t (if r.isMaster then .run else .join (.osTid n tid)))
  | .osTid n tid => s.access n fun _ => some (s.goto t (.join (.blocked n tid)))
  | .blocked n tid =>
    if s.isDone n ∨ n = t ∨ s.waitsFor n t then some (s.goto t (.join (.setJoined n tid))) else none
  | .setJoined n tid => s.access n fun r =>
    some ((s.write n { r with joined := true }).goto t (.join (.result n tid)))
  | .result n tid => s.access n fun _ => some (s.goto t (.join (.testStack n tid)))
  | .testStack n tid => s.access n fun r =>
    some (s.goto t (.join (if r.ownedStack.isSome then .freeStack n tid else .freeSlot n tid)))
  | .freeStack n tid => s.access n fun r =>
    some ((s.freeStack r.ownedStack).goto t (.join (.freeSlot n tid)))
  | .freeSlot n tid => some ((s.freeThreadSlot tid).goto t (.join (.free n)))
  | .free n => s.access n fun r => some ((s.write n { r with freed := true }).goto t .run)

/-- What a thread does next, where it has a choice. -/
inductive Event where
  /-- Go on in a call, with the answer of the host. -/
  | next (ok : Bool)
  | create
  | clone
  | join (tid : ℕ)
  /-- `worker_main`, or a call such as `pthread_self`, accesses the thread's own record. -/
  | touch
  /-- `worker_main` stores the result and ends. -/
  | finish
deriving DecidableEq, Repr

/-- Guest code makes a call or ends. -/
def runStep (t : ℕ) : Event → Option Slots
  | .next _ => none
  | .create => some (s.goto t (.create false none .malloc))
  | .clone => some (s.goto t (.create true none .calloc))
  | .join tid => some (s.goto t (.join (.lookup tid)))
  | .touch => s.access t fun _ => some s
  | .finish => if t = 0 then none else s.access t fun _ => some (s.goto t .done)

/-- One step of the thread `t`. -/
def step (t : ℕ) (e : Event) : Option Slots :=
  if s.fault then none
  else
    match s.threads t with
    | none => none
    | some th =>
      match th.pc, e with
      | .run, e => s.runStep t e
      | .create clone stack stage, .next ok => s.createStep t clone stack ok stage
      | .join stage, .next _ => s.joinStep t stage
      | _, _ => none

/-- After `yos_pthread_host_create`. -/
def initial : Slots where
  slots i := if i = 0 then some 0 else none
  recs n := if n = 0 then some { HostThread.fresh with isMaster := true } else none
  threads t := if t = 0 then some ⟨.run, false⟩ else none
  frees _ := 0
  nextRec := 1
  nextStack := 0
  fault := false

end Slots

/-- All interleavings of the threads. -/
def slotSystem : System Slots (ℕ × Slots.Event) where
  init s := s = .initial
  step s a s' := s.step a.1 a.2 = some s'

end ThreadSlots

end Yos
