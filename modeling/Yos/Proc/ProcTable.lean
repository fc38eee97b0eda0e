import Mathlib.Data.Int.Notation
import Mathlib.Logic.Function.Basic
import Yos.Lib.System

/-!
# The process table (`impl/proc/proc.c`, `impl/proc/sig.c`)

A process is a host thread and a slot of `procs`.  The thread keeps a pointer to its slot, and writes
its end into it: `yos_exit` under the lock of the slot, a trap and a deadly signal under no lock, the
end of `_start` under `proc_lock`.  `yos_waitpid` and `yos_wait4` free the slot and `yos_proc_alloc`
gives it to another process, both under `proc_lock`.

Every access to a slot is one step of the thread that makes it, so that the accesses of different
threads interleave in any order `proc_lock` allows.  The lock of a slot is left out: without it there
are only more interleavings.  Filling a slot in `yos_proc_alloc` and the body of the loop of
`yos_proc_post_exit_cleanup` are one step each.  Threads are known by the pid they were created with;
pids are never used twice, as fewer than `2 ^ 31` processes are created.  A process with several host
threads, `vfork` and `clone` are left out, and so are the fields of a slot no step depends on.
-/

namespace Yos

/-- `YOS_MAX_PROCS`. -/
def maxProcs : ℕ := 256

theorem maxProcs_pos : 0 < maxProcs := by decide

/-- `yos_proc_state_t`. -/
inductive ProcState where
  | free
  | ready
  | running
  | zombie
deriving DecidableEq, Repr

/-- `struct yos_proc`. -/
structure Proc where
  pid : ℕ
  ppid : ℕ
  state : ProcState
  exitCode : ℤ
  termSig : ℤ
  exited : Bool
  wasOrphaned : Bool
deriving DecidableEq, Repr

namespace Proc

/-- A slot that was never used. -/
def unused : Proc := ⟨0, 0, .free, 0, 0, false, false⟩

/-- What `yos_proc_alloc` stores. -/
def fresh (pid ppid : ℕ) : Proc := ⟨pid, ppid, .ready, 0, 0, false, false⟩

/-- The state is one a process is alive in. -/
def live (p : Proc) : Bool := p.state == .ready || p.state == .running

end Proc

/-- The status word of `yos_waitpid` and `yos_wait4`. -/
def waitStatus (exitCode termSig : ℤ) : ℤ :=
  if termSig ≠ 0 then termSig % 128 else exitCode % 256 * 256

/-! ## Threads -/

/-- The arguments of `yos_waitpid` and `yos_wait4`, with the pid of the caller. -/
structure WaitCall where
  me : ℕ
  pid : ℤ
  nohang : Bool
deriving DecidableEq, Repr

/-- The test of `has_children`. -/
def WaitCall.child (w : WaitCall) (p : Proc) : Bool :=
  p.state ≠ .free && (p.ppid == w.me && (w.pid == -1 || (p.pid : ℤ) == w.pid))

/-- The test of `find_zombie_child`. -/
def WaitCall.zombie (w : WaitCall) (p : Proc) : Bool :=
  p.state == .zombie && (p.ppid == w.me && (w.pid == -1 || (p.pid : ℤ) == w.pid))

/-- Where a call of `yos_waitpid` is; `again` says that it has not found a zombie yet. -/
inductive WaitStage where
  | lock (again : Bool)
  | has (i : ℕ)
  | find (i : ℕ)
  | pid (k : Fin maxProcs)
  | code (k : Fin maxProcs) (pid : ℕ)
  | term (k : Fin maxProcs) (pid : ℕ) (code : ℤ)
  | free (k : Fin maxProcs) (pid : ℕ) (code term : ℤ)
  | unlock (again : Bool)
deriving DecidableEq, Repr

/-- Where a call of `yos_proc_alloc` is. -/
inductive AllocStage where
  | lock
  | scan (i : ℕ)
  | init (k : Fin maxProcs)
  | unlock (child : Option ℕ)
deriving DecidableEq, Repr

/-- Where a call of `yos_fork_pump` is, from its `yos_proc_find` on. -/
inductive PumpStage where
  | lock
  | find (i : ℕ)
  | unlock (found : Option (Fin maxProcs))
  | start (k : Fin maxProcs)
  | create (k : Fin maxProcs)
deriving DecidableEq, Repr

/-- The ways a process ends: `yos_exit`, a trap or an `execve` that cannot load, the default action
of a signal, `SIGKILL`, and the end of `_start`. -/
inductive ExitPath where
  | exit
  | trap
  | signal
  | kill
  | finish
deriving DecidableEq, Repr

/-- The assignment that comes next when a process marks its slot. -/
inductive MarkStage where
  | state
  | code
  | term
  | flag
deriving DecidableEq, Repr

/-- Where a call of `yos_proc_post_exit_cleanup` is, with `exiting_pid`, `parent_pid` and
`parent_ignores_chld`. -/
inductive CleanupStage where
  | pid
  | ppid (pid : ℕ)
  | orphan (pid ppid : ℕ)
  | lock (pid ppid : ℕ) (ignores : Bool)
  | loop (i pid ppid : ℕ) (ignores : Bool)
  | test (ignores : Bool)
  | free
  | unlock
deriving DecidableEq, Repr

/-- Where a thread is. -/
inductive ProcPc where
  /-- The slot is taken, and the parent has not created the thread yet. -/
  | unborn (parent : ℕ)
  /-- In guest code. -/
  | run
  | wait (w : WaitCall) (at_ : WaitStage)
  | alloc (ppid : ℕ) (at_ : AllocStage)
  | pump (child : ℕ) (at_ : PumpStage)
  /-- In `yos_exit`, before it looks at the state. -/
  | exitTest
  | mark (path : ExitPath) (at_ : MarkStage)
  /-- At the end of `fork_thread_func`; `trapped` says that the loop was left by a trap. -/
  | finalLock (trapped : Bool)
  | finalTest (trapped : Bool)
  | finalUnlock
  | cleanup (at_ : CleanupStage)
  | done
deriving DecidableEq, Repr

/-- The exit code a path stores. -/
def ExitPath.code (path : ExitPath) (fate : Option (ℤ × ℤ)) : ℤ :=
  match path with
  | .exit | .trap => (fate.map Prod.fst).getD 0
  | .signal | .kill | .finish => 0

/-- The signal a path stores. -/
def ExitPath.sig (path : ExitPath) (fate : Option (ℤ × ℤ)) : ℤ :=
  match path with
  | .signal => (fate.map Prod.snd).getD 0
  | .kill => 9
  | .exit | .trap | .finish => 0

/-- What follows the assignment of the exit code; only a signal stores `term_sig`. -/
def ExitPath.afterCode : ExitPath → ProcPc
  | .signal => .mark .signal .term
  | .kill => .mark .kill .term
  | path => .mark path .flag

/-- What follows the marking. -/
def ExitPath.afterFlag : ExitPath → ProcPc
  | .exit | .signal => .cleanup .pid
  | .trap => .finalLock true
  | .kill => .done
  | .finish => .finalUnlock

/-- A thread: the slot it points to, and its exit code and deadly signal from the moment they are
fixed. -/
structure ProcThread where
  slot : Fin maxProcs
  pc : ProcPc
  fate : Option (ℤ × ℤ)
deriving DecidableEq, Repr

/-- The table, the threads of all processes so far, and the pids and status words the wait calls
return. -/
structure ProcTable where
  procs : Fin maxProcs → Proc
  nextPid : ℕ
  lock : Option ℕ
  threads : ℕ → Option ProcThread
  returned : List (ℕ × ℤ)

namespace ProcTable

/-- The thread is now at `th`. -/
def put (s : ProcTable) (t : ℕ) (th : ProcThread) : ProcTable :=
  { s with threads := Function.update s.threads t (some th) }

/-- The thread goes on at `pc`. -/
def goto (s : ProcTable) (t : ℕ) (th : ProcThread) (pc : ProcPc) : ProcTable :=
  s.put t { th with pc }

/-- Assign to a slot. -/
def write (s : ProcTable) (k : Fin maxProcs) (f : Proc → Proc) : ProcTable :=
  { s with procs := Function.update s.procs k (f (s.procs k)) }

/-- Free a slot; the wait call returns `r`. -/
def reap (s : ProcTable) (k : Fin maxProcs) (r : ℕ × ℤ) : ProcTable :=
  { s with
    procs := Function.update s.procs k { s.procs k with state := .free }
    returned := r :: s.returned }

/-- Give a slot to a new child of the thread `t`. -/
def allocate (s : ProcTable) (t : ℕ) (k : Fin maxProcs) (ppid : ℕ) : ProcTable :=
  { s with
    procs := Function.update s.procs k (.fresh s.nextPid ppid)
    nextPid := s.nextPid + 1
    threads := Function.update s.threads s.nextPid (some ⟨k, .unborn t, none⟩) }

/-- Take `proc_lock` and go on. -/
def acquire (s : ProcTable) (t : ℕ) (th : ProcThread) (pc : ProcPc) : Option ProcTable :=
  if s.lock = none then some ({ s with lock := some t }.goto t th pc) else none

/-- Give `proc_lock` back and go on. -/
def release (s : ProcTable) (t : ℕ) (th : ProcThread) (pc : ProcPc) : ProcTable :=
  { s with lock := none }.goto t th pc

end ProcTable

/-- What a thread does next, where it has a choice: `next` goes on, with the answer of the host (the
call of `yos_fork_pump` succeeds, the parent ignores `SIGCHLD`), and the others end guest code. -/
inductive ProcEvent where
  | next (answer : Bool)
  | wait (pid : ℤ) (nohang : Bool)
  | fork
  | exit (code : ℤ)
  | trap (code : ℤ)
  | finish
  | signal (sig : ℤ)
  | kill
  /-- `fork_thread_func` returns before it runs the child, or the root process ends. -/
  | vanish
deriving DecidableEq, Repr

/-! ## Steps -/

namespace ProcTable

/-- Guest code makes a call or ends. -/
def runStep (s : ProcTable) (t : ℕ) (th : ProcThread) : ProcEvent → Option ProcTable
  | .next _ => none
  | .wait pid nohang =>
    some (s.goto t th (.wait ⟨(s.procs th.slot).pid, pid, nohang⟩ (.lock false)))
  | .fork => some (s.goto t th (.alloc (s.procs th.slot).pid .lock))
  | .exit code => some (s.put t { th with pc := .exitTest, fate := some (code, 0) })
  | .trap code => some (s.put t { th with pc := .mark .trap .state, fate := some (code, 0) })
  | .finish => some (s.put t { th with pc := .finalLock false, fate := some (0, 0) })
  | .signal sig => some (s.put t { th with pc := .mark .signal .state, fate := some (0, sig) })
  | .kill => some (s.put t { th with pc := .mark .kill .state, fate := some (0, 9) })
  | .vanish => some (s.goto t th .done)

/-- `yos_waitpid` and `yos_wait4`. -/
def waitStep (s : ProcTable) (t : ℕ) (th : ProcThread) (w : WaitCall) :
    WaitStage → Option ProcTable
  | .lock again => s.acquire t th (.wait w (if again then .find 0 else .has 0))
  | .has i =>
    if h : i < maxProcs then
      if w.child (s.procs ⟨i, h⟩) then some (s.goto t th (.wait w (.find 0)))
      else some (s.goto t th (.wait w (.has (i + 1))))
    else some (s.goto t th (.wait w (.unlock false)))
  | .find i =>
    if h : i < maxProcs then
      if w.zombie (s.procs ⟨i, h⟩) then some (s.goto t th (.wait w (.pid ⟨i, h⟩)))
      else some (s.goto t th (.wait w (.find (i + 1))))
    else some (s.goto t th (.wait w (.unlock (!w.nohang))))
  | .pid k => some (s.goto t th (.wait w (.code k (s.procs k).pid)))
  | .code k pid => some (s.goto t th (.wait w (.term k pid (s.procs k).exitCode)))
  | .term k pid code => some (s.goto t th (.wait w (.free k pid code (s.procs k).termSig)))
  | .free k pid code term =>
    some ((s.reap k (pid, waitStatus code term)).goto t th (.wait w (.unlock false)))
  | .unlock again => some (s.release t th (if again then .wait w (.lock true) else .run))

/-- `yos_proc_alloc`, called by `yos_fork`. -/
def allocStep (s : ProcTable) (t : ℕ) (th : ProcThread) (ppid : ℕ) :
    AllocStage → Option ProcTable
  | .lock => s.acquire t th (.alloc ppid (.scan 0))
  | .scan i =>
    if h : i < maxProcs then
      if (s.procs ⟨i, h⟩).state = .free then some (s.goto t th (.alloc ppid (.init ⟨i, h⟩)))
      else some (s.goto t th (.alloc ppid (.scan (i + 1))))
    else some (s.goto t th (.alloc ppid (.unlock none)))
  | .init k =>
    some ((s.allocate t k ppid).goto t th (.alloc ppid (.unlock (some s.nextPid))))
  | .unlock none => some (s.release t th .run)
  | .unlock (some child) => some (s.release t th (.pump child .lock))

/-- The end of `yos_fork_pump` when the child cannot be started. -/
def abandon (s : ProcTable) (child : ℕ) (k : Fin maxProcs) : ProcTable :=
  let s := s.write k fun p => { p with state := .free }
  match s.threads child with
  | some th => s.goto child th .done
  | none => s

/-- `pthread_create` has started the child. -/
def born (s : ProcTable) (child : ℕ) : ProcTable :=
  match s.threads child with
  | some th => s.goto child th .run
  | none => s

/-- `yos_fork_pump`. -/
def pumpStep (s : ProcTable) (t : ℕ) (th : ProcThread) (child : ℕ) (answer : Bool) :
    PumpStage → Option ProcTable
  | .lock => s.acquire t th (.pump child (.find 0))
  | .find i =>
    if h : i < maxProcs then
      if (s.procs ⟨i, h⟩).pid = child ∧ (s.procs ⟨i, h⟩).state ≠ .free then
        some (s.goto t th (.pump child (.unlock (some ⟨i, h⟩))))
      else some (s.goto t th (.pump child (.find (i + 1))))
    else some (s.goto t th (.pump child (.unlock none)))
  | .unlock none => some (s.release t th .run)
  | .unlock (some k) => some (s.release t th (.pump child (.start k)))
  | .start k =>
    if answer then
      some ((s.write k fun p => { p with state := .running }).goto t th (.pump child (.create k)))
    else some ((s.goto t th .run).abandon child k)
  | .create k =>
    if answer then some ((s.goto t th .run).born child)
    else some ((s.goto t th .run).abandon child k)

/-- The assignments that mark the slot. -/
def markStep (s : ProcTable) (t : ℕ) (th : ProcThread) (path : ExitPath) : MarkStage → ProcTable
  | .state =>
    (s.write th.slot fun p => { p with state := .zombie }).goto t th (.mark path .code)
  | .code =>
    (s.write th.slot fun p => { p with exitCode := path.code th.fate }).goto t th path.afterCode
  | .term =>
    (s.write th.slot fun p => { p with termSig := path.sig th.fate }).goto t th (.mark path .flag)
  | .flag => (s.write th.slot fun p => { p with exited := true }).goto t th path.afterFlag

/-- What the loop of `yos_proc_post_exit_cleanup` does to a slot. -/
def orphan (pid : ℕ) (p : Proc) : Proc :=
  if p.state ≠ .free ∧ p.ppid = pid ∧ p.pid ≠ pid then { p with ppid := 1, wasOrphaned := true }
  else p

/-- `yos_proc_post_exit_cleanup`, as far as the table goes; `answer` tells whether the parent in the
slot the loop looks at ignores `SIGCHLD`. -/
def cleanupStep (s : ProcTable) (t : ℕ) (th : ProcThread) (answer : Bool) :
    CleanupStage → Option ProcTable
  | .pid => some (s.goto t th (.cleanup (.ppid (s.procs th.slot).pid)))
  | .ppid pid => some (s.goto t th (.cleanup (.orphan pid (s.procs th.slot).ppid)))
  | .orphan pid ppid =>
    some (s.goto t th (.cleanup (.lock pid ppid (s.procs th.slot).wasOrphaned)))
  | .lock pid ppid ignores => s.acquire t th (.cleanup (.loop 0 pid ppid ignores))
  | .loop i pid ppid ignores =>
    if h : i < maxProcs then
      let p := s.procs ⟨i, h⟩
      let ignores := ignores || (p.state ≠ .free && p.pid == ppid && answer)
      some ((s.write ⟨i, h⟩ (orphan pid)).goto t th (.cleanup (.loop (i + 1) pid ppid ignores)))
    else some (s.goto t th (.cleanup (.test ignores)))
  | .test ignores =>
    if ignores ∧ (s.procs th.slot).state = .zombie then some (s.goto t th (.cleanup .free))
    else some (s.goto t th (.cleanup .unlock))
  | .free =>
    some ((s.write th.slot fun p => { p with state := .free }).goto t th (.cleanup .unlock))
  | .unlock => some (s.release t th .done)

/-- The next access of a thread that is not in guest code. -/
def access (s : ProcTable) (t : ℕ) (th : ProcThread) (answer : Bool) : ProcPc → Option ProcTable
  | .unborn _ | .run | .done => none
  | .wait w stage => s.waitStep t th w stage
  | .alloc ppid stage => s.allocStep t th ppid stage
  | .pump child stage => s.pumpStep t th child answer stage
  | .exitTest =>
    if (s.procs th.slot).live then some (s.goto t th (.mark .exit .state))
    else some (s.goto t th (.cleanup .pid))
  | .mark path stage => some (s.markStep t th path stage)
  | .finalLock trapped => s.acquire t th (.finalTest trapped)
  | .finalTest _ =>
    if (s.procs th.slot).live then some (s.goto t th (.mark .finish .state))
    else some (s.goto t th .finalUnlock)
  | .finalUnlock => some (s.release t th .done)
  | .cleanup stage => s.cleanupStep t th answer stage

/-- One step of the thread `t`. -/
def step (s : ProcTable) (t : ℕ) (e : ProcEvent) : Option ProcTable :=
  match s.threads t with
  | none => none
  | some th =>
    match th.pc, e with
    | .run, e => s.runStep t th e
    | pc, .next answer => s.access t th answer pc
    | _, _ => none

/-- The table with the initial process in slot 0. -/
def initial : ProcTable where
  procs := fun k => if k.val = 0 then { Proc.fresh 1 0 with state := .running } else .unused
  nextPid := 2
  lock := none
  threads := fun t => if t = 1 then some ⟨⟨0, by decide⟩, .run, none⟩ else none
  returned := []

end ProcTable

/-- All interleavings of the threads. -/
def procSystem : System ProcTable (ℕ × ProcEvent) where
  init s := s = .initial
  step s a s' := s.step a.1 a.2 = some s'

end Yos
