import Yos.Proc.ProcInv

/-!
# What a step of a process thread can do

`ProcArrow` lists the steps of `procSystem`: where a thread is, what the step does to the table, and
where the thread goes on.  `step_arrow` says that there are no others, and the lemmas after it say
what an effect leaves alone.
-/

namespace Yos

/-- What a step does besides moving its thread. -/
inductive ProcEffect where
  | quiet
  | acquire
  | release
  | write (k : Fin maxProcs) (f : Proc → Proc)
  | reap (k : Fin maxProcs) (r : ℕ × ℤ)
  | allocate (k : Fin maxProcs) (ppid : ℕ)
  | born (child : ℕ)
  | abandon (child : ℕ) (k : Fin maxProcs)

/-- The table after a step of `t` to `th` with an effect. -/
def ProcTable.moved (s : ProcTable) (t : ℕ) (th : ProcThread) : ProcEffect → ProcTable
  | .quiet => s.put t th
  | .acquire => { s with lock := some t }.put t th
  | .release => { s with lock := none }.put t th
  | .write k f => (s.write k f).put t th
  | .reap k r => (s.reap k r).put t th
  | .allocate k ppid => (s.allocate t k ppid).put t th
  | .born child => (s.put t th).born child
  | .abandon child k => (s.put t th).abandon child k

/-- The steps of a thread: the event, where it is, the effect, and where it goes on. -/
inductive ProcArrow (s : ProcTable) (t : ℕ) (th : ProcThread) :
    ProcEvent → ProcPc → ProcEffect → ProcPc → Prop where
  | wait (pid : ℤ) (nohang : Bool) :
      ProcArrow s t th (.wait pid nohang) .run .quiet
        (.wait ⟨(s.procs th.slot).pid, pid, nohang⟩ (.lock false))
  | fork : ProcArrow s t th .fork .run .quiet (.alloc (s.procs th.slot).pid .lock)
  | exit (code : ℤ) : ProcArrow s t th (.exit code) .run .quiet .exitTest
  | trap (code : ℤ) : ProcArrow s t th (.trap code) .run .quiet (.mark .trap .state)
  | finish : ProcArrow s t th .finish .run .quiet (.finalLock false)
  | signal (sig : ℤ) : ProcArrow s t th (.signal sig) .run .quiet (.mark .signal .state)
  | kill : ProcArrow s t th .kill .run .quiet (.mark .kill .state)
  | vanish : ProcArrow s t th .vanish .run .quiet .done
  | waitLock (w : WaitCall) (again answer : Bool) (free : s.lock = none) :
      ProcArrow s t th (.next answer) (.wait w (.lock again)) .acquire
        (.wait w (if again then .find 0 else .has 0))
  | hasFound (w : WaitCall) (k : Fin maxProcs) (answer : Bool) (child : w.child (s.procs k) = true) :
      ProcArrow s t th (.next answer) (.wait w (.has k)) .quiet (.wait w (.find 0))
  | hasNext (w : WaitCall) (i : ℕ) (answer : Bool) (inside : i < maxProcs) :
      ProcArrow s t th (.next answer) (.wait w (.has i)) .quiet (.wait w (.has (i + 1)))
  | hasNone (w : WaitCall) (i : ℕ) (answer : Bool) (outside : maxProcs ≤ i) :
      ProcArrow s t th (.next answer) (.wait w (.has i)) .quiet (.wait w (.unlock false))
  | findFound (w : WaitCall) (k : Fin maxProcs) (answer : Bool)
      (zombie : w.zombie (s.procs k) = true) :
      ProcArrow s t th (.next answer) (.wait w (.find k)) .quiet (.wait w (.pid k))
  | findNext (w : WaitCall) (i : ℕ) (answer : Bool) (inside : i < maxProcs) :
      ProcArrow s t th (.next answer) (.wait w (.find i)) .quiet (.wait w (.find (i + 1)))
  | findNone (w : WaitCall) (i : ℕ) (answer : Bool) (outside : maxProcs ≤ i) :
      ProcArrow s t th (.next answer) (.wait w (.find i)) .quiet (.wait w (.unlock (!w.nohang)))
  | waitPid (w : WaitCall) (k : Fin maxProcs) (answer : Bool) :
      ProcArrow s t th (.next answer) (.wait w (.pid k)) .quiet (.wait w (.code k (s.procs k).pid))
  | waitCode (w : WaitCall) (k : Fin maxProcs) (pid : ℕ) (answer : Bool) :
      ProcArrow s t th (.next answer) (.wait w (.code k pid)) .quiet
        (.wait w (.term k pid (s.procs k).exitCode))
  | waitTerm (w : WaitCall) (k : Fin maxProcs) (pid : ℕ) (code : ℤ) (answer : Bool) :
      ProcArrow s t th (.next answer) (.wait w (.term k pid code)) .quiet
        (.wait w (.free k pid code (s.procs k).termSig))
  | waitFree (w : WaitCall) (k : Fin maxProcs) (pid : ℕ) (code term : ℤ) (answer : Bool) :
      ProcArrow s t th (.next answer) (.wait w (.free k pid code term))
        (.reap k (pid, waitStatus code term)) (.wait w (.unlock false))
  | waitUnlock (w : WaitCall) (again answer : Bool) :
      ProcArrow s t th (.next answer) (.wait w (.unlock again)) .release
        (if again then .wait w (.lock true) else .run)
  | allocLock (ppid : ℕ) (answer : Bool) (free : s.lock = none) :
      ProcArrow s t th (.next answer) (.alloc ppid .lock) .acquire (.alloc ppid (.scan 0))
  | scanFound (ppid : ℕ) (k : Fin maxProcs) (answer : Bool) (free : (s.procs k).state = .free) :
      ProcArrow s t th (.next answer) (.alloc ppid (.scan k)) .quiet (.alloc ppid (.init k))
  | scanNext (ppid i : ℕ) (answer : Bool) (inside : i < maxProcs) :
      ProcArrow s t th (.next answer) (.alloc ppid (.scan i)) .quiet (.alloc ppid (.scan (i + 1)))
  | scanNone (ppid i : ℕ) (answer : Bool) (outside : maxProcs ≤ i) :
      ProcArrow s t th (.next answer) (.alloc ppid (.scan i)) .quiet (.alloc ppid (.unlock none))
  | init (ppid : ℕ) (k : Fin maxProcs) (answer : Bool) :
      ProcArrow s t th (.next answer) (.alloc ppid (.init k)) (.allocate k ppid)
        (.alloc ppid (.unlock (some s.nextPid)))
  | allocUnlock (ppid : ℕ) (child : Option ℕ) (answer : Bool) :
      ProcArrow s t th (.next answer) (.alloc ppid (.unlock child)) .release
        (match child with
        | none => .run
        | some child => .pump child .lock)
  | pumpLock (child : ℕ) (answer : Bool) (free : s.lock = none) :
      ProcArrow s t th (.next answer) (.pump child .lock) .acquire (.pump child (.find 0))
  | pumpFound (child : ℕ) (k : Fin maxProcs) (answer : Bool) (pid : (s.procs k).pid = child)
      (used : (s.procs k).state ≠ .free) :
      ProcArrow s t th (.next answer) (.pump child (.find k)) .quiet (.pump child (.unlock (some k)))
  | pumpNext (child i : ℕ) (answer : Bool) (inside : i < maxProcs) :
      ProcArrow s t th (.next answer) (.pump child (.find i)) .quiet (.pump child (.find (i + 1)))
  | pumpNone (child i : ℕ) (answer : Bool) (outside : maxProcs ≤ i) :
      ProcArrow s t th (.next answer) (.pump child (.find i)) .quiet (.pump child (.unlock none))
  | pumpUnlock (child : ℕ) (found : Option (Fin maxProcs)) (answer : Bool) :
      ProcArrow s t th (.next answer) (.pump child (.unlock found)) .release
        (match found with
        | none => .run
        | some k => .pump child (.start k))
  | start (child : ℕ) (k : Fin maxProcs) :
      ProcArrow s t th (.next true) (.pump child (.start k))
        (.write k fun p => { p with state := .running }) (.pump child (.create k))
  | startFails (child : ℕ) (k : Fin maxProcs) :
      ProcArrow s t th (.next false) (.pump child (.start k)) (.abandon child k) .run
  | create (child : ℕ) (k : Fin maxProcs) :
      ProcArrow s t th (.next true) (.pump child (.create k)) (.born child) .run
  | createFails (child : ℕ) (k : Fin maxProcs) :
      ProcArrow s t th (.next false) (.pump child (.create k)) (.abandon child k) .run
  | exitLive (answer : Bool) (live : (s.procs th.slot).live = true) :
      ProcArrow s t th (.next answer) .exitTest .quiet (.mark .exit .state)
  | exitLate (answer : Bool) (late : (s.procs th.slot).live = false) :
      ProcArrow s t th (.next answer) .exitTest .quiet (.cleanup .pid)
  | markState (path : ExitPath) (answer : Bool) :
      ProcArrow s t th (.next answer) (.mark path .state)
        (.write th.slot fun p => { p with state := .zombie }) (.mark path .code)
  | markCode (path : ExitPath) (answer : Bool) :
      ProcArrow s t th (.next answer) (.mark path .code)
        (.write th.slot fun p => { p with exitCode := path.code th.fate }) path.afterCode
  | markTerm (path : ExitPath) (answer : Bool) :
      ProcArrow s t th (.next answer) (.mark path .term)
        (.write th.slot fun p => { p with termSig := path.sig th.fate }) (.mark path .flag)
  | markFlag (path : ExitPath) (answer : Bool) :
      ProcArrow s t th (.next answer) (.mark path .flag)
        (.write th.slot fun p => { p with exited := true }) path.afterFlag
  | finalLock (trapped answer : Bool) (free : s.lock = none) :
      ProcArrow s t th (.next answer) (.finalLock trapped) .acquire (.finalTest trapped)
  | finalLive (trapped answer : Bool) (live : (s.procs th.slot).live = true) :
      ProcArrow s t th (.next answer) (.finalTest trapped) .quiet (.mark .finish .state)
  | finalLate (trapped answer : Bool) (late : (s.procs th.slot).live = false) :
      ProcArrow s t th (.next answer) (.finalTest trapped) .quiet .finalUnlock
  | finalUnlock (answer : Bool) : ProcArrow s t th (.next answer) .finalUnlock .release .done
  | cleanupPid (answer : Bool) :
      ProcArrow s t th (.next answer) (.cleanup .pid) .quiet
        (.cleanup (.ppid (s.procs th.slot).pid))
  | cleanupPpid (pid : ℕ) (answer : Bool) :
      ProcArrow s t th (.next answer) (.cleanup (.ppid pid)) .quiet
        (.cleanup (.orphan pid (s.procs th.slot).ppid))
  | cleanupOrphan (pid ppid : ℕ) (answer : Bool) :
      ProcArrow s t th (.next answer) (.cleanup (.orphan pid ppid)) .quiet
        (.cleanup (.lock pid ppid (s.procs th.slot).wasOrphaned))
  | cleanupLock (pid ppid : ℕ) (ignores answer : Bool) (free : s.lock = none) :
      ProcArrow s t th (.next answer) (.cleanup (.lock pid ppid ignores)) .acquire
        (.cleanup (.loop 0 pid ppid ignores))
  | cleanupLoop (k : Fin maxProcs) (pid ppid : ℕ) (ignores answer : Bool) :
      ProcArrow s t th (.next answer) (.cleanup (.loop k pid ppid ignores))
        (.write k (ProcTable.orphan pid))
        (.cleanup (.loop (k + 1) pid ppid
          (ignores || ((s.procs k).state ≠ .free && (s.procs k).pid == ppid && answer))))
  | cleanupEnd (i pid ppid : ℕ) (ignores answer : Bool) (outside : maxProcs ≤ i) :
      ProcArrow s t th (.next answer) (.cleanup (.loop i pid ppid ignores)) .quiet
        (.cleanup (.test ignores))
  | testReap (answer : Bool) (zombie : (s.procs th.slot).state = .zombie) :
      ProcArrow s t th (.next answer) (.cleanup (.test true)) .quiet (.cleanup .free)
  | testKeep (ignores answer : Bool) (keep : ¬ (ignores = true ∧ (s.procs th.slot).state = .zombie)) :
      ProcArrow s t th (.next answer) (.cleanup (.test ignores)) .quiet (.cleanup .unlock)
  | cleanupFree (answer : Bool) :
      ProcArrow s t th (.next answer) (.cleanup .free)
        (.write th.slot fun p => { p with state := .free }) (.cleanup .unlock)
  | cleanupUnlock (answer : Bool) :
      ProcArrow s t th (.next answer) (.cleanup .unlock) .release .done

/-! ## There are no other steps -/

section Inversion

variable {s s' : ProcTable} {t : ℕ} {th : ProcThread}

/-- `s'` is reached by an arrow from the place of the thread. -/
def Arrives (s : ProcTable) (t : ℕ) (th : ProcThread) (e : ProcEvent) (at_ : ProcPc)
    (s' : ProcTable) : Prop :=
  ∃ effect pc fate, ProcArrow s t th e at_ effect pc ∧ s' = s.moved t ⟨th.slot, pc, fate⟩ effect

theorem arrives_acquire {e : ProcEvent} {at_ pc : ProcPc} (next : s.acquire t th pc = some s')
    (arrow : s.lock = none → ProcArrow s t th e at_ .acquire pc) : Arrives s t th e at_ s' := by
  unfold ProcTable.acquire at next
  split at next
  · next free =>
    cases next
    exact ⟨_, _, th.fate, arrow free, rfl⟩
  · cases next

theorem runStep_arrives {e : ProcEvent} (next : s.runStep t th e = some s') :
    Arrives s t th e .run s' := by
  cases e with
  | next answer => cases next
  | wait pid nohang =>
    cases next
    exact ⟨_, _, th.fate, .wait pid nohang, rfl⟩
  | fork =>
    cases next
    exact ⟨_, _, th.fate, .fork, rfl⟩
  | exit code =>
    cases next
    exact ⟨_, _, _, .exit code, rfl⟩
  | trap code =>
    cases next
    exact ⟨_, _, _, .trap code, rfl⟩
  | finish =>
    cases next
    exact ⟨_, _, _, .finish, rfl⟩
  | signal sig =>
    cases next
    exact ⟨_, _, _, .signal sig, rfl⟩
  | kill =>
    cases next
    exact ⟨_, _, _, .kill, rfl⟩
  | vanish =>
    cases next
    exact ⟨_, _, _, .vanish, rfl⟩

theorem waitStep_arrives {w : WaitCall} {stage : WaitStage} (answer : Bool)
    (next : s.waitStep t th w stage = some s') :
    Arrives s t th (.next answer) (.wait w stage) s' := by
  cases stage with
  | lock again => exact arrives_acquire next fun free => .waitLock w again answer free
  | has i =>
    simp only [ProcTable.waitStep] at next
    split at next
    · next inside =>
      split at next
      · next child =>
        cases next
        exact ⟨_, _, th.fate, .hasFound w ⟨i, inside⟩ answer child, rfl⟩
      · cases next
        exact ⟨_, _, th.fate, .hasNext w i answer inside, rfl⟩
    · next outside =>
      cases next
      exact ⟨_, _, th.fate, .hasNone w i answer (Nat.le_of_not_lt outside), rfl⟩
  | find i =>
    simp only [ProcTable.waitStep] at next
    split at next
    · next inside =>
      split at next
      · next zombie =>
        cases next
        exact ⟨_, _, th.fate, .findFound w ⟨i, inside⟩ answer zombie, rfl⟩
      · cases next
        exact ⟨_, _, th.fate, .findNext w i answer inside, rfl⟩
    · next outside =>
      cases next
      exact ⟨_, _, th.fate, .findNone w i answer (Nat.le_of_not_lt outside), rfl⟩
  | pid k =>
    cases next
    exact ⟨_, _, th.fate, .waitPid w k answer, rfl⟩
  | code k pid =>
    cases next
    exact ⟨_, _, th.fate, .waitCode w k pid answer, rfl⟩
  | term k pid code =>
    cases next
    exact ⟨_, _, th.fate, .waitTerm w k pid code answer, rfl⟩
  | free k pid code term =>
    cases next
    exact ⟨_, _, th.fate, .waitFree w k pid code term answer, rfl⟩
  | unlock again =>
    cases next
    exact ⟨_, _, th.fate, .waitUnlock w again answer, rfl⟩

theorem allocStep_arrives {ppid : ℕ} {stage : AllocStage} (answer : Bool)
    (next : s.allocStep t th ppid stage = some s') :
    Arrives s t th (.next answer) (.alloc ppid stage) s' := by
  cases stage with
  | lock => exact arrives_acquire next fun free => .allocLock ppid answer free
  | scan i =>
    simp only [ProcTable.allocStep] at next
    split at next
    · next inside =>
      split at next
      · next free =>
        cases next
        exact ⟨_, _, th.fate, .scanFound ppid ⟨i, inside⟩ answer free, rfl⟩
      · cases next
        exact ⟨_, _, th.fate, .scanNext ppid i answer inside, rfl⟩
    · next outside =>
      cases next
      exact ⟨_, _, th.fate, .scanNone ppid i answer (Nat.le_of_not_lt outside), rfl⟩
  | init k =>
    cases next
    exact ⟨_, _, th.fate, .init ppid k answer, rfl⟩
  | unlock child =>
    cases child with
    | none =>
      cases next
      exact ⟨_, _, th.fate, .allocUnlock ppid none answer, rfl⟩
    | some child =>
      cases next
      exact ⟨_, _, th.fate, .allocUnlock ppid (some child) answer, rfl⟩

theorem pumpStep_arrives {child : ℕ} {stage : PumpStage} {answer : Bool}
    (next : s.pumpStep t th child answer stage = some s') :
    Arrives s t th (.next answer) (.pump child stage) s' := by
  cases stage with
  | lock => exact arrives_acquire next fun free => .pumpLock child answer free
  | find i =>
    simp only [ProcTable.pumpStep] at next
    split at next
    · next inside =>
      split at next
      · next found =>
        cases next
        exact ⟨_, _, th.fate, .pumpFound child ⟨i, inside⟩ answer found.1 found.2, rfl⟩
      · cases next
        exact ⟨_, _, th.fate, .pumpNext child i answer inside, rfl⟩
    · next outside =>
      cases next
      exact ⟨_, _, th.fate, .pumpNone child i answer (Nat.le_of_not_lt outside), rfl⟩
  | unlock found =>
    cases found with
    | none =>
      cases next
      exact ⟨_, _, th.fate, .pumpUnlock child none answer, rfl⟩
    | some k =>
      cases next
      exact ⟨_, _, th.fate, .pumpUnlock child (some k) answer, rfl⟩
  | start k =>
    cases answer with
    | true =>
      cases next
      exact ⟨_, _, th.fate, .start child k, rfl⟩
    | false =>
      cases next
      exact ⟨_, _, th.fate, .startFails child k, rfl⟩
  | create k =>
    cases answer with
    | true =>
      cases next
      exact ⟨_, _, th.fate, .create child k, rfl⟩
    | false =>
      cases next
      exact ⟨_, _, th.fate, .createFails child k, rfl⟩

theorem markStep_arrives (path : ExitPath) (stage : MarkStage) (answer : Bool) :
    Arrives s t th (.next answer) (.mark path stage) (s.markStep t th path stage) := by
  cases stage with
  | state => exact ⟨_, _, th.fate, .markState path answer, rfl⟩
  | code => exact ⟨_, _, th.fate, .markCode path answer, rfl⟩
  | term => exact ⟨_, _, th.fate, .markTerm path answer, rfl⟩
  | flag => exact ⟨_, _, th.fate, .markFlag path answer, rfl⟩

theorem cleanupStep_arrives {stage : CleanupStage} {answer : Bool}
    (next : s.cleanupStep t th answer stage = some s') :
    Arrives s t th (.next answer) (.cleanup stage) s' := by
  cases stage with
  | pid =>
    cases next
    exact ⟨_, _, th.fate, .cleanupPid answer, rfl⟩
  | ppid pid =>
    cases next
    exact ⟨_, _, th.fate, .cleanupPpid pid answer, rfl⟩
  | orphan pid ppid =>
    cases next
    exact ⟨_, _, th.fate, .cleanupOrphan pid ppid answer, rfl⟩
  | lock pid ppid ignores =>
    exact arrives_acquire next fun free => .cleanupLock pid ppid ignores answer free
  | loop i pid ppid ignores =>
    simp only [ProcTable.cleanupStep] at next
    split at next
    · next inside =>
      cases next
      exact ⟨_, _, th.fate, .cleanupLoop ⟨i, inside⟩ pid ppid ignores answer, rfl⟩
    · next outside =>
      cases next
      exact ⟨_, _, th.fate, .cleanupEnd i pid ppid ignores answer (Nat.le_of_not_lt outside), rfl⟩
  | test ignores =>
    simp only [ProcTable.cleanupStep] at next
    split at next
    · next reap =>
      obtain ⟨rfl, zombie⟩ := reap
      cases next
      exact ⟨_, _, th.fate, .testReap answer zombie, rfl⟩
    · next keep =>
      cases next
      exact ⟨_, _, th.fate, .testKeep ignores answer keep, rfl⟩
  | free =>
    cases next
    exact ⟨_, _, th.fate, .cleanupFree answer, rfl⟩
  | unlock =>
    cases next
    exact ⟨_, _, th.fate, .cleanupUnlock answer, rfl⟩

theorem access_arrives {pc : ProcPc} {answer : Bool} (next : s.access t th answer pc = some s') :
    Arrives s t th (.next answer) pc s' := by
  cases pc with
  | unborn parent => cases next
  | run => cases next
  | done => cases next
  | wait w stage => exact waitStep_arrives answer next
  | alloc ppid stage => exact allocStep_arrives answer next
  | pump child stage => exact pumpStep_arrives next
  | exitTest =>
    simp only [ProcTable.access] at next
    split at next
    · next live =>
      cases next
      exact ⟨_, _, th.fate, .exitLive answer live, rfl⟩
    · next late =>
      cases next
      exact ⟨_, _, th.fate, .exitLate answer (by simpa using late), rfl⟩
  | mark path stage =>
    cases next
    exact markStep_arrives path stage answer
  | finalLock trapped => exact arrives_acquire next fun free => .finalLock trapped answer free
  | finalTest trapped =>
    simp only [ProcTable.access] at next
    split at next
    · next live =>
      cases next
      exact ⟨_, _, th.fate, .finalLive trapped answer live, rfl⟩
    · next late =>
      cases next
      exact ⟨_, _, th.fate, .finalLate trapped answer (by simpa using late), rfl⟩
  | finalUnlock =>
    cases next
    exact ⟨_, _, th.fate, .finalUnlock answer, rfl⟩
  | cleanup stage => exact cleanupStep_arrives next

/-- Every step is an arrow. -/
theorem step_arrow {e : ProcEvent} (next : s.step t e = some s') :
    ∃ th, s.threads t = some th ∧ Arrives s t th e th.pc s' := by
  unfold ProcTable.step at next
  cases here : s.threads t with
  | none =>
    rw [here] at next
    cases next
  | some th =>
    refine ⟨th, rfl, ?_⟩
    simp only [here] at next
    split at next
    · next pc =>
      rw [pc]
      exact runStep_arrives next
    · exact access_arrives next
    · cases next

end Inversion

/-! ## What an effect changes -/

/-- A slot after an effect. -/
def ProcEffect.slot (s : ProcTable) (k : Fin maxProcs) : ProcEffect → Proc
  | .write j f => if k = j then f (s.procs k) else s.procs k
  | .reap j _ | .abandon _ j => if k = j then { s.procs k with state := .free } else s.procs k
  | .allocate j ppid => if k = j then .fresh s.nextPid ppid else s.procs k
  | .quiet | .acquire | .release | .born _ => s.procs k

theorem ProcEffect.slot_write_self (s : ProcTable) (k : Fin maxProcs) (f : Proc → Proc) :
    (ProcEffect.write k f).slot s k = f (s.procs k) :=
  if_pos rfl

/-- The slot an effect writes to. -/
def ProcEffect.target : ProcEffect → Option (Fin maxProcs)
  | .write k _ | .reap k _ | .abandon _ k | .allocate k _ => some k
  | .quiet | .acquire | .release | .born _ => none

theorem ProcEffect.slot_of_ne {s : ProcTable} {k : Fin maxProcs} {effect : ProcEffect}
    (other : effect.target ≠ some k) : effect.slot s k = s.procs k := by
  cases effect with
  | quiet | acquire | release | born => rfl
  | write j | reap j | abandon _ j | allocate j =>
    exact if_neg fun same => other (congrArg some same.symm)

/-- `proc_lock` after an effect. -/
def ProcEffect.lock (s : ProcTable) (t : ℕ) : ProcEffect → Option ℕ
  | .acquire => some t
  | .release => none
  | _ => s.lock

/-- The thread of another process after an effect of `t`. -/
def ProcEffect.thread (s : ProcTable) (t u : ℕ) : ProcEffect → Option ProcThread
  | .allocate k _ => if u = s.nextPid then some ⟨k, .unborn t, none⟩ else s.threads u
  | .born child =>
    if u = child then (s.threads u).map fun th => { th with pc := .run } else s.threads u
  | .abandon child _ =>
    if u = child then (s.threads u).map fun th => { th with pc := .done } else s.threads u
  | _ => s.threads u

/-- The process an effect starts, gives up or creates. -/
def ProcEffect.child (s : ProcTable) : ProcEffect → Option ℕ
  | .allocate _ _ => some s.nextPid
  | .born child | .abandon child _ => some child
  | _ => none

section Effects

variable (s : ProcTable) (t : ℕ) (th : ProcThread)

theorem procs_write (k j : Fin maxProcs) (f : Proc → Proc) :
    (s.write j f).procs k = if k = j then f (s.procs k) else s.procs k := by
  by_cases same : k = j
  · subst same
    rw [if_pos rfl]
    exact Function.update_self ..
  · rw [if_neg same]
    exact Function.update_of_ne same _ _

theorem procs_born (child : ℕ) : (s.born child).procs = s.procs := by
  unfold ProcTable.born
  split <;> rfl

theorem lock_born (child : ℕ) : (s.born child).lock = s.lock := by
  unfold ProcTable.born
  split <;> rfl

theorem threads_born (child u : ℕ) :
    (s.born child).threads u =
      if u = child then (s.threads u).map fun th => { th with pc := .run } else s.threads u := by
  by_cases same : u = child
  · subst same
    rw [if_pos rfl]
    cases here : s.threads u with
    | none => simp [ProcTable.born, here]
    | some thu => simp [ProcTable.born, here, ProcTable.goto, ProcTable.put]
  · rw [if_neg same]
    unfold ProcTable.born
    split
    · exact Function.update_of_ne same _ _
    · rfl

theorem procs_abandon (child : ℕ) (k : Fin maxProcs) :
    (s.abandon child k).procs = (s.write k fun p => { p with state := .free }).procs := by
  unfold ProcTable.abandon
  dsimp only
  split <;> rfl

theorem lock_abandon (child : ℕ) (k : Fin maxProcs) : (s.abandon child k).lock = s.lock := by
  unfold ProcTable.abandon
  dsimp only
  split <;> rfl

theorem threads_abandon (child : ℕ) (k : Fin maxProcs) (u : ℕ) :
    (s.abandon child k).threads u =
      if u = child then (s.threads u).map fun th => { th with pc := .done } else s.threads u := by
  have kept : (s.write k fun p => { p with state := .free }).threads = s.threads := rfl
  by_cases same : u = child
  · subst same
    rw [if_pos rfl]
    cases here : s.threads u with
    | none => simp [ProcTable.abandon, kept, here]
    | some thu => simp [ProcTable.abandon, kept, here, ProcTable.goto, ProcTable.put]
  · rw [if_neg same]
    unfold ProcTable.abandon
    dsimp only
    split
    · exact Function.update_of_ne same _ _
    · rfl

theorem procs_moved (effect : ProcEffect) (k : Fin maxProcs) :
    (s.moved t th effect).procs k = effect.slot s k := by
  cases effect with
  | quiet | acquire | release => rfl
  | write j f => exact procs_write s k j f
  | reap j r => exact procs_write s k j fun p => { p with state := .free }
  | allocate j ppid => exact Function.update_apply ..
  | born child => exact congrFun (procs_born _ child) k
  | abandon child j =>
    exact (congrFun (procs_abandon _ child j) k).trans (procs_write _ k j _)

theorem lock_moved (effect : ProcEffect) : (s.moved t th effect).lock = effect.lock s t := by
  cases effect with
  | born child => exact lock_born _ child
  | abandon child k => exact lock_abandon _ child k
  | _ => rfl

variable {t}

theorem threads_moved_other {u : ℕ} (other : u ≠ t) (effect : ProcEffect) :
    (s.moved t th effect).threads u = effect.thread s t u := by
  have put : ∀ s : ProcTable, (s.put t th).threads u = s.threads u :=
    fun s => Function.update_of_ne other _ _
  cases effect with
  | born child => exact (threads_born _ child u).trans (by rw [put]; rfl)
  | abandon child k => exact (threads_abandon _ child k u).trans (by rw [put]; rfl)
  | allocate k ppid => exact (put _).trans (Function.update_apply ..)
  | _ => exact put _

theorem threads_moved_self {effect : ProcEffect} (apart : effect.child s ≠ some t) :
    (s.moved t th effect).threads t = some th := by
  have put : ∀ s : ProcTable, (s.put t th).threads t = some th := fun s => Function.update_self ..
  cases effect with
  | born child =>
    have other : t ≠ child := fun same => apart (congrArg some same.symm)
    exact (threads_born _ child t).trans (by rw [if_neg other, put])
  | abandon child k =>
    have other : t ≠ child := fun same => apart (congrArg some same.symm)
    exact (threads_abandon _ child k t).trans (by rw [if_neg other, put])
  | _ => exact put _

theorem nextPid_le_moved (effect : ProcEffect) : s.nextPid ≤ (s.moved t th effect).nextPid := by
  cases effect with
  | born child =>
    simp only [ProcTable.moved, ProcTable.born]
    split <;> exact Nat.le_refl _
  | abandon child k =>
    simp only [ProcTable.moved, ProcTable.abandon]
    split <;> exact Nat.le_refl _
  | allocate k ppid => exact Nat.le_succ _
  | _ => exact Nat.le_refl _

/-- The steps of a thread start at a place where it has been born and has not ended. -/
theorem ProcArrow.active {s : ProcTable} {th : ProcThread} {e : ProcEvent} {at_ pc : ProcPc}
    {effect : ProcEffect} (arrow : ProcArrow s t th e at_ effect pc) :
    at_ ≠ .done ∧ ∀ parent, at_ ≠ .unborn parent := by
  cases arrow <;> exact ⟨by simp, by simp⟩

/-- The threads after a step are the ones before it and at most a new one. -/
theorem thread_moved_old {s : ProcTable} {u : ℕ} {thu : ProcThread} {effect : ProcEffect}
    (thread : (s.moved t th effect).threads u = some thu) :
    u = t ∨ (∃ thu', s.threads u = some thu') ∨
      u = s.nextPid ∧ (s.moved t th effect).nextPid = s.nextPid + 1 := by
  by_cases mine : u = t
  · exact .inl mine
  · right
    rw [threads_moved_other s th mine] at thread
    cases effect with
    | allocate k ppid =>
      simp only [ProcEffect.thread] at thread
      split at thread
      · next new => exact .inr ⟨new, rfl⟩
      · exact .inl ⟨thu, thread⟩
    | born child =>
      simp only [ProcEffect.thread] at thread
      split at thread
      · obtain ⟨thu', before, -⟩ := Option.map_eq_some_iff.mp thread
        exact .inl ⟨thu', before⟩
      · exact .inl ⟨thu, thread⟩
    | abandon child k =>
      simp only [ProcEffect.thread] at thread
      split at thread
      · obtain ⟨thu', before, -⟩ := Option.map_eq_some_iff.mp thread
        exact .inl ⟨thu', before⟩
      · exact .inl ⟨thu, thread⟩
    | _ => exact .inl ⟨thu, thread⟩

/-- A thread keeps its slot during every step. -/
theorem slot_kept {s : ProcTable} {u : ℕ} {th thu : ProcThread} {pc : ProcPc} {fate : Option (ℤ × ℤ)}
    (fresh : s.threads s.nextPid = none) (here : s.threads t = some th) (effect : ProcEffect)
    (thread : s.threads u = some thu) :
    ∃ thu', (s.moved t ⟨th.slot, pc, fate⟩ effect).threads u = some thu' ∧ thu'.slot = thu.slot := by
  have put : ∀ s' : ProcTable, s'.threads u = some thu →
      ∃ thu', (s'.put t ⟨th.slot, pc, fate⟩).threads u = some thu' ∧ thu'.slot = thu.slot := by
    intro s' thread'
    by_cases mine : u = t
    · subst mine
      rw [here] at thread
      cases thread
      exact ⟨_, Function.update_self .., rfl⟩
    · exact ⟨thu, (Function.update_of_ne mine _ _).trans thread', rfl⟩
  cases effect with
  | allocate k ppid =>
    refine put _ ((Function.update_of_ne ?_ _ _).trans thread)
    rintro rfl
    rw [fresh] at thread
    cases thread
  | born child =>
    obtain ⟨thu', after, slot⟩ := put s thread
    simp only [ProcTable.moved, threads_born, after]
    split
    · exact ⟨_, rfl, slot⟩
    · exact ⟨thu', rfl, slot⟩
  | abandon child k =>
    obtain ⟨thu', after, slot⟩ := put s thread
    simp only [ProcTable.moved, threads_abandon, after]
    split
    · exact ⟨_, rfl, slot⟩
    · exact ⟨thu', rfl, slot⟩
  | _ => exact put _ thread

end Effects

/-- Pids are positive and below `next_pid`. -/
theorem pid_bounds {ok : ProcTable → ℕ × ProcEvent → Prop} {s : ProcTable}
    (run : procSystem.ReachableIf ok s) {t : ℕ} {th : ProcThread} (thread : s.threads t = some th) :
    0 < t ∧ t < s.nextPid := by
  have bounds := run.invariant
    (I := fun s => 0 < s.nextPid ∧ ∀ t th, s.threads t = some th → 0 < t ∧ t < s.nextPid) ?_ ?_
  · exact bounds.2 t th thread
  · intro s start
    rw [show s = .initial from start]
    refine ⟨by decide, fun t th thread => ?_⟩
    obtain ⟨rfl, -⟩ := initial_thread thread
    decide
  · intro s a s' inv _ next
    obtain ⟨th, here, effect, pc, fate, -, rfl⟩ := step_arrow next
    have grows := nextPid_le_moved s (t := a.1) ⟨th.slot, pc, fate⟩ effect
    refine ⟨Nat.lt_of_lt_of_le inv.1 grows, fun u thu thread => ?_⟩
    rcases thread_moved_old _ thread with rfl | ⟨thu', before⟩ | ⟨rfl, new⟩
    · exact ⟨(inv.2 _ _ here).1, Nat.lt_of_lt_of_le (inv.2 _ _ here).2 grows⟩
    · exact ⟨(inv.2 _ _ before).1, Nat.lt_of_lt_of_le (inv.2 _ _ before).2 grows⟩
    · rw [new]
      exact ⟨inv.1, Nat.lt_succ_self _⟩

theorem threads_nextPid {ok : ProcTable → ℕ × ProcEvent → Prop} {s : ProcTable}
    (run : procSystem.ReachableIf ok s) : s.threads s.nextPid = none := by
  cases new : s.threads s.nextPid with
  | none => rfl
  | some th => exact absurd (pid_bounds run new).2 (Nat.lt_irrefl _)

end Yos
