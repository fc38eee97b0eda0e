import Yos.Proc.Lifecycle
import Yos.Proc.ProcOwn

/-!
# Orphans

`yos_proc_post_exit_cleanup` of a parent marks its children as orphans, and the cleanup of an orphan
frees its slot.  In runs of the steps `OrphanOk` allows, the thread of a zombie that is an orphan is
on its way to that test, so that none is left when no process is ending (`orphans_reaped`).  A child
that has ended before its parent is marked as well, and no thread frees its slot any more
(`zombie_orphan_stays`).
-/

namespace Yos

/-- The thread will come to the test that frees its slot. -/
def ProcPc.reaps : ProcPc → Bool
  | .mark .exit _ | .mark .signal _ => true
  | .cleanup .unlock => false
  | .cleanup _ => true
  | _ => false

/-- The thread of the process in the slot will come to the test that frees it. -/
def ProcTable.Reaps (s : ProcTable) (k : Fin maxProcs) : Prop :=
  ∃ th, s.threads (s.procs k).pid = some th ∧ th.slot = k ∧ th.pc.reaps = true

/-- A cleanup marks a zombie as an orphan only if its thread will come to the test, the test sees the
mark, a process that is an orphan ends by `yos_exit` or by the default action of a signal, and a slot
is reused only when the threads of the processes it held have ended. -/
def OrphanOk (s : ProcTable) (a : ℕ × ProcEvent) : Prop :=
  ReuseOk s a ∧ ∀ th, s.threads a.1 = some th →
    match th.pc with
    | .mark path .state =>
      (ProcPc.mark path .state).reaps = true ∨ (s.procs th.slot).wasOrphaned = false
    | .cleanup (.loop i pid _ _) =>
      ∀ k : Fin maxProcs, k.val = i → (s.procs k).state = .zombie → (s.procs k).ppid = pid →
        (s.procs k).pid ≠ pid → s.Reaps k
    | .cleanup (.test ignores) => ignores = true ∨ (s.procs th.slot).wasOrphaned = false
    | _ => True

/-- The thread of every zombie that is an orphan will come to the test. -/
structure OrphanInv (s : ProcTable) : Prop where
  own : OwnInv s
  reaps : ∀ k, (s.procs k).state = .zombie → (s.procs k).wasOrphaned = true → s.Reaps k

/-- No process is ending. -/
def ProcTable.Calm (s : ProcTable) : Prop :=
  ∀ t th, s.threads t = some th → th.pc = .done ∨
    match th.pc with
    | .exitTest | .mark _ _ | .finalLock _ | .finalTest _ | .finalUnlock | .cleanup _ => False
    | _ => True

section Steps

variable {s : ProcTable} {t : ℕ} {th : ProcThread} {e : ProcEvent} {effect : ProcEffect} {pc : ProcPc}

/-- A slot that is a zombie and an orphan after a step was one before it, or its thread marks it, or
a cleanup makes it an orphan. -/
theorem ProcArrow.orphan_cases {k : Fin maxProcs} (arrow : ProcArrow s t th e th.pc effect pc)
    (zombie : (effect.slot s k).state = .zombie) (orphaned : (effect.slot s k).wasOrphaned = true) :
    ((s.procs k).state = .zombie ∧ (s.procs k).wasOrphaned = true) ∨
      (∃ path, k = th.slot ∧ th.pc = .mark path .state ∧ pc = .mark path .code ∧
        (s.procs k).wasOrphaned = true) ∨
      ∃ pid ppid ignores, th.pc = .cleanup (.loop k pid ppid ignores) ∧
        (s.procs k).state = .zombie ∧ (s.procs k).ppid = pid ∧ (s.procs k).pid ≠ pid := by
  generalize th.pc = at_ at *
  cases arrow with
  | waitFree | init | start | startFails | createFails | cleanupFree =>
    simp only [ProcEffect.slot] at zombie orphaned
    split at zombie
    · cases zombie
    · next other =>
      rw [if_neg other] at orphaned
      exact .inl ⟨zombie, orphaned⟩
  | markState path answer =>
    simp only [ProcEffect.slot] at zombie orphaned
    split at orphaned
    · next mine => exact .inr (.inl ⟨path, mine, rfl, rfl, orphaned⟩)
    · next other =>
      rw [if_neg other] at zombie
      exact .inl ⟨zombie, orphaned⟩
  | markCode path answer | markTerm path answer | markFlag path answer =>
    simp only [ProcEffect.slot] at zombie orphaned
    split at orphaned
    · next mine =>
      rw [if_pos mine] at zombie
      exact .inl ⟨zombie, orphaned⟩
    · next other =>
      rw [if_neg other] at zombie
      exact .inl ⟨zombie, orphaned⟩
  | cleanupLoop j pid ppid ignores answer =>
    simp only [ProcEffect.slot] at zombie orphaned
    split at orphaned
    · next same =>
      subst same
      rw [if_pos rfl, orphan_state] at zombie
      unfold ProcTable.orphan at orphaned
      split at orphaned
      · next child => exact .inr (.inr ⟨pid, ppid, ignores, rfl, zombie, child.2⟩)
      · exact .inl ⟨zombie, orphaned⟩
    · next other =>
      rw [if_neg other] at zombie
      exact .inl ⟨zombie, orphaned⟩
  | _ => exact .inl ⟨zombie, orphaned⟩

/-- A thread on its way to the test stays on it until it has freed its slot. -/
theorem ProcArrow.reaps_kept (arrow : ProcArrow s t th e th.pc effect pc)
    (reaps : th.pc.reaps = true)
    (sees : ∀ ignores, th.pc = .cleanup (.test ignores) → ignores = true)
    (zombie : (effect.slot s th.slot).state = .zombie) : pc.reaps = true := by
  generalize th.pc = at_ at *
  cases arrow with
  | testKeep ignores answer keep => exact absurd ⟨sees ignores rfl, zombie⟩ keep
  | cleanupFree answer => simp [ProcEffect.slot] at zombie
  | markState path answer | markTerm path answer => cases path <;> first | rfl | cases reaps
  | markCode path answer | markFlag path answer => cases path <;> first | rfl | cases reaps
  | _ => first | rfl | cases reaps

/-- A step of a thread keeps that the thread of a slot will come to the test. -/
theorem OrphanInv.reaps_moved (inv : OrphanInv s) (here : s.threads t = some th)
    (ok : OrphanOk s (t, e)) (arrow : ProcArrow s t th e th.pc effect pc) {fate : Option (ℤ × ℤ)}
    {k : Fin maxProcs} (reaps : s.Reaps k) (zombie : (effect.slot s k).state = .zombie)
    (sees : ∀ ignores, th.pc = .cleanup (.test ignores) → (s.procs k).wasOrphaned = true) :
    ∃ tho, (s.moved t ⟨th.slot, pc, fate⟩ effect).threads (s.procs k).pid = some tho ∧
      tho.slot = k ∧ tho.pc.reaps = true := by
  obtain ⟨tho, owner, slot, reaps⟩ := reaps
  have tame := inv.own.tame here ok.1 arrow
  by_cases mine : (s.procs k).pid = t
  · rw [mine, here] at owner
    cases owner
    subst slot
    refine ⟨⟨th.slot, pc, fate⟩, ?_, rfl, arrow.reaps_kept reaps (fun ignores place => ?_) zombie⟩
    · rw [mine]
      exact inv.own.self_moved here arrow.active.2 tame
    · have test := ok.2 th here
      simp only [place] at test
      exact test.resolve_right (by simp [sees ignores place])
  · refine ⟨tho, inv.own.threads_kept tame mine owner fun parent unborn => ?_, slot, reaps⟩
    rw [unborn] at reaps
    cases reaps

/-- Every allowed step keeps the invariant. -/
theorem OrphanInv.step {s' : ProcTable} {a : ℕ × ProcEvent} (inv : OrphanInv s) (ok : OrphanOk s a)
    (next : procSystem.step s a s') : OrphanInv s' := by
  refine ⟨inv.own.step ok.1 next, fun k zombie orphaned => ?_⟩
  obtain ⟨t, e⟩ := a
  obtain ⟨th, here, effect, pc, fate, arrow, rfl⟩ := step_arrow next
  have tame := inv.own.tame here ok.1 arrow
  unfold ProcTable.Reaps
  rw [procs_moved] at zombie orphaned ⊢
  have samePid : (effect.slot s k).pid = (s.procs k).pid := by
    have used : (effect.slot s k).state ≠ .free := by simp [zombie]
    rcases slot_moved_cases tame used with ⟨ppid, rfl⟩ | ⟨same, -⟩
    · simp [ProcEffect.slot, Proc.fresh] at zombie
    · exact same
  rw [samePid]
  rcases arrow.orphan_cases zombie orphaned with
    ⟨before, marked⟩ | ⟨path, rfl, place, rfl, marked⟩ | ⟨pid, ppid, ignores, place, before, child⟩
  · exact inv.reaps_moved here ok arrow (inv.reaps k before marked) zombie fun _ _ => marked
  · rw [(inv.own.owns t th here).slotPid arrow.active.1]
    refine ⟨⟨th.slot, .mark path .code, fate⟩, ?_, rfl, ?_⟩
    · exact inv.own.self_moved here arrow.active.2 tame
    · have test := ok.2 th here
      simp only [place, marked, Bool.true_eq_false, or_false] at test
      cases path <;> first | rfl | cases test
  · have test := ok.2 th here
    simp only [place] at test
    refine inv.reaps_moved here ok arrow (test k rfl before child.1 child.2) zombie
      fun ignores' other => ?_
    rw [place] at other
    cases other

end Steps

theorem OrphanInv.initial : OrphanInv .initial := by
  refine ⟨.initial, fun k zombie _ => ?_⟩
  have used : (ProcTable.initial.procs k).state ≠ .free := by simp [zombie]
  obtain rfl := initial_used used
  cases zombie

/-- In every run of allowed steps, no slot is an orphaned zombie when no process is ending. -/
theorem orphans_reaped {s : ProcTable} (run : procSystem.ReachableIf OrphanOk s) (calm : s.Calm)
    (k : Fin maxProcs) : ¬ ((s.procs k).state = .zombie ∧ (s.procs k).wasOrphaned = true) := by
  rintro ⟨zombie, orphaned⟩
  have inv : OrphanInv s := by
    refine run.invariant (fun s start => ?_) fun s a s' inv ok next => inv.step ok next
    rw [show s = .initial from start]
    exact .initial
  obtain ⟨th, owner, -, reaps⟩ := inv.reaps k zombie orphaned
  rcases calm _ th owner with done | going
  · rw [done] at reaps
    cases reaps
  · generalize th.pc = pc at going reaps
    cases pc <;> first | exact going | cases reaps

/-- The zombie of a root process that was killed is not an orphan. -/
theorem orphans_reaped_after_kill :
    ∃ s : ProcTable, procSystem.ReachableIf OrphanOk s ∧ s.Calm ∧
      (s.procs ⟨0, by decide⟩).state = .zombie ∧ (s.procs ⟨0, by decide⟩).wasOrphaned ≠ true := by
  have start : procSystem.ReachableIf OrphanOk .initial := .init rfl
  have kill := start.step (a := (1, ProcEvent.kill))
    ⟨.of_place rfl fun _ _ => nofun, fun th here => by cases here; trivial⟩
    (show ProcTable.initial.step 1 .kill = some _ from rfl)
  have state := kill.step (a := (1, ProcEvent.next true))
    ⟨.of_place rfl fun _ _ => nofun, fun th here => by cases here; exact .inr rfl⟩
    (show ProcTable.step _ 1 (.next true) = some _ from rfl)
  have code := state.step (a := (1, ProcEvent.next true))
    ⟨.of_place rfl fun _ _ => nofun, fun th here => by cases here; trivial⟩
    (show ProcTable.step _ 1 (.next true) = some _ from rfl)
  have term := code.step (a := (1, ProcEvent.next true))
    ⟨.of_place rfl fun _ _ => nofun, fun th here => by cases here; trivial⟩
    (show ProcTable.step _ 1 (.next true) = some _ from rfl)
  have flag := term.step (a := (1, ProcEvent.next true))
    ⟨.of_place rfl fun _ _ => nofun, fun th here => by cases here; trivial⟩
    (show ProcTable.step _ 1 (.next true) = some _ from rfl)
  refine ⟨_, flag, ?calm, rfl, fun orphaned => orphans_reaped flag ?calm ⟨0, by decide⟩ ⟨rfl, orphaned⟩⟩
  intro t th thread
  obtain ⟨positive, created⟩ := pid_bounds flag thread
  obtain rfl : t = 1 := Nat.le_antisymm (Nat.le_of_lt_succ created) positive
  cases thread
  exact .inl rfl

/-! ## A zombie that becomes an orphan -/

/-- The loop of a cleanup that does not find a parent that ignores `SIGCHLD`, or need not look for
one. -/
theorem run_cleanup_loop {s : ProcTable} {t : ℕ} {slot : Fin maxProcs} {fate : Option (ℤ × ℤ)}
    {pid ppid : ℕ} {ignores answer : Bool} (known : answer = false ∨ ignores = true) {n i : ℕ}
    (here : s.threads t = some ⟨slot, .cleanup (.loop i pid ppid ignores), fate⟩)
    (ends : i + n = maxProcs) :
    s.run (List.replicate n (t, .next answer)) = some { s with
      procs := fun k => if i ≤ k then ProcTable.orphan pid (s.procs k) else s.procs k
      threads := Function.update s.threads t
        (some ⟨slot, .cleanup (.loop maxProcs pid ppid ignores), fate⟩) } := by
  induction n generalizing s i with
  | zero =>
    obtain rfl : i = maxProcs := ends
    have procs : (fun k : Fin maxProcs => if maxProcs ≤ k then ProcTable.orphan pid (s.procs k)
        else s.procs k) = s.procs := by
      funext k
      exact if_neg (Nat.not_le_of_lt k.isLt)
    rw [procs, ← here, Function.update_eq_self]
    rfl
  | succ n ih =>
    have inside : i < maxProcs := by omega
    have stays : (ignores || ((s.procs ⟨i, inside⟩).state ≠ .free &&
        (s.procs ⟨i, inside⟩).pid == ppid && answer)) = ignores := by
      rcases known with rfl | rfl <;> simp
    rw [List.replicate_succ, ProcTable.run]
    simp only [ProcTable.step, here, ProcTable.access, ProcTable.cleanupStep, dif_pos inside, stays,
      Option.bind_some]
    rw [ih (s := _) (i := i + 1) (Function.update_self ..) (by omega)]
    congr 2
    · funext k
      by_cases at_ : k = ⟨i, inside⟩
      · subst at_
        have past : ¬ i + 1 ≤ i := Nat.not_succ_le_self i
        simp [ProcTable.write, ProcTable.goto, ProcTable.put, past]
      · have order : i + 1 ≤ k.val ↔ i ≤ k.val :=
          ⟨fun later => by omega, fun later => Nat.lt_of_le_of_ne later fun same => at_ (Fin.ext same.symm)⟩
        simp only [ProcTable.write, ProcTable.goto, ProcTable.put, Function.update_of_ne at_, order]
    · exact Function.update_idem _ _ _

/-- The root process forks a child. -/
def rootForks : List (ℕ × ProcEvent) := (1, .fork) :: List.replicate 11 (1, .next true)

/-- The child forks another. -/
def childForks : List (ℕ × ProcEvent) := (2, .fork) :: List.replicate 13 (2, .next true)

/-- The root process forks a child, which forks another.  The second child calls `exit` while the
first still runs, up to the loop of its cleanup. -/
def childEnds : List (ℕ × ProcEvent) :=
  rootForks ++ childForks ++ (3, .exit 0) :: List.replicate 8 (3, .next false)

/-- The second child ends, and the first calls `exit`, up to the loop of its cleanup. -/
def parentEnds : List (ℕ × ProcEvent) :=
  List.replicate 3 (3, .next false) ++ (2, .exit 0) :: List.replicate 8 (2, .next false)

/-- A child that has ended before its parent is an orphan and a zombie when both have ended. -/
theorem zombie_orphan_stays :
    ∃ s, procSystem.Reachable s ∧ s.Calm ∧ s.procs ⟨2, by decide⟩ = ⟨3, 1, .zombie, 0, 0, true, true⟩ := by
  have first := reachable_run (.start rfl) (show ProcTable.initial.run childEnds = some _ from rfl)
  have swept := reachable_run first (run_cleanup_loop (t := 3) (n := 256) (i := 0) (.inl rfl) rfl rfl)
  have second := reachable_run swept (show ProcTable.run _ parentEnds = some _ from rfl)
  have swept' := reachable_run second (run_cleanup_loop (t := 2) (n := 256) (i := 0) (.inl rfl) rfl rfl)
  have last := reachable_run swept'
    (show ProcTable.run _ (List.replicate 3 (2, .next false)) = some _ from rfl)
  refine ⟨_, last, fun t th thread => ?_, rfl⟩
  obtain ⟨positive, created⟩ := pid_bounds last thread
  have pids : t = 1 ∨ t = 2 ∨ t = 3 := by
    change t < 4 at created
    omega
  rcases pids with rfl | rfl | rfl <;> cases thread
  · exact .inr trivial
  · exact .inl rfl
  · exact .inl rfl

end Yos
