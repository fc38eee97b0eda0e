import Yos.Proc.ProcReuse

/-!
# The life of a process slot

In every run of the steps `ProcOk` allows, a zombie's thread is ending or has ended, no thread writes
to a slot of another process, and every process is returned by at most one wait call, with its own
status (`proc_lifecycle`).  Without the condition a slot can be reused while the thread of the
process it held still writes to it (`running_child_is_zombie`).
-/

namespace Yos

/-! ## Runs -/

/-- Every allowed access keeps the invariant. -/
theorem ProcInv.access {s s' : ProcTable} {t : ℕ} {th : ProcThread} {e : ProcEvent} {answer : Bool}
    (inv : ProcInv s) (here : s.threads t = some th) (ok : ProcOk s (t, e))
    (next : s.access t th answer th.pc = some s') : ProcInv s' := by
  cases pc : th.pc with
  | unborn parent =>
    rw [pc] at next
    cases next
  | run =>
    rw [pc] at next
    cases next
  | done =>
    rw [pc] at next
    cases next
  | wait w stage =>
    rw [pc] at next
    exact inv.waitStep here pc ok next
  | alloc ppid stage =>
    rw [pc] at next
    exact inv.allocStep here pc ok next
  | pump child stage =>
    rw [pc] at next
    exact inv.pumpStep here pc next
  | exitTest =>
    rw [pc] at next
    exact inv.exitTest here pc next
  | mark path stage =>
    rw [pc] at next
    cases next
    exact inv.markStep here pc
  | finalLock trapped =>
    rw [pc] at next
    exact inv.finalLock here pc next
  | finalTest trapped =>
    rw [pc] at next
    exact inv.finalTest here pc next
  | finalUnlock =>
    rw [pc] at next
    cases next
    exact inv.endThread here (by rw [pc]; rfl) (by rw [pc]; rfl)
  | cleanup stage =>
    rw [pc] at next
    exact inv.cleanupStep here pc next

/-- Every allowed step keeps the invariant. -/
theorem ProcInv.step {s s' : ProcTable} {a : ℕ × ProcEvent} (inv : ProcInv s) (ok : ProcOk s a)
    (next : procSystem.step s a s') : ProcInv s' := by
  obtain ⟨t, e⟩ := a
  change s.step t e = some s' at next
  unfold ProcTable.step at next
  cases here : s.threads t with
  | none =>
    rw [here] at next
    cases next
  | some th =>
    simp only [here] at next
    split at next
    · next pc => exact inv.runStep here pc next
    · exact inv.access here ok next
    · cases next

theorem ProcInv.initial : ProcInv .initial := by
  refine ⟨fun t th thread => ?_, fun k used => ?_, fun t th thread => ?_, List.nodup_nil,
    fun r mem => ?_, fun r mem => ?_⟩
  · obtain ⟨rfl, rfl⟩ := initial_thread thread
    refine ⟨fun _ => rfl, fun _ => ⟨rfl, rfl, rfl⟩, rfl, fun h => ?_, fun k h => ?_, trivial,
      fun k h => ?_, fun child h => ?_⟩
    all_goals cases h
  · obtain rfl := initial_used used
    exact ⟨⟨⟨0, by decide⟩, .run, none⟩, rfl, rfl⟩
  · obtain ⟨rfl, -⟩ := initial_thread thread
    decide
  · cases mem
  · cases mem

/-- What the table promises. -/
structure Lifecycle (s : ProcTable) : Prop where
  /-- The process in a zombie slot is ending or has ended. -/
  zombie : ∀ k, (s.procs k).state = .zombie →
    ∃ th, s.threads (s.procs k).pid = some th ∧ th.slot = k ∧ th.fate.isSome = true
  /-- A thread that is ending does not change its slot once another process has it. -/
  late : ∀ t th e s', s.threads t = some th → th.fate.isSome = true →
    (s.procs th.slot).pid ≠ t → s.step t e = some s' → s'.procs th.slot = s.procs th.slot
  /-- No process is returned twice. -/
  once : (s.returned.map Prod.fst).Nodup
  /-- A process is returned with its own status. -/
  status : ∀ r ∈ s.returned, ∃ th fate, s.threads r.1 = some th ∧ th.fate = some fate ∧
    r.2 = waitStatus fate.1 fate.2

theorem fate_of_marked {pc : ProcPc} {fate : Option (ℤ × ℤ)} (marked : pc.phase = .marked)
    (fits : FateFits fate pc) : fate.isSome = true := by
  unfold ProcPc.phase at marked
  split at marked
  all_goals try cases marked
  · next path =>
    cases path with
    | exit | trap | signal =>
      obtain ⟨_, rfl⟩ := fits
      rfl
    | kill | finish => exact Option.isSome_of_eq_some fits
  · next path =>
    cases path with
    | exit | trap | finish => exact absurd fits id
    | signal =>
      obtain ⟨_, rfl⟩ := fits
      rfl
    | kill => exact Option.isSome_of_eq_some fits

theorem ProcInv.lifecycle {s : ProcTable} (inv : ProcInv s) : Lifecycle s where
  zombie k zombie := by
    obtain ⟨th, owner, slot⟩ := inv.owned k (by simp [zombie])
    have fits := inv.threadFits _ th owner
    have slotFits := fits.slotFits (by rw [slot])
    refine ⟨th, owner, slot, ?_⟩
    rw [slot] at slotFits
    cases phase : th.pc.phase with
    | alive =>
      rw [phase] at slotFits
      simp [SlotFits, Proc.live, zombie] at slotFits
    | marked => exact fate_of_marked phase fits.fateFits
    | recorded =>
      rw [phase] at slotFits
      exact Option.isSome_of_eq_some (slotFits.resolve_right (by simp [zombie])).2
    | ended =>
      rw [phase] at slotFits
      exact Option.isSome_of_eq_some (slotFits zombie)
  late t th e s' here _ given next := by
    have done : th.pc = .done := by
      by_contra active
      exact given ((inv.threadFits t th here).slotPid active)
    have stuck : s.step t e = none := by
      simp only [ProcTable.step, here, done]
      cases e <;> rfl
    rw [stuck] at next
    cases next
  once := inv.once
  status := inv.status

/-- In every run of allowed steps, a zombie's process is ending or has ended, a thread that is ending
does not change a slot that another process has, and every process is returned by at most one wait
call, with its own status. -/
theorem proc_lifecycle {s : ProcTable} (run : procSystem.ReachableIf ProcOk s) : Lifecycle s := by
  have inv : ProcInv s := by
    refine run.invariant (fun s start => ?_) fun s a s' inv ok next => inv.step ok next
    rw [show s = .initial from start]
    exact .initial
  exact inv.lifecycle

/-- The slot of a process that has called `exit` is a zombie. -/
theorem proc_lifecycle_after_exit :
    ∃ s : ProcTable, procSystem.ReachableIf ProcOk s ∧
      (s.procs ⟨0, by decide⟩).state = .zombie ∧ Lifecycle s := by
  have start : procSystem.ReachableIf ProcOk .initial := .init rfl
  have exit := start.step (a := (1, ProcEvent.exit 3)) (fun th here => by cases here; trivial)
    (show ProcTable.initial.step 1 (.exit 3) = some _ from rfl)
  have test := exit.step (a := (1, ProcEvent.next true)) (fun th here => by cases here; trivial)
    (show ProcTable.step _ 1 (.next true) = some _ from rfl)
  have marked := test.step (a := (1, ProcEvent.next true)) (fun th here => by cases here; trivial)
    (show ProcTable.step _ 1 (.next true) = some _ from rfl)
  exact ⟨_, marked, rfl, proc_lifecycle marked⟩

/-! ## A slot that is reused too early -/

/-- Make a list of steps. -/
def ProcTable.run (s : ProcTable) : List (ℕ × ProcEvent) → Option ProcTable
  | [] => some s
  | a :: rest => (s.step a.1 a.2).bind fun s => s.run rest

theorem reachable_run {s s' : ProcTable} {steps : List (ℕ × ProcEvent)}
    (before : procSystem.Reachable s) (made : s.run steps = some s') : procSystem.Reachable s' := by
  induction steps generalizing s with
  | nil =>
    cases made
    exact before
  | cons a rest ih =>
    obtain ⟨middle, next, later⟩ := Option.bind_eq_some_iff.mp made
    exact ih (before.next (a := a) next) later

/-- The root process forks a child, which traps.  The child has marked its slot and not yet stored
its exit code when the root process waits for it and forks another child, which gets the slot.  The
thread of the first child then goes on to the end of `fork_thread_func`. -/
def lateTrap : List (ℕ × ProcEvent) :=
  (1, .fork) :: List.replicate 11 (1, .next true) ++ [(2, .trap 139), (2, .next true)] ++
    (1, .wait (-1) false) :: List.replicate 10 (1, .next true) ++
    (1, .fork) :: List.replicate 11 (1, .next true) ++ List.replicate 5 (2, .next true)

/-- The second child is a zombie while it runs, and the first was returned with the status 0 instead
of 139. -/
theorem running_child_is_zombie :
    ∃ s, procSystem.Reachable s ∧
      s.procs ⟨1, by decide⟩ = ⟨3, 1, .zombie, 139, 0, true, false⟩ ∧
      s.threads 3 = some ⟨⟨1, by decide⟩, .run, none⟩ ∧ s.returned = [(2, 0)] ∧
      (s.threads 2).map ProcThread.fate = some (some (139, 0)) ∧ ¬ Lifecycle s := by
  obtain ⟨s, made⟩ : ∃ s, ProcTable.initial.run lateTrap = some s := ⟨_, rfl⟩
  have look : (ProcTable.initial.run lateTrap).map (fun s => (s.procs ⟨1, by decide⟩, s.threads 3,
      s.returned, (s.threads 2).map ProcThread.fate)) =
      some (⟨3, 1, .zombie, 139, 0, true, false⟩, some ⟨⟨1, by decide⟩, .run, none⟩, [(2, 0)],
        some (some (139, 0))) := rfl
  rw [made] at look
  simp only [Option.map_some, Option.some.injEq, Prod.mk.injEq] at look
  obtain ⟨slot, second, returned, first⟩ := look
  refine ⟨s, reachable_run (.start rfl) made, slot, second, returned, first, fun promised => ?_⟩
  obtain ⟨th, thread, -, ending⟩ := promised.zombie ⟨1, by decide⟩ (by rw [slot])
  rw [slot, second] at thread
  cases thread
  cases ending

end Yos
