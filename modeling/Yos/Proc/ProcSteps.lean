import Yos.Proc.ProcInv

/-!
# The steps of a thread on its own slot

Guest code, the marking of a slot and the cleanup after it keep the invariant.
-/

namespace Yos

section Steps

variable {s s' : ProcTable} {t : ℕ} {th : ProcThread} {pc : ProcPc} {k : Fin maxProcs}

theorem put_eq (s : ProcTable) (t : ℕ) (th : ProcThread) :
    s.put t th = s.after t th (s.procs th.slot) s.lock := by
  simp [ProcTable.put, ProcTable.after]

theorem goto_eq (s : ProcTable) (t : ℕ) (th : ProcThread) (pc : ProcPc) :
    s.goto t th pc = s.after t { th with pc } (s.procs th.slot) s.lock := put_eq s t _

theorem release_eq (s : ProcTable) (t : ℕ) (th : ProcThread) (pc : ProcPc) :
    s.release t th pc = s.after t { th with pc } (s.procs th.slot) none := by
  simp [ProcTable.release, ProcTable.goto, ProcTable.put, ProcTable.after]

theorem acquire_eq (next : s.acquire t th pc = some s') :
    s.lock = none ∧ s' = s.after t { th with pc } (s.procs th.slot) (some t) := by
  unfold ProcTable.acquire at next
  split at next
  · next free =>
    cases next
    refine ⟨free, ?_⟩
    simp [ProcTable.goto, ProcTable.put, ProcTable.after]
  · cases next

theorem write_goto_eq (s : ProcTable) (t : ℕ) (th : ProcThread) (pc : ProcPc) (f : Proc → Proc) :
    (s.write th.slot f).goto t th pc = s.after t { th with pc } (f (s.procs th.slot)) s.lock := rfl

/-- Guest code ends: the status is fixed, and the slot still says that the process lives. -/
theorem ProcInv.endRun (inv : ProcInv s) (here : s.threads t = some th) (run : th.pc = .run)
    {fate : ℤ × ℤ} (phase : pc.phase = .alive) (fateFits : FateFits (some fate) pc)
    (unlocked : pc.locked = false) (plain : pc.Plain) :
    ProcInv (s.put t { th with pc, fate := some fate }) := by
  have fits := inv.threadFits t th here
  have active : th.pc ≠ .done := by simp [run]
  have pid := fits.slotPid active
  have slotFits := fits.slotFits pid
  have noFate := fits.fateFits
  simp only [run, ProcPc.phase] at slotFits
  simp only [run, FateFits] at noFate
  rw [put_eq]
  refine inv.plain here rfl active (by simp [run]) pid ?_ fateFits ?_ ?_ (.inl rfl) ?_ plain
  · show SlotFits _ (s.procs th.slot) pc.phase
    rw [phase]
    exact slotFits
  · intro other known
    rw [noFate] at known
    cases known
  · intro recorded
    simp [run, ProcPc.phase] at recorded
  · intro locked
    rw [unlocked] at locked
    cases locked

theorem ProcInv.runStep (inv : ProcInv s) (here : s.threads t = some th) (run : th.pc = .run)
    {e : ProcEvent} (next : s.runStep t th e = some s') : ProcInv s' := by
  have active : th.pc ≠ .done := by simp [run]
  have born : ∀ parent, th.pc ≠ .unborn parent := by simp [run]
  have fits := inv.threadFits t th here
  have noFate := fits.fateFits
  simp only [run, FateFits] at noFate
  cases e with
  | next answer => cases next
  | wait pid nohang =>
    cases next
    rw [goto_eq]
    exact inv.moveOn here active born (by rw [run]; rfl) noFate (.inl rfl) (fun h => by cases h)
      ⟨rfl, rfl, rfl⟩
  | fork =>
    cases next
    rw [goto_eq]
    exact inv.moveOn here active born (by rw [run]; rfl) noFate (.inl rfl) (fun h => by cases h)
      ⟨rfl, rfl, rfl⟩
  | exit code =>
    cases next
    exact inv.endRun here run rfl ⟨code, rfl⟩ rfl ⟨rfl, rfl, rfl⟩
  | trap code =>
    cases next
    exact inv.endRun here run rfl ⟨code, rfl⟩ rfl ⟨rfl, rfl, rfl⟩
  | finish =>
    cases next
    exact inv.endRun here run rfl rfl rfl ⟨rfl, rfl, rfl⟩
  | signal sig =>
    cases next
    exact inv.endRun here run rfl ⟨sig, rfl⟩ rfl ⟨rfl, rfl, rfl⟩
  | kill =>
    cases next
    exact inv.endRun here run rfl rfl rfl ⟨rfl, rfl, rfl⟩
  | vanish =>
    cases next
    rw [goto_eq]
    have pid := fits.slotPid active
    have slotFits := fits.slotFits pid
    simp only [run, ProcPc.phase, SlotFits] at slotFits
    refine inv.plain here rfl active born pid (fun zombie => ?_) trivial (fun _ known => known) ?_
      (.inl rfl) (fun h => by cases h) ⟨rfl, rfl, rfl⟩
    · simp [Proc.live, zombie] at slotFits
    · intro recorded
      simp [run, ProcPc.phase] at recorded

section Mark

variable {path : ExitPath} {stage : MarkStage}

/-- An assignment to the slot of a thread that marks it. -/
theorem ProcInv.markOn (inv : ProcInv s) (here : s.threads t = some th)
    (mark : th.pc = .mark path stage) {f : Proc → Proc} (pid : ∀ p, (f p).pid = p.pid)
    (slotFits : SlotFits th.fate (f (s.procs th.slot)) pc.phase) (fateFits : FateFits th.fate pc)
    (settled : stage = .flag → (pc.phase = .recorded ∨ pc.phase = .ended) ∧
      ∀ p, (f p).state = p.state ∧ (f p).exitCode = p.exitCode ∧ (f p).termSig = p.termSig)
    (locked : pc.locked = true → (ProcPc.mark path stage).locked = true) (plain : pc.Plain) :
    ProcInv ((s.write th.slot f).goto t th pc) := by
  have active : th.pc ≠ .done := by simp [mark]
  have fits := inv.threadFits t th here
  rw [write_goto_eq]
  refine inv.plain here rfl active (by simp [mark]) ((pid _).trans (fits.slotPid active)) slotFits
    fateFits (fun _ known => known) (fun recorded => ?_) (.inl rfl) (fun held => ?_) plain
  · rw [mark] at recorded
    cases stage with
    | state | code | term => cases recorded
    | flag => exact ⟨(settled rfl).1, .inl ((settled rfl).2 _)⟩
  · exact fits.locked (by rw [mark]; exact locked held)

/-- `state = YOS_PROC_ZOMBIE`. -/
theorem ProcInv.markState (inv : ProcInv s) (here : s.threads t = some th)
    (mark : th.pc = .mark path .state) : ProcInv (s.markStep t th path .state) := by
  have fits := inv.threadFits t th here
  have slotFits := fits.slotFits (fits.slotPid (by simp [mark]))
  have fateFits := fits.fateFits
  rw [mark] at slotFits fateFits
  simp only [ProcTable.markStep]
  refine inv.markOn here mark (fun _ => rfl) ⟨rfl, slotFits.2⟩ ?_ (fun flag => by cases flag)
    (fun held => ?_) ⟨rfl, rfl, rfl⟩
  · cases path <;> exact fateFits
  · cases path <;> first | rfl | cases held

/-- The status is complete with the exit code, unless a signal is stored next. -/
theorem ProcInv.markCode (inv : ProcInv s) (here : s.threads t = some th)
    (mark : th.pc = .mark path .code) : ProcInv (s.markStep t th path .code) := by
  have fits := inv.threadFits t th here
  have slotFits := fits.slotFits (fits.slotPid (by simp [mark]))
  have fateFits := fits.fateFits
  rw [mark] at slotFits fateFits
  obtain ⟨zombie, -, term⟩ := slotFits
  simp only [ProcTable.markStep]
  refine inv.markOn here mark (fun _ => rfl) ?_ ?_ (fun flag => by cases flag) (fun held => ?_) ?_
  · cases path with
    | exit | trap =>
      obtain ⟨c, known⟩ := fateFits
      exact .inl ⟨zombie, by simp [known, ExitPath.code, term]⟩
    | finish => exact .inl ⟨zombie, by simp [show th.fate = _ from fateFits, ExitPath.code, term]⟩
    | signal | kill => exact ⟨zombie, rfl, term⟩
  · cases path <;> exact fateFits
  · cases path <;> first | rfl | cases held
  · cases path <;> exact ⟨rfl, rfl, rfl⟩

/-- Only a signal stores `term_sig`. -/
theorem ProcInv.markTerm (inv : ProcInv s) (here : s.threads t = some th)
    (mark : th.pc = .mark path .term) : ProcInv (s.markStep t th path .term) := by
  have fits := inv.threadFits t th here
  have slotFits := fits.slotFits (fits.slotPid (by simp [mark]))
  have fateFits := fits.fateFits
  rw [mark] at slotFits fateFits
  obtain ⟨zombie, code, -⟩ := slotFits
  simp only [ProcTable.markStep]
  cases path with
  | exit | trap | finish => exact absurd fateFits id
  | signal =>
    obtain ⟨sig, known⟩ := fateFits
    refine inv.markOn here mark (fun _ => rfl) (.inl ⟨zombie, ?_⟩) ⟨sig, known⟩
      (fun flag => by cases flag) (fun held => by cases held) ⟨rfl, rfl, rfl⟩
    simp [known, ExitPath.sig, code]
  | kill =>
    have known : th.fate = some (0, 9) := fateFits
    refine inv.markOn here mark (fun _ => rfl) (.inl ⟨zombie, ?_⟩) known
      (fun flag => by cases flag) (fun held => by cases held) ⟨rfl, rfl, rfl⟩
    simp [known, ExitPath.sig, code]

/-- `exited = 1`. -/
theorem ProcInv.markFlag (inv : ProcInv s) (here : s.threads t = some th)
    (mark : th.pc = .mark path .flag) : ProcInv (s.markStep t th path .flag) := by
  have fits := inv.threadFits t th here
  have slotFits := fits.slotFits (fits.slotPid (by simp [mark]))
  rw [mark] at slotFits
  simp only [ProcTable.markStep]
  refine inv.markOn here mark (fun _ => rfl) ?_ ?_ (fun _ => ⟨?_, fun _ => ⟨rfl, rfl, rfl⟩⟩)
    (fun held => ?_) ?_
  · cases path with
    | exit | trap | signal | finish => exact slotFits
    | kill =>
      intro zombie
      have notFree : (s.procs th.slot).state ≠ .free := by
        rw [show (s.procs th.slot).state = .zombie from zombie]
        decide
      exact (slotFits.resolve_right notFree).2
  · cases path <;> exact trivial
  · cases path <;> first | exact .inl rfl | exact .inr rfl
  · cases path <;> first | rfl | cases held
  · cases path <;> exact ⟨rfl, rfl, rfl⟩

/-- The assignments that mark the slot. -/
theorem ProcInv.markStep (inv : ProcInv s) (here : s.threads t = some th)
    (mark : th.pc = .mark path stage) : ProcInv (s.markStep t th path stage) := by
  cases stage with
  | state => exact inv.markState here mark
  | code => exact inv.markCode here mark
  | term => exact inv.markTerm here mark
  | flag => exact inv.markFlag here mark

end Mark

/-- The test of the state in `yos_exit`: the process lives. -/
theorem ProcInv.exitTest (inv : ProcInv s) (here : s.threads t = some th) (test : th.pc = .exitTest)
    (next : (if (s.procs th.slot).live then some (s.goto t th (.mark .exit .state))
      else some (s.goto t th (.cleanup .pid))) = some s') : ProcInv s' := by
  have active : th.pc ≠ .done := by simp [test]
  have fits := inv.threadFits t th here
  have slotFits := fits.slotFits (fits.slotPid active)
  have fateFits := fits.fateFits
  rw [test] at slotFits fateFits
  rw [if_pos slotFits.1] at next
  cases next
  rw [goto_eq]
  exact inv.moveOn here active (by simp [test]) (by rw [test]; rfl) fateFits (.inl rfl)
    (fun h => by cases h) ⟨rfl, rfl, rfl⟩

/-- The test of the state at the end of `fork_thread_func`: after a trap the slot is marked or free,
else the process lives. -/
theorem ProcInv.finalTest (inv : ProcInv s) (here : s.threads t = some th) {trapped : Bool}
    (test : th.pc = .finalTest trapped)
    (next : (if (s.procs th.slot).live then some (s.goto t th (.mark .finish .state))
      else some (s.goto t th .finalUnlock)) = some s') : ProcInv s' := by
  have active : th.pc ≠ .done := by simp [test]
  have born : ∀ parent, th.pc ≠ .unborn parent := by simp [test]
  have fits := inv.threadFits t th here
  have slotFits := fits.slotFits (fits.slotPid active)
  have fateFits := fits.fateFits
  have held : s.lock = some t := fits.locked (by rw [test]; rfl)
  rw [test] at slotFits fateFits
  cases trapped with
  | false =>
    rw [if_pos slotFits.1] at next
    cases next
    rw [goto_eq]
    exact inv.moveOn here active born (by rw [test]; rfl) fateFits (.inl rfl) (fun _ => held)
      ⟨rfl, rfl, rfl⟩
  | true =>
    have dead : ¬ (s.procs th.slot).live = true := by
      rcases slotFits with ⟨zombie, -⟩ | free
      · simp [Proc.live, zombie]
      · simp [Proc.live, free]
    rw [if_neg dead] at next
    cases next
    rw [goto_eq]
    exact inv.moveOn here active born (by rw [test]; rfl) trivial (.inl rfl) (fun _ => held)
      ⟨rfl, rfl, rfl⟩

theorem ProcInv.finalLock (inv : ProcInv s) (here : s.threads t = some th) {trapped : Bool}
    (final : th.pc = .finalLock trapped) (next : s.acquire t th (.finalTest trapped) = some s') :
    ProcInv s' := by
  have fateFits := (inv.threadFits t th here).fateFits
  rw [final] at fateFits
  obtain ⟨free, rfl⟩ := acquire_eq next
  refine inv.moveOn here (by simp [final]) (by simp [final]) ?_ ?_ (.inr (.inl free)) (fun _ => rfl)
    ⟨rfl, rfl, rfl⟩
  · rw [final]
    cases trapped <;> rfl
  · cases trapped <;> exact fateFits

/-- `proc_lock` is given back at the end of a thread. -/
theorem ProcInv.endThread (inv : ProcInv s) (here : s.threads t = some th)
    (recorded : th.pc.phase = .recorded) (locked : th.pc.locked = true) :
    ProcInv (s.release t th .done) := by
  have active : th.pc ≠ .done := by
    intro done
    rw [done] at recorded
    cases recorded
  have born : ∀ parent, th.pc ≠ .unborn parent := by
    intro parent unborn
    rw [unborn] at recorded
    cases recorded
  have fits := inv.threadFits t th here
  have pid := fits.slotPid active
  have slotFits := fits.slotFits pid
  rw [recorded] at slotFits
  rw [release_eq]
  refine inv.plain here rfl active born pid (fun zombie => ?_) trivial (fun _ known => known)
    (fun _ => ⟨.inr rfl, .inl ⟨rfl, rfl, rfl⟩⟩) (.inr (.inr (fits.locked locked))) (fun h => by cases h)
    ⟨rfl, rfl, rfl⟩
  have notFree : (s.procs th.slot).state ≠ .free := by
    rw [zombie]
    decide
  exact (slotFits.resolve_right notFree).2

theorem slotFits_congr {fate : Option (ℤ × ℤ)} {p p' : Proc} {phase : Phase}
    (state : p'.state = p.state) (code : p'.exitCode = p.exitCode) (term : p'.termSig = p.termSig)
    (fits : SlotFits fate p phase) : SlotFits fate p' phase := by
  cases phase <;> simpa only [SlotFits, Proc.live, state, code, term] using fits

/-- Other fields than the pid, the state and the status do not matter. -/
theorem ProcInv.relabel (inv : ProcInv s) (i : Fin maxProcs) {f : Proc → Proc}
    (pid : ∀ p, (f p).pid = p.pid) (state : ∀ p, (f p).state = p.state)
    (code : ∀ p, (f p).exitCode = p.exitCode) (term : ∀ p, (f p).termSig = p.termSig) :
    ProcInv (s.write i f) := by
  have same : ∀ k, ((s.write i f).procs k).pid = (s.procs k).pid ∧
      ((s.write i f).procs k).state = (s.procs k).state ∧
      ((s.write i f).procs k).exitCode = (s.procs k).exitCode ∧
      ((s.write i f).procs k).termSig = (s.procs k).termSig := by
    intro k
    by_cases here : k = i
    · subst here
      simp [ProcTable.write, pid, state, code, term]
    · simp [ProcTable.write, here]
  have pid k := (same k).1
  have state k := (same k).2.1
  have code k := (same k).2.2.1
  have term k := (same k).2.2.2
  refine ⟨fun t th thread => ?_, fun k used => ?_, inv.created, inv.once, inv.status,
    fun r mem k at_ => ?_⟩
  · have fits := inv.threadFits t th thread
    refine ⟨fun active => ?_, fun mine => ?_, fits.fateFits, fits.locked, fun k claims => ?_, ?_,
      fun k takes => ?_, fits.expected⟩
    · rw [pid]
      exact fits.slotPid active
    · rw [pid] at mine
      exact slotFits_congr (state _) (code _) (term _) (fits.slotFits mine)
    · obtain ⟨zombie, owner⟩ := fits.claimed k claims
      exact ⟨by rw [state]; exact zombie, by rw [pid]; exact owner⟩
    · cases claims : th.pc.claims with
      | none => exact readsFit_of_not_claims claims
      | some k => exact readsFit_congr claims (pid k) (code k) (term k) fits.readsFit
    · obtain ⟨free, vacant⟩ := fits.taken k takes
      exact ⟨by rw [state]; exact free, vacant⟩
  · rw [state] at used
    rw [pid]
    exact inv.owned k used
  · rw [pid] at at_
    rw [state]
    exact inv.reaped r mem k at_

/-- `yos_proc_post_exit_cleanup`. -/
theorem ProcInv.cleanupStep (inv : ProcInv s) (here : s.threads t = some th) {stage : CleanupStage}
    (cleanup : th.pc = .cleanup stage) {answer : Bool}
    (next : s.cleanupStep t th answer stage = some s') : ProcInv s' := by
  have active : th.pc ≠ .done := by simp [cleanup]
  have born : ∀ parent, th.pc ≠ .unborn parent := by simp [cleanup]
  have phase : th.pc.phase = .recorded := by
    rw [cleanup]
    rfl
  have fits := inv.threadFits t th here
  have pid := fits.slotPid active
  have slotFits := fits.slotFits pid
  have locked := fits.locked
  rw [phase] at slotFits
  rw [cleanup] at locked
  cases stage with
  | pid | ppid _ | orphan _ _ =>
    cases next
    rw [goto_eq]
    exact inv.moveOn here active born phase.symm trivial (.inl rfl) (fun h => by cases h)
      ⟨rfl, rfl, rfl⟩
  | lock pid ppid ignores =>
    obtain ⟨free, rfl⟩ := acquire_eq next
    exact inv.moveOn here active born phase.symm trivial (.inr (.inl free)) (fun _ => rfl)
      ⟨rfl, rfl, rfl⟩
  | loop i pid ppid ignores =>
    simp only [ProcTable.cleanupStep] at next
    split at next
    · next h =>
      cases next
      have relabelled : ProcInv (s.write ⟨i, h⟩ (ProcTable.orphan pid)) := by
        refine inv.relabel _ ?_ ?_ ?_ ?_
        all_goals
          intro p
          unfold ProcTable.orphan
          split <;> rfl
      rw [goto_eq]
      exact relabelled.moveOn here active born phase.symm trivial (.inl rfl) (fun _ => locked rfl)
        ⟨rfl, rfl, rfl⟩
    · cases next
      rw [goto_eq]
      exact inv.moveOn here active born phase.symm trivial (.inl rfl) (fun _ => locked rfl)
        ⟨rfl, rfl, rfl⟩
  | test ignores =>
    simp only [ProcTable.cleanupStep] at next
    split at next
    all_goals
      cases next
      rw [goto_eq]
      exact inv.moveOn here active born phase.symm trivial (.inl rfl) (fun _ => locked rfl)
        ⟨rfl, rfl, rfl⟩
  | free =>
    cases next
    rw [write_goto_eq]
    exact inv.plain here rfl active born pid (.inr rfl) trivial (fun _ known => known)
      (fun _ => ⟨.inl rfl, .inr ⟨locked rfl, rfl⟩⟩) (.inl rfl) (fun _ => locked rfl) ⟨rfl, rfl, rfl⟩
  | unlock =>
    cases next
    exact inv.endThread here phase (by rw [cleanup]; rfl)

end Steps

end Yos
