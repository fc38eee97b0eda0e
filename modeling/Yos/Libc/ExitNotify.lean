import Yos.Libc.WatchRegs
import Yos.Proc.ProcEnd

/-!
# Exit events

`yos_exit` of a forked process calls `yos_kqueue_notify_exit` as its last step, with the pid that its
slot holds then.  The processes run beside the kqueues; the exits of `ProcWatch` are these calls.

In runs of the steps `NotifyOk` allows, a process that has ended has a ready eventfd in every open
kqueue that watches it and has not reported it (`exit_event_not_lost`).  The other ways a process ends
do not call `yos_kqueue_notify_exit`, so that the event of a process that was killed is lost
(`killed_child_not_reported`).
-/

namespace Yos

/-- The kqueues, the way every process has ended, and the processes that have called
`yos_kqueue_notify_exit`. -/
structure ExitNote where
  watch : WatchState
  via : ℕ → Option ExitPath
  notified : ℕ → Bool

/-- A step of the kqueues, or the call of `yos_kqueue_notify_exit`. -/
inductive NotifyEvent where
  | watch (op : WatchOp)
  | notify (t : ℕ)

namespace ExitNote

variable (x : ExitNote)

def initial : ExitNote := ⟨.initial, fun _ => none, fun _ => false⟩

/-- Guest code ends. -/
def follow (s : ProcTable) (a : ℕ × ProcEvent) : ExitNote :=
  match (s.threads a.1).map ProcThread.pc, a.2.path with
  | some .run, some path => { x with via := Function.update x.via a.1 (some path) }
  | _, _ => x

/-- The process will call `yos_kqueue_notify_exit`, or has called it. -/
def Notifies (t : ℕ) : Prop := x.via t = some .exit ∧ t ≠ 1

end ExitNote

/-- The steps besides those of the table. -/
inductive NotifyStep (s : ProcTable) (x : ExitNote) : NotifyEvent → ExitNote → Prop where
  | watch {op : WatchOp} {w : WatchState} (guest : ∀ pid, op ≠ .exit pid)
      (next : WatchStep x.watch op w) : NotifyStep s x (.watch op) { x with watch := w }
  | notify {t : ℕ} {th : ProcThread} (here : s.threads t = some th) (done : th.pc = .done)
      (notifies : x.Notifies t) (new : x.notified t = false) :
      NotifyStep s x (.notify t) { x with
        watch := x.watch.notifyExit (s.procs th.slot).pid
        notified := Function.update x.notified t true }

/-- The processes and the kqueues. -/
def notifySystem : System (ProcTable × ExitNote) ((ℕ × ProcEvent) ⊕ NotifyEvent) :=
  procSystem.beside .initial (fun s a x => x.follow s a) NotifyStep

/-! ## The condition -/

/-- A slot is reused only after the calls of `yos_kqueue_notify_exit` of the processes it held, and a
process that is watched ends by `yos_exit`. -/
def EndsNotified (p : ProcTable × ExitNote) (t : ℕ) (e : ProcEvent) : Prop :=
  ∀ th, p.1.threads t = some th →
    match th.pc with
    | .alloc _ (.init k) => ∀ u thu, p.1.threads u = some thu → thu.slot = k →
        thu.pc = .done ∧ (p.2.Notifies u → p.2.notified u = true)
    | .run => (e.path = none ∧ e ≠ .vanish) ∨ (e.path = some .exit ∧ t ≠ 1) ∨ p.2.watch.Unwatched t
    | .pump child (.start _) | .pump child (.create _) => e = .next false → p.2.watch.Unwatched child
    | _ => True

/-- `EV_ADD` finds room and gets an eventfd, and is made before the process has called
`yos_kqueue_notify_exit` and only for one that does; and a kqueue is closed only when no call of
`kevent` has events of it to report. -/
def NotifyOk (p : ProcTable × ExitNote) : (ℕ × ProcEvent) ⊕ NotifyEvent → Prop
  | .inl (t, e) => EndsNotified p t e
  | .inr (.watch (.add _ pid _ efd)) =>
    p.2.watch.freeWatch.isSome = true ∧ (∃ e, efd = some e ∧ 0 < e) ∧
      ∀ th, p.1.threads pid = some th →
        th.pc.guest = true ∨ p.2.Notifies pid ∧ p.2.notified pid = false
  | .inr (.watch (.close fd)) =>
    ∀ caller poll, p.2.watch.polls caller = some poll → poll.fd = fd → poll.events = []
  | .inr _ => True

/-- No process is ending. -/
def Quiet (p : ProcTable × ExitNote) : Prop :=
  ∀ t th, p.1.threads t = some th →
    th.pc.guest = true ∨ th.pc = .done ∧ (p.2.Notifies t → p.2.notified t = true)

/-! ## The invariant -/

/-- What holds of processes and kqueues together: a process that is ending and will not notify is not
watched, and one that will notify finds its pid in its slot. -/
structure NotifyInv (s : ProcTable) (x : ExitNote) : Prop where
  regs : RegInv x.watch x.notified
  doomed : ∀ t th, s.threads t = some th → th.pc.guest = false → ¬ x.Notifies t → x.watch.Unwatched t
  notified : ∀ t, x.notified t = true → ∃ th, s.threads t = some th ∧ th.pc = .done
  slot : ∀ t th, s.threads t = some th → x.Notifies t → x.notified t = false →
    (s.procs th.slot).pid = t
  unused : ∀ t, s.threads t = none → x.via t = none

section Processes

variable {s : ProcTable} {x x' : ExitNote} {t : ℕ} {th : ProcThread} {e : ProcEvent}
  {effect : ProcEffect} {pc : ProcPc}

/-- A thread leaves guest code when the process ends. -/
theorem ProcArrow.guest_before (arrow : ProcArrow s t th e th.pc effect pc) (ends : pc.guest = false) :
    th.pc.guest = false ∨ th.pc = .run ∧ (e.path ≠ none ∨ e = .vanish) := by
  generalize th.pc = at_ at *
  cases arrow with
  | exit | trap | finish | signal | kill => exact .inr ⟨rfl, .inl nofun⟩
  | vanish => exact .inr ⟨rfl, .inr rfl⟩
  | waitUnlock w again => cases again <;> cases ends
  | allocUnlock ppid child => cases child <;> cases ends
  | pumpUnlock child found => cases found <;> cases ends
  | _ => first | exact .inl rfl | cases ends

/-- A fork gives its child up when it fails. -/
theorem ProcArrow.abandons {child : ℕ} {k : Fin maxProcs}
    (arrow : ProcArrow s t th e th.pc (.abandon child k) pc) :
    (th.pc = .pump child (.start k) ∨ th.pc = .pump child (.create k)) ∧ e = .next false := by
  generalize th.pc = at_ at *
  cases arrow with
  | startFails => exact ⟨.inl rfl, rfl⟩
  | createFails => exact ⟨.inr rfl, rfl⟩

/-- A slot keeps its pid until it is reused. -/
theorem Tame.pid_kept {k : Fin maxProcs} (tame : Tame s t th effect) :
    (effect.slot s k).pid = (s.procs k).pid ∨ ∃ ppid, effect = .allocate k ppid := by
  cases effect with
  | quiet | acquire | release | born => exact .inl rfl
  | write j f =>
    left
    by_cases same : k = j
    · subst same
      rw [ProcEffect.slot_write_self]
      exact tame.1
    · exact congrArg Proc.pid (if_neg same)
  | reap j | abandon _ j =>
    left
    simp only [ProcEffect.slot]
    split <;> rfl
  | allocate j ppid =>
    by_cases same : k = j
    · exact .inr ⟨ppid, by rw [same]⟩
    · exact .inl (congrArg Proc.pid (if_neg same))

theorem follow_note (x : ExitNote) (s : ProcTable) (a : ℕ × ProcEvent) :
    (x.follow s a).watch = x.watch ∧ (x.follow s a).notified = x.notified ∧
      ∀ u, u ≠ a.1 → (x.follow s a).via u = x.via u := by
  unfold ExitNote.follow
  split
  · exact ⟨rfl, rfl, fun u other => Function.update_of_ne other _ _⟩
  · exact ⟨rfl, rfl, fun _ _ => rfl⟩

theorem follow_via (here : s.threads t = some th) :
    (x.follow s (t, e)).via t =
      if th.pc = .run then (e.path.map some).getD (x.via t) else x.via t := by
  unfold ExitNote.follow
  simp only [here, Option.map_some]
  split
  · next place path =>
    simp only [Option.some.injEq] at place
    rw [if_pos place]
    simp [path]
  · next other =>
    by_cases run : th.pc = .run
    · rw [if_pos run]
      cases path : e.path with
      | none => rfl
      | some path' => exact absurd path (other path' (by rw [run]))
    · rw [if_neg run]

theorem EndsNotified.reuse (ok : EndsNotified (s, x) t e) : ReuseOk s (t, e) := by
  intro th ppid k here place u thu thread slot
  have vacant := ok th here
  simp only [place] at vacant
  exact (vacant u thu thread slot).1

/-- A process that is ending after a step and will not notify is not watched. -/
theorem NotifyInv.doomed_moved (own : OwnInv s) (inv : NotifyInv s x) (here : s.threads t = some th)
    (ok : EndsNotified (s, x) t e) (arrow : ProcArrow s t th e th.pc effect pc)
    {fate : Option (ℤ × ℤ)} {u : ℕ} {thu : ProcThread}
    (thread : (s.moved t ⟨th.slot, pc, fate⟩ effect).threads u = some thu)
    (ends : thu.pc.guest = false) (silent : ¬ (x.follow s (t, e)).Notifies u) :
    x.watch.Unwatched u := by
  have tame := own.tame here ok.reuse arrow
  have allowed := ok th here
  by_cases mine : u = t
  · subst mine
    rw [own.self_moved here arrow.active.2 tame] at thread
    cases thread
    rcases arrow.guest_before ends with earlier | ⟨place, ending⟩
    · refine inv.doomed u th here earlier fun notifies => silent ⟨?_, notifies.2⟩
      have running : th.pc ≠ .run := by
        intro place
        rw [place] at earlier
        cases earlier
      rw [follow_via here, if_neg running]
      exact notifies.1
    · simp only [place] at allowed
      rcases allowed with ⟨path, alive⟩ | ⟨path, child⟩ | unwatched
      · exact absurd (ending.resolve_left (absurd path)) alive
      · refine absurd ⟨?_, child⟩ silent
        rw [follow_via here, if_pos place, path]
        rfl
      · exact unwatched
  · have silent' : ¬ x.Notifies u := by
      unfold ExitNote.Notifies at silent ⊢
      rwa [(follow_note x s (t, e)).2.2 u mine] at silent
    rcases thread_moved_cases mine thread with ⟨-, before⟩ | ⟨isChild, after⟩
    · exact inv.doomed u thu before ends silent'
    · cases effect with
      | quiet | acquire | release | write | reap => cases isChild
      | allocate k ppid =>
        cases isChild
        simp only [ProcEffect.thread, if_true, Option.some.injEq] at after
        subst after
        cases ends
      | born child =>
        cases isChild
        obtain ⟨thc, childThread, -⟩ := tame
        simp only [ProcEffect.thread, if_true, childThread, Option.map_some, Option.some.injEq] at after
        subst after
        cases ends
      | abandon child k =>
        cases isChild
        obtain ⟨place | place, rfl⟩ := arrow.abandons
        all_goals
          simp only [place] at allowed
          exact allowed trivial

/-- A process that will notify finds its pid in its slot after a step. -/
theorem NotifyInv.slot_moved (own : OwnInv s) (inv : NotifyInv s x) (here : s.threads t = some th)
    (ok : EndsNotified (s, x) t e) (arrow : ProcArrow s t th e th.pc effect pc)
    {fate : Option (ℤ × ℤ)} {u : ℕ} {thu : ProcThread}
    (thread : (s.moved t ⟨th.slot, pc, fate⟩ effect).threads u = some thu)
    (notifies : (x.follow s (t, e)).Notifies u) (new : x.notified u = false) :
    (effect.slot s thu.slot).pid = u := by
  have tame := own.tame here ok.reuse arrow
  by_cases mine : u = t
  · subst mine
    rw [own.self_moved here arrow.active.2 tame] at thread
    cases thread
    have pid := own.self_pid here arrow.active.1 tame
    exact pid
  · have notifies' : x.Notifies u := by
      unfold ExitNote.Notifies at notifies ⊢
      rwa [(follow_note x s (t, e)).2.2 u mine] at notifies
    obtain ⟨thu', before, slot⟩ : ∃ thu', s.threads u = some thu' ∧ thu'.slot = thu.slot := by
      rcases own.thread_cases tame mine thread with before | ⟨parent, before, -⟩ | ⟨-, before, -⟩
      · exact ⟨thu, before, rfl⟩
      · exact ⟨_, before, rfl⟩
      · have none_ := inv.unused u before
        exact absurd (none_.symm.trans notifies'.1) nofun
    have pid := inv.slot u thu' before notifies' new
    rw [slot] at pid
    rcases tame.pid_kept (k := thu.slot) with kept | ⟨ppid, rfl⟩
    · exact kept.trans pid
    · have place : th.pc = .alloc ppid (.init thu.slot) := by
        generalize th.pc = at_ at *
        cases arrow
        rfl
      have vacant := ok th here
      simp only [place] at vacant
      have told := (vacant u thu' before slot).2 notifies'
      rw [new] at told
      cases told

/-- Every allowed step of the table keeps the invariant. -/
theorem NotifyInv.step {s' : ProcTable} {a : ℕ × ProcEvent} (own : OwnInv s) (inv : NotifyInv s x)
    (ok : NotifyOk (s, x) (.inl a)) (next : procSystem.step s a s') : NotifyInv s' (x.follow s a) := by
  obtain ⟨t, e⟩ := a
  change EndsNotified (s, x) t e at ok
  obtain ⟨th, here, effect, pc, fate, arrow, rfl⟩ := step_arrow next
  change s.threads t = some th at here
  have tame := own.tame here ok.reuse arrow
  obtain ⟨watch, notified, via⟩ := follow_note x s (t, e)
  refine ⟨?_, fun u thu thread ends silent => ?_, fun u told => ?_, fun u thu thread notifies new => ?_,
    fun u none_ => ?_⟩
  · rw [watch, notified]
    exact inv.regs
  · rw [watch]
    exact inv.doomed_moved own here ok arrow thread ends silent
  · rw [notified] at told
    obtain ⟨thu, thread, done⟩ := inv.notified u told
    refine ⟨thu, own.threads_kept tame ?_ thread fun parent unborn => ?_, done⟩
    · rintro rfl
      rw [here] at thread
      cases thread
      exact arrow.active.1 done
    · rw [done] at unborn
      cases unborn
  · rw [procs_moved]
    rw [notified] at new
    exact inv.slot_moved own here ok arrow thread notifies new
  · obtain ⟨other, before⟩ := own.none_before here arrow.active.2 (by rfl) tame none_
    rw [via u other]
    exact inv.unused u before

/-- Every other step that is allowed keeps the invariant. -/
theorem NotifyInv.alone {b : NotifyEvent} (inv : NotifyInv s x) (ok : NotifyOk (s, x) (.inr b))
    (next : NotifyStep s x b x') : NotifyInv s x' := by
  cases next with
  | @watch op w guest next =>
    have new : ∀ fd pid udata efd, op = .add fd pid udata efd → ∀ th, s.threads pid = some th →
        th.pc.guest = true ∨ x.Notifies pid ∧ x.notified pid = false := by
      rintro fd pid udata efd rfl
      exact ok.2.2
    refine ⟨inv.regs.step guest (fun fd pid udata efd adds => ?_) (fun fd closes => ?_) next,
      fun t th here ends silent kq => ?_, inv.notified, inv.slot, inv.unused⟩
    · subst adds
      refine ⟨ok.1, ok.2.1, ?_⟩
      cases told : x.notified pid with
      | false => rfl
      | true =>
        obtain ⟨th, here, done⟩ := inv.notified pid told
        rcases new fd pid udata efd rfl th here with guest | ⟨-, untold⟩
        · rw [done] at guest
          cases guest
        · rw [told] at untold
          cases untold
    · subst closes
      exact ok
    · cases reg : w.regs (kq, t) with
      | none => rfl
      | some udata =>
        rcases next.regs_old reg with old | ⟨fd, udata', efd, adds⟩
        · rw [inv.doomed t th here ends silent kq] at old
          cases old
        · rcases new fd t udata' efd adds th here with guest | ⟨notifies, -⟩
          · rw [ends] at guest
            cases guest
          · exact absurd notifies silent
  | @notify t th here done notifies new =>
    rw [inv.slot t th here notifies new]
    refine ⟨inv.regs.notifyExit t, inv.doomed, fun u told => ?_, fun u thu thread notifies' new' => ?_,
      inv.unused⟩
    · by_cases mine : u = t
      · subst mine
        exact ⟨th, here, done⟩
      · simp only [Function.update_of_ne mine] at told
        exact inv.notified u told
    · by_cases mine : u = t
      · subst mine
        simp only [Function.update_self] at new'
        cases new'
      · simp only [Function.update_of_ne mine] at new'
        exact inv.slot u thu thread notifies' new'

end Processes

theorem NotifyInv.initial : NotifyInv .initial .initial := by
  refine ⟨.initial, fun t th here ends _ => ?_, nofun, fun t th _ notifies _ => ?_, fun _ _ => rfl⟩
  · obtain ⟨-, rfl⟩ := initial_thread here
    cases ends
  · cases notifies.1

/-- In every run of allowed steps, when no process is ending, a process that has ended is reported by
the next `epoll_wait` on every open kqueue that watches it and has not reported it. -/
theorem exit_event_not_lost {p : ProcTable × ExitNote} (run : notifySystem.ReachableIf NotifyOk p)
    (quiet : Quiet p) {fd : ℤ} {kq pid udata : ℕ} {th : ProcThread} (open_ : p.2.watch.kqs fd = some kq)
    (registered : p.2.watch.regs (kq, pid) = some udata) (here : p.1.threads pid = some th)
    (done : th.pc = .done) : p.2.watch.Reports kq pid := by
  have inv : NotifyInv p.1 p.2 := by
    refine System.ReachableIf.beside_invariant ReuseOk (fun p a ok => ok.reuse) (fun s start => ?_)
      (fun s x a s' before inv ok next => inv.step (own_of_reachable before) ok next)
      (fun s x b x' _ inv ok next => inv.alone ok next) run
    rw [show s = .initial from start]
    exact .initial
  have notifies : p.2.Notifies pid := by
    by_contra silent
    have unwatched := inv.doomed pid th here (by rw [done]; rfl) silent kq
    rw [registered] at unwatched
    cases unwatched
  have told : p.2.notified pid = true := by
    rcases quiet pid th here with guest | ⟨-, notified⟩
    · rw [done] at guest
      cases guest
    · exact notified notifies
  obtain ⟨i, watches, -, ef, isOpen, kq_, pid_⟩ := inv.regs.kept fd kq pid udata open_ registered
  have ready : ef.ready = true := inv.regs.ready i ef watches.2.2 (by rw [watches.2.1]; exact told) isOpen
  exact ⟨_, ef, isOpen, kq_, pid_, ready⟩

/-! ## Runs -/

instance (w : WatchState) (fd : ℤ) : Decidable (w.Unopened fd) := inferInstanceAs (Decidable (_ ∧ _ ∧ _))

/-- Create a kqueue, register a process, or notify. -/
def ExitNote.act (s : ProcTable) (x : ExitNote) : NotifyEvent → Option ExitNote
  | .watch (.create fd) =>
    if x.watch.Unopened fd then some { x with watch := x.watch.create fd } else none
  | .watch (.add fd pid udata (some e)) =>
    match x.watch.kqs fd with
    | some kq =>
      if x.watch.Unopened e then some { x with watch := x.watch.add fd kq pid udata (some e) } else none
    | none => none
  | .notify t =>
    match s.threads t with
    | some th =>
      if th.pc = .done ∧ (x.via t = some .exit ∧ t ≠ 1) ∧ x.notified t = false then
        some { x with
          watch := x.watch.notifyExit (s.procs th.slot).pid
          notified := Function.update x.notified t true }
      else none
    | none => none
  | _ => none

theorem ExitNote.act_step {s : ProcTable} {x x' : ExitNote} {b : NotifyEvent}
    (made : x.act s b = some x') : NotifyStep s x b x' := by
  unfold ExitNote.act at made
  split at made
  · next fd =>
    split at made
    · next fresh =>
      cases made
      exact .watch nofun (.create fresh)
    · cases made
  · next fd pid udata e =>
    split at made
    · next kq open_ =>
      split at made
      · next fresh =>
        cases made
        refine .watch nofun (.add pid udata open_ fun e' same => ?_)
        cases same
        exact fresh
      · cases made
    · cases made
  · next t =>
    split at made
    · next th here =>
      split at made
      · next can =>
        cases made
        exact .notify here can.1 can.2.1 can.2.2
      · cases made
    · cases made
  · cases made

/-- Make a list of steps from the initial state. -/
def notifyRun (test : ProcTable × ExitNote → (ℕ × ProcEvent) ⊕ NotifyEvent → Bool)
    (steps : List ((ℕ × ProcEvent) ⊕ NotifyEvent)) : Option (ProcTable × ExitNote) :=
  System.runIf (System.besideStep (fun s a => s.step a.1 a.2) (fun s a x => ExitNote.follow x s a)
    fun s x b => x.act s b) test (.initial, .initial) steps

theorem reachable_notifyRun {ok : ProcTable × ExitNote → (ℕ × ProcEvent) ⊕ NotifyEvent → Prop}
    {test : ProcTable × ExitNote → (ℕ × ProcEvent) ⊕ NotifyEvent → Bool} {p : ProcTable × ExitNote}
    {steps : List ((ℕ × ProcEvent) ⊕ NotifyEvent)}
    (tests : ∀ p a, notifySystem.ReachableIf ok p → test p a = true → ok p a)
    (made : notifyRun test steps = some p) : notifySystem.ReachableIf ok p := by
  have start : notifySystem.ReachableIf ok (.initial, .initial) := .init ⟨rfl, rfl⟩
  have acts : ∀ s x b x', ExitNote.act s x b = some x' → NotifyStep s x b x' :=
    fun _ _ _ _ => ExitNote.act_step
  refine start.runIf (fun p a p' next => ?_) tests made
  exact System.beside_step (fun _ _ _ next => next) acts next

/-- A test for `NotifyOk` of runs without failed forks, `close`, or `EV_ADD` for processes that are
ending. -/
def notifyTest (p : ProcTable × ExitNote) : (ℕ × ProcEvent) ⊕ NotifyEvent → Bool
  | .inl (t, e) =>
    match (p.1.threads t).map ProcThread.pc with
    | some (.alloc _ (.init k)) =>
      (List.range p.1.nextPid).all fun u => (p.1.threads u).all fun th => th.slot != k
    | some .run => (e.path == none && e != .vanish) || (e.path == some .exit && t != 1)
    | some (.pump _ (.start _)) | some (.pump _ (.create _)) => e != .next false
    | _ => true
  | .inr (.watch (.add _ pid _ (some e))) =>
    p.2.watch.freeWatch.isSome && decide (0 < e) && (p.1.threads pid).all fun th => th.pc.guest
  | .inr (.watch (.create _)) | .inr (.notify _) => true
  | _ => false

theorem notifyOk_of_test {p : ProcTable × ExitNote} {a : (ℕ × ProcEvent) ⊕ NotifyEvent}
    (run : notifySystem.ReachableIf NotifyOk p) (test : notifyTest p a = true) : NotifyOk p a := by
  rcases a with ⟨t, e⟩ | b
  · intro th here
    simp only [notifyTest, here, Option.map_some] at test
    split
    · next ppid k place =>
      intro u thu thread slot
      have base : procSystem.ReachableIf ReuseOk p.1 := run.fst _ fun _ _ ok => ok.reuse
      simp only [place, List.all_eq_true, List.mem_range] at test
      have tested := test u (pid_bounds base thread).2
      rw [thread] at tested
      simp [slot] at tested
    · next place =>
      simp only [place, Bool.or_eq_true, Bool.and_eq_true, beq_iff_eq, bne_iff_ne] at test
      rcases test with stays | exits
      · exact .inl stays
      · exact .inr (.inl exits)
    · next child k place =>
      intro fails
      simp [place, fails] at test
    · next child k place =>
      intro fails
      simp [place, fails] at test
    · trivial
  · unfold notifyTest at test
    split at test
    · next same => cases same
    · next fd pid udata e same =>
      cases same
      simp only [Bool.and_eq_true, decide_eq_true_eq] at test
      refine ⟨test.1.1, ⟨e, rfl, test.1.2⟩, fun th here => .inl ?_⟩
      rw [here] at test
      exact test.2
    · next same =>
      cases same
      trivial
    · next same =>
      cases same
      trivial
    · cases test

/-- A child is forked and watched. -/
def watchChild : List ((ℕ × ProcEvent) ⊕ NotifyEvent) :=
  rootForks.map .inl ++ [.inr (.watch (.create 7)), .inr (.watch (.add 7 2 100 (some 8)))]

/-- The child is killed. -/
def childKilled : List (ℕ × ProcEvent) := (2, .kill) :: List.replicate 4 (2, .next true)

/-- A test for `Quiet`. -/
def quietTest (p : ProcTable × ExitNote) : Bool :=
  (List.range p.1.nextPid).all fun t => (p.1.threads t).all fun th =>
    th.pc.guest || th.pc == .done && (p.2.via t != some .exit || p.2.notified t)

theorem quiet_of_test {ok : ProcTable × ExitNote → (ℕ × ProcEvent) ⊕ NotifyEvent → Prop}
    {p : ProcTable × ExitNote} (run : notifySystem.ReachableIf ok p)
    (test : quietTest p = true) : Quiet p := by
  intro t th here
  simp only [quietTest, List.all_eq_true, List.mem_range] at test
  have base : procSystem.ReachableIf (fun _ _ => True) p.1 := run.fst _ fun _ _ _ => trivial
  have tested := test t (pid_bounds base here).2
  rw [here] at tested
  simp only [Option.all_some, Bool.or_eq_true, Bool.and_eq_true, beq_iff_eq, bne_iff_ne] at tested
  rcases tested with guest | ⟨done, told⟩
  · exact .inl guest
  · refine .inr ⟨done, fun notifies => ?_⟩
    exact told.resolve_left (absurd notifies.1)

/-- The child calls `exit` and notifies. -/
def childExitsNotified : List ((ℕ × ProcEvent) ⊕ NotifyEvent) :=
  ((2, .exit 0) :: List.replicate 267 (2, .next false)).map .inl ++ [.inr (.notify 2)]

/-- A child that has called `exit` is reported to its parent. -/
theorem exit_event_not_lost_child :
    ∃ p, notifySystem.ReachableIf NotifyOk p ∧ Quiet p ∧ p.2.watch.regs (0, 2) = some 100 ∧
      (∃ th, p.1.threads 2 = some th ∧ th.pc = .done) ∧ p.2.watch.Reports 0 2 := by
  have look : (notifyRun notifyTest (watchChild ++ childExitsNotified)).map
      (fun p => (p.1.threads 2, p.2.watch.kqs 7, p.2.watch.regs (0, 2), quietTest p)) =
      some (some ⟨⟨1, by decide⟩, .done, some (0, 0)⟩, some 0, some 100, true) := by decide +kernel
  obtain ⟨p, made, seen⟩ := Option.map_eq_some_iff.mp look
  simp only [Prod.mk.injEq] at seen
  obtain ⟨thread, open_, registered, test⟩ := seen
  have run : notifySystem.ReachableIf NotifyOk p :=
    reachable_notifyRun (fun _ _ run test => notifyOk_of_test run test) made
  have quiet := quiet_of_test run test
  exact ⟨p, run, quiet, registered, ⟨_, thread, rfl⟩,
    exit_event_not_lost run quiet open_ registered thread rfl⟩

/-- A child that was killed is watched and has ended, and is not reported. -/
theorem killed_child_not_reported :
    ∃ p, notifySystem.Reachable p ∧ Quiet p ∧ p.2.watch.kqs 7 = some 0 ∧
      p.2.watch.regs (0, 2) = some 100 ∧ (∃ th, p.1.threads 2 = some th ∧ th.pc = .done) ∧
      ¬ p.2.watch.Reports 0 2 := by
  have look : (notifyRun (fun _ _ => true) (watchChild ++ childKilled.map .inl)).map
      (fun p => (p.1.threads 2, quietTest p)) =
      some (some ⟨⟨1, by decide⟩, .done, some (0, 9)⟩, true) := by decide +kernel
  obtain ⟨p, made, seen⟩ := Option.map_eq_some_iff.mp look
  simp only [Prod.mk.injEq] at seen
  obtain ⟨thread, test⟩ := seen
  have watch : (notifyRun (fun _ _ => true) (watchChild ++ childKilled.map .inl)).map (fun p => p.2.watch) =
      some ((WatchState.initial.create 7).add 7 0 2 100 (some 8)) := rfl
  rw [made, Option.map_some, Option.some.injEq] at watch
  have run : notifySystem.Reachable p := reachable_notifyRun (fun _ _ _ _ => trivial) made
  refine ⟨p, run, quiet_of_test run test, by rw [watch]; rfl, by rw [watch]; rfl, ⟨_, thread, rfl⟩, ?_⟩
  rw [watch]
  rintro ⟨e, ef, here, -, -, ready⟩
  change Function.update (fun _ => none) (8 : ℤ) (some (⟨0, 2, 100, false⟩ : EventFd)) e = some ef at here
  by_cases mine : e = 8
  · subst mine
    rw [Function.update_self] at here
    cases here
    cases ready
  · rw [Function.update_of_ne mine] at here
    cases here

end Yos
