import Yos.Libc.ProcWatch

/-!
# Registrations that wait for an exit

Every registration of an open kqueue keeps a slot of the table with an eventfd, and the eventfds of the
processes that have called `yos_kqueue_notify_exit` are ready (`RegInv`).  Unlike `WatchInv` this allows
a process to be watched twice, and kqueues that are closed while slots are in use for them.
-/

namespace Yos

/-- No kqueue watches the process. -/
def WatchState.Unwatched (w : WatchState) (pid : ℕ) : Prop := ∀ kq, w.regs (kq, pid) = none

/-- The next `epoll_wait` on the kqueue reports the exit of the process. -/
def WatchState.Reports (w : WatchState) (kq pid : ℕ) : Prop :=
  ∃ e ef, w.eventfds e = some ef ∧ ef.kq = kq ∧ ef.pid = pid ∧ ef.ready = true

/-- The slot `i` keeps the registration. -/
structure KeepsReg (w : WatchState) (fd : ℤ) (kq pid udata : ℕ) (i : Fin maxProcWatch) : Prop where
  watches : (w.watches i).Watches fd pid
  udata : (w.watches i).udata = udata
  eventfd : ∃ ef, w.eventfds (w.watches i).eventfd = some ef ∧ ef.kq = kq ∧ ef.pid = pid

/-- Every registration of an open kqueue has a slot, and the eventfds of the processes that have called
`yos_kqueue_notify_exit` are ready. -/
structure RegInv (w : WatchState) (notified : ℕ → Bool) : Prop where
  kept : ∀ fd kq pid udata, w.kqs fd = some kq → w.regs (kq, pid) = some udata →
    ∃ i, KeepsReg w fd kq pid udata i
  created : ∀ fd kq, w.kqs fd = some kq → kq < w.created
  single : ∀ fd fd' kq, w.kqs fd = some kq → w.kqs fd' = some kq → fd = fd'
  fresh : ∀ kq pid, w.created ≤ kq → w.regs (kq, pid) = none
  opened : ∀ i, (w.watches i).Used → ∃ ef, w.eventfds (w.watches i).eventfd = some ef
  apart : ∀ i j, (w.watches i).Used → (w.watches j).Used →
    (w.watches i).eventfd = (w.watches j).eventfd → i = j
  ready : ∀ i ef, (w.watches i).Used → notified (w.watches i).pid = true →
    w.eventfds (w.watches i).eventfd = some ef → ef.ready = true
  polls : ∀ caller poll, w.polls caller = some poll → poll.events ≠ [] →
    w.kqs poll.fd = some poll.kq

section Steps

variable {w w' : WatchState} {notified : ℕ → Bool}

theorem RegInv.create (inv : RegInv w notified) {fd : ℤ} (fresh : w.Unopened fd) :
    RegInv (w.create fd) notified := by
  refine ⟨fun fd' kq pid udata open_ reg => ?_, fun fd' kq open_ => ?_, fun fd₁ fd₂ kq open₁ open₂ => ?_,
    fun kq pid new => inv.fresh kq pid (Nat.le_of_succ_le new), inv.opened, inv.apart, inv.ready,
    fun caller poll here events => ?_⟩
  · rcases WatchState.create_kqs open_ with ⟨rfl, rfl⟩ | before
    · have none_ := inv.fresh w.created pid (Nat.le_refl _)
      exact absurd (none_.symm.trans reg) nofun
    · obtain ⟨i, keeps⟩ := inv.kept fd' kq pid udata before reg
      exact ⟨i, keeps.watches, keeps.udata, keeps.eventfd⟩
  · rcases WatchState.create_kqs open_ with ⟨rfl, rfl⟩ | before
    · exact Nat.lt_succ_self _
    · exact Nat.lt_succ_of_lt (inv.created fd' kq before)
  · rcases WatchState.create_kqs open₁ with ⟨rfl, rfl⟩ | before₁
    · rcases WatchState.create_kqs open₂ with ⟨rfl, -⟩ | before₂
      · rfl
      · exact absurd (inv.created fd₂ _ before₂) (Nat.lt_irrefl _)
    · rcases WatchState.create_kqs open₂ with ⟨rfl, rfl⟩ | before₂
      · exact absurd (inv.created fd₁ _ before₁) (Nat.lt_irrefl _)
      · exact inv.single fd₁ fd₂ kq before₁ before₂
  · have before := inv.polls caller poll here events
    have other : poll.fd ≠ fd := by
      rintro rfl
      rw [fresh.2.1] at before
      cases before
    simp only [WatchState.create, Function.update_of_ne other]
    exact before

theorem RegInv.close (inv : RegInv w notified) {fd : ℤ} {kq : ℕ}
    (idle : ∀ caller poll, w.polls caller = some poll → poll.fd = fd → poll.events = []) :
    RegInv (w.close fd kq) notified := by
  refine ⟨fun fd' kq' pid udata open_ reg => ?_, fun fd' kq' open_ => ?_,
    fun fd₁ fd₂ kq' open₁ open₂ => ?_, fun kq' pid new => ?_, inv.opened, inv.apart, inv.ready, fun caller poll here events => ?_⟩
  · simp only [WatchState.close] at reg
    split at reg
    · cases reg
    · obtain ⟨i, keeps⟩ := inv.kept fd' kq' pid udata (WatchState.close_kqs open_) reg
      exact ⟨i, keeps.watches, keeps.udata, keeps.eventfd⟩
  · exact inv.created fd' kq' (WatchState.close_kqs open_)
  · exact inv.single fd₁ fd₂ kq' (WatchState.close_kqs open₁) (WatchState.close_kqs open₂)
  · simp only [WatchState.close]
    split
    · rfl
    · exact inv.fresh kq' pid new
  · have other : poll.fd ≠ fd := fun same => events (idle caller poll here same)
    simp only [WatchState.close, Function.update_of_ne other]
    exact inv.polls caller poll here events

/-- `proc_watch_add` with a free slot and an eventfd. -/
theorem WatchState.add_eq {fd e : ℤ} {kq pid udata : ℕ} {i : Fin maxProcWatch}
    (found : w.freeWatch = some i) :
    w.add fd kq pid udata (some e) = { w with
      regs := Function.update w.regs (kq, pid) (some udata)
      watches := Function.update w.watches i ⟨fd, e, pid, udata⟩
      eventfds := Function.update w.eventfds e (some ⟨kq, pid, udata % 2 ^ 16, false⟩) } := by
  have found' : WatchState.freeWatch
    { w with regs := Function.update w.regs (kq, pid) (some udata) } = some i := found
  simp only [WatchState.add, found']

/-- A registration takes a slot that is not in use. -/
theorem RegInv.add (inv : RegInv w notified) {fd e : ℤ} {kq pid udata : ℕ}
    (open_ : w.kqs fd = some kq) (room : w.freeWatch.isSome = true) (fresh : w.Unopened e)
    (positive : 0 < e) (new : notified pid = false) :
    RegInv (w.add fd kq pid udata (some e)) notified := by
  obtain ⟨i, found⟩ := Option.isSome_iff_exists.mp room
  have unused := WatchState.freeWatch_spec found
  rw [WatchState.add_eq found]
  -- the eventfds of the other slots are not the new one
  have other : ∀ j, j ≠ i → (w.watches j).Used → (w.watches j).eventfd ≠ e := by
    intro j _ used same
    obtain ⟨ef, here⟩ := inv.opened j used
    rw [same, fresh.2.2] at here
    cases here
  refine ⟨fun fd' kq' pid' udata' open' reg => ?_, inv.created, inv.single, fun kq' pid' big => ?_,
    fun j used => ?_, fun j k usedJ usedK same => ?_, fun j ef used told here => ?_, inv.polls⟩
  · by_cases mine : (kq', pid') = (kq, pid)
    · cases mine
      simp only [Function.update_self, Option.some.injEq] at reg
      have same := inv.single fd' fd kq open' open_
      subst same
      refine ⟨i, ?_, ?_, ?_⟩
      · simp only [Function.update_self]
        exact ⟨rfl, rfl, positive⟩
      · simp only [Function.update_self]
        exact reg
      · simp only [Function.update_self]
        exact ⟨_, rfl, rfl, rfl⟩
    · simp only [Function.update_of_ne mine] at reg
      obtain ⟨j, watches, stored, ef, here, fields⟩ := inv.kept fd' kq' pid' udata' open' reg
      have differs : j ≠ i := by
        rintro rfl
        exact unused watches.2.2
      refine ⟨j, ?_, ?_, ef, ?_, fields⟩
      · simpa only [Function.update_of_ne differs] using watches
      · simpa only [Function.update_of_ne differs] using stored
      · simp only [Function.update_of_ne differs,
          Function.update_of_ne (other j differs watches.2.2)]
        exact here
  · have differs : (kq', pid') ≠ (kq, pid) := by
      intro same
      cases same
      exact absurd (inv.created fd kq open_) (Nat.not_lt_of_le big)
    simp only [Function.update_of_ne differs]
    exact inv.fresh kq' pid' big
  · by_cases mine : j = i
    · subst mine
      simp only [Function.update_self]
      exact ⟨_, rfl⟩
    · simp only [Function.update_of_ne mine] at used ⊢
      rw [Function.update_of_ne (other j mine used)]
      exact inv.opened j used
  · by_cases mineJ : j = i
    · by_cases mineK : k = i
      · exact mineJ.trans mineK.symm
      · subst mineJ
        simp only [Function.update_self, Function.update_of_ne mineK] at usedK same
        exact absurd same.symm (other k mineK usedK)
    · by_cases mineK : k = i
      · subst mineK
        simp only [Function.update_self, Function.update_of_ne mineJ] at usedJ same
        exact absurd same (other j mineJ usedJ)
      · simp only [Function.update_of_ne mineJ, Function.update_of_ne mineK] at usedJ usedK same
        exact inv.apart j k usedJ usedK same
  · by_cases mine : j = i
    · subst mine
      simp only [Function.update_self] at told
      rw [new] at told
      cases told
    · simp only [Function.update_of_ne mine] at used told here
      rw [Function.update_of_ne (other j mine used)] at here
      exact inv.ready j ef used told here

/-- Slots are released; none of them keeps a registration that is left. -/
theorem RegInv.release (inv : RegInv w notified) (kqs : w'.kqs = w.kqs) (created : w'.created = w.created)
    (polls : w'.polls = w.polls) (regs : ∀ r udata, w'.regs r = some udata → w.regs r = some udata)
    (slots : ∀ i, w'.watches i = w.watches i ∨ ¬ (w'.watches i).Used)
    (eventfds : ∀ i, (w'.watches i).Used →
      w'.eventfds (w.watches i).eventfd = w.eventfds (w.watches i).eventfd)
    (left : ∀ fd kq pid udata i, w.kqs fd = some kq → w'.regs (kq, pid) = some udata →
      KeepsReg w fd kq pid udata i → (w'.watches i).Used) : RegInv w' notified := by
  have same : ∀ {i}, (w'.watches i).Used → w'.watches i = w.watches i :=
    fun used => (slots _).resolve_right (absurd used)
  refine ⟨fun fd kq pid udata open_ reg => ?_, by rw [kqs, created]; exact inv.created,
    by rw [kqs]; exact inv.single, fun kq pid big => ?_, fun i used => ?_,
    fun i j usedI usedJ equal => ?_, fun i ef used told here => ?_, by rw [kqs, polls]; exact inv.polls⟩
  · rw [kqs] at open_
    obtain ⟨i, keeps⟩ := inv.kept fd kq pid udata open_ (regs _ _ reg)
    have used := left fd kq pid udata i open_ reg keeps
    refine ⟨i, ?_, ?_, ?_⟩
    · rw [same used]
      exact keeps.watches
    · rw [same used]
      exact keeps.udata
    · rw [same used, eventfds i used]
      exact keeps.eventfd
  · rw [created] at big
    cases reg : w'.regs (kq, pid) with
    | none => rfl
    | some udata => exact absurd ((inv.fresh kq pid big).symm.trans (regs _ _ reg)) nofun
  · rw [same used, eventfds i used]
    rw [same used] at used
    exact inv.opened i used
  · rw [same usedI, same usedJ] at equal
    rw [same usedI] at usedI
    rw [same usedJ] at usedJ
    exact inv.apart i j usedI usedJ equal
  · rw [same used, eventfds i used] at here
    rw [same used] at told used
    exact inv.ready i ef used told here

theorem RegInv.remove (inv : RegInv w notified) {fd : ℤ} {kq : ℕ} (pid : ℕ)
    (open_ : w.kqs fd = some kq) : RegInv (w.remove fd kq pid) notified := by
  have slot : ∀ i, ((w.remove fd kq pid).watches i).Used →
      ¬ (w.watches i).Watches fd pid ∧ (w.watches i).Used := by
    intro i used
    simp only [WatchState.remove] at used
    split at used
    · exact absurd used (ProcWatch.not_used_released _)
    · next other => exact ⟨other, used⟩
  refine inv.release rfl rfl rfl (fun r udata reg => ?_) (fun i => ?_) (fun i used => ?_)
    fun fd' kq' pid' udata i open' reg keeps => ?_
  · by_cases mine : r = (kq, pid)
    · subst mine
      simp [WatchState.remove] at reg
    · simpa only [WatchState.remove, Function.update_of_ne mine] using reg
  · simp only [WatchState.remove]
    split
    · exact .inr (ProcWatch.not_used_released _)
    · exact .inl rfl
  · obtain ⟨other, used'⟩ := slot i used
    simp only [WatchState.remove]
    refine if_neg ?_
    rintro ⟨j, watches, equal⟩
    rw [inv.apart j i watches.2.2 used' equal] at watches
    exact other watches
  · have other : ¬ (w.watches i).Watches fd pid := by
      intro watches
      obtain rfl : fd' = fd := keeps.watches.1.symm.trans watches.1
      obtain rfl : pid' = pid := keeps.watches.2.1.symm.trans watches.2.1
      rw [open'] at open_
      cases open_
      simp [WatchState.remove] at reg
    simp only [WatchState.remove, if_neg other]
    exact keeps.watches.2.2

theorem reportTo_kqs (w : WatchState) (kq pid udata : ℕ) :
    (w.reportTo kq pid udata).kqs = w.kqs ∧ (w.reportTo kq pid udata).created = w.created ∧
      (w.reportTo kq pid udata).polls = w.polls ∧ (w.reportTo kq pid udata).watches = w.watches ∧
      (w.reportTo kq pid udata).eventfds = w.eventfds := by
  unfold WatchState.reportTo
  split <;> exact ⟨rfl, rfl, rfl, rfl, rfl⟩

/-- The registrations after an event was reported. -/
theorem reportTo_regs {kq pid udata : ℕ} {r : ℕ × ℕ} {udata' : ℕ}
    (reg : (w.reportTo kq pid udata).regs r = some udata') :
    w.regs r = some udata' ∧ (r = (kq, pid) → udata' ≠ udata) := by
  unfold WatchState.reportTo at reg
  split at reg
  · by_cases mine : r = (kq, pid)
    · subst mine
      simp at reg
    · simp only [Function.update_of_ne mine] at reg
      exact ⟨reg, fun same => absurd same mine⟩
  · next other =>
    refine ⟨reg, ?_⟩
    rintro rfl rfl
    exact other reg

theorem RegInv.harvest (inv : RegInv w notified) {fd : ℤ} {kq : ℕ} (pid udata : ℕ)
    (open_ : w.kqs fd = some kq) : RegInv (w.harvest fd kq pid udata) notified := by
  unfold WatchState.harvest
  split
  · next j found =>
    have watches := WatchState.findWatch_spec found
    obtain ⟨kqs, created, polls, slots, eventfds⟩ := reportTo_kqs w kq pid (w.watches j).udata
    refine inv.release kqs created polls (fun r udata' reg => (reportTo_regs reg).1) (fun i => ?_)
      (fun i used => ?_) fun fd' kq' pid' udata' i open' reg keeps => ?_
    · by_cases mine : i = j
      · subst mine
        simp only [Function.update_self]
        exact .inr (ProcWatch.not_used_released _)
      · exact .inl (Function.update_of_ne mine _ _)
    · have mine : i ≠ j := by
        rintro rfl
        simp only [Function.update_self] at used
        exact ProcWatch.not_used_released _ used
      simp only [Function.update_of_ne mine] at used
      refine Function.update_of_ne (fun equal => ?_) _ _
      exact mine (inv.apart i j used watches.2.2 equal)
    · have mine : i ≠ j := by
        rintro rfl
        obtain rfl : fd' = fd := keeps.watches.1.symm.trans watches.1
        obtain rfl : pid' = pid := keeps.watches.2.1.symm.trans watches.2.1
        rw [open'] at open_
        cases open_
        exact (reportTo_regs reg).2 rfl keeps.udata.symm
      simp only [Function.update_of_ne mine]
      exact keeps.watches.2.2
  · obtain ⟨kqs, created, polls, slots, eventfds⟩ := reportTo_kqs w kq pid udata
    refine inv.release kqs created polls (fun r udata' reg => (reportTo_regs reg).1)
      (fun i => .inl (by rw [slots])) (fun i used => by rw [eventfds])
      fun fd' kq' pid' udata' i open' reg keeps => ?_
    rw [slots]
    exact keeps.watches.2.2

theorem RegInv.goOn (inv : RegInv w notified) (caller : ℕ) {poll : Option Poll}
    (open_ : ∀ p, poll = some p → p.events ≠ [] → w.kqs p.fd = some p.kq) :
    RegInv (w.goOn caller poll) notified := by
  refine ⟨fun fd kq pid udata isOpen reg => ?_, inv.created, inv.single, inv.fresh, inv.opened, inv.apart,
    inv.ready, fun c p here events => ?_⟩
  · obtain ⟨i, keeps⟩ := inv.kept fd kq pid udata isOpen reg
    exact ⟨i, keeps.watches, keeps.udata, keeps.eventfd⟩
  · by_cases mine : c = caller
    · subst mine
      simp only [WatchState.goOn, Function.update_self] at here
      exact open_ p here events
    · simp only [WatchState.goOn, Function.update_of_ne mine] at here
      exact inv.polls c p here events

/-- The eventfds of the process are written to. -/
theorem RegInv.notifyExit (inv : RegInv w notified) (t : ℕ) :
    RegInv (w.notifyExit t) (Function.update notified t true) := by
  refine ⟨fun fd kq pid udata open_ reg => ?_, inv.created, inv.single, inv.fresh, fun i used => ?_,
    inv.apart, fun i ef used told here => ?_, inv.polls⟩
  · obtain ⟨i, watches, stored, ef, here, isKq, isPid⟩ := inv.kept fd kq pid udata open_ reg
    obtain ⟨ef', here', kq', pid', -⟩ := WatchState.notifyExit_eventfds t here
    exact ⟨i, watches, stored, ef', here', kq'.trans isKq, pid'.trans isPid⟩
  · obtain ⟨ef, here⟩ := inv.opened i used
    obtain ⟨ef', here', -⟩ := WatchState.notifyExit_eventfds t here
    exact ⟨ef', here'⟩
  · obtain ⟨ef₀, before⟩ := inv.opened i used
    by_cases mine : (w.watches i).pid = t
    · have written : ∃ j, (w.watches j).pid = t ∧ (w.watches j).Used ∧
          (w.watches j).eventfd = (w.watches i).eventfd := ⟨i, mine, used, rfl⟩
      simp only [WatchState.notifyExit] at here
      rw [if_pos written, before] at here
      cases here
      rfl
    · have told' : notified (w.watches i).pid = true := by
        simpa only [WatchState.notifyExit, Function.update_of_ne mine] using told
      obtain ⟨ef', here', -, -, ready⟩ := WatchState.notifyExit_eventfds t before
      have equal : some ef' = some ef := here'.symm.trans here
      cases equal
      exact ready (inv.ready i ef₀ used told' before)

theorem WatchState.add_regs (w : WatchState) (fd : ℤ) (kq pid udata : ℕ) (efd : Option ℤ) :
    (w.add fd kq pid udata efd).regs = Function.update w.regs (kq, pid) (some udata) := by
  simp only [WatchState.add]
  split <;> rfl

theorem WatchState.harvest_regs (w : WatchState) (fd : ℤ) (kq pid udata : ℕ) :
    ∃ stored, (w.harvest fd kq pid udata).regs = (w.reportTo kq pid stored).regs := by
  unfold WatchState.harvest
  split
  · exact ⟨_, rfl⟩
  · exact ⟨udata, rfl⟩

theorem WatchState.harvest_kqs (w : WatchState) (fd : ℤ) (kq pid udata : ℕ) :
    (w.harvest fd kq pid udata).kqs = w.kqs := by
  unfold WatchState.harvest
  split <;> exact (reportTo_kqs ..).1

/-- The registrations after a step of the kqueues. -/
theorem WatchStep.regs_old {op : WatchOp} {kq pid udata : ℕ}
    (next : WatchStep w op w') (reg : w'.regs (kq, pid) = some udata) :
    w.regs (kq, pid) = some udata ∨ ∃ fd udata efd, op = .add fd pid udata efd := by
  cases next with
  | create | exit | wait | finish => exact .inl reg
  | @close fd kq' =>
    left
    simp only [WatchState.close] at reg
    split at reg
    · cases reg
    · exact reg
  | @add fd kq' pid' udata' efd =>
    by_cases mine : (kq, pid) = (kq', pid')
    · cases mine
      exact .inr ⟨fd, udata', efd, rfl⟩
    · left
      rw [WatchState.add_regs, Function.update_of_ne mine] at reg
      exact reg
  | @remove fd kq' pid' =>
    left
    by_cases mine : (kq, pid) = (kq', pid')
    · cases mine
      simp [WatchState.remove] at reg
    · simpa only [WatchState.remove, Function.update_of_ne mine] using reg
  | @report caller fd kq' pid' udata' rest =>
    left
    obtain ⟨stored, after⟩ := WatchState.harvest_regs w fd kq' pid' udata'
    have reported : (w.reportTo kq' pid' stored).regs (kq, pid) = some udata := by
      rw [← after]
      exact reg
    exact (reportTo_regs reported).1

/-- Every allowed step of the kqueues keeps the registrations. -/
theorem RegInv.step {op : WatchOp} (inv : RegInv w notified) (guest : ∀ pid, op ≠ .exit pid)
    (room : ∀ fd pid udata efd, op = .add fd pid udata efd →
      w.freeWatch.isSome = true ∧ (∃ e, efd = some e ∧ 0 < e) ∧ notified pid = false)
    (idle : ∀ fd, op = .close fd →
      ∀ caller poll, w.polls caller = some poll → poll.fd = fd → poll.events = [])
    (next : WatchStep w op w') : RegInv w' notified := by
  cases next with
  | create fresh => exact inv.create fresh
  | close open_ => exact inv.close (idle _ rfl)
  | @add fd kq pid udata efd open_ fresh =>
    obtain ⟨free, ⟨e, rfl, positive⟩, new⟩ := room fd pid udata efd rfl
    exact inv.add open_ free (fresh e rfl) positive new
  | remove pid open_ => exact inv.remove pid open_
  | exit pid => exact absurd rfl (guest pid)
  | @wait caller fd kq ready open_ =>
    refine inv.goOn caller fun p same _ => ?_
    cases same
    exact open_
  | @report caller fd kq pid udata rest here =>
    have open_ : w.kqs fd = some kq := inv.polls caller _ here nofun
    refine (inv.harvest pid udata open_).goOn caller fun p same _ => ?_
    cases same
    rw [WatchState.harvest_kqs]
    exact open_
  | finish => exact inv.goOn _ nofun

end Steps

theorem RegInv.initial : RegInv .initial fun _ => false := by
  refine ⟨nofun, nofun, nofun, fun _ _ _ => rfl, fun i used => ?_, fun i _ used => ?_,
    fun i _ used => ?_, nofun⟩
  · exact absurd used (WatchState.not_used_initial i)
  · exact absurd used (WatchState.not_used_initial i)
  · exact absurd used (WatchState.not_used_initial i)

end Yos
