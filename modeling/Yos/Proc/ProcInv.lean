import Yos.Proc.ProcTable

/-!
# The invariant of the process table

`ProcInv` ties the place of every thread to its slot (`SlotFits`), and says what a thread that holds
`proc_lock` may rely on.  `ProcOk` are the steps that keep it: a wait call takes a zombie only after
the thread of the process has stored its exit code and its signal, and `yos_proc_alloc` takes a free
slot only after the thread of the process it held has ended.

A step changes the slot of one thread and the place of that thread; `ProcInv.after` proves once that
everything else stays as it was.
-/

namespace Yos

/-! ## Places of a thread -/

/-- What the slot of a thread says about it. -/
inductive Phase where
  /-- The process lives. -/
  | alive
  /-- The slot is a zombie, and its status is not complete. -/
  | marked
  /-- The slot has the status, until it is freed. -/
  | recorded
  | ended
deriving DecidableEq, Repr

namespace ProcPc

/-- The phase of a place. -/
def phase : ProcPc → Phase
  | .mark _ .code | .mark _ .term => .marked
  | .mark _ .flag | .finalLock true | .finalTest true | .finalUnlock | .cleanup _ => .recorded
  | .done => .ended
  | _ => .alive

theorem eq_done {pc : ProcPc} (ended : pc.phase = .ended) : pc = .done := by
  unfold phase at ended
  split at ended
  all_goals first | rfl | cases ended

/-- The thread holds `proc_lock`. -/
def locked : ProcPc → Bool
  | .wait _ (.lock _) | .alloc _ .lock => false
  | .wait _ _ | .alloc _ _ | .pump _ (.find _) | .pump _ (.unlock _) => true
  | .finalTest _ | .mark .finish _ | .finalUnlock => true
  | .cleanup (.loop ..) | .cleanup (.test _) | .cleanup .free | .cleanup .unlock => true
  | _ => false

/-- The zombie a wait call has chosen. -/
def claims : ProcPc → Option (Fin maxProcs)
  | .wait _ (.pid k) | .wait _ (.code k _) | .wait _ (.term k _ _) | .wait _ (.free k _ _ _) => some k
  | _ => none

/-- The free slot `yos_proc_alloc` has chosen. -/
def takes : ProcPc → Option (Fin maxProcs)
  | .alloc _ (.init k) => some k
  | _ => none

/-- The child a fork is about to start. -/
def expects : ProcPc → Option ℕ
  | .alloc _ (.unlock child) => child
  | .pump child _ => some child
  | _ => none

/-- The slot `yos_fork_pump` has found. -/
def found : ProcPc → Option (Fin maxProcs)
  | .pump _ (.unlock k) => k
  | .pump _ (.start k) | .pump _ (.create k) => some k
  | _ => none

end ProcPc

/-! ## The condition on the steps -/

namespace ProcTable

/-- The thread of the process has stored its status. -/
def Settled (s : ProcTable) (pid : ℕ) : Prop :=
  ∀ th, s.threads pid = some th → th.pc.phase = .recorded ∨ th.pc.phase = .ended

/-- The threads of the processes the slot held have ended. -/
def Vacant (s : ProcTable) (k : Fin maxProcs) : Prop :=
  ∀ t th, s.threads t = some th → th.slot = k → th.pc = .done

end ProcTable

/-- `find_zombie_child` finds only a zombie whose status is stored, and `yos_proc_alloc` only a slot
whose thread has ended. -/
def ProcOk (s : ProcTable) (a : ℕ × ProcEvent) : Prop :=
  ∀ th, s.threads a.1 = some th →
    match th.pc with
    | .wait w (.find i) =>
      ∀ k : Fin maxProcs, k.val = i → w.zombie (s.procs k) = true → s.Settled (s.procs k).pid
    | .alloc _ (.scan i) =>
      ∀ k : Fin maxProcs, k.val = i → (s.procs k).state = .free → s.Vacant k
    | _ => True

/-! ## The invariant -/

/-- The slot fits the phase of its thread. -/
def SlotFits (fate : Option (ℤ × ℤ)) (p : Proc) : Phase → Prop
  | .alive => p.live = true ∧ p.exitCode = 0 ∧ p.termSig = 0
  | .marked => p.state = .zombie ∧ p.exitCode = 0 ∧ p.termSig = 0
  | .recorded => (p.state = .zombie ∧ fate = some (p.exitCode, p.termSig)) ∨ p.state = .free
  | .ended => p.state = .zombie → fate = some (p.exitCode, p.termSig)

/-- The status a thread ends with fits its way there. -/
def FateFits (fate : Option (ℤ × ℤ)) : ProcPc → Prop
  | .mark .exit .term | .mark .trap .term | .mark .finish .term => False
  | .exitTest | .mark .exit _ | .mark .trap _ => ∃ code, fate = some (code, 0)
  | .mark .signal _ => ∃ sig, fate = some (0, sig)
  | .mark .kill _ => fate = some (0, 9)
  | .mark .finish _ | .finalLock false | .finalTest false => fate = some (0, 0)
  | .finalLock true | .finalTest true | .finalUnlock | .cleanup _ | .done => True
  | _ => fate = none

/-- What a wait call has read of the slot it has chosen. -/
def ReadsFit (s : ProcTable) : ProcPc → Prop
  | .wait _ (.code k pid) => pid = (s.procs k).pid
  | .wait _ (.term k pid code) => pid = (s.procs k).pid ∧ code = (s.procs k).exitCode
  | .wait _ (.free k pid code term) =>
    pid = (s.procs k).pid ∧ code = (s.procs k).exitCode ∧ term = (s.procs k).termSig
  | _ => True

/-- The slot is a zombie with its status stored. -/
structure Claimed (s : ProcTable) (k : Fin maxProcs) : Prop where
  zombie : (s.procs k).state = .zombie
  owner : ∃ th, s.threads (s.procs k).pid = some th ∧ th.slot = k ∧
    (th.pc.phase = .recorded ∨ th.pc.phase = .ended)

/-- The child of `t` has a slot and no thread yet. -/
def Expected (s : ProcTable) (t child : ℕ) (found : Option (Fin maxProcs)) : Prop :=
  ∃ th, s.threads child = some th ∧ th.pc = .unborn t ∧ ∀ k, found = some k → th.slot = k

/-- A thread and what it relies on. -/
structure ThreadFits (s : ProcTable) (t : ℕ) (th : ProcThread) : Prop where
  slotPid : th.pc ≠ .done → (s.procs th.slot).pid = t
  slotFits : (s.procs th.slot).pid = t → SlotFits th.fate (s.procs th.slot) th.pc.phase
  fateFits : FateFits th.fate th.pc
  locked : th.pc.locked = true → s.lock = some t
  claimed : ∀ k, th.pc.claims = some k → Claimed s k
  readsFit : ReadsFit s th.pc
  taken : ∀ k, th.pc.takes = some k → (s.procs k).state = .free ∧ s.Vacant k
  expected : ∀ child, th.pc.expects = some child → Expected s t child th.pc.found

/-- The invariant of the table. -/
structure ProcInv (s : ProcTable) : Prop where
  threadFits : ∀ t th, s.threads t = some th → ThreadFits s t th
  owned : ∀ k, (s.procs k).state ≠ .free → ∃ th, s.threads (s.procs k).pid = some th ∧ th.slot = k
  created : ∀ t th, s.threads t = some th → t < s.nextPid
  once : (s.returned.map Prod.fst).Nodup
  status : ∀ r ∈ s.returned, ∃ th fate, s.threads r.1 = some th ∧ th.fate = some fate ∧
    r.2 = waitStatus fate.1 fate.2
  reaped : ∀ r ∈ s.returned, ∀ k, (s.procs k).pid = r.1 → (s.procs k).state = .free

theorem ProcPc.locked_of_claims {pc : ProcPc} {k : Fin maxProcs} (claims : pc.claims = some k) :
    pc.locked = true := by
  unfold ProcPc.claims at claims
  split at claims
  all_goals first | rfl | cases claims

theorem readsFit_of_not_claims {s : ProcTable} {pc : ProcPc} (none_ : pc.claims = none) :
    ReadsFit s pc := by
  unfold ReadsFit
  split
  all_goals first | exact trivial | cases none_

theorem readsFit_congr {s s' : ProcTable} {pc : ProcPc} {k : Fin maxProcs}
    (claims : pc.claims = some k) (pid : (s'.procs k).pid = (s.procs k).pid)
    (code : (s'.procs k).exitCode = (s.procs k).exitCode)
    (term : (s'.procs k).termSig = (s.procs k).termSig) (fits : ReadsFit s pc) :
    ReadsFit s' pc := by
  unfold ReadsFit at fits ⊢
  split
  all_goals
    first
    | exact trivial
    | (cases claims
       simpa only [pid, code, term] using fits)

/-! ## The initial table -/

/-- The only thread of the initial table. -/
theorem initial_thread {t : ℕ} {th : ProcThread} (thread : ProcTable.initial.threads t = some th) :
    t = 1 ∧ th = ⟨⟨0, by decide⟩, .run, none⟩ := by
  simp only [ProcTable.initial] at thread
  split at thread
  · next first =>
    cases thread
    exact ⟨first, rfl⟩
  · cases thread

/-- The only slot in use of the initial table. -/
theorem initial_used {k : Fin maxProcs} (used : (ProcTable.initial.procs k).state ≠ .free) :
    k = ⟨0, by decide⟩ := by
  by_cases first : k.val = 0
  · exact Fin.ext first
  · simp [ProcTable.initial, first, Proc.unused] at used

/-! ## A step of one thread -/

/-- The thread `t` is at `th`, its slot holds `p`, and `proc_lock` is `lock`. -/
def ProcTable.after (s : ProcTable) (t : ℕ) (th : ProcThread) (p : Proc) (lock : Option ℕ) :
    ProcTable :=
  { s with
    procs := Function.update s.procs th.slot p
    lock := lock
    threads := Function.update s.threads t (some th) }

/-- What is to be shown about the thread that goes from `th` to `th'` while its slot becomes `p`. -/
structure OwnStep (s : ProcTable) (t : ℕ) (th th' : ProcThread) (p : Proc) (lock : Option ℕ) :
    Prop where
  here : s.threads t = some th
  slot : th'.slot = th.slot
  active : th.pc ≠ .done
  unborn : ∀ parent, th.pc = .unborn parent → th' = th ∨
    ∀ thp, s.threads parent = some thp → thp.pc.expects ≠ some t
  pid : p.pid = t
  slotFits : SlotFits th'.fate p th'.pc.phase
  fateFits : FateFits th'.fate th'.pc
  fateKept : ∀ fate, th.fate = some fate → th'.fate = some fate
  settled : th.pc.phase = .recorded → (th'.pc.phase = .recorded ∨ th'.pc.phase = .ended) ∧
    ((p.state = (s.procs th.slot).state ∧ p.exitCode = (s.procs th.slot).exitCode ∧
      p.termSig = (s.procs th.slot).termSig) ∨ s.lock = some t ∧ p.state = .free)
  lockKept : lock = s.lock ∨ s.lock = none ∨ s.lock = some t
  locked : th'.pc.locked = true → lock = some t
  claimed : ∀ k, th'.pc.claims = some k → Claimed (s.after t th' p lock) k
  readsFit : ReadsFit (s.after t th' p lock) th'.pc
  taken : ∀ k, th'.pc.takes = some k →
    ((s.after t th' p lock).procs k).state = .free ∧ (s.after t th' p lock).Vacant k
  expected : ∀ child, th'.pc.expects = some child →
    Expected (s.after t th' p lock) t child th'.pc.found

section After

variable {s : ProcTable} {t : ℕ} {th th' : ProcThread} {p : Proc} {lock : Option ℕ}

theorem after_threads_other {u : ℕ} (other : u ≠ t) :
    (s.after t th' p lock).threads u = s.threads u := Function.update_of_ne other _ _

theorem after_threads_self : (s.after t th' p lock).threads t = some th' := Function.update_self ..

theorem after_procs_self : (s.after t th' p lock).procs th'.slot = p := Function.update_self ..

theorem after_procs_other {k : Fin maxProcs} (other : k ≠ th'.slot) :
    (s.after t th' p lock).procs k = s.procs k := Function.update_of_ne other _ _

namespace OwnStep

/-- The slot of a thread that has not ended holds its pid. -/
theorem slotPid (own : OwnStep s t th th' p lock) (inv : ProcInv s) :
    (s.procs th.slot).pid = t :=
  (inv.threadFits t th own.here).slotPid own.active

/-- The slot of another thread that has not ended, or still holds its pid, is not touched. -/
theorem procs_other (own : OwnStep s t th th' p lock) (inv : ProcInv s) {k : Fin maxProcs}
    (other : (s.procs k).pid ≠ t) : (s.after t th' p lock).procs k = s.procs k := by
  refine after_procs_other fun same => other ?_
  rw [same, own.slot]
  exact own.slotPid inv

/-- A slot that is claimed by another wait call stays as it is. -/
theorem claimed_other (own : OwnStep s t th th' p lock) (inv : ProcInv s) {u : ℕ} (other : u ≠ t)
    {k : Fin maxProcs} (claimed : Claimed s k) (held : s.lock = some u) :
    Claimed (s.after t th' p lock) k ∧
      ((s.after t th' p lock).procs k).pid = (s.procs k).pid ∧
      ((s.after t th' p lock).procs k).exitCode = (s.procs k).exitCode ∧
      ((s.after t th' p lock).procs k).termSig = (s.procs k).termSig := by
  obtain ⟨tho, owner, slot, settled⟩ := claimed.owner
  by_cases mine : (s.procs k).pid = t
  · rw [mine, own.here] at owner
    cases owner
    subst slot
    have recorded : th.pc.phase = .recorded :=
      settled.resolve_right fun ended => own.active (ProcPc.eq_done ended)
    obtain ⟨settled', same | ⟨mine', -⟩⟩ := own.settled recorded
    · have procs : (s.after t th' p lock).procs th.slot = p := by
        rw [← own.slot]
        exact after_procs_self
      refine ⟨⟨?_, th', ?_, own.slot, settled'⟩, ?_, ?_, ?_⟩
      · rw [procs, same.1]
        exact claimed.zombie
      · rw [procs, own.pid]
        exact after_threads_self
      · rw [procs, own.pid, mine]
      · rw [procs, same.2.1]
      · rw [procs, same.2.2]
    · rw [held] at mine'
      exact absurd (Option.some.inj mine') other
  · have same := own.procs_other inv mine
    refine ⟨⟨?_, tho, ?_, slot, settled⟩, ?_, ?_, ?_⟩
    · rw [same]
      exact claimed.zombie
    · rw [same, after_threads_other mine]
      exact owner
    all_goals rw [same]

/-- The other threads fit as before. -/
theorem threadFits_other (own : OwnStep s t th th' p lock) (inv : ProcInv s) {u : ℕ}
    {thu : ProcThread} (other : u ≠ t) (thread : s.threads u = some thu) :
    ThreadFits (s.after t th' p lock) u thu := by
  have fits := inv.threadFits u thu thread
  have slotPid : thu.pc ≠ .done → (s.after t th' p lock).procs thu.slot = s.procs thu.slot :=
    fun active => own.procs_other inv fun mine => other (by rw [← mine, fits.slotPid active])
  have held : thu.pc.locked = true → s.lock = some u := fits.locked
  refine ⟨fun active => ?_, fun mine => ?_, fits.fateFits, fun locked => ?_, fun k claims => ?_, ?_,
    fun k takes => ?_, fun child expects => ?_⟩
  · rw [slotPid active]
    exact fits.slotPid active
  · by_cases same : thu.slot = th'.slot
    · rw [same, after_procs_self, own.pid] at mine
      exact absurd mine.symm other
    · rw [after_procs_other same] at mine ⊢
      exact fits.slotFits mine
  · show lock = some u
    rcases own.lockKept with same | free | mine
    · rw [same]
      exact held locked
    · rw [held locked] at free
      cases free
    · rw [held locked] at mine
      exact absurd (Option.some.inj mine) other
  · exact (own.claimed_other inv other (fits.claimed k claims)
      (held (ProcPc.locked_of_claims claims))).1
  · have reads := fits.readsFit
    cases claims : thu.pc.claims with
    | none => exact readsFit_of_not_claims claims
    | some k =>
      obtain ⟨-, pid, code, term⟩ := own.claimed_other inv other (fits.claimed k claims)
        (held (ProcPc.locked_of_claims claims))
      exact readsFit_congr claims pid code term reads
  · obtain ⟨free, vacant⟩ := fits.taken k takes
    have notMine : k ≠ th'.slot := by
      rintro rfl
      exact own.active (vacant t th own.here own.slot.symm)
    refine ⟨by rw [after_procs_other notMine]; exact free, fun v thv thread' slot => ?_⟩
    by_cases mine : v = t
    · subst mine
      rw [after_threads_self] at thread'
      cases thread'
      exact absurd slot.symm notMine
    · rw [after_threads_other mine] at thread'
      exact vacant v thv thread' slot
  · obtain ⟨thc, childThread, unborn, slot⟩ := fits.expected child expects
    by_cases mine : child = t
    · subst mine
      rw [own.here] at childThread
      cases childThread
      rcases own.unborn u unborn with same | unexpected
      · exact ⟨th', after_threads_self, by rw [same]; exact unborn, by rw [same]; exact slot⟩
      · exact absurd expects (unexpected thu thread)
    · exact ⟨thc, by rw [after_threads_other mine]; exact childThread, unborn, slot⟩

/-- The thread itself fits. -/
theorem threadFits_self (own : OwnStep s t th th' p lock) :
    ThreadFits (s.after t th' p lock) t th' where
  slotPid _ := by rw [after_procs_self, own.pid]
  slotFits _ := by rw [after_procs_self]; exact own.slotFits
  fateFits := own.fateFits
  locked := own.locked
  claimed := own.claimed
  readsFit := own.readsFit
  taken := own.taken
  expected := own.expected

end OwnStep

/-- The invariant is kept by a step of one thread on its own slot. -/
theorem ProcInv.after (inv : ProcInv s) (own : OwnStep s t th th' p lock) :
    ProcInv (s.after t th' p lock) where
  threadFits u thu thread := by
    by_cases mine : u = t
    · subst mine
      rw [after_threads_self] at thread
      cases thread
      exact own.threadFits_self
    · rw [after_threads_other mine] at thread
      exact own.threadFits_other inv mine thread
  owned k used := by
    by_cases mine : k = th'.slot
    · subst mine
      exact ⟨th', by rw [after_procs_self, own.pid, after_threads_self], rfl⟩
    · rw [after_procs_other mine] at used ⊢
      obtain ⟨tho, owner, slot⟩ := inv.owned k used
      have other : (s.procs k).pid ≠ t := by
        intro same
        rw [same, own.here] at owner
        cases owner
        exact mine (slot.symm.trans own.slot.symm)
      exact ⟨tho, by rw [after_threads_other other]; exact owner, slot⟩
  created u thu thread := by
    by_cases mine : u = t
    · subst mine
      exact inv.created u th own.here
    · rw [after_threads_other mine] at thread
      exact inv.created u thu thread
  once := inv.once
  status r mem := by
    obtain ⟨thr, fate, thread, known, status⟩ := inv.status r mem
    by_cases mine : r.1 = t
    · rw [mine, own.here] at thread
      cases thread
      exact ⟨th', fate, by rw [mine, after_threads_self], own.fateKept fate known, status⟩
    · exact ⟨thr, fate, by rw [after_threads_other mine]; exact thread, known, status⟩
  reaped r mem k pid := by
    by_cases mine : k = th'.slot
    · subst mine
      rw [after_procs_self, own.pid] at pid
      have free : (s.procs th.slot).state = .free :=
        inv.reaped r mem th.slot (by rw [own.slotPid inv, pid])
      have fits := (inv.threadFits t th own.here).slotFits (own.slotPid inv)
      have recorded : th.pc.phase = .recorded := by
        cases phase : th.pc.phase with
        | recorded => rfl
        | ended => exact absurd (ProcPc.eq_done phase) own.active
        | alive | marked => simp [phase, SlotFits, Proc.live, free] at fits
      rw [after_procs_self]
      rcases (own.settled recorded).2 with same | ⟨-, freed⟩
      · rw [same.1]
        exact free
      · exact freed
    · rw [after_procs_other mine] at pid ⊢
      exact inv.reaped r mem k pid

/-- A place with which a thread relies on nothing outside its own slot. -/
structure ProcPc.Plain (pc : ProcPc) : Prop where
  claims : pc.claims = none
  takes : pc.takes = none
  expects : pc.expects = none

/-- A step of a born thread to a plain place. -/
theorem ProcInv.plain (inv : ProcInv s) (here : s.threads t = some th) (slot : th'.slot = th.slot)
    (active : th.pc ≠ .done) (born : ∀ parent, th.pc ≠ .unborn parent) (pid : p.pid = t)
    (slotFits : SlotFits th'.fate p th'.pc.phase) (fateFits : FateFits th'.fate th'.pc)
    (fateKept : ∀ fate, th.fate = some fate → th'.fate = some fate)
    (settled : th.pc.phase = .recorded → (th'.pc.phase = .recorded ∨ th'.pc.phase = .ended) ∧
      ((p.state = (s.procs th.slot).state ∧ p.exitCode = (s.procs th.slot).exitCode ∧
        p.termSig = (s.procs th.slot).termSig) ∨ s.lock = some t ∧ p.state = .free))
    (lockKept : lock = s.lock ∨ s.lock = none ∨ s.lock = some t)
    (locked : th'.pc.locked = true → lock = some t) (plain : th'.pc.Plain) :
    ProcInv (s.after t th' p lock) := by
  have own : OwnStep s t th th' p lock := by
    refine ⟨here, slot, active, fun parent unborn => absurd unborn (born parent), pid, slotFits,
      fateFits, fateKept, settled, lockKept, locked, fun k claims => ?_,
      readsFit_of_not_claims plain.claims, fun k takes => ?_, fun child expects => ?_⟩
    · rw [plain.claims] at claims
      cases claims
    · rw [plain.takes] at takes
      cases takes
    · rw [plain.expects] at expects
      cases expects
  exact inv.after own

/-- A thread moves on in its phase, without touching its slot. -/
theorem ProcInv.moveOn (inv : ProcInv s) {pc : ProcPc} (here : s.threads t = some th)
    (active : th.pc ≠ .done) (born : ∀ parent, th.pc ≠ .unborn parent)
    (phase : pc.phase = th.pc.phase) (fateFits : FateFits th.fate pc)
    (lockKept : lock = s.lock ∨ s.lock = none ∨ s.lock = some t)
    (locked : pc.locked = true → lock = some t) (plain : pc.Plain) :
    ProcInv (s.after t { th with pc } (s.procs th.slot) lock) := by
  have fits := inv.threadFits t th here
  have pid := fits.slotPid active
  refine inv.plain here rfl active born pid ?_ fateFits (fun _ known => known) (fun recorded => ?_)
    lockKept locked plain
  · show SlotFits th.fate (s.procs th.slot) pc.phase
    rw [phase]
    exact fits.slotFits pid
  · exact ⟨.inl (phase.trans recorded), .inl ⟨rfl, rfl, rfl⟩⟩

end After

end Yos
