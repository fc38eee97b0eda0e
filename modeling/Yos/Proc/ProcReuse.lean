import Yos.Proc.ProcSteps

/-!
# The steps that free slots and give them away

A wait call claims a zombie, reads its status and frees it; a fork takes a free slot for a child and
starts the child's thread.  Both keep the invariant when they choose a slot as `ProcOk` asks.
-/

namespace Yos

section Steps

variable {s s' : ProcTable} {t : ℕ} {th : ProcThread} {pc : ProcPc} {k : Fin maxProcs}

/-! ## Wait calls -/

theorem after_procs_same {lock : Option ℕ} :
    (s.after t { th with pc } (s.procs th.slot) lock).procs = s.procs := Function.update_eq_self ..

/-- The owner of a claimed slot is not alive. -/
theorem Claimed.after (claimed : Claimed s k) (here : s.threads t = some th)
    (alive : th.pc.phase = .alive) {lock : Option ℕ} :
    Claimed (s.after t { th with pc } (s.procs th.slot) lock) k := by
  obtain ⟨tho, owner, slot, settled⟩ := claimed.owner
  refine ⟨by rw [after_procs_same]; exact claimed.zombie, tho, ?_, slot, settled⟩
  rw [after_procs_same, after_threads_other]
  · exact owner
  · intro mine
    rw [mine, here] at owner
    cases owner
    simp [alive] at settled

/-- A wait call goes on with the zombie it has chosen. -/
theorem ProcInv.claim (inv : ProcInv s) (here : s.threads t = some th) {w : WaitCall}
    {stage stage' : WaitStage} (wait : th.pc = .wait w stage) (locked : th.pc.locked = true)
    {k : Fin maxProcs} (claims : (ProcPc.wait w stage').claims = some k) (claimed : Claimed s k)
    (reads : ReadsFit s (.wait w stage')) : ProcInv (s.goto t th (.wait w stage')) := by
  have active : th.pc ≠ .done := by simp [wait]
  have alive : th.pc.phase = .alive := by
    rw [wait]
    rfl
  have fits := inv.threadFits t th here
  have pid := fits.slotPid active
  have slotFits := fits.slotFits pid
  have noFate := fits.fateFits
  rw [alive] at slotFits
  rw [wait] at noFate
  have own : OwnStep s t th { th with pc := .wait w stage' } (s.procs th.slot) s.lock := by
    refine ⟨here, rfl, active, by simp [wait], pid, slotFits, noFate, fun _ known => known,
      by simp [alive], .inl rfl, fun _ => fits.locked locked, ?_, ?_, ?_, ?_⟩
    · intro k' claims'
      rw [claims] at claims'
      cases claims'
      exact claimed.after here alive
    · exact readsFit_congr claims (by rw [after_procs_same]) (by rw [after_procs_same])
        (by rw [after_procs_same]) reads
    · intro k' takes
      cases takes
    · intro child expects
      cases expects
  rw [goto_eq]
  exact inv.after own

theorem reap_procs_self {r : ℕ × ℤ} :
    (s.reap k r).procs k = { s.procs k with state := .free } := Function.update_self ..

theorem reap_procs_other {r : ℕ × ℤ} {j : Fin maxProcs} (other : j ≠ k) :
    (s.reap k r).procs j = s.procs j := Function.update_of_ne other _ _

theorem reap_pid {r : ℕ × ℤ} {j : Fin maxProcs} : ((s.reap k r).procs j).pid = (s.procs j).pid := by
  by_cases same : j = k
  · rw [same, reap_procs_self]
  · rw [reap_procs_other same]

/-- The status of a claimed slot is that of its process. -/
theorem Claimed.fate (claimed : Claimed s k) (inv : ProcInv s) :
    ∃ th, s.threads (s.procs k).pid = some th ∧ th.slot = k ∧
      (th.pc.phase = .recorded ∨ th.pc.phase = .ended) ∧
      th.fate = some ((s.procs k).exitCode, (s.procs k).termSig) := by
  obtain ⟨th, owner, slot, settled⟩ := claimed.owner
  have fits := (inv.threadFits _ th owner).slotFits (by rw [slot])
  rw [slot] at fits
  refine ⟨th, owner, slot, settled, ?_⟩
  rcases settled with recorded | ended
  · rw [recorded] at fits
    exact (fits.resolve_right (by simp [claimed.zombie])).2
  · rw [ended] at fits
    exact fits claimed.zombie

/-- The threads fit after a wait call has freed the zombie that it alone has chosen. -/
theorem ThreadFits.reap {r : ℕ × ℤ} (fits : ThreadFits s t th) (here : s.threads t = some th)
    (claimed : Claimed s k) (alone : th.pc.claims ≠ some k) : ThreadFits (s.reap k r) t th := by
  have other : ∀ j, th.pc.claims = some j → j ≠ k := by
    rintro j claims rfl
    exact alone claims
  refine ⟨fun active => ?_, fun mine => ?_, fits.fateFits, fits.locked, fun j claims => ?_, ?_,
    fun j takes => ?_, fits.expected⟩
  · rw [reap_pid]
    exact fits.slotPid active
  · rw [reap_pid] at mine
    by_cases same : th.slot = k
    · obtain ⟨tho, owner, -, settled⟩ := claimed.owner
      rw [← same, mine, here] at owner
      cases owner
      rw [same, reap_procs_self]
      rcases settled with recorded | ended
      · rw [recorded]
        exact .inr rfl
      · rw [ended]
        intro zombie
        cases zombie
    · rw [reap_procs_other same]
      exact fits.slotFits mine
  · obtain ⟨zombie, owner⟩ := fits.claimed j claims
    refine ⟨?_, ?_⟩
    all_goals rw [reap_procs_other (other j claims)]
    · exact zombie
    · exact owner
  · cases claims : th.pc.claims with
    | none => exact readsFit_of_not_claims claims
    | some j =>
      refine readsFit_congr claims ?_ ?_ ?_ fits.readsFit
      all_goals rw [reap_procs_other (other j claims)]
  · obtain ⟨free, vacant⟩ := fits.taken j takes
    have notTaken : j ≠ k := by
      rintro rfl
      rw [claimed.zombie] at free
      cases free
    rw [reap_procs_other notTaken]
    exact ⟨free, vacant⟩

/-- A wait call frees the zombie it has chosen and returns its status. -/
theorem ProcInv.reap (inv : ProcInv s) (claimed : Claimed s k)
    (alone : ∀ t th, s.threads t = some th → th.pc.claims ≠ some k) :
    ProcInv (s.reap k ((s.procs k).pid, waitStatus (s.procs k).exitCode (s.procs k).termSig)) := by
  obtain ⟨tho, owner, slot, -, fate⟩ := claimed.fate inv
  refine ⟨fun t th here => (inv.threadFits t th here).reap here claimed (alone t th here),
    fun j used => ?_, inv.created, ?_, fun r mem => ?_, fun r mem j at_ => ?_⟩
  · have other : j ≠ k := by
      rintro rfl
      rw [reap_procs_self] at used
      exact used rfl
    rw [reap_procs_other other] at used ⊢
    exact inv.owned j used
  · refine List.nodup_cons.mpr ⟨fun mem => ?_, inv.once⟩
    obtain ⟨r, mem, same⟩ := List.mem_map.mp mem
    have free := inv.reaped r mem k same.symm
    rw [claimed.zombie] at free
    cases free
  · rcases List.mem_cons.mp mem with rfl | mem
    · exact ⟨tho, _, owner, fate, rfl⟩
    · exact inv.status r mem
  · by_cases same : j = k
    · rw [same, reap_procs_self]
    · rw [reap_procs_other same] at at_ ⊢
      rcases List.mem_cons.mp mem with rfl | mem
      · by_contra used
        obtain ⟨thj, owner', slot'⟩ := inv.owned j used
        rw [at_, owner] at owner'
        cases owner'
        exact same (slot'.symm.trans slot)
      · exact inv.reaped r mem j at_

section Wait

variable {w : WaitCall} {stage : WaitStage}

/-- A wait call that holds `proc_lock` goes on without a zombie. -/
theorem ProcInv.goOnWaiting (inv : ProcInv s) (here : s.threads t = some th)
    (wait : th.pc = .wait w stage) (held : s.lock = some t) {stage' : WaitStage}
    (plain : (ProcPc.wait w stage').Plain) : ProcInv (s.goto t th (.wait w stage')) := by
  have noFate := (inv.threadFits t th here).fateFits
  rw [wait] at noFate
  rw [goto_eq]
  exact inv.moveOn here (by simp [wait]) (by simp [wait]) (by rw [wait]; rfl) noFate (.inl rfl)
    (fun _ => held) plain

/-- `find_zombie_child` has found a zombie with its status stored. -/
theorem ProcInv.choose (inv : ProcInv s) (here : s.threads t = some th)
    (wait : th.pc = .wait w stage) (locked : th.pc.locked = true)
    (found : w.zombie (s.procs k) = true) (settled : s.Settled (s.procs k).pid) :
    ProcInv (s.goto t th (.wait w (.pid k))) := by
  have zombie : (s.procs k).state = .zombie := by
    simp only [WaitCall.zombie, Bool.and_eq_true, beq_iff_eq] at found
    exact found.1
  obtain ⟨tho, owner, slot⟩ := inv.owned k (by simp [zombie])
  exact inv.claim here wait locked rfl ⟨zombie, tho, owner, slot, settled tho owner⟩ trivial

/-- A wait call frees the zombie it has chosen; no other call has chosen it, as this one holds
`proc_lock`. -/
theorem ProcInv.freeZombie (inv : ProcInv s) (here : s.threads t = some th)
    (wait : th.pc = .wait w stage) (held : s.lock = some t) (claimed : Claimed s k) :
    ProcInv ((s.reap k ((s.procs k).pid, waitStatus (s.procs k).exitCode (s.procs k).termSig)).goto
      t th (.wait w (.unlock false))) := by
  have moved : ProcInv (s.goto t th (.wait w (.unlock false))) :=
    inv.goOnWaiting here wait held ⟨rfl, rfl, rfl⟩
  have stillClaimed : Claimed (s.goto t th (.wait w (.unlock false))) k := by
    rw [goto_eq]
    exact claimed.after here (by rw [wait]; rfl)
  refine moved.reap stillClaimed fun u thu thread claims => ?_
  by_cases mine : u = t
  · subst mine
    rw [goto_eq, after_threads_self] at thread
    cases thread
    cases claims
  · rw [goto_eq, after_threads_other mine] at thread
    have other := (inv.threadFits u thu thread).locked (ProcPc.locked_of_claims claims)
    rw [held] at other
    exact mine (Option.some.inj other).symm

/-- `yos_waitpid` and `yos_wait4`. -/
theorem ProcInv.waitStep (inv : ProcInv s) (here : s.threads t = some th)
    (wait : th.pc = .wait w stage) {e : ProcEvent} (ok : ProcOk s (t, e))
    (next : s.waitStep t th w stage = some s') : ProcInv s' := by
  have fits := inv.threadFits t th here
  have noFate := fits.fateFits
  have held := fits.locked
  have claimed := fits.claimed
  have reads := fits.readsFit
  have allowed := ok th here
  rw [wait] at noFate held claimed reads allowed
  cases stage with
  | lock again =>
    obtain ⟨free, rfl⟩ := acquire_eq next
    refine inv.moveOn here (by simp [wait]) (by simp [wait]) (by rw [wait]; rfl) noFate
      (.inr (.inl free)) (fun _ => rfl) ?_
    cases again <;> exact ⟨rfl, rfl, rfl⟩
  | has i =>
    simp only [ProcTable.waitStep] at next
    split at next
    · split at next
      all_goals
        cases next
        exact inv.goOnWaiting here wait (held rfl) ⟨rfl, rfl, rfl⟩
    · cases next
      exact inv.goOnWaiting here wait (held rfl) ⟨rfl, rfl, rfl⟩
  | find i =>
    simp only [ProcTable.waitStep] at next
    split at next
    · next h =>
      split at next
      · next found =>
        cases next
        exact inv.choose here wait (by rw [wait]; rfl) found (allowed ⟨i, h⟩ rfl found)
      · cases next
        exact inv.goOnWaiting here wait (held rfl) ⟨rfl, rfl, rfl⟩
    · cases next
      exact inv.goOnWaiting here wait (held rfl) ⟨rfl, rfl, rfl⟩
  | pid k =>
    cases next
    exact inv.claim here wait (by rw [wait]; rfl) rfl (claimed k rfl) rfl
  | code k pid =>
    cases next
    exact inv.claim here wait (by rw [wait]; rfl) rfl (claimed k rfl) ⟨reads, rfl⟩
  | term k pid code =>
    cases next
    exact inv.claim here wait (by rw [wait]; rfl) rfl (claimed k rfl) ⟨reads.1, reads.2, rfl⟩
  | free k pid code term =>
    cases next
    obtain ⟨rfl, rfl, rfl⟩ := reads
    exact inv.freeZombie here wait (held rfl) (claimed k rfl)
  | unlock again =>
    cases next
    rw [release_eq]
    refine inv.moveOn here (by simp [wait]) (by simp [wait]) ?_ ?_ (.inr (.inr (held rfl)))
      (fun h => ?_) ?_
    · rw [wait]
      cases again <;> rfl
    · cases again <;> exact noFate
    · cases again <;> cases h
    · cases again <;> exact ⟨rfl, rfl, rfl⟩

end Wait

/-! ## Forks -/

/-- `yos_proc_alloc` has found a free slot. -/
theorem ProcInv.take (inv : ProcInv s) (here : s.threads t = some th) {ppid i : ℕ}
    (scan : th.pc = .alloc ppid (.scan i)) (free : (s.procs k).state = .free) (vacant : s.Vacant k) :
    ProcInv (s.goto t th (.alloc ppid (.init k))) := by
  have active : th.pc ≠ .done := by simp [scan]
  have alive : th.pc.phase = .alive := by
    rw [scan]
    rfl
  have fits := inv.threadFits t th here
  have pid := fits.slotPid active
  have slotFits := fits.slotFits pid
  have noFate := fits.fateFits
  rw [alive] at slotFits
  rw [scan] at noFate
  have own : OwnStep s t th { th with pc := .alloc ppid (.init k) } (s.procs th.slot) s.lock := by
    refine ⟨here, rfl, active, by simp [scan], pid, slotFits, noFate, fun _ known => known,
      by simp [alive], .inl rfl, fun _ => fits.locked (by rw [scan]; rfl), ?_, trivial, ?_, ?_⟩
    · intro j claims
      cases claims
    · intro j takes
      cases takes
      refine ⟨by rw [after_procs_same]; exact free, fun u thu thread slot => ?_⟩
      by_cases mine : u = t
      · subst mine
        rw [after_threads_self] at thread
        cases thread
        exact absurd (vacant u th here slot) active
      · rw [after_threads_other mine] at thread
        exact vacant u thu thread slot
    · intro child expects
      cases expects
  rw [goto_eq]
  exact inv.after own

theorem allocate_procs_self {ppid : ℕ} :
    (s.allocate t k ppid).procs k = .fresh s.nextPid ppid := Function.update_self ..

theorem allocate_procs_other {ppid : ℕ} {j : Fin maxProcs} (other : j ≠ k) :
    (s.allocate t k ppid).procs j = s.procs j := Function.update_of_ne other _ _

theorem allocate_threads_self {ppid : ℕ} :
    (s.allocate t k ppid).threads s.nextPid = some ⟨k, .unborn t, none⟩ := Function.update_self ..

theorem allocate_threads_other {ppid u : ℕ} (other : u ≠ s.nextPid) :
    (s.allocate t k ppid).threads u = s.threads u := Function.update_of_ne other _ _

/-- A thread that was there before an allocation is there after it. -/
theorem ProcInv.allocate_threads (inv : ProcInv s) {ppid u : ℕ} {thu : ProcThread}
    (thread : s.threads u = some thu) : (s.allocate t k ppid).threads u = some thu := by
  rw [allocate_threads_other (Nat.ne_of_lt (inv.created u thu thread))]
  exact thread

/-- The other threads fit after a free slot with no thread is given to a child. -/
theorem ThreadFits.allocate {ppid u : ℕ} {thu : ProcThread} (inv : ProcInv s)
    (thread : s.threads u = some thu) (free : (s.procs k).state = .free) (vacant : s.Vacant k)
    (takes : thu.pc.takes = none) : ThreadFits (s.allocate t k ppid) u thu := by
  have fits := inv.threadFits u thu thread
  have other : ∀ j, thu.pc.claims = some j → j ≠ k := by
    rintro j claims rfl
    rw [(fits.claimed j claims).zombie] at free
    cases free
  refine ⟨fun active => ?_, fun mine => ?_, fits.fateFits, fits.locked, fun j claims => ?_, ?_,
    fun j takes' => ?_, fun child expects => ?_⟩
  · have notTaken : thu.slot ≠ k := fun slot => active (vacant u thu thread slot)
    rw [allocate_procs_other notTaken]
    exact fits.slotPid active
  · by_cases same : thu.slot = k
    · rw [same, allocate_procs_self] at mine
      exact absurd mine.symm (Nat.ne_of_lt (inv.created u thu thread))
    · rw [allocate_procs_other same] at mine ⊢
      exact fits.slotFits mine
  · obtain ⟨zombie, tho, owner, settled⟩ := fits.claimed j claims
    refine ⟨?_, tho, ?_, settled⟩
    all_goals rw [allocate_procs_other (other j claims)]
    · exact zombie
    · exact inv.allocate_threads owner
  · cases claims : thu.pc.claims with
    | none => exact readsFit_of_not_claims claims
    | some j =>
      refine readsFit_congr claims ?_ ?_ ?_ fits.readsFit
      all_goals rw [allocate_procs_other (other j claims)]
  · rw [takes] at takes'
    cases takes'
  · obtain ⟨thc, childThread, unborn⟩ := fits.expected child expects
    exact ⟨thc, inv.allocate_threads childThread, unborn⟩

/-- A free slot with no thread is given to a child. -/
theorem ProcInv.allocate (inv : ProcInv s) {ppid : ℕ} (free : (s.procs k).state = .free)
    (vacant : s.Vacant k) (alone : ∀ u thu, s.threads u = some thu → thu.pc.takes = none) :
    ProcInv (s.allocate t k ppid) := by
  refine ⟨fun u thu thread => ?_, fun j used => ?_, fun u thu thread => ?_, inv.once,
    fun r mem => ?_, fun r mem j at_ => ?_⟩
  · by_cases new : u = s.nextPid
    · subst new
      rw [allocate_threads_self] at thread
      cases thread
      refine ⟨fun _ => ?_, fun _ => ?_, rfl, fun h => ?_, fun j h => ?_, trivial, fun j h => ?_,
        fun j h => ?_⟩
      · rw [allocate_procs_self]
        rfl
      · rw [allocate_procs_self]
        exact ⟨rfl, rfl, rfl⟩
      all_goals cases h
    · rw [allocate_threads_other new] at thread
      exact ThreadFits.allocate inv thread free vacant (alone u thu thread)
  · by_cases same : j = k
    · subst same
      exact ⟨_, by rw [allocate_procs_self]; exact allocate_threads_self, rfl⟩
    · rw [allocate_procs_other same] at used ⊢
      obtain ⟨tho, owner, slot⟩ := inv.owned j used
      exact ⟨tho, inv.allocate_threads owner, slot⟩
  · show u < s.nextPid + 1
    by_cases new : u = s.nextPid
    · omega
    · rw [allocate_threads_other new] at thread
      have old := inv.created u thu thread
      omega
  · obtain ⟨thr, fate, thread, known⟩ := inv.status r mem
    exact ⟨thr, fate, inv.allocate_threads thread, known⟩
  · by_cases same : j = k
    · subst same
      rw [allocate_procs_self] at at_
      obtain ⟨thr, fate, thread, -⟩ := inv.status r mem
      exact absurd at_.symm (Nat.ne_of_lt (inv.created r.1 thr thread))
    · rw [allocate_procs_other same] at at_ ⊢
      exact inv.reaped r mem j at_

/-- A fork goes on with its child. -/
theorem ProcInv.expect (inv : ProcInv s) (here : s.threads t = some th) {lock : Option ℕ} {child : ℕ}
    (active : th.pc ≠ .done) (born : ∀ parent, th.pc ≠ .unborn parent)
    (phase : pc.phase = th.pc.phase) (fateFits : FateFits th.fate pc)
    (lockKept : lock = s.lock ∨ s.lock = none ∨ s.lock = some t)
    (locked : pc.locked = true → lock = some t) (claims : pc.claims = none)
    (takes : pc.takes = none) (expects : pc.expects = some child)
    (expected : Expected s t child pc.found) :
    ProcInv (s.after t { th with pc } (s.procs th.slot) lock) := by
  have fits := inv.threadFits t th here
  have pid := fits.slotPid active
  have slotFits := fits.slotFits pid
  rw [← phase] at slotFits
  have own : OwnStep s t th { th with pc } (s.procs th.slot) lock := by
    refine ⟨here, rfl, active, fun parent unborn => absurd unborn (born parent), pid, slotFits,
      fateFits, fun _ known => known, fun recorded => ?_, lockKept, locked, fun j claims' => ?_,
      readsFit_of_not_claims claims, fun j takes' => ?_, fun child' expects' => ?_⟩
    · exact ⟨.inl (phase.trans recorded), .inl ⟨rfl, rfl, rfl⟩⟩
    · rw [claims] at claims'
      cases claims'
    · rw [takes] at takes'
      cases takes'
    · rw [expects] at expects'
      cases expects'
      obtain ⟨thc, childThread, unborn, slot⟩ := expected
      have other : child ≠ t := by
        rintro rfl
        rw [here] at childThread
        cases childThread
        exact born _ unborn
      exact ⟨thc, by rw [after_threads_other other]; exact childThread, unborn, slot⟩
  exact inv.after own

theorem ProcPc.locked_of_takes {pc : ProcPc} {k : Fin maxProcs} (takes : pc.takes = some k) :
    pc.locked = true := by
  unfold ProcPc.takes at takes
  split at takes
  all_goals first | rfl | cases takes

/-- `yos_proc_alloc` fills the slot it has found.  The thread is first moved to a place where it
does not rely on the slot being free. -/
theorem ProcInv.init (inv : ProcInv s) (here : s.threads t = some th) {ppid : ℕ}
    (init : th.pc = .alloc ppid (.init k)) (free : (s.procs k).state = .free) (vacant : s.Vacant k) :
    ProcInv ((s.allocate t k ppid).goto t th (.alloc ppid (.unlock (some s.nextPid)))) := by
  have active : th.pc ≠ .done := by simp [init]
  have born : ∀ parent, th.pc ≠ .unborn parent := by simp [init]
  have fits := inv.threadFits t th here
  have noFate := fits.fateFits
  have held : s.lock = some t := fits.locked (by rw [init]; rfl)
  rw [init] at noFate
  have old : t ≠ s.nextPid := Nat.ne_of_lt (inv.created t th here)
  have moved : ProcInv (s.goto t th (.alloc ppid (.unlock none))) := by
    rw [goto_eq]
    exact inv.moveOn here active born (by rw [init]; rfl) noFate (.inl rfl) (fun _ => held)
      ⟨rfl, rfl, rfl⟩
  have others : ∀ u thu, (s.goto t th (.alloc ppid (.unlock none))).threads u = some thu →
      thu = { th with pc := .alloc ppid (.unlock none) } ∨ (u ≠ t ∧ s.threads u = some thu) := by
    intro u thu thread
    rw [goto_eq] at thread
    by_cases mine : u = t
    · subst mine
      rw [after_threads_self] at thread
      cases thread
      exact .inl rfl
    · rw [after_threads_other mine] at thread
      exact .inr ⟨mine, thread⟩
  have allocated : ProcInv ((s.goto t th (.alloc ppid (.unlock none))).allocate t k ppid) := by
    refine moved.allocate free (fun u thu thread slot => ?_) fun u thu thread => ?_
    · rcases others u thu thread with rfl | ⟨-, thread⟩
      · exact absurd (vacant t th here slot) active
      · exact vacant u thu thread slot
    · rcases others u thu thread with rfl | ⟨other, thread⟩
      · rfl
      · refine Option.eq_none_iff_forall_ne_some.mpr fun j takes => other ?_
        have lock := (inv.threadFits u thu thread).locked (ProcPc.locked_of_takes takes)
        rw [held] at lock
        exact (Option.some.inj lock).symm
  have thread : ((s.goto t th (.alloc ppid (.unlock none))).allocate t k ppid).threads t =
      some { th with pc := .alloc ppid (.unlock none) } :=
    moved.allocate_threads (by rw [goto_eq]; exact after_threads_self)
  have final : (s.allocate t k ppid).goto t th (.alloc ppid (.unlock (some s.nextPid))) =
      ((s.goto t th (.alloc ppid (.unlock none))).allocate t k ppid).goto t
        { th with pc := .alloc ppid (.unlock none) } (.alloc ppid (.unlock (some s.nextPid))) := by
    simp [ProcTable.goto, ProcTable.put, ProcTable.allocate, Function.update_comm old]
  rw [final, goto_eq]
  exact allocated.expect thread (by simp) (by simp) rfl noFate (.inl rfl) (fun _ => held) rfl rfl rfl
    ⟨_, allocate_threads_self, rfl, fun _ h => by cases h⟩

/-- `yos_proc_alloc`. -/
theorem ProcInv.allocStep (inv : ProcInv s) (here : s.threads t = some th) {ppid : ℕ}
    {stage : AllocStage} (alloc : th.pc = .alloc ppid stage) {e : ProcEvent} (ok : ProcOk s (t, e))
    (next : s.allocStep t th ppid stage = some s') : ProcInv s' := by
  have active : th.pc ≠ .done := by simp [alloc]
  have born : ∀ parent, th.pc ≠ .unborn parent := by simp [alloc]
  have phase : th.pc.phase = .alive := by
    rw [alloc]
    rfl
  have fits := inv.threadFits t th here
  have noFate := fits.fateFits
  have held := fits.locked
  have taken := fits.taken
  have expected := fits.expected
  have allowed := ok th here
  rw [alloc] at noFate held taken expected allowed
  have goOn : ∀ stage', (ProcPc.alloc ppid stage').Plain → s.lock = some t →
      ProcInv (s.goto t th (.alloc ppid stage')) := by
    intro stage' plain mine
    rw [goto_eq]
    exact inv.moveOn here active born (by rw [phase]; rfl) noFate (.inl rfl) (fun _ => mine) plain
  cases stage with
  | lock =>
    obtain ⟨free, rfl⟩ := acquire_eq next
    exact inv.moveOn here active born (by rw [phase]; rfl) noFate (.inr (.inl free)) (fun _ => rfl)
      ⟨rfl, rfl, rfl⟩
  | scan i =>
    simp only [ProcTable.allocStep] at next
    split at next
    · next h =>
      split at next
      · next free =>
        cases next
        exact inv.take here alloc free (allowed ⟨i, h⟩ rfl free)
      · cases next
        exact goOn _ ⟨rfl, rfl, rfl⟩ (held rfl)
    · cases next
      exact goOn _ ⟨rfl, rfl, rfl⟩ (held rfl)
  | init k =>
    cases next
    obtain ⟨free, vacant⟩ := taken k rfl
    exact inv.init here alloc free vacant
  | unlock child =>
    cases child with
    | none =>
      cases next
      rw [release_eq]
      exact inv.moveOn here active born (by rw [phase]; rfl) noFate (.inr (.inr (held rfl)))
        (fun h => by cases h) ⟨rfl, rfl, rfl⟩
    | some child =>
      cases next
      rw [release_eq]
      obtain ⟨thc, childThread, unborn, -⟩ := expected child rfl
      exact inv.expect here active born (by rw [phase]; rfl) noFate (.inr (.inr (held rfl)))
        (fun h => by cases h) rfl rfl rfl ⟨thc, childThread, unborn, fun _ h => by cases h⟩

/-- The child of a fork that is not expected any more starts, or never will. -/
theorem ProcInv.unbornStep (inv : ProcInv s) (here : s.threads t = some th) {parent : ℕ}
    (unborn : th.pc = .unborn parent) (unexpected : ∀ thp, s.threads parent = some thp →
      thp.pc.expects ≠ some t) {p : Proc} (pid : p.pid = t) (slotFits : SlotFits th.fate p pc.phase)
    (fateFits : FateFits th.fate pc) (unlocked : pc.locked = false) (plain : pc.Plain) :
    ProcInv (s.after t { th with pc } p s.lock) := by
  have own : OwnStep s t th { th with pc } p s.lock := by
    refine ⟨here, rfl, by simp [unborn], fun parent' unborn' => ?_, pid, slotFits, fateFits,
      fun _ known => known, by simp [unborn, ProcPc.phase], .inl rfl, fun locked => ?_,
      fun j claims => ?_, readsFit_of_not_claims plain.claims, fun j takes => ?_,
      fun child expects => ?_⟩
    · rw [unborn] at unborn'
      cases unborn'
      exact .inr unexpected
    · rw [unlocked] at locked
      cases locked
    · rw [plain.claims] at claims
      cases claims
    · rw [plain.takes] at takes
      cases takes
    · rw [plain.expects] at expects
      cases expects
  exact inv.after own

/-- The slot of a child that has no thread yet becomes `YOS_PROC_RUNNING`. -/
theorem ProcInv.setRunning (inv : ProcInv s) (here : s.threads t = some th) {parent : ℕ}
    (unborn : th.pc = .unborn parent) :
    ProcInv (s.write th.slot fun p => { p with state := .running }) := by
  have active : th.pc ≠ .done := by simp [unborn]
  have fits := inv.threadFits t th here
  have pid := fits.slotPid active
  have slotFits := fits.slotFits pid
  rw [unborn] at slotFits
  have own : OwnStep s t th th { s.procs th.slot with state := .running } s.lock := by
    refine ⟨here, rfl, active, fun _ _ => .inl rfl, pid, ?_, fits.fateFits, fun _ known => known,
      by simp [unborn, ProcPc.phase], .inl rfl, fits.locked, ?_, ?_, ?_, ?_⟩
    · rw [unborn]
      exact ⟨rfl, slotFits.2⟩
    all_goals simp [unborn, ProcPc.claims, ProcPc.takes, ProcPc.expects, ReadsFit]
  have same : s.write th.slot (fun p => { p with state := .running }) =
      s.after t th { s.procs th.slot with state := .running } s.lock := by
    simp [ProcTable.write, ProcTable.after, ← here]
  rw [same]
  exact inv.after own

/-- The child starts. -/
theorem ProcInv.born (inv : ProcInv s) (here : s.threads t = some th) {parent : ℕ}
    (unborn : th.pc = .unborn parent) (unexpected : ∀ thp, s.threads parent = some thp →
      thp.pc.expects ≠ some t) : ProcInv (s.born t) := by
  have fits := inv.threadFits t th here
  have pid := fits.slotPid (by simp [unborn])
  have slotFits := fits.slotFits pid
  have noFate := fits.fateFits
  rw [unborn] at slotFits noFate
  unfold ProcTable.born
  simp only [here, goto_eq]
  exact inv.unbornStep here unborn unexpected pid slotFits noFate rfl ⟨rfl, rfl, rfl⟩

/-- The child is given up. -/
theorem ProcInv.abandon (inv : ProcInv s) (here : s.threads t = some th) {parent : ℕ}
    (unborn : th.pc = .unborn parent) (unexpected : ∀ thp, s.threads parent = some thp →
      thp.pc.expects ≠ some t) (slot : th.slot = k) : ProcInv (s.abandon t k) := by
  have fits := inv.threadFits t th here
  have pid := fits.slotPid (by simp [unborn])
  subst slot
  have thread : (s.write th.slot fun p => { p with state := .free }).threads t = some th := here
  unfold ProcTable.abandon
  simp only [thread, write_goto_eq]
  exact inv.unbornStep here unborn unexpected pid (fun zombie => by cases zombie) trivial rfl
    ⟨rfl, rfl, rfl⟩

section Pump

variable {child : ℕ} {stage : PumpStage}

/-- A fork goes back to guest code; its child has no thread yet and is not expected any more. -/
theorem ProcInv.backFromPump (inv : ProcInv s) (here : s.threads t = some th)
    (pump : th.pc = .pump child stage) :
    ∃ thc, ProcInv (s.goto t th .run) ∧ (s.goto t th .run).threads child = some thc ∧
      thc.pc = .unborn t ∧ (∀ k, th.pc.found = some k → thc.slot = k) ∧
      ∀ thp, (s.goto t th .run).threads t = some thp → thp.pc.expects ≠ some child := by
  have born : ∀ parent, th.pc ≠ .unborn parent := by simp [pump]
  have fits := inv.threadFits t th here
  have noFate := fits.fateFits
  obtain ⟨thc, childThread, unborn, slot⟩ := fits.expected child (by rw [pump]; rfl)
  rw [pump] at noFate
  rw [goto_eq]
  refine ⟨thc, ?_, ?_, unborn, slot, fun thp thread expects => ?_⟩
  · exact inv.moveOn here (by simp [pump]) born (by rw [pump]; rfl) noFate (.inl rfl)
      (fun h => by cases h) ⟨rfl, rfl, rfl⟩
  · rw [after_threads_other]
    · exact childThread
    · rintro rfl
      rw [here] at childThread
      cases childThread
      exact born _ unborn
  · rw [after_threads_self] at thread
    cases thread
    cases expects

/-- `pthread_create` succeeds. -/
theorem ProcInv.launch (inv : ProcInv s) (here : s.threads t = some th)
    (pump : th.pc = .pump child stage) : ProcInv ((s.goto t th .run).born child) := by
  obtain ⟨thc, back, childThread, unborn, -, unexpected⟩ := inv.backFromPump here pump
  exact back.born childThread unborn unexpected

/-- `yos_fork_pump` gives the child up. -/
theorem ProcInv.giveUp (inv : ProcInv s) (here : s.threads t = some th)
    (pump : th.pc = .pump child stage) (found : th.pc.found = some k) :
    ProcInv ((s.goto t th .run).abandon child k) := by
  obtain ⟨thc, back, childThread, unborn, slot, unexpected⟩ := inv.backFromPump here pump
  exact back.abandon childThread unborn unexpected (slot k found)

/-- `yos_fork_pump`. -/
theorem ProcInv.pumpStep (inv : ProcInv s) (here : s.threads t = some th)
    (pump : th.pc = .pump child stage) {answer : Bool}
    (next : s.pumpStep t th child answer stage = some s') : ProcInv s' := by
  have active : th.pc ≠ .done := by simp [pump]
  have born : ∀ parent, th.pc ≠ .unborn parent := by simp [pump]
  have phase : th.pc.phase = .alive := by
    rw [pump]
    rfl
  have fits := inv.threadFits t th here
  have noFate := fits.fateFits
  have held := fits.locked
  have expected : Expected s t child th.pc.found := fits.expected child (by rw [pump]; rfl)
  rw [pump] at noFate held expected
  obtain ⟨thc, childThread, unborn, slot⟩ := expected
  have goOn : ∀ stage', s.lock = some t → (∀ k, (ProcPc.pump child stage').found = some k →
      thc.slot = k) → ProcInv (s.goto t th (.pump child stage')) := by
    intro stage' mine slot'
    rw [goto_eq]
    exact inv.expect here active born (by rw [phase]; rfl) noFate (.inl rfl) (fun _ => mine) rfl rfl
      rfl ⟨thc, childThread, unborn, slot'⟩
  cases stage with
  | lock =>
    obtain ⟨free, rfl⟩ := acquire_eq next
    exact inv.expect here active born (by rw [phase]; rfl) noFate (.inr (.inl free)) (fun _ => rfl)
      rfl rfl rfl ⟨thc, childThread, unborn, fun _ h => by cases h⟩
  | find i =>
    simp only [ProcTable.pumpStep] at next
    split at next
    · next h =>
      split at next
      · next match_ =>
        cases next
        obtain ⟨tho, owner, slot'⟩ := inv.owned ⟨i, h⟩ match_.2
        rw [match_.1, childThread] at owner
        cases owner
        refine goOn _ (held rfl) fun k found => ?_
        cases found
        exact slot'
      · cases next
        exact goOn _ (held rfl) (fun _ h => by cases h)
    · cases next
      exact goOn _ (held rfl) (fun _ h => by cases h)
  | unlock found =>
    cases found with
    | none =>
      cases next
      rw [release_eq]
      exact inv.moveOn here active born (by rw [phase]; rfl) noFate (.inr (.inr (held rfl)))
        (fun h => by cases h) ⟨rfl, rfl, rfl⟩
    | some k =>
      cases next
      rw [release_eq]
      exact inv.expect here active born (by rw [phase]; rfl) noFate (.inr (.inr (held rfl)))
        (fun h => by cases h) rfl rfl rfl ⟨thc, childThread, unborn, slot⟩
  | start k =>
    cases answer with
    | true =>
      cases next
      obtain rfl := slot k rfl
      have running := inv.setRunning childThread unborn
      rw [goto_eq]
      exact running.expect here active born (by rw [phase]; rfl) noFate (.inl rfl)
        (fun h => by cases h) rfl rfl rfl
        ⟨thc, childThread, unborn, fun k found => by cases found; rfl⟩
    | false =>
      cases next
      exact inv.giveUp here pump (by rw [pump]; rfl)
  | create k =>
    cases answer with
    | true =>
      cases next
      exact inv.launch here pump
    | false =>
      cases next
      exact inv.giveUp here pump (by rw [pump]; rfl)

end Pump

end Steps

end Yos
