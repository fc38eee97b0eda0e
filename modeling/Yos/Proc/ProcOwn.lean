import Yos.Proc.ProcArrow

/-!
# Threads own their slots

In runs in which `yos_proc_alloc` fills a slot only after the threads of the processes it held have
ended (`ReuseOk`), a thread that has not ended finds its own pid in its slot, the slot is alive as
long as the thread has not marked it, and a zombie that a wait call has chosen stays one (`OwnInv`).
Nothing is said about the status a slot holds.
-/

namespace Yos

/-- `yos_proc_alloc` fills a slot only when the threads that point to it have ended. -/
def ReuseOk (s : ProcTable) (a : ℕ × ProcEvent) : Prop :=
  ∀ th ppid k, s.threads a.1 = some th → th.pc = .alloc ppid (.init k) → s.Vacant k

theorem ReuseOk.of_place {s : ProcTable} {t : ℕ} {th : ProcThread} {e : ProcEvent}
    (here : s.threads t = some th) (place : ∀ ppid k, th.pc ≠ .alloc ppid (.init k)) :
    ReuseOk s (t, e) := by
  intro th' ppid k here' takes
  rw [here] at here'
  cases here'
  exact absurd takes (place ppid k)

/-- A thread and its slot. -/
structure ThreadOwns (s : ProcTable) (t : ℕ) (th : ProcThread) : Prop where
  slotPid : th.pc ≠ .done → (s.procs th.slot).pid = t
  alive : th.pc.phase = .alive → (s.procs th.slot).live = true
  ending : th.pc.phase = .marked ∨ th.pc.phase = .recorded → (s.procs th.slot).live = false
  locked : th.pc.locked = true → s.lock = some t
  claimed : ∀ k, th.pc.claims = some k → (s.procs k).state = .zombie
  expected : ∀ child, th.pc.expects = some child → Expected s t child th.pc.found

/-- Every thread owns its slot. -/
structure OwnInv (s : ProcTable) : Prop where
  owns : ∀ t th, s.threads t = some th → ThreadOwns s t th
  owned : ∀ k, (s.procs k).state ≠ .free → ∃ th, s.threads (s.procs k).pid = some th ∧ th.slot = k
  created : ∀ t th, s.threads t = some th → t < s.nextPid

/-- What the others rely on when `t` makes a step with this effect. -/
def Tame (s : ProcTable) (t : ℕ) (th : ProcThread) : ProcEffect → Prop
  | .quiet => True
  | .acquire => s.lock = none
  | .release => s.lock = some t
  | .write k f =>
    (f (s.procs k)).pid = (s.procs k).pid ∧
      (k = th.slot ∨ (f (s.procs k)).live = (s.procs k).live ∧
        ((s.procs k).state = .free → (f (s.procs k)).state = .free)) ∧
      ((s.procs k).state = .zombie → (f (s.procs k)).state = .zombie ∨ s.lock = some t)
  | .reap k _ => (s.procs k).state = .zombie ∧ s.lock = some t
  | .allocate k _ => s.Vacant k ∧ s.lock = some t
  | .born child => ∃ thc, s.threads child = some thc ∧ thc.pc = .unborn t
  | .abandon child k => ∃ thc, s.threads child = some thc ∧ thc.pc = .unborn t ∧ thc.slot = k

section Frame

variable {s : ProcTable} {t : ℕ} {th th' : ProcThread} {effect : ProcEffect}

theorem Proc.live_of_zombie {p : Proc} (zombie : p.state = .zombie) : p.live = false := by
  simp [live, zombie]

/-- Another thread that has not ended keeps its pid and whether it is alive. -/
theorem OwnInv.slot_other (inv : OwnInv s) (here : s.threads t = some th) (active : th.pc ≠ .done)
    (tame : Tame s t th effect) {u : ℕ} {thu : ProcThread} (other : u ≠ t)
    (thread : s.threads u = some thu) (going : thu.pc ≠ .done)
    (notChild : effect.child s ≠ some u) :
    (effect.slot s thu.slot).pid = (s.procs thu.slot).pid ∧
      (effect.slot s thu.slot).live = (s.procs thu.slot).live := by
  have pid := (inv.owns u thu thread).slotPid going
  cases effect with
  | quiet | acquire | release | born => exact ⟨rfl, rfl⟩
  | write k f =>
    obtain ⟨samePid, kept, -⟩ := tame
    by_cases same : thu.slot = k
    · subst same
      simp only [ProcEffect.slot, if_true]
      refine ⟨samePid, (kept.resolve_left fun mine => other ?_).1⟩
      rw [← pid, mine]
      exact (inv.owns t th here).slotPid active
    · simp only [ProcEffect.slot, if_neg same, and_self]
  | reap k r =>
    obtain ⟨zombie, -⟩ := tame
    by_cases same : thu.slot = k
    · subst same
      simp only [ProcEffect.slot, if_true, Proc.live_of_zombie zombie]
      exact ⟨trivial, rfl⟩
    · simp only [ProcEffect.slot, if_neg same, and_self]
  | allocate k ppid =>
    obtain ⟨vacant, -⟩ := tame
    have same : thu.slot ≠ k := fun same => going (vacant u thu thread same)
    simp only [ProcEffect.slot, if_neg same, and_self]
  | abandon child k =>
    obtain ⟨thc, childThread, unborn, slot⟩ := tame
    have same : thu.slot ≠ k := by
      intro same
      have childPid := (inv.owns child thc childThread).slotPid (by simp [unborn])
      rw [slot, ← same, pid] at childPid
      exact notChild (congrArg some childPid.symm)
    simp only [ProcEffect.slot, if_neg same, and_self]

/-- A zombie another thread has chosen stays one. -/
theorem OwnInv.zombie_other (inv : OwnInv s) (tame : Tame s t th effect) {u : ℕ} (other : u ≠ t)
    (held : s.lock = some u) {k : Fin maxProcs} (zombie : (s.procs k).state = .zombie) :
    (effect.slot s k).state = .zombie := by
  have mine : s.lock ≠ some t := fun mine => other (Option.some.inj (held.symm.trans mine))
  cases effect with
  | quiet | acquire | release | born => exact zombie
  | write j f =>
    by_cases same : k = j
    · subst same
      simp only [ProcEffect.slot, if_true]
      exact (tame.2.2 zombie).resolve_right mine
    · simpa only [ProcEffect.slot, if_neg same] using zombie
  | reap j r => exact absurd tame.2 mine
  | allocate j ppid => exact absurd tame.2 mine
  | abandon child j =>
    obtain ⟨thc, childThread, unborn, slot⟩ := tame
    have same : k ≠ j := by
      rintro rfl
      have alive := (inv.owns child thc childThread).alive (by rw [unborn]; rfl)
      rw [slot, Proc.live_of_zombie zombie] at alive
      cases alive
    simpa only [ProcEffect.slot, if_neg same] using zombie

/-- The lock another thread holds. -/
theorem lock_other (tame : Tame s t th effect) {u : ℕ} (other : u ≠ t) (held : s.lock = some u) :
    effect.lock s t = some u := by
  cases effect with
  | acquire =>
    rw [show s.lock = none from tame] at held
    cases held
  | release => exact absurd (Option.some.inj (held.symm.trans tame)) other
  | _ => exact held

/-- The child another thread expects. -/
theorem OwnInv.expected_other (inv : OwnInv s) (here : s.threads t = some th)
    (born : ∀ parent, th.pc ≠ .unborn parent) (tame : Tame s t th effect) {u child : ℕ}
    {found : Option (Fin maxProcs)} (other : u ≠ t) (expected : Expected s u child found) :
    Expected (s.moved t th' effect) u child found := by
  obtain ⟨thc, childThread, unborn, slot⟩ := expected
  have notMe : child ≠ t := by
    rintro rfl
    rw [here] at childThread
    cases childThread
    exact born u unborn
  refine ⟨thc, ?_, unborn, slot⟩
  rw [threads_moved_other s th' notMe]
  have notTheirs : ∀ child', child' = child → ∀ thc', s.threads child' = some thc' →
      thc'.pc ≠ .unborn t := by
    rintro child' rfl thc' thread theirs
    rw [childThread] at thread
    cases thread
    rw [unborn] at theirs
    cases theirs
    exact other rfl
  cases effect with
  | allocate k ppid =>
    have old : child ≠ s.nextPid := Nat.ne_of_lt (inv.created child thc childThread)
    simpa only [ProcEffect.thread, if_neg old] using childThread
  | born child' =>
    obtain ⟨thc', thread, theirs⟩ := tame
    have differs : child ≠ child' := fun same => notTheirs child' same.symm thc' thread theirs
    simpa only [ProcEffect.thread, if_neg differs] using childThread
  | abandon child' k =>
    obtain ⟨thc', thread, theirs, -⟩ := tame
    have differs : child ≠ child' := fun same => notTheirs child' same.symm thc' thread theirs
    simpa only [ProcEffect.thread, if_neg differs] using childThread
  | _ => exact childThread

/-- A thread that is not touched owns its slot as before. -/
theorem OwnInv.owns_other (inv : OwnInv s) (here : s.threads t = some th) (active : th.pc ≠ .done)
    (born : ∀ parent, th.pc ≠ .unborn parent) (tame : Tame s t th effect) {u : ℕ} {thu : ProcThread}
    (other : u ≠ t) (thread : s.threads u = some thu) (notChild : effect.child s ≠ some u) :
    ThreadOwns (s.moved t th' effect) u thu := by
  have owns := inv.owns u thu thread
  have going : thu.pc.phase = .alive ∨ thu.pc.phase = .marked ∨ thu.pc.phase = .recorded →
      thu.pc ≠ .done := by
    rintro phase done
    rw [done] at phase
    simp [ProcPc.phase] at phase
  refine ⟨fun active' => ?_, fun phase => ?_, fun phase => ?_, fun locked => ?_, fun k claims => ?_,
    fun child expects => inv.expected_other here born tame other (owns.expected child expects)⟩
  · rw [procs_moved, (inv.slot_other here active tame other thread active' notChild).1]
    exact owns.slotPid active'
  · rw [procs_moved, (inv.slot_other here active tame other thread (going (.inl phase)) notChild).2]
    exact owns.alive phase
  · rw [procs_moved, (inv.slot_other here active tame other thread (going (.inr phase)) notChild).2]
    exact owns.ending phase
  · rw [lock_moved]
    exact lock_other tame other (owns.locked locked)
  · rw [procs_moved]
    exact inv.zombie_other tame other (owns.locked (ProcPc.locked_of_claims claims))
      (owns.claimed k claims)

theorem ProcEffect.thread_of_not_child {u : ℕ} (notChild : effect.child s ≠ some u) :
    effect.thread s t u = s.threads u := by
  cases effect with
  | allocate k ppid => exact if_neg fun same => notChild (congrArg some same.symm)
  | born child => exact if_neg fun same => notChild (congrArg some same.symm)
  | abandon child k => exact if_neg fun same => notChild (congrArg some same.symm)
  | _ => rfl

/-- The process an effect starts, gives up or creates owns its slot. -/
theorem OwnInv.owns_child (inv : OwnInv s) (tame : Tame s t th effect) {u : ℕ} {thu : ProcThread}
    (isChild : effect.child s = some u) (thread : effect.thread s t u = some thu) :
    ThreadOwns (s.moved t th' effect) u thu := by
  cases effect with
  | quiet | acquire | release | write | reap => cases isChild
  | allocate k ppid =>
    cases isChild
    simp only [ProcEffect.thread, if_true, Option.some.injEq] at thread
    subst thread
    have slot : (s.moved t th' (.allocate k ppid)).procs k = .fresh s.nextPid ppid := by
      rw [procs_moved]
      exact if_pos rfl
    refine ⟨fun _ => by rw [slot]; rfl, fun _ => by rw [slot]; rfl, fun ending => ?_,
      fun locked => ?_, fun j claims => ?_, fun child expects => ?_⟩
    · rcases ending with ending | ending <;> cases ending
    · cases locked
    · cases claims
    · cases expects
  | born child =>
    cases isChild
    obtain ⟨thc, childThread, unborn⟩ := tame
    simp only [ProcEffect.thread, if_true, childThread, Option.map_some, Option.some.injEq] at thread
    subst thread
    have owns := inv.owns u thc childThread
    refine ⟨fun _ => ?_, fun _ => ?_, fun ending => ?_, fun locked => ?_, fun j claims => ?_,
      fun child expects => ?_⟩
    · rw [procs_moved]
      exact owns.slotPid (by simp [unborn])
    · rw [procs_moved]
      exact owns.alive (by rw [unborn]; rfl)
    · rcases ending with ending | ending <;> cases ending
    · cases locked
    · cases claims
    · cases expects
  | abandon child k =>
    cases isChild
    obtain ⟨thc, childThread, unborn, slot⟩ := tame
    simp only [ProcEffect.thread, if_true, childThread, Option.map_some, Option.some.injEq] at thread
    subst thread
    refine ⟨fun going => absurd rfl going, fun alive => ?_, fun ending => ?_, fun locked => ?_,
      fun j claims => ?_, fun child expects => ?_⟩
    · cases alive
    · rcases ending with ending | ending <;> cases ending
    · cases locked
    · cases claims
    · cases expects

/-- The process an effect creates, starts or gives up has not been born. -/
theorem OwnInv.child_unborn (inv : OwnInv s) (tame : Tame s t th effect) {u : ℕ} {thu : ProcThread}
    (isChild : effect.child s = some u) (thread : s.threads u = some thu) : thu.pc = .unborn t := by
  cases effect with
  | quiet | acquire | release | write | reap => cases isChild
  | allocate k ppid =>
    cases isChild
    exact absurd (inv.created _ thu thread) (Nat.lt_irrefl _)
  | born child =>
    cases isChild
    obtain ⟨thc, childThread, unborn⟩ := tame
    rw [thread] at childThread
    cases childThread
    exact unborn
  | abandon child k =>
    cases isChild
    obtain ⟨thc, childThread, unborn, -⟩ := tame
    rw [thread] at childThread
    cases childThread
    exact unborn

/-- The process an effect creates, starts or gives up is not the thread that makes the step. -/
theorem OwnInv.child_ne (inv : OwnInv s) (here : s.threads t = some th)
    (born : ∀ parent, th.pc ≠ .unborn parent) (tame : Tame s t th effect) :
    effect.child s ≠ some t :=
  fun isChild => born t (inv.child_unborn tame isChild here)

/-- The thread that makes a step after it. -/
theorem OwnInv.self_moved (inv : OwnInv s) (here : s.threads t = some th)
    (born : ∀ parent, th.pc ≠ .unborn parent) (tame : Tame s t th effect) :
    (s.moved t th' effect).threads t = some th' :=
  threads_moved_self s th' (inv.child_ne here born tame)

/-- The thread of another process after a step is the one before it, or the process is the child the
step is about. -/
theorem thread_moved_cases {u : ℕ} {thu : ProcThread} (other : u ≠ t)
    (thread : (s.moved t th' effect).threads u = some thu) :
    (effect.child s ≠ some u ∧ s.threads u = some thu) ∨
      (effect.child s = some u ∧ effect.thread s t u = some thu) := by
  rw [threads_moved_other s th' other] at thread
  by_cases isChild : effect.child s = some u
  · exact .inr ⟨isChild, thread⟩
  · rw [ProcEffect.thread_of_not_child isChild] at thread
    exact .inl ⟨isChild, thread⟩

/-- A slot that is not free after a step of `t` is a new one, was not free before with the same pid,
or is the slot of `t`. -/
theorem slot_moved_cases {k : Fin maxProcs} (tame : Tame s t th effect)
    (used : (effect.slot s k).state ≠ .free) :
    (∃ ppid, effect = .allocate k ppid) ∨
      ((effect.slot s k).pid = (s.procs k).pid ∧ ((s.procs k).state ≠ .free ∨ k = th.slot)) := by
  cases effect with
  | quiet | acquire | release | born => exact .inr ⟨rfl, .inl used⟩
  | write j f =>
    right
    by_cases same : k = j
    · subst same
      simp only [ProcEffect.slot, if_true] at used ⊢
      refine ⟨tame.1, ?_⟩
      rcases tame.2.1 with mine | ⟨-, kept⟩
      · exact .inr mine
      · exact .inl fun free => used (kept free)
    · simp only [ProcEffect.slot, if_neg same] at used ⊢
      exact ⟨trivial, .inl used⟩
  | reap j r =>
    by_cases same : k = j
    · simp [ProcEffect.slot, same] at used
    · simp only [ProcEffect.slot, if_neg same] at used ⊢
      exact .inr ⟨trivial, .inl used⟩
  | abandon child j =>
    by_cases same : k = j
    · simp [ProcEffect.slot, same] at used
    · simp only [ProcEffect.slot, if_neg same] at used ⊢
      exact .inr ⟨trivial, .inl used⟩
  | allocate j ppid =>
    by_cases same : k = j
    · exact .inl ⟨ppid, by rw [same]⟩
    · simp only [ProcEffect.slot, if_neg same] at used ⊢
      exact .inr ⟨trivial, .inl used⟩

/-- Threads keep their slots. -/
theorem OwnInv.thread_kept (inv : OwnInv s) (here : s.threads t = some th)
    (born : ∀ parent, th.pc ≠ .unborn parent) (slot : th'.slot = th.slot) (tame : Tame s t th effect)
    {u : ℕ} {thu : ProcThread} (thread : s.threads u = some thu) :
    ∃ thu', (s.moved t th' effect).threads u = some thu' ∧ thu'.slot = thu.slot := by
  by_cases mine : u = t
  · subst mine
    rw [here] at thread
    cases thread
    exact ⟨th', inv.self_moved here born tame, slot⟩
  · rw [threads_moved_other s th' mine]
    cases effect with
    | allocate k ppid =>
      have old : u ≠ s.nextPid := Nat.ne_of_lt (inv.created u thu thread)
      exact ⟨thu, by simpa only [ProcEffect.thread, if_neg old] using thread, rfl⟩
    | born child =>
      simp only [ProcEffect.thread]
      split
      · exact ⟨{ thu with pc := .run }, by rw [thread]; rfl, rfl⟩
      · exact ⟨thu, thread, rfl⟩
    | abandon child k =>
      simp only [ProcEffect.thread]
      split
      · exact ⟨{ thu with pc := .done }, by rw [thread]; rfl, rfl⟩
      · exact ⟨thu, thread, rfl⟩
    | _ => exact ⟨thu, thread, rfl⟩

/-- A thread that has been born stays where it is during a step of another. -/
theorem OwnInv.threads_kept (inv : OwnInv s) (tame : Tame s t th effect) {u : ℕ} {thu : ProcThread}
    (other : u ≠ t) (thread : s.threads u = some thu) (born : ∀ parent, thu.pc ≠ .unborn parent) :
    (s.moved t th' effect).threads u = some thu := by
  rw [threads_moved_other s th' other, ProcEffect.thread_of_not_child]
  · exact thread
  · exact fun isChild => born t (inv.child_unborn tame isChild thread)

/-- No thread goes away in a step. -/
theorem OwnInv.none_before (inv : OwnInv s) (here : s.threads t = some th)
    (born : ∀ parent, th.pc ≠ .unborn parent) (slot : th'.slot = th.slot) (tame : Tame s t th effect)
    {u : ℕ} (none_ : (s.moved t th' effect).threads u = none) : u ≠ t ∧ s.threads u = none := by
  have before : s.threads u = none := by
    cases thread : s.threads u with
    | none => rfl
    | some thu =>
      obtain ⟨thu', after, -⟩ := inv.thread_kept here born slot tame thread
      rw [after] at none_
      cases none_
  refine ⟨?_, before⟩
  rintro rfl
  rw [here] at before
  cases before

/-- The thread of another process after a step: it is where it was, its parent has started it or given
it up, or it is new. -/
theorem OwnInv.thread_cases (inv : OwnInv s) (tame : Tame s t th effect) {u : ℕ} {thu : ProcThread}
    (other : u ≠ t) (thread : (s.moved t th' effect).threads u = some thu) :
    s.threads u = some thu ∨
      (∃ parent, s.threads u = some ⟨thu.slot, .unborn parent, thu.fate⟩ ∧
        (thu.pc = .run ∨ thu.pc = .done)) ∨
      (u = s.nextPid ∧ s.threads u = none ∧ ∃ parent, thu.pc = .unborn parent) := by
  rcases thread_moved_cases other thread with ⟨-, before⟩ | ⟨isChild, after⟩
  · exact .inl before
  right
  cases effect with
  | quiet | acquire | release | write | reap => cases isChild
  | allocate k ppid =>
    cases isChild
    refine .inr ⟨rfl, ?_, ?_⟩
    · cases new : s.threads s.nextPid with
      | none => rfl
      | some th => exact absurd (inv.created _ th new) (Nat.lt_irrefl _)
    · simp only [ProcEffect.thread, if_true, Option.some.injEq] at after
      subst after
      exact ⟨t, rfl⟩
  | born child =>
    cases isChild
    obtain ⟨thc, childThread, unborn⟩ := tame
    simp only [ProcEffect.thread, if_true, childThread, Option.map_some, Option.some.injEq] at after
    subst after
    exact .inl ⟨t, by rw [childThread, ← unborn], .inl rfl⟩
  | abandon child k =>
    cases isChild
    obtain ⟨thc, childThread, unborn, -⟩ := tame
    simp only [ProcEffect.thread, if_true, childThread, Option.map_some, Option.some.injEq] at after
    subst after
    exact .inl ⟨t, by rw [childThread, ← unborn], .inr rfl⟩

/-- A slot in use has an owner after a tame step. -/
theorem OwnInv.owned_moved (inv : OwnInv s) (here : s.threads t = some th) (active : th.pc ≠ .done)
    (born : ∀ parent, th.pc ≠ .unborn parent) (slot : th'.slot = th.slot) (tame : Tame s t th effect)
    {k : Fin maxProcs} (used : (effect.slot s k).state ≠ .free) :
    ∃ thu, (s.moved t th' effect).threads (effect.slot s k).pid = some thu ∧ thu.slot = k := by
  rcases slot_moved_cases tame used with ⟨ppid, rfl⟩ | ⟨samePid, was⟩
  · have notMe := inv.child_ne here born tame
    have new : ((ProcEffect.allocate k ppid).slot s k).pid = s.nextPid := by
      simp [ProcEffect.slot, Proc.fresh]
    have other : s.nextPid ≠ t := fun same => notMe (congrArg some same)
    rw [new, threads_moved_other s th' other]
    exact ⟨⟨k, .unborn t, none⟩, if_pos rfl, rfl⟩
  · rw [samePid]
    rcases was with was | mine
    · obtain ⟨thu, thread, atK⟩ := inv.owned k was
      obtain ⟨thu', thread', kept⟩ := inv.thread_kept here born slot tame thread
      exact ⟨thu', thread', kept.trans atK⟩
    · rw [mine, (inv.owns t th here).slotPid active]
      exact ⟨th', inv.self_moved here born tame, slot⟩

/-- A tame step keeps the invariant if its thread owns its slot afterwards. -/
theorem OwnInv.moved (inv : OwnInv s) (here : s.threads t = some th) (active : th.pc ≠ .done)
    (born : ∀ parent, th.pc ≠ .unborn parent) (tame : Tame s t th effect)
    (slot : th'.slot = th.slot) (self : ThreadOwns (s.moved t th' effect) t th') :
    OwnInv (s.moved t th' effect) := by
  have notMe := inv.child_ne here born tame
  refine ⟨fun u thu thread => ?_, fun k used => ?_, fun u thu thread => ?_⟩
  · by_cases mine : u = t
    · subst mine
      rw [threads_moved_self s th' notMe] at thread
      cases thread
      exact self
    · rcases thread_moved_cases mine thread with ⟨notChild, before⟩ | ⟨isChild, after⟩
      · exact inv.owns_other here active born tame mine before notChild
      · exact inv.owns_child tame isChild after
  · rw [procs_moved] at used ⊢
    exact inv.owned_moved here active born slot tame used
  · by_cases mine : u = t
    · subst mine
      exact Nat.lt_of_lt_of_le (inv.created u th here) (nextPid_le_moved s th' effect)
    · rcases thread_moved_cases mine thread with ⟨notChild, before⟩ | ⟨isChild, after⟩
      · exact Nat.lt_of_lt_of_le (inv.created u thu before) (nextPid_le_moved s th' effect)
      · cases effect with
        | quiet | acquire | release | write | reap => cases isChild
        | allocate k ppid =>
          cases isChild
          exact Nat.lt_succ_self _
        | born child =>
          cases isChild
          obtain ⟨thc, childThread, -⟩ := tame
          exact Nat.lt_of_lt_of_le (inv.created _ _ childThread) (nextPid_le_moved s th' _)
        | abandon child k =>
          cases isChild
          obtain ⟨thc, childThread, -⟩ := tame
          exact Nat.lt_of_lt_of_le (inv.created _ _ childThread) (nextPid_le_moved s th' _)

end Frame

/-! ## The steps -/

section Steps

variable {s : ProcTable} {t : ℕ} {th : ProcThread} {e : ProcEvent} {effect : ProcEffect} {pc : ProcPc}

theorem orphan_pid (pid : ℕ) (p : Proc) : (ProcTable.orphan pid p).pid = p.pid := by
  unfold ProcTable.orphan
  split <;> rfl

theorem orphan_state (pid : ℕ) (p : Proc) : (ProcTable.orphan pid p).state = p.state := by
  unfold ProcTable.orphan
  split <;> rfl

theorem Proc.live_congr {p q : Proc} (same : p.state = q.state) : p.live = q.live := by
  simp [live, same]

theorem Proc.not_free_of_live {p : Proc} (live : p.live = true) :
    p.state ≠ .free ∧ p.state ≠ .zombie := by
  constructor <;> intro state <;> simp [Proc.live, state] at live

/-- The child that a fork is about to start has a slot that is alive. -/
theorem OwnInv.child_live (inv : OwnInv s) {child : ℕ} {k : Fin maxProcs}
    (expected : Expected s t child (some k)) : (s.procs k).live = true := by
  obtain ⟨thc, childThread, unborn, slot⟩ := expected
  rw [← slot k rfl]
  exact (inv.owns child thc childThread).alive (by rw [unborn]; rfl)

/-- The others can rely on every step that `ReuseOk` allows. -/
theorem OwnInv.tame (inv : OwnInv s) (here : s.threads t = some th) (ok : ReuseOk s (t, e))
    (arrow : ProcArrow s t th e th.pc effect pc) : Tame s t th effect := by
  have owns := inv.owns t th here
  have reuse := fun ppid k => ok th ppid k here
  obtain ⟨-, alive, -, locked, claimed, expected⟩ := owns
  generalize th.pc = at_ at *
  cases arrow with
  | waitLock w again answer free => exact free
  | allocLock ppid answer free => exact free
  | pumpLock child answer free => exact free
  | finalLock trapped answer free => exact free
  | cleanupLock pid ppid ignores answer free => exact free
  | waitUnlock | allocUnlock | pumpUnlock | finalUnlock | cleanupUnlock => exact locked rfl
  | waitFree w k pid code term answer => exact ⟨claimed k rfl, locked rfl⟩
  | init ppid k answer => exact ⟨reuse ppid k rfl, locked rfl⟩
  | start child k =>
    have live := inv.child_live (expected child rfl)
    have notFree := Proc.not_free_of_live live
    exact ⟨rfl, .inr ⟨live.symm, fun free => absurd free notFree.1⟩,
      fun zombie => absurd zombie notFree.2⟩
  | startFails child k | createFails child k =>
    obtain ⟨thc, childThread, unborn, slot⟩ := expected child rfl
    exact ⟨thc, childThread, unborn, slot k rfl⟩
  | create child k =>
    obtain ⟨thc, childThread, unborn, -⟩ := expected child rfl
    exact ⟨thc, childThread, unborn⟩
  | markState path answer =>
    exact ⟨rfl, .inl rfl, fun zombie => absurd zombie (Proc.not_free_of_live (alive rfl)).2⟩
  | markCode | markTerm | markFlag => exact ⟨rfl, .inl rfl, fun zombie => .inl zombie⟩
  | cleanupLoop k pid ppid ignores answer =>
    have state := orphan_state pid (s.procs k)
    exact ⟨orphan_pid pid _, .inr ⟨Proc.live_congr state, fun free => state.trans free⟩,
      fun zombie => .inl (state.trans zombie)⟩
  | cleanupFree answer => exact ⟨rfl, .inl rfl, fun _ => .inr (locked rfl)⟩
  | _ => trivial

/-- A thread finds its own pid in its slot after its step. -/
theorem OwnInv.self_pid (inv : OwnInv s) (here : s.threads t = some th) (active : th.pc ≠ .done)
    (tame : Tame s t th effect) :
    (effect.slot s th.slot).pid = t := by
  have pid := (inv.owns t th here).slotPid active
  cases effect with
  | quiet | acquire | release | born => exact pid
  | write k f =>
    by_cases same : th.slot = k
    · subst same
      simp only [ProcEffect.slot, if_true]
      exact tame.1.trans pid
    · simpa only [ProcEffect.slot, if_neg same] using pid
  | reap k r | abandon child k =>
    simp only [ProcEffect.slot]
    split <;> exact pid
  | allocate k ppid =>
    have other : th.slot ≠ k := fun same => active (tame.1 t th here same)
    simpa only [ProcEffect.slot, if_neg other] using pid

/-- The slot of a thread is alive after a step iff its new place says so. -/
theorem OwnInv.self_live (inv : OwnInv s) (here : s.threads t = some th)
    (tame : Tame s t th effect) (arrow : ProcArrow s t th e th.pc effect pc) :
    (pc.phase = .alive → (effect.slot s th.slot).live = true) ∧
      (pc.phase = .marked ∨ pc.phase = .recorded → (effect.slot s th.slot).live = false) := by
  have active := arrow.active
  have owns := inv.owns t th here
  have pid := owns.slotPid active.1
  obtain ⟨-, alive, ending, -, claimed, expected⟩ := owns
  generalize place : th.pc = at_ at *
  -- a step that does not touch the slot, from a place of the same phase
  have same : ∀ pc' : ProcPc, pc'.phase = at_.phase →
      (pc'.phase = .alive → (s.procs th.slot).live = true) ∧
        (pc'.phase = .marked ∨ pc'.phase = .recorded → (s.procs th.slot).live = false) := by
    intro pc' phase
    rw [phase]
    exact ⟨alive, ending⟩
  cases arrow with
  | exitLate answer late =>
    refine ⟨fun phase => ?_, fun _ => late⟩
    cases phase
  | finalLive trapped answer live =>
    refine ⟨fun _ => live, fun phase => ?_⟩
    rcases phase with phase | phase <;> cases phase
  | finalLate trapped answer late =>
    refine ⟨fun phase => ?_, fun _ => late⟩
    cases phase
  | vanish | finalUnlock | cleanupUnlock =>
    refine ⟨fun phase => ?_, fun phase => ?_⟩
    · cases phase
    · rcases phase with phase | phase <;> cases phase
  | markState path answer =>
    refine ⟨fun phase => ?_, fun _ => ?_⟩
    · cases phase
    · simp [ProcEffect.slot, Proc.live]
  | markCode path answer =>
    have late : (s.procs th.slot).live = false := ending (.inl rfl)
    simp only [ProcEffect.slot, if_true]
    refine ⟨fun phase => ?_, fun _ => late⟩
    cases path <;> cases phase
  | markTerm path answer =>
    have late : (s.procs th.slot).live = false := ending (.inl rfl)
    simp only [ProcEffect.slot, if_true]
    refine ⟨fun phase => ?_, fun _ => late⟩
    cases phase
  | markFlag path answer =>
    have late : (s.procs th.slot).live = false := ending (.inr rfl)
    simp only [ProcEffect.slot, if_true]
    refine ⟨fun phase => ?_, fun _ => late⟩
    cases path <;> cases phase
  | cleanupFree answer =>
    refine ⟨fun phase => ?_, fun _ => ?_⟩
    · cases phase
    · simp [ProcEffect.slot, Proc.live]
  | cleanupLoop k pid ppid ignores answer =>
    have late : (s.procs th.slot).live = false := ending (.inr rfl)
    refine ⟨fun phase => ?_, fun _ => ?_⟩
    · cases phase
    · simp only [ProcEffect.slot]
      split
      · rw [Proc.live_congr (orphan_state pid _)]
        exact late
      · exact late
  | waitFree w k pid code term answer =>
    have mine : th.slot ≠ k := by
      rintro rfl
      exact (Proc.not_free_of_live (alive rfl)).2 (claimed _ rfl)
    simp only [ProcEffect.slot, if_neg mine]
    exact same _ rfl
  | init ppid k answer =>
    refine ⟨fun _ => ?_, fun phase => ?_⟩
    · simp only [ProcEffect.slot]
      split
      · rfl
      · exact alive rfl
    · rcases phase with phase | phase <;> cases phase
  | start child k =>
    refine ⟨fun _ => ?_, fun phase => ?_⟩
    · simp only [ProcEffect.slot]
      split
      · rfl
      · exact alive rfl
    · rcases phase with phase | phase <;> cases phase
  | startFails child k | createFails child k =>
    obtain ⟨thc, childThread, unborn, slot⟩ := expected child rfl
    have mine : th.slot ≠ k := by
      intro mine
      have childPid := (inv.owns child thc childThread).slotPid (by simp [unborn])
      rw [slot k rfl, ← mine, pid] at childPid
      subst childPid
      rw [here] at childThread
      cases childThread
      rw [place] at unborn
      cases unborn
    simp only [ProcEffect.slot, if_neg mine]
    exact same _ rfl
  | waitLock w again answer free => exact same _ (by cases again <;> rfl)
  | waitUnlock w again answer => exact same _ (by cases again <;> rfl)
  | allocUnlock ppid child answer => exact same _ (by cases child <;> rfl)
  | pumpUnlock child found answer => exact same _ (by cases found <;> rfl)
  | finalLock trapped answer free => exact same _ (by cases trapped <;> rfl)
  | _ => exact same _ rfl

/-- A thread holds `proc_lock` after a step iff its new place says so. -/
theorem OwnInv.self_locked (inv : OwnInv s) (here : s.threads t = some th)
    (arrow : ProcArrow s t th e th.pc effect pc) (held : pc.locked = true) :
    effect.lock s t = some t := by
  have locked := (inv.owns t th here).locked
  generalize th.pc = at_ at *
  cases arrow with
  | waitLock | allocLock | pumpLock | finalLock | cleanupLock => rfl
  | waitUnlock w again answer => cases again <;> cases held
  | allocUnlock ppid child answer => cases child <;> cases held
  | pumpUnlock child found answer => cases found <;> cases held
  | markState path answer | markCode path answer | markTerm path answer | markFlag path answer =>
    cases path <;> first | exact locked rfl | cases held
  | _ => first | exact locked rfl | cases held

/-- The zombie a wait call has chosen is one after its step. -/
theorem OwnInv.self_claimed (inv : OwnInv s) (here : s.threads t = some th)
    (arrow : ProcArrow s t th e th.pc effect pc) {k : Fin maxProcs} (claims : pc.claims = some k) :
    (effect.slot s k).state = .zombie := by
  have claimed := (inv.owns t th here).claimed
  generalize th.pc = at_ at *
  cases arrow with
  | findFound w k answer zombie =>
    cases claims
    simp only [WaitCall.zombie, Bool.and_eq_true, beq_iff_eq] at zombie
    exact zombie.1
  | waitLock w again answer free => cases again <;> cases claims
  | waitUnlock w again answer => cases again <;> cases claims
  | allocUnlock ppid child answer => cases child <;> cases claims
  | pumpUnlock child found answer => cases found <;> cases claims
  | markCode path answer | markFlag path answer => cases path <;> cases claims
  | _ => first | exact claimed k claims | cases claims

/-- The child a fork is about to start has a slot and no thread after a step. -/
theorem OwnInv.self_expected (inv : OwnInv s) (here : s.threads t = some th)
    (tame : Tame s t th effect) (arrow : ProcArrow s t th e th.pc effect pc) {fate : Option (ℤ × ℤ)}
    {child : ℕ} (expects : pc.expects = some child) :
    Expected (s.moved t ⟨th.slot, pc, fate⟩ effect) t child pc.found := by
  have born := arrow.active.2
  have expected := (inv.owns t th here).expected
  have same := fun effect' (idle : ProcEffect.child s effect' = none) found
      (before : Expected s t child found) => show Expected (s.moved t ⟨th.slot, pc, fate⟩ effect')
        t child found by
    obtain ⟨thc, childThread, unborn, slot⟩ := before
    have notMe : child ≠ t := by
      rintro rfl
      rw [here] at childThread
      cases childThread
      exact born _ unborn
    refine ⟨thc, ?_, unborn, slot⟩
    rw [threads_moved_other s _ notMe, ProcEffect.thread_of_not_child (by simp [idle])]
    exact childThread
  have notMe := inv.child_ne here born tame
  generalize th.pc = at_ at *
  cases arrow with
  | init ppid k answer =>
    cases expects
    refine ⟨⟨k, .unborn t, none⟩, ?_, rfl, fun j found => by cases found⟩
    have other : s.nextPid ≠ t := fun mine => notMe (congrArg some mine)
    rw [threads_moved_other s _ other]
    exact if_pos rfl
  | allocUnlock ppid child' answer =>
    cases child' with
    | none => cases expects
    | some child' =>
      cases expects
      obtain ⟨thc, childThread, unborn, -⟩ := expected child rfl
      exact same _ rfl none ⟨thc, childThread, unborn, fun k found => by cases found⟩
  | pumpLock child' answer free =>
    cases expects
    exact same _ rfl none (expected child rfl)
  | pumpFound child' k answer pid used =>
    cases expects
    obtain ⟨thc, childThread, unborn, -⟩ := expected child rfl
    refine same _ rfl (some k) ⟨thc, childThread, unborn, fun k' found => ?_⟩
    cases found
    obtain ⟨thu, thread, slot⟩ := inv.owned k used
    rw [pid, childThread] at thread
    cases thread
    exact slot
  | pumpNext child' i answer inside =>
    cases expects
    exact same _ rfl none (expected child rfl)
  | pumpNone child' i answer outside =>
    cases expects
    exact same _ rfl none (expected child rfl)
  | pumpUnlock child' found answer =>
    cases found with
    | none => cases expects
    | some k =>
      cases expects
      exact same _ rfl (some k) (expected child rfl)
  | start child' k =>
    cases expects
    exact same _ rfl (some k) (expected child rfl)
  | waitLock w again answer free => cases again <;> cases expects
  | waitUnlock w again answer => cases again <;> cases expects
  | markCode path answer | markFlag path answer => cases path <;> cases expects
  | _ => cases expects

/-- Every step that `ReuseOk` allows keeps the invariant. -/
theorem OwnInv.step {s' : ProcTable} {a : ℕ × ProcEvent} (inv : OwnInv s) (ok : ReuseOk s a)
    (next : procSystem.step s a s') : OwnInv s' := by
  obtain ⟨t, e⟩ := a
  obtain ⟨th, here, effect, pc, fate, arrow, rfl⟩ := step_arrow next
  obtain ⟨active, born⟩ := arrow.active
  have tame := inv.tame here ok arrow
  have live := inv.self_live here tame arrow
  refine inv.moved here active born tame rfl ⟨fun _ => ?_, fun phase => ?_, fun phase => ?_,
    fun held => ?_, fun k claims => ?_,
    fun child expects => inv.self_expected here tame arrow expects⟩
  · have pid := inv.self_pid here active tame
    rw [procs_moved]
    exact pid
  · rw [procs_moved]
    exact live.1 phase
  · rw [procs_moved]
    exact live.2 phase
  · rw [lock_moved]
    exact inv.self_locked here arrow held
  · rw [procs_moved]
    exact inv.self_claimed here arrow claims

end Steps

theorem OwnInv.initial : OwnInv .initial := by
  refine ⟨fun t th thread => ?_, fun k used => ?_, fun t th thread => ?_⟩
  · obtain ⟨rfl, rfl⟩ := initial_thread thread
    refine ⟨fun _ => rfl, fun _ => rfl, fun h => ?_, fun h => ?_, fun k h => ?_, fun child h => ?_⟩
    · rcases h with h | h <;> cases h
    · cases h
    · cases h
    · cases h
  · obtain rfl := initial_used used
    exact ⟨⟨⟨0, by decide⟩, .run, none⟩, rfl, rfl⟩
  · obtain ⟨rfl, -⟩ := initial_thread thread
    decide

theorem own_of_reachable {s : ProcTable} (run : procSystem.ReachableIf ReuseOk s) : OwnInv s := by
  refine run.invariant (fun s start => ?_) fun s a s' inv ok next => inv.step ok next
  rw [show s = .initial from start]
  exact .initial

/-- A test for `ReuseOk`. -/
def reuseTest (s : ProcTable) (a : ℕ × ProcEvent) : Bool :=
  match (s.threads a.1).map ProcThread.pc with
  | some (.alloc _ (.init k)) =>
    (List.range s.nextPid).all fun t => (s.threads t).all fun th => th.slot != k || th.pc == .done
  | _ => true

theorem reuseOk_of_test {ok : ProcTable → ℕ × ProcEvent → Prop} {s : ProcTable} {a : ℕ × ProcEvent}
    (run : procSystem.ReachableIf ok s) (test : reuseTest s a = true) : ReuseOk s a := by
  intro th ppid k here place t tht thread slot
  simp only [reuseTest, here, Option.map_some, place, List.all_eq_true, List.mem_range] at test
  have tested := test t (pid_bounds run thread).2
  rw [thread] at tested
  simpa [slot] using tested

end Yos
