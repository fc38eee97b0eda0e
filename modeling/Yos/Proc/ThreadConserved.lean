import Yos.Proc.ThreadRun

/-!
# Conservation of the thread slots

In runs of the steps `Ok` allows, the slots, the records and the stacks of the threads are conserved
(`slots_conserved`).  They are not when two threads join the same one, when a thread made by
`yos_clone_thread` ends, or when a thread is joined before the call that created it has found its
record.
-/

namespace Yos

namespace ThreadSlots

/-! ## The start -/

theorem initial_threads {n : ℕ} {th : GuestThread} (there : Slots.initial.threads n = some th) :
    n = 0 ∧ th = ⟨.run, false⟩ := by
  simp only [Slots.initial, Option.ite_none_right_eq_some, Option.some.injEq] at there
  exact ⟨there.1, there.2.symm⟩

theorem initial_recs {n : ℕ} {r : HostThread} (recs : Slots.initial.recs n = some r) :
    n = 0 ∧ r = { HostThread.fresh with isMaster := true } := by
  simp only [Slots.initial, Option.ite_none_right_eq_some, Option.some.injEq] at recs
  exact ⟨recs.1, recs.2.symm⟩

/-- The lives at the start. -/
def Life.initial (n : ℕ) : Life := if n = 0 then .idle else .unused

theorem Life.initial_worker (n : ℕ) : (Life.initial n).worker = none := by
  rw [Life.initial]
  split <;> rfl

theorem RecOk.initial (n : ℕ) : RecOk .initial n (Life.initial n) := by
  by_cases main : n = 0
  · subst main
    refine recOk_of_live rfl rfl ⟨rfl, rfl, fun bare => by cases bare⟩ (fun i => ?_) ?_
    · simp [Slots.initial, Life.initial, Life.inSlot, HostThread.fresh, eq_comm]
    · simp [Slots.initial, Life.initial, Life.Fits, Slots.pc]
  · rw [Life.initial, if_neg main]
    refine ⟨fun live => ?_, fun _ => if_neg main, fun freed => ?_, fun i => ?_, ?_⟩
    · cases live
    · cases freed
    · simp [Slots.initial, Life.inSlot, Ne.symm main]
    · simp [Slots.initial, Life.Fits, Slots.pc, main]

theorem Inv.initial : Inv .initial Life.initial where
  fault := rfl
  main := ⟨rfl, _, rfl, rfl, rfl⟩
  recs := .initial
  views t th n L there seen := by
    obtain ⟨-, rfl⟩ := initial_threads there
    cases seen
  workers n t works := by
    rw [Life.initial_worker] at works
    cases works
  named t th n tid there called := by
    obtain ⟨-, rfl⟩ := initial_threads there
    cases called
  foreign n t works := by
    rw [Life.initial_worker] at works
    cases works
  mutual_ n t joining := by
    have works := Life.initial_worker n
    rw [joining] at works
    cases works
  fresh n beyond := by
    rw [Life.initial, if_neg]
    rintro rfl
    exact absurd beyond (by decide)
  range i n slot := by
    simp only [Slots.initial, Option.ite_none_right_eq_some] at slot
    rw [slot.1]
    decide
  clone n th there _ := by
    obtain ⟨-, rfl⟩ := initial_threads there
    rfl

theorem StackInv.initial : StackInv .initial Life.initial fun _ => .future where
  frees k := rfl
  fresh k := iff_of_true (Nat.zero_le k) rfl
  held t k := by
    refine iff_of_false ?_ (by simp)
    rintro ⟨th, there, stack⟩
    obtain ⟨-, rfl⟩ := initial_threads there
    cases stack
  owned n k := by
    refine iff_of_false ?_ (by simp)
    rintro ⟨r, recs, owned, -⟩
    obtain ⟨-, rfl⟩ := initial_recs recs
    cases owned

/-! ## Conservation -/

/-- The record, the thread and the slot of a thread that is not joined belong together, and every stack
is where it is to be freed from. -/
structure Conserved (s : Slots) : Prop where
  /-- No freed record was accessed. -/
  fault : s.fault = false
  /-- A slot is held by one thread, which exists or is being created and is not joined, except during
  the call that joins it. -/
  holder : ∀ i n, s.slots i = some n → ∃ r, s.recs n = some r ∧ r.freed = false ∧ r.tid = i ∧
    (s.threads n = none → ∃ t th, s.threads t = some th ∧ th.pc.Creates n) ∧
    (r.joined = true → ∃ t th, s.threads t = some th ∧ th.pc.Joins n)
  /-- A thread that is not joined holds a slot. -/
  slot : ∀ n th, s.threads n = some th → ∃ r, s.recs n = some r ∧
    (r.joined = false → r.freed = false ∧ s.slots r.tid = some n) ∧ (r.joined = true → th.pc = .done)
  /-- A thread that nobody can join gives its slot back when it ends. -/
  clone : ∀ i n th, s.slots i = some n → s.threads n = some th → th.clone = true → th.pc ≠ .done
  /-- A thread is refused only while all slots are held. -/
  full : s.freeSlot = none → ∀ i, 0 < i → i < maxThreads → ∃ n, s.slots i = some n
  /-- A stack is freed once, and until then it is in the hands of the call that allocated it or belongs
  to the thread in some slot. -/
  stack : ∀ k, k < s.nextStack → s.frees k = 1 ∨ s.frees k = 0 ∧ ((∃ t, s.Holds t k) ∨
    ∃ i n r, s.slots i = some n ∧ s.recs n = some r ∧ r.ownedStack = some k)
  /-- It is not freed before the thread is joined. -/
  running : ∀ n r k, s.recs n = some r → r.freed = false → r.joined = false → r.ownedStack = some k →
    s.frees k = 0

namespace Life

theorem live_of_inSlot {L : Life} (inSlot : L.inSlot = true) : L.live = true := by
  cases L with
  | unused | freed => cases inSlot
  | _ => rfl

theorem inSlot_of_pending {L : Life} (pending : L.pending = true) : L.inSlot = true := by
  cases L with
  | idle | joining | ended | joined => rfl
  | _ => cases pending

theorem bare_of_marked {L : Life} (marked : L.marked = true) : L.bare = false := by
  cases L with
  | joined | unstacked | leaving => rfl
  | _ => cases marked

theorem worker_of_marked {L : Life} (marked : L.marked = true) : ∃ t, L.worker = some t := by
  cases L with
  | joined t | unstacked t | leaving t => exact ⟨t, rfl⟩
  | _ => cases marked

theorem pending_of_unmarked {L : Life} (live : L.live = true) (unmarked : L.marked = false)
    (bare : L.bare = false) : L.pending = true := by
  cases L with
  | idle | joining | ended | joined => rfl
  | unused | freed => cases live
  | unslotted | slotted | born => cases bare
  | unstacked | leaving => cases unmarked

/-- A record in a slot without a thread is worked on by the call that creates the thread. -/
theorem Fits.slotted {L : Life} (fits : L.Fits none) (inSlot : L.inSlot = true) :
    ∃ t, L = .slotted t := by
  cases L with
  | slotted t => exact ⟨t, rfl⟩
  | unused | unslotted | leaving | freed => cases inSlot
  | born | idle | joining => exact absurd rfl fits
  | ended | joined | unstacked => cases fits

/-- The record of a thread that is not joined is in a slot. -/
theorem Fits.inSlot {L : Life} {pc : ThreadPc} (fits : L.Fits (some pc)) (live : L.live = true)
    (unmarked : L.marked = false) : L.inSlot = true := by
  cases L with
  | unused | freed => cases live
  | unslotted => cases fits
  | leaving => cases unmarked
  | _ => rfl

theorem Fits.done {L : Life} {pc : ThreadPc} (fits : L.Fits (some pc)) (marked : L.marked = true) :
    pc = .done := by
  cases L with
  | joined | unstacked | leaving => exact Option.some.inj fits
  | _ => cases marked

/-- A thread without an allocated record has ended. -/
theorem Fits.freed {L : Life} {pc : ThreadPc} (fits : L.Fits (some pc)) (dead : L.live = false) :
    L = .freed ∧ pc = .done := by
  cases L with
  | freed => exact ⟨rfl, Option.some.inj (fits.resolve_left (by simp))⟩
  | unused => cases fits
  | _ => cases dead

end Life

theorem Good.conserved {s : Slots} (good : Good s) : Conserved s := by
  obtain ⟨life, place, inv, stacked⟩ := good
  refine ⟨inv.fault, fun i n slot => ?_, fun n th there => ?_, fun i n th _ there clone done => ?_,
    fun none_ i pos small => ?_, fun k old => ?_, fun n r k recs freed unjoined owned => ?_⟩
  · obtain ⟨inSlot, r, recs, same⟩ := ((inv.recs n).slot i).1 slot
    obtain ⟨r', recs', freed, joined, -⟩ := (inv.recs n).live (Life.live_of_inSlot inSlot)
    obtain rfl : r = r' := Option.some.inj (recs.symm.trans recs')
    refine ⟨r, recs, freed, same, fun none_ => ?_, fun marked => ?_⟩
    · have fits := (inv.recs n).thread
      rw [Slots.pc, none_] at fits
      obtain ⟨t, slotted⟩ := fits.slotted inSlot
      obtain ⟨th, there, seen⟩ := inv.workers n t (by rw [slotted]; rfl)
      rw [slotted] at seen
      exact ⟨t, th, there, ThreadPc.creates_of_view seen rfl⟩
    · rw [joined] at marked
      obtain ⟨t, works⟩ := Life.worker_of_marked marked
      obtain ⟨th, there, seen⟩ := inv.workers n t works
      refine ⟨t, th, there, ThreadPc.joins_of_view seen (Life.bare_of_marked marked) ?_⟩
      rintro rfl
      rw [inv.main.1] at marked
      cases marked
  · have fits := (inv.recs n).thread
    rw [Slots.pc, there] at fits
    cases live : (life n).live with
    | true =>
      obtain ⟨r, recs, freed, joined, -⟩ := (inv.recs n).live live
      refine ⟨r, recs, fun unmarked => ⟨freed, ?_⟩, fun marked => fits.done (joined ▸ marked)⟩
      exact ((inv.recs n).slot_iff recs).2 ⟨fits.inSlot live (joined ▸ unmarked), rfl⟩
    | false =>
      obtain ⟨freed, ended⟩ := fits.freed live
      obtain ⟨r, recs, -, joined⟩ := (inv.recs n).gone freed
      have marked : r.joined = true := joined (by simp [Slots.pc, there])
      refine ⟨r, recs, fun unmarked => ?_, fun _ => ended⟩
      rw [marked] at unmarked
      cases unmarked
  · rw [inv.clone n th there done] at clone
    cases clone
  · have held := List.find?_eq_none.1 none_ i (List.mem_range'_1.2 (by rw [maxThreads] at *; omega))
    exact Option.ne_none_iff_exists'.1 (by simpa using held)
  · have frees := stacked.frees k
    cases at_ : place k with
    | future => exact absurd ((stacked.fresh k).2 at_) (by omega)
    | creator t => exact .inr ⟨by rw [frees, at_]; rfl, .inl ⟨t, (stacked.held t k).2 at_⟩⟩
    | thread n =>
      obtain ⟨r, recs, owned, pending⟩ := (stacked.owned n k).2 at_
      have slot := ((inv.recs n).slot_iff recs).2 ⟨Life.inSlot_of_pending pending, rfl⟩
      exact .inr ⟨by rw [frees, at_]; rfl, .inr ⟨r.tid, n, r, slot, recs, owned⟩⟩
    | gone => exact .inl (by rw [frees, at_]; rfl)
  · have live : (life n).live = true := by
      cases at_ : life n with
      | unused =>
        rw [(inv.recs n).unused at_] at recs
        cases recs
      | freed =>
        obtain ⟨r', recs', dead, -⟩ := (inv.recs n).gone at_
        obtain rfl : r = r' := Option.some.inj (recs.symm.trans recs')
        rw [freed] at dead
        cases dead
      | _ => rfl
    obtain ⟨r', recs', -, joined, bare⟩ := (inv.recs n).live live
    obtain rfl : r = r' := Option.some.inj (recs.symm.trans recs')
    have owner : (life n).bare = false := by
      rw [Bool.eq_false_iff]
      intro none_
      rw [bare none_] at owned
      cases owned
    have pending := Life.pending_of_unmarked live (joined ▸ unjoined) owner
    rw [stacked.frees, (stacked.owned n k).1 ⟨r, recs, owned, pending⟩]
    rfl

theorem Good.of_run {s : Slots} (run : slotSystem.ReachableIf Ok s) : Good s := by
  refine run.invariant (fun s start => ?_) fun _ _ _ good allowed next => good.step allowed next
  rw [show s = .initial from start]
  exact ⟨_, _, .initial, .initial⟩

/-- The slots, the records and the stacks are conserved in every run of allowed steps. -/
theorem slots_conserved {s : Slots} (run : slotSystem.ReachableIf Ok s) : Conserved s :=
  (Good.of_run run).conserved

/-! ## A thread that is made, ends and is joined -/

instance (pc : ThreadPc) (n : ℕ) : Decidable (pc.Creates n) :=
  match pc with
  | .create _ _ stage => inferInstanceAs (Decidable (stage.target = some n))
  | .run | .join _ | .done => .isFalse id

instance (pc : ThreadPc) (n : ℕ) : Decidable (pc.Joins n) :=
  match pc with
  | .join stage => inferInstanceAs (Decidable (stage.target = some n ∧ n ≠ 0))
  | .run | .create .. | .done => .isFalse id

/-- A test for `Ok`. -/
def Slots.mayStep (s : Slots) : ℕ × Slots.Event → Bool
  | (t, .next _) =>
    match s.pc t with
    | some (.join (.lookup tid)) =>
      (s.lookupThread tid).all fun n => n == 0 ||
        n != t && decide (∀ u < s.nextRec, ∀ other ∈ s.threads u,
          ¬ other.pc.Creates n ∧ ¬ other.pc.Joins n) &&
        decide (∀ own ∈ s.threads n, ¬ own.pc.Joins t)
    | _ => true
  | (t, .finish) => (s.threads t).all fun th => !th.clone
  | _ => true

/-- Only the numbers of records are numbers of threads. -/
theorem Inv.thread_lt {s : Slots} {life : ℕ → Life} {t : ℕ} {th : GuestThread} (inv : Inv s life)
    (here : s.threads t = some th) : t < s.nextRec := by
  by_contra beyond
  have fits := (inv.recs t).thread
  rw [inv.fresh t (by omega), Slots.pc, here] at fits
  cases fits

theorem ok_of_mayStep {s : Slots} {a : ℕ × Slots.Event} (good : Good s) (may : s.mayStep a = true) :
    Ok s a := by
  obtain ⟨life, place, inv, -⟩ := good
  obtain ⟨t, e⟩ := a
  cases e with
  | next ok =>
    intro th tid n here looks found main
    simp only [Slots.mayStep, Slots.pc, here, Option.map_some, looks, found, Option.all_some,
      Bool.or_eq_true, beq_iff_eq, main, false_or, Bool.and_eq_true, bne_iff_ne,
      decide_eq_true_eq] at may
    obtain ⟨⟨other, free⟩, back⟩ := may
    exact ⟨other, fun u th' there => free u (inv.thread_lt there) th' there, back⟩
  | finish =>
    intro th here
    simpa [Slots.mayStep, here] using may
  | create | clone | join | touch => trivial

/-- The thread goes on `n` times. -/
def goesOn (t n : ℕ) : List (ℕ × Slots.Event) := List.replicate n (t, .next true)

/-- The main thread creates a thread, which ends, and joins it. -/
def createAndJoin : List (ℕ × Slots.Event) :=
  (0, .create) :: goesOn 0 9 ++ [(1, .touch), (1, .finish), (0, .join 1)] ++ goesOn 0 12

theorem slots_conserved_join : ∃ s, slotSystem.ReachableIf Ok s ∧
    s.threads 1 = some ⟨.done, false⟩ ∧ s.slots 1 = none ∧ s.nextStack = 1 ∧ Conserved s := by
  have look : (System.runIf (fun s a => s.step a.1 a.2) Slots.mayStep Slots.initial
      createAndJoin).map (fun s => (s.threads 1, s.slots 1, s.nextStack)) =
      some (some ⟨.done, false⟩, none, 1) := by decide +kernel
  obtain ⟨s, made, seen⟩ := Option.map_eq_some_iff.1 look
  simp only [Prod.mk.injEq] at seen
  obtain ⟨ended, free, stacked⟩ := seen
  have run : slotSystem.ReachableIf Ok s :=
    .runIf (fun _ _ _ made => made) (fun _ _ run may => ok_of_mayStep (.of_run run) may) (.init rfl)
      made
  exact ⟨s, run, ended, free, stacked, slots_conserved run⟩

/-! ## Where slots, records and stacks are lost -/

/-- Any run. -/
def Slots.run (s : Slots) (steps : List (ℕ × Slots.Event)) : Option Slots :=
  System.runIf (fun s a => s.step a.1 a.2) (fun _ _ => true) s steps

theorem reachable_of_run {s : Slots} {steps : List (ℕ × Slots.Event)}
    (made : Slots.initial.run steps = some s) : slotSystem.Reachable s :=
  System.ReachableIf.runIf (fun _ _ _ made => made) (fun _ _ _ _ => trivial) (.init rfl) made

/-- The threads 0 and 2 both find the record of the thread 1 before one of them marks it; 0 frees it,
and 2 marks it then. -/
def twoJoiners : List (ℕ × Slots.Event) :=
  (0, .create) :: goesOn 0 9 ++
    (0, .create) :: goesOn 0 9 ++ [(1, .finish), (0, .join 1), (2, .join 1)] ++
    goesOn 2 6 ++ goesOn 0 12 ++ [(2, .next true)]

/-- A thread made by `yos_clone_thread` ends. -/
def cloneEnds : List (ℕ × Slots.Event) :=
  (0, .clone) :: goesOn 0 6 ++ [(1, .finish)]

/-- The thread 1 joins the thread 2 before the call that created 2 has found its record, and the stack
of 2 stays allocated. -/
def lateStack : List (ℕ × Slots.Event) :=
  (0, .clone) :: goesOn 0 6 ++ (0, .create) :: goesOn 0 7 ++
    [(2, .finish), (1, .join 2)] ++ goesOn 1 11 ++ [(0, .next true)]

theorem slots_not_conserved :
    (∃ s, slotSystem.Reachable s ∧ s.fault = true ∧ ¬ Conserved s) ∧
    (∃ s, slotSystem.Reachable s ∧ s.slots 1 = some 1 ∧ s.threads 1 = some ⟨.done, true⟩ ∧
      ¬ Conserved s) ∧
    ∃ s, slotSystem.Reachable s ∧ s.nextRec = 3 ∧
      (s.pc 0, s.pc 1, s.pc 2) = (some .run, some .run, some .done) ∧
      (s.slots 1, s.slots 2) = (some 1, none) ∧ (s.recs 1).map HostThread.ownedStack = some none ∧
      s.nextStack = 1 ∧ s.frees 0 = 0 := by
  refine ⟨?_, ?_, ?_⟩
  · have look : (Slots.initial.run twoJoiners).map Slots.fault = some true := by decide +kernel
    obtain ⟨s, made, fault⟩ := Option.map_eq_some_iff.1 look
    refine ⟨s, reachable_of_run made, fault, fun conserved => ?_⟩
    rw [conserved.fault] at fault
    cases fault
  · have look : (Slots.initial.run cloneEnds).map (fun s => (s.slots 1, s.threads 1)) =
      some (some 1, some ⟨.done, true⟩) := by decide +kernel
    obtain ⟨s, made, seen⟩ := Option.map_eq_some_iff.1 look
    obtain ⟨slot, thread⟩ := Prod.mk.inj seen
    exact ⟨s, reachable_of_run made, slot, thread, fun conserved =>
      conserved.clone 1 1 _ slot thread rfl rfl⟩
  · have look : (Slots.initial.run lateStack).map (fun s => (s.nextRec, (s.pc 0, s.pc 1, s.pc 2),
        (s.slots 1, s.slots 2), (s.recs 1).map HostThread.ownedStack, s.nextStack, s.frees 0)) =
      some (3, (some .run, some .run, some .done), (some 1, none), some none, 1, 0) := rfl
    obtain ⟨s, made, seen⟩ := Option.map_eq_some_iff.1 look
    obtain ⟨next, rest⟩ := Prod.mk.inj seen
    obtain ⟨places, rest⟩ := Prod.mk.inj rest
    obtain ⟨slots, rest⟩ := Prod.mk.inj rest
    obtain ⟨bare, rest⟩ := Prod.mk.inj rest
    obtain ⟨stacked, frees⟩ := Prod.mk.inj rest
    exact ⟨s, reachable_of_run made, next, places, slots, bare, stacked, frees⟩

end ThreadSlots

end Yos
