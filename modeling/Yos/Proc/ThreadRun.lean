import Yos.Proc.ThreadLife

/-!
# The steps of the thread slots

Every step `Ok` allows keeps the invariant of the slots, stage by stage.
-/

namespace Yos

namespace ThreadSlots

section Steps

variable {s s' x : Slots} {life : ℕ → Life} {place : ℕ → Place} {t n tid : ℕ} {th : GuestThread}
  {pc : ThreadPc} {clone c : Bool} {stack : Option ℕ} {ok : Bool}

/-! ## Going on -/

theorem quiet_goto (here : s.threads t = some th) (pc : ThreadPc) : Quiet s t th pc (s.goto t pc) :=
  ⟨rfl, rfl, rfl, rfl, s.goto_threads here pc⟩

/-- The thread goes on and nothing else happens. -/
theorem Good.goto (inv : Inv s life) (stacked : StackInv s life place)
    (here : s.threads t = some th) (alive : th.pc ≠ .done) (view : pc.view t = th.pc.view t)
    (goes : pc = .done → th.clone = false) (same : pc.stack = th.pc.stack)
    (named : ∀ n tid, pc.named = some (n, tid) → ∃ r, s.recs n = some r ∧ r.tid = tid) :
    Good (s.goto t pc) :=
  .quiet inv stacked here (quiet_goto here pc) rfl rfl alive view goes same named

/-- The state `x` differs from `s` in the record `n` and its slot, and the thread `t` goes on. -/
theorem move_goto (here : s.threads t = some th) (other : n ≠ t) (threads : x.threads = s.threads)
    (fault : x.fault = s.fault) (recs : ∀ m, m ≠ n → x.recs m = s.recs m)
    (slots : ∀ m i, m ≠ n → (x.slots i = some m ↔ s.slots i = some m)) (pc : ThreadPc) :
    Move s t th pc n (x.goto t pc) where
  other := other
  fault := fault
  recs := recs
  slots := slots
  threads u _ := by rw [x.goto_threads (threads ▸ here), threads]
  own := .inl (by rw [x.goto_threads (threads ▸ here), threads, Function.update_of_ne other])

theorem move_write (here : s.threads t = some th) (other : n ≠ t) (r : HostThread) (pc : ThreadPc) :
    Move s t th pc n ((s.write n r).goto t pc) :=
  move_goto (x := s.write n r) here other rfl rfl (fun _ ne => Function.update_of_ne ne _ _)
    (fun _ _ _ => Iff.rfl) pc

theorem write_self (r : HostThread) : (s.write n r).recs n = some r := Function.update_self _ _ _

/-- The place of another thread stays. -/
theorem pc_goto (here : x.threads t = some th) (other : n ≠ t) : (x.goto t pc).pc n = x.pc n := by
  rw [Slots.pc, Slots.pc, x.goto_threads here, Function.update_of_ne other]

/-! ## Creating a thread -/

theorem Good.create_malloc (inv : Inv s life) (stacked : StackInv s life place)
    (here : s.threads t = some ⟨.create clone stack .malloc, c⟩)
    (step : s.createStep t clone stack ok .malloc = some s') : Good s' := by
  rw [Slots.createStep] at step
  cases ok with
  | false =>
    cases step
    exact .goto inv stacked here (by simp) rfl (by simp) rfl fun n tid named => by cases named
  | true =>
    cases step
    have new : place s.nextStack = .future := (stacked.fresh _).1 (Nat.le_refl _)
    have quiet : Quiet s t _ (.create clone (some s.nextStack) .calloc)
        ({ s with nextStack := s.nextStack + 1 }.goto t
          (.create clone (some s.nextStack) .calloc)) :=
      ⟨rfl, rfl, rfl, rfl, s.goto_threads here _⟩
    have now : _ = some (GuestThread.mk (.create clone (some s.nextStack) .calloc) c) :=
      (congrFun quiet.threads t).trans (Function.update_self _ _ _)
    refine ⟨life, Function.update place s.nextStack (.creator t),
      inv.quiet here quiet (by simp) rfl (by simp) (fun n tid named => by cases named),
      stacked.relocate (fun _ _ => rfl) ?_ (fun j ne => ?_) ?_ (fun u j ne => ?_) (fun u => ?_)
        (fun n j _ => ?_) fun n => ?_⟩
    · have zero := stacked.frees s.nextStack
      rw [new] at zero
      exact zero
    · change s.nextStack + 1 ≤ j ↔ s.nextStack ≤ j
      omega
    · change s.nextStack + 1 ≤ s.nextStack ↔ _
      simp
    · by_cases same : u = t
      · subst same
        rw [holds_iff now, holds_iff here]
        simp [ThreadPc.stack, ne.symm]
      · exact holds_of_thread ((congrFun quiet.threads u).trans (Function.update_of_ne same _ _))
    · by_cases same : u = t
      · subst same
        rw [holds_iff now]
        simp [ThreadPc.stack]
      · rw [holds_of_thread ((congrFun quiet.threads u).trans (Function.update_of_ne same _ _)),
          stacked.held, new]
        simp [Ne.symm same]
    · exact Iff.rfl
    · change s.Owns life n s.nextStack ↔ _
      rw [stacked.owned, new]
      simp

theorem Good.create_calloc (inv : Inv s life) (stacked : StackInv s life place)
    (here : s.threads t = some ⟨.create clone stack .calloc, c⟩)
    (step : s.createStep t clone stack ok .calloc = some s') : Good s' := by
  rw [Slots.createStep] at step
  cases ok with
  | false =>
    cases step
    exact .goto inv stacked here (by simp) rfl (by simp) rfl fun n tid named => by cases named
  | true =>
    cases step
    have unused : life s.nextRec = .unused := inv.fresh _ (Nat.le_refl _)
    have before := inv.recs s.nextRec
    rw [unused] at before
    have thread : s.pc s.nextRec = none := before.thread
    have other : s.nextRec ≠ t := by
      intro same
      rw [same, Slots.pc, here] at thread
      cases thread
    let x : Slots := { s.write s.nextRec .fresh with nextRec := s.nextRec + 1 }
    have move : Move s t _ (.create clone stack (.alloc s.nextRec)) s.nextRec
        (x.goto t (.create clone stack (.alloc s.nextRec))) :=
      move_goto (x := x) here other rfl rfl (fun _ ne => Function.update_of_ne ne _ _)
        (fun _ _ _ => Iff.rfl) _
    have recs : x.recs s.nextRec = some .fresh := write_self _
    have slot (i : ℕ) : s.slots i ≠ some s.nextRec := by
      intro held
      exact absurd ((before.slot i).1 held).1 (by decide)
    refine ⟨Function.update life s.nextRec (.unslotted t), place,
      inv.move here move (by simp) (by simp) ?_ (fun m L seen => by cases seen) (fun u works => ?_)
        (.inl ⟨rfl, rfl⟩) ?_ (fun u joining => by cases joining)
        (fun n tid named => by cases named) (fun m beyond => ?_) (fun i held => ?_),
      stacked.keep rfl rfl (move.holds here rfl) (move.owns fun k => ?_)⟩
    · intro main
      rw [main, inv.main.1] at unused
      cases unused
    · rw [unused] at works
      cases works
    · refine recOk_of_live recs rfl ⟨rfl, rfl, fun _ => rfl⟩ (fun i => ?_) ?_
      · exact iff_of_false (slot i) (by simp [Life.inSlot])
      · rw [pc_goto (x := x) here other]
        exact thread
    · change s.nextRec + 1 ≤ m at beyond
      omega
    · exact absurd held (slot i)
    · rw [Slots.Owns, Slots.Owns, show (x.goto t _).recs = x.recs from rfl, recs, before.unused rfl]
      simp [HostThread.fresh]

/-- The scan finds a slot that is free. -/
theorem freeSlot_spec {i : ℕ} (found : s.freeSlot = some i) :
    i < maxThreads ∧ i ≠ 0 ∧ s.slots i = none := by
  have listed := List.mem_range'_1.1 (List.mem_of_find?_eq_some found)
  have free := List.find?_some found
  simp only [maxThreads, Option.isNone_iff_eq_none] at listed free ⊢
  exact ⟨by omega, by omega, free⟩

/-- A thread that creates another one is not that thread. -/
theorem Inv.ne_of_view {L : Life} (inv : Inv s life) (here : s.threads t = some th)
    (seen : th.pc.view t = some (n, L)) : n ≠ t := by
  refine inv.foreign n t ?_
  rw [inv.views t th n L here seen]
  exact ThreadPc.view_worker seen

/-- What is known of the record a thread works on. -/
theorem Inv.record {L : Life} (inv : Inv s life) (here : s.threads t = some th)
    (seen : th.pc.view t = some (n, L)) : RecOk s n L := by
  have record := inv.recs n
  rwa [inv.views t th n L here seen] at record

theorem Good.create_alloc (inv : Inv s life) (stacked : StackInv s life place)
    (here : s.threads t = some ⟨.create clone stack (.alloc n), c⟩)
    (step : s.createStep t clone stack ok (.alloc n) = some s') : Good s' := by
  rw [Slots.createStep] at step
  have other : n ≠ t := inv.ne_of_view here rfl
  have record : RecOk s n (.unslotted t) := inv.record here rfl
  cases found : s.freeSlot with
  | none =>
    rw [found] at step
    cases step
    exact .goto inv stacked here (by simp) rfl (by simp) rfl fun n tid named => by cases named
  | some i =>
    rw [found] at step
    obtain ⟨r, recs, freed, joined, bare, ⟨⟩⟩ := record.access rfl step
    obtain ⟨small, pos, free⟩ := freeSlot_spec found
    let x : Slots := (s.setSlot i (some n)).write n { r with tid := i }
    have slot (j m : ℕ) (ne : m ≠ n) : x.slots j = some m ↔ s.slots j = some m := by
      change Function.update s.slots i (some n) j = some m ↔ _
      by_cases same : j = i
      · subst same
        rw [Function.update_self, free]
        simp [ne.symm]
      · rw [Function.update_of_ne same]
    have mine (j : ℕ) : x.slots j = some n ↔ i = j := by
      change Function.update s.slots i (some n) j = some n ↔ _
      by_cases same : j = i
      · subst same
        simp
      · rw [Function.update_of_ne same, record.slot_iff recs]
        simp [Life.inSlot, Ne.symm same]
    have now : x.recs n = some { r with tid := i } := write_self _
    have move : Move s t _ (.create clone stack (.setTid n i)) n
        (x.goto t (.create clone stack (.setTid n i))) :=
      move_goto (x := x) here other rfl rfl (fun _ ne => Function.update_of_ne ne _ _)
        (fun m j ne => slot j m ne) _
    refine .work inv stacked here move rfl (by simp) (.inl ⟨rfl, rfl⟩) ?_
      (fun u joining => by cases joining) (fun m tid named => ?_) rfl (fun j held => ?_) rfl rfl rfl
      recs now fun k => ?_
    · refine recOk_of_live now rfl ⟨freed, joined, bare⟩ (fun j => ?_) ?_
      · rw [show (x.goto t _).slots = x.slots from rfl, mine]
        simp [Life.inSlot]
      · rw [pc_goto (x := x) here other]
        exact record.thread
    · cases named
      exact ⟨_, now, rfl⟩
    · exact .inl ((mine j).1 held ▸ small)
    · simp [Life.pending]

/-- A step that writes the record it works on and takes it to the life `L`. -/
theorem Good.write {K L : Life} {r : HostThread} (inv : Inv s life)
    (stacked : StackInv s life place) (here : s.threads t = some th)
    (seen : th.pc.view t = some (n, K)) (recs : s.recs n = some r) (r' : HostThread)
    (same : r'.tid = r.tid) (inSlot : L.inSlot = K.inSlot)
    (live : L.live = true → r'.freed = false ∧ r'.joined = L.marked ∧
      (L.bare = true → r'.ownedStack = none))
    (gone : L.live = false → L = .freed ∧ r'.freed = true ∧ (s.pc n ≠ none → r'.joined = true))
    (fits : L.Fits (s.pc n)) (goes : pc ≠ .done)
    (view : (L.worker = some t ∧ pc.view t = some (n, L)) ∨
      (L.worker = none ∧ pc.view t = none))
    (joins : ∀ u, L = .joining u → K = .joining u)
    (named : ∀ m tid, pc.named = some (m, tid) → m = n ∧ r.tid = tid)
    (kept : pc.stack = th.pc.stack)
    (own : ∀ k, r'.ownedStack = some k ∧ L.pending = true ↔
      r.ownedStack = some k ∧ K.pending = true) : Good ((s.write n r').goto t pc) := by
  have other : n ≠ t := inv.ne_of_view here seen
  have now : (s.write n r').recs n = some r' := write_self r'
  refine .work inv stacked here (move_write here other r' pc) seen goes view ?_ joins
    (fun m tid called => ?_) rfl (fun i held => .inr held) rfl rfl kept recs now own
  · refine recOk_of now live (fun dead => ?_) (fun i => ?_) ?_
    · obtain ⟨ended, freed, joined⟩ := gone dead
      refine ⟨ended, freed, fun thread => joined ?_⟩
      rwa [pc_goto (x := s.write n r') here other] at thread
    · rw [same, inSlot]
      exact (inv.record here seen).slot_iff recs
    · rw [pc_goto (x := s.write n r') here other]
      exact fits
  · obtain ⟨rfl, rfl⟩ := named m tid called
    exact ⟨r', now, same⟩

theorem write_same {r : HostThread} (recs : s.recs n = some r) : s.write n r = s := by
  rw [Slots.write, ← recs, Function.update_eq_self]

/-- A step that takes the record it works on to the life `L`. -/
theorem Good.relabel {K L : Life} {r : HostThread} (inv : Inv s life)
    (stacked : StackInv s life place) (here : s.threads t = some th)
    (seen : th.pc.view t = some (n, K)) (recs : s.recs n = some r)
    (inSlot : L.inSlot = K.inSlot)
    (alive : L.live = true) (live : r.freed = false ∧ r.joined = L.marked ∧
      (L.bare = true → r.ownedStack = none)) (fits : L.Fits (s.pc n)) (goes : pc ≠ .done)
    (view : (L.worker = some t ∧ pc.view t = some (n, L)) ∨
      (L.worker = none ∧ pc.view t = none))
    (joins : ∀ u, L = .joining u → K = .joining u)
    (named : ∀ m tid, pc.named = some (m, tid) → m = n ∧ r.tid = tid)
    (kept : pc.stack = th.pc.stack)
    (own : ∀ k, r.ownedStack = some k ∧ L.pending = true ↔
      r.ownedStack = some k ∧ K.pending = true) : Good (s.goto t pc) := by
  have good := Good.write inv stacked here seen recs r rfl inSlot (fun _ => live)
    (fun dead => by rw [alive] at dead; cases dead) fits goes view joins named kept own
  rwa [write_same recs] at good

theorem Inv.tid_eq {r : HostThread} (inv : Inv s life) (here : s.threads t = some th)
    (named : th.pc.named = some (n, tid)) (recs : s.recs n = some r) : r.tid = tid := by
  obtain ⟨r', recs', same⟩ := inv.named t th n tid here named
  obtain rfl : r = r' := Option.some.inj (recs.symm.trans recs')
  exact same

theorem Good.create_setTid (inv : Inv s life) (stacked : StackInv s life place)
    (here : s.threads t = some ⟨.create clone stack (.setTid n tid), c⟩)
    (step : s.createStep t clone stack ok (.setTid n tid) = some s') : Good s' := by
  have record : RecOk s n (.slotted t) := inv.record here rfl
  obtain ⟨r, recs, freed, joined, bare, ⟨⟩⟩ := record.access rfl step
  obtain rfl : r.tid = tid := inv.tid_eq here rfl recs
  exact .write (K := .slotted t) (L := .slotted t) inv stacked here rfl recs _ rfl rfl
    (fun _ => ⟨freed, joined, bare⟩) (fun dead => by cases dead) record.thread (by simp)
    (.inl ⟨rfl, rfl⟩) (fun _ => id) (fun m tid called => by cases called) rfl fun k => Iff.rfl

theorem Good.create_spawn (inv : Inv s life) (stacked : StackInv s life place)
    (here : s.threads t = some ⟨.create clone stack (.spawn n), c⟩)
    (step : s.createStep t clone stack ok (.spawn n) = some s') : Good s' := by
  have other : n ≠ t := inv.ne_of_view here rfl
  have record : RecOk s n (.slotted t) := inv.record here rfl
  obtain ⟨r, recs, freed, joined, bare, step⟩ := record.access rfl step
  cases ok with
  | false =>
    cases step
    exact .goto inv stacked here (by simp) rfl (by simp) rfl fun n tid named => by cases named
  | true =>
    cases step
    have thread : s.threads n = none := by simpa [Slots.pc, Life.Fits] using record.thread
    let x : Slots := { s with threads := Function.update s.threads n (some ⟨.run, clone⟩) }
    have self : x.threads t = some ⟨.create clone stack (.spawn n), c⟩ :=
      (Function.update_of_ne other.symm _ _).trans here
    have born : (x.goto t (.create clone stack (.setStarted n))).threads n = some ⟨.run, clone⟩ := by
      rw [x.goto_threads self, Function.update_of_ne other]
      exact Function.update_self _ _ _
    have move : Move s t ⟨.create clone stack (.spawn n), c⟩ (.create clone stack (.setStarted n)) n
        (x.goto t (.create clone stack (.setStarted n))) := by
      refine ⟨other, rfl, fun _ _ => rfl, fun _ _ _ => Iff.rfl, fun u ne => ?_,
        .inr ⟨thread, clone, born⟩⟩
      rw [x.goto_threads self]
      by_cases same : u = t
      · subst same
        rw [Function.update_self, Function.update_self]
      · rw [Function.update_of_ne same, Function.update_of_ne same]
        exact Function.update_of_ne ne _ _
    refine .work inv stacked here move rfl (by simp) (.inl ⟨rfl, rfl⟩) ?_
      (fun u joining => by cases joining) (fun m tid named => by cases named) rfl
      (fun j held => .inr held) rfl rfl rfl recs recs fun k => ?_
    · refine recOk_of_live recs rfl ⟨freed, joined, bare⟩
        (fun j => record.slot_iff recs) ?_
      rw [Slots.pc, born]
      simp [Life.Fits]
    · simp [Life.pending]

theorem Good.create_setStarted (inv : Inv s life) (stacked : StackInv s life place)
    (here : s.threads t = some ⟨.create clone stack (.setStarted n), c⟩)
    (step : s.createStep t clone stack ok (.setStarted n) = some s') : Good s' := by
  have record : RecOk s n (.born t) := inv.record here rfl
  obtain ⟨r, recs, freed, joined, bare, ⟨⟩⟩ := record.access rfl step
  exact .write (K := .born t) (L := .born t) inv stacked here rfl recs _ rfl rfl
    (fun _ => ⟨freed, joined, bare⟩) (fun dead => by cases dead) record.thread (by simp)
    (.inl ⟨rfl, rfl⟩) (fun _ => id) (fun m tid called => by cases called) rfl fun k => Iff.rfl

/-- A call that creates a thread returns. -/
theorem Good.create_return {stage : CreateStage} {r : HostThread} (inv : Inv s life)
    (stacked : StackInv s life place)
    (here : s.threads t = some ⟨.create clone none stage, c⟩)
    (seen : (ThreadPc.create clone none stage).view t = some (n, .born t))
    (recs : s.recs n = some r) (freed : r.freed = false) (joined : r.joined = false)
    (bare : r.ownedStack = none) : Good (s.goto t .run) := by
  refine .relabel (K := .born t) (L := .idle) inv stacked here seen recs rfl
    rfl ⟨freed, joined, fun _ => bare⟩ (inv.record here seen).thread (by simp)
    (.inr ⟨rfl, rfl⟩) (fun u joining => by cases joining) (fun m tid called => by cases called)
    ?_ fun k => ?_
  · cases stage <;> rfl
  · simp [bare]

theorem Good.create_readTid (inv : Inv s life) (stacked : StackInv s life place)
    (here : s.threads t = some ⟨.create clone stack (.readTid n), c⟩)
    (step : s.createStep t clone stack ok (.readTid n) = some s') : Good s' := by
  have record : RecOk s n (.born t) := inv.record here rfl
  obtain ⟨r, recs, freed, joined, bare, step⟩ := record.access rfl step
  cases stack with
  | none =>
    cases step
    exact .create_return inv stacked here rfl recs freed joined (bare rfl)
  | some k =>
    cases step
    refine .goto inv stacked here (by simp) rfl (by simp) rfl fun m tid named => ?_
    cases named
    exact ⟨r, recs, rfl⟩

/-- The record a call has named stands in the slot of its tid. -/
theorem Inv.slot_of_named {L : Life} (inv : Inv s life) (here : s.threads t = some th)
    (seen : th.pc.view t = some (n, L)) (named : th.pc.named = some (n, tid))
    (inSlot : L.inSlot = true) : s.slots tid = some n := by
  obtain ⟨r, recs, same⟩ := inv.named t th n tid here named
  exact ((inv.record here seen).slot_iff recs).2 ⟨inSlot, same⟩

theorem Inv.lookup_eq (inv : Inv s life) (slot : s.slots tid = some n) :
    s.lookupThread tid = some n := by
  have small := inv.range tid n slot
  rw [Slots.lookupThread, if_neg (by omega), slot]

theorem Good.create_lookup (inv : Inv s life) (stacked : StackInv s life place)
    (here : s.threads t = some ⟨.create clone stack (.lookup n tid), c⟩)
    (step : s.createStep t clone stack ok (.lookup n tid) = some s') : Good s' := by
  have slot : s.slots tid = some n := inv.slot_of_named here rfl rfl rfl
  rw [Slots.createStep, inv.lookup_eq slot] at step
  cases step
  exact .goto inv stacked here (by simp) rfl (by simp) rfl fun m tid named => by cases named

theorem Good.create_setStack (inv : Inv s life) (stacked : StackInv s life place)
    (here : s.threads t = some ⟨.create clone stack (.setStack n), c⟩)
    (step : s.createStep t clone stack ok (.setStack n) = some s') : Good s' := by
  have other : n ≠ t := inv.ne_of_view here rfl
  have record : RecOk s n (.born t) := inv.record here rfl
  obtain ⟨r, recs, freed, joined, bare, ⟨⟩⟩ := record.access rfl step
  cases stack with
  | none =>
    have same : { r with ownedStack := none } = r := by
      rw [← bare rfl]
    rw [same, write_same recs]
    exact .create_return inv stacked here rfl recs freed joined (bare rfl)
  | some k =>
    have move := move_write here other { r with ownedStack := some k } .run
    have now : (s.write n { r with ownedStack := some k }).recs n = _ := write_self _
    have has (j : ℕ) : s.Holds t j ↔ k = j := by
      rw [holds_iff here]
      simp [ThreadPc.stack]
    have after (j : ℕ) : ((s.write n { r with ownedStack := some k }).goto t .run).Owns
        (Function.update life n .idle) n j ↔ k = j := by
      refine (owns_iff (s := (s.write n _).goto t .run) now).trans ?_
      simp [Life.pending]
    refine ⟨_, Function.update place k (.thread n),
      inv.work (K := .born t) (L := .idle) here move rfl (by simp) (.inr ⟨rfl, rfl⟩) ?_
        (fun u joining => by cases joining) (fun m tid named => by cases named) rfl
        (fun i held => .inr held),
      stacked.drop has (fun u j ne => move.holds_of_ne ne) (fun j => ?_) (by simp) (by simp)
        (fun _ _ => rfl) ?_ rfl (fun m j ne => ?_) fun m => ?_⟩
    · refine recOk_of_live now rfl ⟨freed, joined, fun bare => by cases bare⟩
        (fun i => record.slot_iff (r := r) recs) ?_
      rw [pc_goto (x := s.write n _) here other]
      exact record.thread
    · rw [move.holds_self]
      simp [ThreadPc.stack]
    · have zero := stacked.frees k
      rw [(stacked.held t k).1 ((has k).2 rfl)] at zero
      exact zero
    · by_cases target : m = n
      · subst target
        rw [after, owns_iff recs, bare rfl]
        simp [ne.symm]
      · exact move.owns_of_ne target
    · by_cases target : m = n
      · subst target
        simp [after]
      · rw [move.owns_of_ne target]
        exact iff_of_false (stacked.not_owns ((has k).2 rfl)) (by simp [Ne.symm target])

theorem freeThreadSlot_eq (small : tid < maxThreads) (pos : tid ≠ 0) :
    s.freeThreadSlot tid = s.setSlot tid none := by
  rw [Slots.freeThreadSlot, if_neg pos, if_pos small]

/-- The slot of a record is given back, and the call goes on. -/
theorem Good.freeSlot {K L : Life} {r : HostThread} (inv : Inv s life)
    (stacked : StackInv s life place) (here : s.threads t = some th)
    (seen : th.pc.view t = some (n, K)) (recs : s.recs n = some r) (inSlot : K.inSlot = true)
    (free : L.inSlot = false)
    (alive : L.live = true) (live : r.freed = false ∧ r.joined = L.marked ∧
      (L.bare = true → r.ownedStack = none)) (fits : L.Fits (s.pc n)) (goes : pc ≠ .done)
    (worker : L.worker = some t) (view : pc.view t = some (n, L))
    (joins : ∀ u, L ≠ .joining u) (named : pc.named = none) (kept : pc.stack = th.pc.stack)
    (own : ∀ k, r.ownedStack = some k ∧ L.pending = true ↔
      r.ownedStack = some k ∧ K.pending = true) :
    Good ((s.freeThreadSlot r.tid).goto t pc) := by
  have other : n ≠ t := inv.ne_of_view here seen
  have record := inv.record here seen
  have slot : s.slots r.tid = some n := (record.slot_iff recs).2 ⟨inSlot, rfl⟩
  have pos : r.tid ≠ 0 := by
    intro zero
    obtain ⟨idle, r₀, recs₀, -, tid₀⟩ := inv.main
    have main : s.slots 0 = some 0 := by
      rw [(inv.recs 0).slot_iff recs₀, idle]
      exact ⟨rfl, tid₀⟩
    rw [zero, main] at slot
    obtain rfl : 0 = n := Option.some.inj slot
    have works := ThreadPc.view_worker seen
    rw [← inv.views t th _ _ here seen, idle] at works
    cases works
  rw [freeThreadSlot_eq (inv.range _ _ slot) pos]
  have slots (i m : ℕ) : (s.setSlot r.tid none).slots i = some m ↔ m ≠ n ∧ s.slots i = some m := by
    change Function.update s.slots r.tid none i = some m ↔ _
    by_cases same : i = r.tid
    · rw [same, Function.update_self, slot]
      exact iff_of_false (by simp) fun held => held.1 (Option.some.inj held.2).symm
    · rw [Function.update_of_ne same]
      refine ⟨fun held => ⟨?_, held⟩, And.right⟩
      rintro rfl
      exact same ((record.slot_iff recs).1 held).2.symm
  have move : Move s t th pc n ((s.setSlot r.tid none).goto t pc) :=
    move_goto (x := s.setSlot r.tid none) here other rfl rfl (fun _ _ => rfl)
      (fun m i ne => by rw [slots]; simp [ne]) pc
  refine .work inv stacked here move seen goes (.inl ⟨worker, view⟩) ?_
    (fun u joining => absurd joining (joins u)) (fun m tid called => ?_) rfl
    (fun i held => absurd rfl ((slots i n).1 held).1) rfl rfl kept recs recs own
  · refine recOk_of_live recs alive live (fun i => ?_) ?_
    · refine iff_of_false (fun held => absurd rfl ((slots i n).1 held).1) ?_
      simp [free]
    · rw [pc_goto (x := s.setSlot r.tid none) here other]
      exact fits
  · rw [named] at called
    cases called

theorem Good.create_failSlot (inv : Inv s life) (stacked : StackInv s life place)
    (here : s.threads t = some ⟨.create clone stack (.failSlot n), c⟩)
    (step : s.createStep t clone stack ok (.failSlot n) = some s') : Good s' := by
  have record : RecOk s n (.slotted t) := inv.record here rfl
  obtain ⟨r, recs, freed, joined, bare, ⟨⟩⟩ := record.access rfl step
  exact .freeSlot (K := .slotted t) (L := .unslotted t) inv stacked here rfl recs rfl rfl
    rfl ⟨freed, joined, bare⟩ record.thread (by simp) rfl rfl (by simp) rfl rfl
    fun k => Iff.rfl

theorem Good.create_failFree (inv : Inv s life) (stacked : StackInv s life place)
    (here : s.threads t = some ⟨.create clone stack (.failFree n), c⟩)
    (step : s.createStep t clone stack ok (.failFree n) = some s') : Good s' := by
  have record : RecOk s n (.unslotted t) := inv.record here rfl
  obtain ⟨r, recs, freed, joined, bare, ⟨⟩⟩ := record.access rfl step
  exact .write (K := .unslotted t) (L := .freed) inv stacked here rfl recs _ rfl rfl
    (fun live => by cases live)
    (fun _ => ⟨rfl, rfl, fun thread => absurd record.thread thread⟩) (.inl record.thread) (by simp)
    (.inr ⟨rfl, rfl⟩) (fun u joining => by cases joining) (fun m tid called => by cases called) rfl
    fun k => Iff.rfl

theorem Good.create_failStack (inv : Inv s life) (stacked : StackInv s life place)
    (here : s.threads t = some ⟨.create clone stack .failStack, c⟩)
    (step : s.createStep t clone stack ok .failStack = some s') : Good s' := by
  rw [Slots.createStep] at step
  cases step
  cases stack with
  | none => exact .goto inv stacked here (by simp) rfl (by simp) rfl fun n tid named => by cases named
  | some k =>
    have quiet : Quiet s t ⟨.create clone (some k) .failStack, c⟩ .run
        ((s.freeStack (some k)).goto t .run) := ⟨rfl, rfl, rfl, rfl, s.goto_threads here _⟩
    have has (j : ℕ) : s.Holds t j ↔ k = j := by
      rw [holds_iff here]
      simp [ThreadPc.stack]
    refine ⟨life, Function.update place k .gone,
      inv.quiet here quiet (by simp) rfl (by simp) (fun n tid named => by cases named),
      stacked.drop has (fun u j ne => quiet.holds_of_ne ne) (fun j => ?_) (by simp) (by simp)
        (fun j ne => Function.update_of_ne ne _ _) ?_ rfl (fun m j ne => Iff.rfl) fun m => ?_⟩
    · rw [quiet.holds_self]
      simp [ThreadPc.stack]
    · have zero := stacked.frees k
      rw [(stacked.held t k).1 ((has k).2 rfl)] at zero
      change Function.update s.frees k (s.frees k + 1) k = 1
      rw [Function.update_self, zero]
      rfl
    · exact iff_of_false (stacked.not_owns ((has k).2 rfl)) (by simp)

/-- Every step of a creating call keeps the invariant. -/
theorem Good.createStep {stage : CreateStage} (inv : Inv s life) (stacked : StackInv s life place)
    (here : s.threads t = some ⟨.create clone stack stage, c⟩)
    (step : s.createStep t clone stack ok stage = some s') : Good s' := by
  cases stage with
  | malloc => exact .create_malloc inv stacked here step
  | calloc => exact .create_calloc inv stacked here step
  | alloc n => exact .create_alloc inv stacked here step
  | setTid n tid => exact .create_setTid inv stacked here step
  | spawn n => exact .create_spawn inv stacked here step
  | setStarted n => exact .create_setStarted inv stacked here step
  | readTid n => exact .create_readTid inv stacked here step
  | lookup n tid => exact .create_lookup inv stacked here step
  | setStack n => exact .create_setStack inv stacked here step
  | failSlot n => exact .create_failSlot inv stacked here step
  | failFree n => exact .create_failFree inv stacked here step
  | failStack => exact .create_failStack inv stacked here step

/-! ## Joining a thread -/

/-- A record in a slot on which no call works belongs to a thread that is not joined. -/
theorem Inv.idle_of_free (inv : Inv s life) (slot : s.slots tid = some n) (main : n ≠ 0)
    (free : ∀ u other, s.threads u = some other → ¬ other.pc.Creates n ∧ ¬ other.pc.Joins n) :
    life n = .idle := by
  have inSlot := (((inv.recs n).slot tid).1 slot).1
  have alone (u : ℕ) : (life n).worker ≠ some u := by
    intro works
    obtain ⟨other, there, seen⟩ := inv.workers n u works
    obtain ⟨creates, joins⟩ := free u other there
    cases bare : (life n).bare with
    | true => exact creates (ThreadPc.creates_of_view seen bare)
    | false => exact joins (ThreadPc.joins_of_view seen bare main)
  generalize life n = L at inSlot alone
  cases L with
  | idle => rfl
  | unused | freed => cases inSlot
  | unslotted u | slotted u | born u | joining u | ended u | joined u | unstacked u | leaving u =>
    exact absurd rfl (alone u)

theorem Good.join_lookup (inv : Inv s life) (stacked : StackInv s life place)
    (here : s.threads t = some ⟨.join (.lookup tid), c⟩) (allowed : Ok s (t, .next ok))
    (step : s.joinStep t (.lookup tid) = some s') : Good s' := by
  rw [Slots.joinStep] at step
  cases found : s.lookupThread tid with
  | none =>
    rw [found] at step
    cases step
    exact .goto inv stacked here (by simp) rfl (by simp) rfl fun n tid named => by cases named
  | some n =>
    rw [found] at step
    cases step
    have slot : s.slots tid = some n := by
      rw [Slots.lookupThread] at found
      split at found
      · cases found
      · exact found
    obtain ⟨-, r, recs, same⟩ := ((inv.recs n).slot tid).1 slot
    by_cases main : n = 0
    · subst main
      refine .goto inv stacked here (by simp) rfl (by simp) rfl fun m tid' named => ?_
      cases named
      exact ⟨r, recs, same⟩
    · obtain ⟨other, free, back⟩ := allowed _ tid n here rfl found main
      have idle : life n = .idle := inv.idle_of_free slot main free
      have record := inv.recs n
      rw [idle] at record
      obtain ⟨r', recs', freed, joined, -⟩ := record.live rfl
      obtain rfl : r = r' := Option.some.inj (recs.symm.trans recs')
      have move : Move s t _ (.join (.joined n tid)) n (s.goto t (.join (.joined n tid))) :=
        move_goto (x := s) here other rfl rfl (fun _ _ => rfl) (fun _ _ _ => Iff.rfl) _
      have view : (ThreadPc.join (.joined n tid)).view t = some (n, .joining t) := if_neg main
      refine ⟨Function.update life n (.joining t), place,
        inv.move here move (by simp) (by simp) main (fun m L seen => by cases seen)
          (fun u works => ?_) (.inl ⟨rfl, view⟩) ?_ (fun u joining => .inr fun loop => ?_)
          (fun m tid' named => ?_) (fun m beyond => ⟨?_, beyond⟩) (fun i held => inv.range i n held),
        stacked.keep rfl rfl (move.holds here rfl) (move.owns fun k => ?_)⟩
      · rw [idle] at works
        cases works
      · refine recOk_of_live recs rfl ⟨freed, joined, fun bare => by cases bare⟩
          (fun i => record.slot_iff recs) ?_
        rw [pc_goto (x := s) here other]
        exact record.thread
      · cases joining
        obtain ⟨own, there, seen⟩ := inv.workers t n (by rw [loop]; rfl)
        rw [loop] at seen
        refine back own there (ThreadPc.joins_of_view seen rfl ?_)
        rintro rfl
        rw [inv.main.1] at loop
        cases loop
      · cases named
        exact ⟨r, recs, same⟩
      · rintro rfl
        rw [inv.fresh m beyond] at idle
        cases idle
      · rw [owns_iff (s := s.goto t _) recs, owns_iff recs, Function.update_self, idle]
        rfl

/-- The record that the tests of a joining call look at. -/
theorem Inv.tested {stage : JoinStage} (inv : Inv s life)
    (here : s.threads t = some ⟨.join stage, c⟩)
    (seen : n ≠ 0 → (ThreadPc.join stage).view t = some (n, .joining t)) :
    ∃ L, RecOk s n L ∧ L.live = true ∧ L.marked = false := by
  by_cases main : n = 0
  · subst main
    exact ⟨.idle, inv.main.1 ▸ inv.recs 0, rfl, rfl⟩
  · exact ⟨.joining t, inv.record here (seen main), rfl, rfl⟩

theorem Good.join_joined (inv : Inv s life) (stacked : StackInv s life place)
    (here : s.threads t = some ⟨.join (.joined n tid), c⟩)
    (step : s.joinStep t (.joined n tid) = some s') : Good s' := by
  obtain ⟨L, record, live, unmarked⟩ := inv.tested here fun main => if_neg main
  obtain ⟨r, recs, freed, joined, bare, step⟩ := record.access live step
  rw [joined, unmarked] at step
  cases step
  exact .goto inv stacked here (by simp) rfl (by simp) rfl fun m tid' named =>
    inv.named t _ m tid' here named

/-- A joining call that has not waited returns with an error. -/
theorem Good.join_refuse {stage : JoinStage} {r : HostThread} (inv : Inv s life)
    (stacked : StackInv s life place) (here : s.threads t = some ⟨.join stage, c⟩)
    (seen : (ThreadPc.join stage).view t = some (n, .joining t)) (recs : s.recs n = some r)
    (freed : r.freed = false) (joined : r.joined = false) : Good (s.goto t .run) :=
  .relabel (K := .joining t) (L := .idle) inv stacked here seen recs rfl
    rfl ⟨freed, joined, fun bare => by cases bare⟩ (inv.record here seen).thread
    (by simp) (.inr ⟨rfl, rfl⟩) (fun u joining => by cases joining)
    (fun m tid called => by cases called) rfl fun k => Iff.rfl

theorem Good.join_started (inv : Inv s life) (stacked : StackInv s life place)
    (here : s.threads t = some ⟨.join (.started n tid), c⟩)
    (step : s.joinStep t (.started n tid) = some s') : Good s' := by
  obtain ⟨L, record, live, unmarked⟩ := inv.tested here fun main => if_neg main
  obtain ⟨r, recs, freed, joined, bare, step⟩ := record.access live step
  cases started : r.osStarted with
  | true =>
    rw [started] at step
    cases step
    have main : n ≠ 0 := by
      rintro rfl
      obtain ⟨-, r₀, recs₀, idle, -⟩ := inv.main
      obtain rfl : r = r₀ := Option.some.inj (recs.symm.trans recs₀)
      rw [started] at idle
      cases idle
    exact .goto inv stacked here (by simp) (if_neg main).symm (by simp) rfl fun m tid' named =>
      inv.named t _ m tid' here named
  | false =>
    rw [started] at step
    cases step
    by_cases main : n = 0
    · exact .goto inv stacked here (by simp) (if_pos main).symm (by simp) rfl fun m tid' named => by
        cases named
    · exact .join_refuse inv stacked here (if_neg main) recs freed (joined.trans unmarked)

theorem Good.join_master (inv : Inv s life) (stacked : StackInv s life place)
    (here : s.threads t = some ⟨.join (.master n tid), c⟩)
    (step : s.joinStep t (.master n tid) = some s') : Good s' := by
  have record : RecOk s n (.joining t) := inv.record here rfl
  obtain ⟨r, recs, freed, joined, bare, step⟩ := record.access rfl step
  cases master : r.isMaster with
  | true =>
    rw [master] at step
    cases step
    exact .join_refuse inv stacked here rfl recs freed joined
  | false =>
    rw [master] at step
    cases step
    exact .goto inv stacked here (by simp) rfl (by simp) rfl fun m tid' named =>
      inv.named t _ m tid' here named

theorem Good.join_osTid (inv : Inv s life) (stacked : StackInv s life place)
    (here : s.threads t = some ⟨.join (.osTid n tid), c⟩)
    (step : s.joinStep t (.osTid n tid) = some s') : Good s' := by
  have record : RecOk s n (.joining t) := inv.record here rfl
  obtain ⟨r, recs, freed, joined, bare, ⟨⟩⟩ := record.access rfl step
  exact .goto inv stacked here (by simp) rfl (by simp) rfl fun m tid' named =>
    inv.named t _ m tid' here named

/-- `pthread_join` returns when the thread has ended: it does not wait for the caller, and not for a
thread that joins the caller. -/
theorem Good.join_blocked (inv : Inv s life) (stacked : StackInv s life place)
    (here : s.threads t = some ⟨.join (.blocked n tid), c⟩)
    (step : s.joinStep t (.blocked n tid) = some s') : Good s' := by
  have now : life n = .joining t := inv.views t _ n _ here rfl
  have other : n ≠ t := inv.ne_of_view here rfl
  have record : RecOk s n (.joining t) := inv.record here rfl
  have apart : s.waitsFor n t = false := by
    rw [Bool.eq_false_iff]
    intro waits
    cases thread : s.threads n with
    | none => simp [Slots.waitsFor, thread] at waits
    | some own =>
      simp only [Slots.waitsFor, thread, Option.map_some] at waits
      split at waits
      · next m tid' place_ =>
        obtain rfl : m = t := by simpa using waits
        have seen : own.pc.view n = some (m, .joining n) := by
          rw [Option.some.inj place_]
          rfl
        exact inv.mutual_ n m now (inv.views n own m _ thread seen)
      · cases waits
  rw [Slots.joinStep] at step
  split at step
  · next returns =>
    cases step
    have ended : s.isDone n = true := by
      rcases returns with ended | self | waits
      · exact ended
      · exact absurd self other
      · rw [apart] at waits
        cases waits
    obtain ⟨r, recs, freed, joined, bare⟩ := record.live rfl
    refine .relabel (K := .joining t) (L := .ended t) inv stacked here rfl recs rfl
      rfl ⟨freed, joined, fun bare => by cases bare⟩ ?_ (by simp) (.inl ⟨rfl, rfl⟩)
      (fun u joining => by cases joining) (fun m tid' called => ?_) rfl fun k => Iff.rfl
    · simpa [Slots.isDone, Slots.pc, Life.Fits] using ended
    · cases called
      exact ⟨rfl, inv.tid_eq here rfl recs⟩
  · cases step

theorem Good.join_setJoined (inv : Inv s life) (stacked : StackInv s life place)
    (here : s.threads t = some ⟨.join (.setJoined n tid), c⟩)
    (step : s.joinStep t (.setJoined n tid) = some s') : Good s' := by
  have record : RecOk s n (.ended t) := inv.record here rfl
  obtain ⟨r, recs, freed, joined, bare, ⟨⟩⟩ := record.access rfl step
  refine .write (K := .ended t) (L := .joined t) inv stacked here rfl recs _ rfl rfl
    (fun _ => ⟨freed, rfl, fun bare => by cases bare⟩) (fun dead => by cases dead) record.thread
    (by simp) (.inl ⟨rfl, rfl⟩) (fun u joining => by cases joining) (fun m tid' called => ?_) rfl
    fun k => Iff.rfl
  cases called
  exact ⟨rfl, inv.tid_eq here rfl recs⟩

theorem Good.join_result (inv : Inv s life) (stacked : StackInv s life place)
    (here : s.threads t = some ⟨.join (.result n tid), c⟩)
    (step : s.joinStep t (.result n tid) = some s') : Good s' := by
  have record : RecOk s n (.joined t) := inv.record here rfl
  obtain ⟨r, recs, freed, joined, bare, ⟨⟩⟩ := record.access rfl step
  exact .goto inv stacked here (by simp) rfl (by simp) rfl fun m tid' named =>
    inv.named t _ m tid' here named

/-- There is no stack to free. -/
theorem Good.join_noStack {stage : JoinStage} {r : HostThread} (inv : Inv s life)
    (stacked : StackInv s life place) (here : s.threads t = some ⟨.join stage, c⟩)
    (seen : (ThreadPc.join stage).view t = some (n, .joined t))
    (named : (ThreadPc.join stage).named = some (n, tid)) (recs : s.recs n = some r)
    (freed : r.freed = false) (joined : r.joined = true) (none_ : r.ownedStack = none) :
    Good (s.goto t (.join (.freeSlot n tid))) := by
  refine .relabel (K := .joined t) (L := .unstacked t) inv stacked here seen recs rfl
    rfl ⟨freed, joined, fun bare => by cases bare⟩ (inv.record here seen).thread
    (by simp) (.inl ⟨rfl, rfl⟩) (fun u joining => by cases joining) (fun m tid' called => ?_) rfl
    fun k => by simp [none_]
  cases called
  exact ⟨rfl, inv.tid_eq here named recs⟩

theorem Good.join_testStack (inv : Inv s life) (stacked : StackInv s life place)
    (here : s.threads t = some ⟨.join (.testStack n tid), c⟩)
    (step : s.joinStep t (.testStack n tid) = some s') : Good s' := by
  have record : RecOk s n (.joined t) := inv.record here rfl
  obtain ⟨r, recs, freed, joined, bare, step⟩ := record.access rfl step
  cases owned : r.ownedStack with
  | none =>
    rw [owned] at step
    cases step
    exact .join_noStack inv stacked here rfl rfl recs freed joined owned
  | some k =>
    rw [owned] at step
    cases step
    exact .goto inv stacked here (by simp) rfl (by simp) rfl fun m tid' named =>
      inv.named t _ m tid' here named

theorem Good.join_freeStack (inv : Inv s life) (stacked : StackInv s life place)
    (here : s.threads t = some ⟨.join (.freeStack n tid), c⟩)
    (step : s.joinStep t (.freeStack n tid) = some s') : Good s' := by
  have other : n ≠ t := inv.ne_of_view here rfl
  have record : RecOk s n (.joined t) := inv.record here rfl
  obtain ⟨r, recs, freed, joined, bare, ⟨⟩⟩ := record.access rfl step
  cases owned : r.ownedStack with
  | none => exact .join_noStack inv stacked here rfl rfl recs freed joined owned
  | some k =>
    have now : life n = .joined t := inv.views t _ n _ here rfl
    have at_k : place k = .thread n := by
      rw [← stacked.owned, owns_iff recs, now]
      exact ⟨owned, rfl⟩
    let x : Slots := s.freeStack (some k)
    have move : Move s t _ (.join (.freeSlot n tid)) n (x.goto t (.join (.freeSlot n tid))) :=
      move_goto (x := x) here other rfl rfl (fun _ _ => rfl) (fun _ _ _ => Iff.rfl) _
    have none_ (j : ℕ) : ¬ (x.goto t (.join (.freeSlot n tid))).Owns
        (Function.update life n (.unstacked t)) n j := by
      rw [owns_iff (s := x.goto t _) recs, Function.update_self]
      simp [Life.pending]
    refine ⟨Function.update life n (.unstacked t), Function.update place k .gone,
      inv.work (K := .joined t) here move rfl (by simp) (.inl ⟨rfl, rfl⟩) ?_
        (fun u joining => by cases joining) (fun m tid' called => ?_) rfl (fun i held => .inr held),
      stacked.relocate (fun j ne => Function.update_of_ne ne _ _) ?_ (fun _ _ => Iff.rfl) ?_
        (fun u j _ => move.holds here rfl u j) (fun u => ?_) (fun m j ne => ?_) fun m => ?_⟩
    · refine recOk_of_live recs rfl ⟨freed, joined, fun bare => by cases bare⟩
        (fun i => record.slot_iff recs) ?_
      rw [pc_goto (x := x) here other]
      exact record.thread
    · cases called
      exact ⟨r, recs, inv.tid_eq here rfl recs⟩
    · have zero := stacked.frees k
      rw [at_k] at zero
      change Function.update s.frees k (s.frees k + 1) k = 1
      rw [Function.update_self, zero]
      rfl
    · rw [show (x.goto t _).nextStack = s.nextStack from rfl, stacked.fresh, at_k]
      simp
    · rw [move.holds here rfl, stacked.held, at_k]
      simp
    · by_cases target : m = n
      · subst target
        refine iff_of_false (none_ j) ?_
        rw [owns_iff recs, owned]
        simp [ne.symm]
      · exact move.owns_of_ne target
    · by_cases target : m = n
      · subst target
        exact iff_of_false (none_ k) (by simp)
      · rw [move.owns_of_ne target, stacked.owned, at_k]
        simp [Ne.symm target]

theorem Good.join_freeSlot (inv : Inv s life) (stacked : StackInv s life place)
    (here : s.threads t = some ⟨.join (.freeSlot n tid), c⟩)
    (step : s.joinStep t (.freeSlot n tid) = some s') : Good s' := by
  rw [Slots.joinStep] at step
  cases step
  have record : RecOk s n (.unstacked t) := inv.record here rfl
  obtain ⟨r, recs, freed, joined, bare⟩ := record.live rfl
  rw [← inv.tid_eq here rfl recs]
  exact .freeSlot (K := .unstacked t) (L := .leaving t) inv stacked here rfl recs rfl rfl
    rfl ⟨freed, joined, bare⟩ record.thread (by simp) rfl rfl (by simp) rfl rfl
    fun k => Iff.rfl

theorem Good.join_free (inv : Inv s life) (stacked : StackInv s life place)
    (here : s.threads t = some ⟨.join (.free n), c⟩)
    (step : s.joinStep t (.free n) = some s') : Good s' := by
  have record : RecOk s n (.leaving t) := inv.record here rfl
  obtain ⟨r, recs, freed, joined, bare, ⟨⟩⟩ := record.access rfl step
  exact .write (K := .leaving t) (L := .freed) inv stacked here rfl recs _ rfl rfl
    (fun live => by cases live) (fun _ => ⟨rfl, rfl, fun _ => joined⟩) (.inr record.thread) (by simp)
    (.inr ⟨rfl, rfl⟩) (fun u joining => by cases joining) (fun m tid called => by cases called) rfl
    fun k => Iff.rfl

/-- Every step of a joining call keeps the invariant. -/
theorem Good.joinStep {stage : JoinStage} (inv : Inv s life) (stacked : StackInv s life place)
    (here : s.threads t = some ⟨.join stage, c⟩) (allowed : Ok s (t, .next ok))
    (step : s.joinStep t stage = some s') : Good s' := by
  cases stage with
  | lookup tid => exact .join_lookup inv stacked here allowed step
  | joined n tid => exact .join_joined inv stacked here step
  | started n tid => exact .join_started inv stacked here step
  | master n tid => exact .join_master inv stacked here step
  | osTid n tid => exact .join_osTid inv stacked here step
  | blocked n tid => exact .join_blocked inv stacked here step
  | setJoined n tid => exact .join_setJoined inv stacked here step
  | result n tid => exact .join_result inv stacked here step
  | testStack n tid => exact .join_testStack inv stacked here step
  | freeStack n tid => exact .join_freeStack inv stacked here step
  | freeSlot n tid => exact .join_freeSlot inv stacked here step
  | free n => exact .join_free inv stacked here step

/-! ## Guest code -/

theorem Good.runStep {e : Slots.Event} (inv : Inv s life) (stacked : StackInv s life place)
    (here : s.threads t = some ⟨.run, c⟩) (allowed : Ok s (t, e)) (step : s.runStep t e = some s') :
    Good s' := by
  have live : (life t).live = true := by
    have fits := (inv.recs t).thread
    rw [Slots.pc, here] at fits
    exact fits.live (by simp)
  cases e with
  | next ok => cases step
  | create | clone | join tid =>
    cases step
    exact .goto inv stacked here (by simp) rfl (by simp) rfl fun n tid named => by cases named
  | touch =>
    obtain ⟨r, -, -, -, -, ⟨⟩⟩ := (inv.recs t).access live step
    exact ⟨life, place, inv, stacked⟩
  | finish =>
    rw [Slots.runStep] at step
    split at step
    · cases step
    · obtain ⟨r, -, -, -, -, ⟨⟩⟩ := (inv.recs t).access live step
      exact .goto inv stacked here (by simp) rfl (fun _ => allowed _ here) rfl fun n tid named => by
        cases named

end Steps

/-- Every allowed step keeps the invariant. -/
theorem Good.step {s s' : Slots} {a : ℕ × Slots.Event} (good : Good s) (allowed : Ok s a)
    (step : slotSystem.step s a s') : Good s' := by
  obtain ⟨t, e⟩ := a
  obtain ⟨life, place, inv, stacked⟩ := good
  change s.step t e = some s' at step
  rw [Slots.step, inv.fault] at step
  cases here : s.threads t with
  | none =>
    rw [here] at step
    cases step
  | some th =>
    obtain ⟨pc, c⟩ := th
    rw [here] at step
    cases pc with
    | run => exact .runStep inv stacked here allowed step
    | create clone stack stage =>
      cases e with
      | next ok => exact .createStep inv stacked here step
      | _ => cases step
    | join stage =>
      cases e with
      | next ok => exact .joinStep inv stacked here allowed step
      | _ => cases step
    | done => cases e <;> cases step

end ThreadSlots

end Yos
