import Yos.Proc.ThreadSlots

/-!
# The life of a thread record

In runs of the steps `Ok` allows, at most one call at a time works on a record.  A record so goes
through its life step by step (`Life`), and the place of the call that works on it says where it is
(`ThreadPc.view`).  `Inv` connects the records, the slots and the threads with a life for each record,
`StackInv` each stack with its place; `Inv.move` and `StackInv.keep` are the rules for a step that
changes a single record.
-/

namespace Yos

namespace ThreadSlots

/-! ## The condition -/

/-- The record a call of `host_pthread_create` or `yos_clone_thread` works on. -/
def CreateStage.target : CreateStage → Option ℕ
  | .malloc | .calloc | .failStack => none
  | .alloc n | .setTid n _ | .spawn n | .setStarted n | .readTid n | .lookup n _ | .setStack n
  | .failSlot n | .failFree n => some n

/-- The record a call of `host_pthread_join` works on. -/
def JoinStage.target : JoinStage → Option ℕ
  | .lookup _ => none
  | .joined n _ | .started n _ | .master n _ | .osTid n _ | .blocked n _ | .setJoined n _
  | .result n _ | .testStack n _ | .freeStack n _ | .freeSlot n _ | .free n => some n

/-- The thread is in the call that creates the thread `n`. -/
def ThreadPc.Creates (pc : ThreadPc) (n : ℕ) : Prop :=
  match pc with
  | .create _ _ stage => stage.target = some n
  | _ => False

/-- The thread is in a call that joins the thread `n`, other than the main one. -/
def ThreadPc.Joins (pc : ThreadPc) (n : ℕ) : Prop :=
  match pc with
  | .join stage => stage.target = some n ∧ n ≠ 0
  | _ => False

/-- A thread is joined only after the call that creates it has returned, not by itself, while no other
call joins it, and not by a thread that it joins itself; and no thread that `yos_clone_thread` made on
its own ends. -/
def Ok (s : Slots) : ℕ × Slots.Event → Prop
  | (t, .next _) => ∀ th tid n, s.threads t = some th → th.pc = .join (.lookup tid) →
      s.lookupThread tid = some n → n ≠ 0 →
        n ≠ t ∧ (∀ u other, s.threads u = some other → ¬ other.pc.Creates n ∧ ¬ other.pc.Joins n) ∧
          ∀ own, s.threads n = some own → ¬ own.pc.Joins t
  | (t, .finish) => ∀ th, s.threads t = some th → th.clone = false
  | _ => True

/-! ## Lives -/

/-- Where a record is in its life, with the thread whose call works on it. -/
inductive Life where
  | unused
  /-- Allocated, in no slot, and without a thread. -/
  | unslotted (t : ℕ)
  /-- In its slot, without a thread. -/
  | slotted (t : ℕ)
  /-- The thread runs, and the call that created it has not returned. -/
  | born (t : ℕ)
  | idle
  | joining (t : ℕ)
  /-- `pthread_join` has returned. -/
  | ended (t : ℕ)
  /-- Marked as joined. -/
  | joined (t : ℕ)
  /-- Its stack is free. -/
  | unstacked (t : ℕ)
  /-- Its slot is free. -/
  | leaving (t : ℕ)
  | freed
deriving DecidableEq, Repr

namespace Life

/-- The thread whose call works on the record. -/
def worker : Life → Option ℕ
  | unused | idle | freed => none
  | unslotted t | slotted t | born t | joining t | ended t | joined t | unstacked t | leaving t => some t

/-- The record is allocated. -/
def live : Life → Bool
  | unused | freed => false
  | _ => true

/-- The record is in a slot. -/
def inSlot : Life → Bool
  | slotted _ | born _ | idle | joining _ | ended _ | joined _ | unstacked _ => true
  | _ => false

/-- The record is marked as joined. -/
def marked : Life → Bool
  | joined _ | unstacked _ | leaving _ => true
  | _ => false

/-- The record has no stack yet. -/
def bare : Life → Bool
  | unslotted _ | slotted _ | born _ => true
  | _ => false

/-- The stack of the record, if it has one, is to be freed. -/
def pending : Life → Bool
  | idle | joining _ | ended _ | joined _ => true
  | _ => false

/-- What the life of a record says about its thread. -/
def Fits (life : Life) (pc : Option ThreadPc) : Prop :=
  match life with
  | unused | unslotted _ | slotted _ => pc = none
  | born _ | idle | joining _ => pc ≠ none
  | ended _ | joined _ | unstacked _ | leaving _ => pc = some .done
  | freed => pc = none ∨ pc = some .done

/-- A thread that has not ended may go on. -/
theorem Fits.goto {life : Life} {pc pc' : ThreadPc} (fits : life.Fits (some pc)) (alive : pc ≠ .done) :
    life.Fits (some pc') := by
  cases life with
  | born | idle | joining => simp [Fits]
  | unused | unslotted | slotted => cases fits
  | ended | joined | unstacked | leaving => exact absurd (Option.some.inj fits) alive
  | freed =>
    rcases fits with none_ | done
    · cases none_
    · exact absurd (Option.some.inj done) alive

/-- The record of a thread that has not ended is allocated. -/
theorem Fits.live {life : Life} {pc : ThreadPc} (fits : life.Fits (some pc)) (alive : pc ≠ .done) :
    life.live = true := by
  cases life with
  | unused => cases fits
  | freed =>
    rcases fits with none_ | done
    · cases none_
    · exact absurd (Option.some.inj done) alive
  | _ => rfl

end Life

/-- The record the thread `t` works on at its place, and the life this gives it. -/
def ThreadPc.view (t : ℕ) : ThreadPc → Option (ℕ × Life)
  | .run | .done => none
  | .create _ _ stage =>
    match stage with
    | .malloc | .calloc | .failStack => none
    | .alloc n | .failFree n => some (n, .unslotted t)
    | .setTid n _ | .spawn n | .failSlot n => some (n, .slotted t)
    | .setStarted n | .readTid n | .lookup n _ | .setStack n => some (n, .born t)
  | .join stage =>
    match stage with
    | .lookup _ => none
    | .joined n _ | .started n _ => if n = 0 then none else some (n, .joining t)
    | .master n _ | .osTid n _ | .blocked n _ => some (n, .joining t)
    | .setJoined n _ => some (n, .ended t)
    | .result n _ | .testStack n _ | .freeStack n _ => some (n, .joined t)
    | .freeSlot n _ => some (n, .unstacked t)
    | .free n => some (n, .leaving t)

/-- A record and the tid that a call takes for its tid. -/
def ThreadPc.named : ThreadPc → Option (ℕ × ℕ)
  | .create _ _ (.setTid n tid) | .create _ _ (.lookup n tid) => some (n, tid)
  | .join (.joined n tid) | .join (.started n tid) | .join (.master n tid) | .join (.osTid n tid)
  | .join (.blocked n tid) | .join (.setJoined n tid) | .join (.result n tid)
  | .join (.testStack n tid) | .join (.freeStack n tid) | .join (.freeSlot n tid) => some (n, tid)
  | _ => none

/-- The stack a creating call has in its hands. -/
def ThreadPc.stack : ThreadPc → Option ℕ
  | .create _ _ .malloc => none
  | .create _ stack _ => stack
  | _ => none

theorem ThreadPc.view_worker {t n : ℕ} {pc : ThreadPc} {life : Life}
    (view : pc.view t = some (n, life)) : life.worker = some t := by
  cases pc with
  | run | done => cases view
  | create clone stack stage => cases stage <;> cases view <;> rfl
  | join stage =>
    cases stage with
    | joined m tid | started m tid =>
      simp only [ThreadPc.view] at view
      split at view
      · cases view
      · cases view
        rfl
    | _ => cases view <;> rfl

theorem ThreadPc.view_of_named {n tid : ℕ} {pc : ThreadPc} (named : pc.named = some (n, tid)) (t : ℕ) :
    n = 0 ∨ ∃ life, pc.view t = some (n, life) := by
  cases pc with
  | run | done => cases named
  | create clone stack stage => cases stage <;> cases named <;> exact .inr ⟨_, rfl⟩
  | join stage =>
    cases stage with
    | joined m tid | started m tid =>
      cases named
      by_cases main : n = 0
      · exact .inl main
      · exact .inr ⟨_, if_neg main⟩
    | lookup tid | free m => cases named
    | _ =>
      cases named
      exact .inr ⟨_, rfl⟩

/-- A thread that works on a record without a stack creates its thread. -/
theorem ThreadPc.creates_of_view {t n : ℕ} {pc : ThreadPc} {life : Life}
    (view : pc.view t = some (n, life)) (bare : life.bare = true) : pc.Creates n := by
  cases pc with
  | run | done => cases view
  | create clone stack stage => cases stage <;> cases view <;> rfl
  | join stage =>
    cases stage with
    | joined m tid | started m tid =>
      simp only [ThreadPc.view] at view
      split at view
      · cases view
      · cases view
        cases bare
    | _ => cases view <;> cases bare

theorem ThreadPc.joins_of_view {t n : ℕ} {pc : ThreadPc} {life : Life}
    (view : pc.view t = some (n, life)) (bare : life.bare = false) (other : n ≠ 0) : pc.Joins n := by
  cases pc with
  | run | done => cases view
  | create clone stack stage => cases stage <;> cases view <;> cases bare
  | join stage =>
    cases stage with
    | joined m tid | started m tid =>
      simp only [ThreadPc.view] at view
      split at view
      · cases view
      · cases view
        exact ⟨rfl, other⟩
    | _ => cases view <;> exact ⟨rfl, other⟩

/-! ## The invariant -/

namespace Slots

variable (s : Slots)

/-- Where the thread is. -/
def pc (n : ℕ) : Option ThreadPc := (s.threads n).map GuestThread.pc

/-- The thread has a stack in its hands. -/
def Holds (t k : ℕ) : Prop := ∃ th, s.threads t = some th ∧ th.pc.stack = some k

/-- The record has a stack that is to be freed. -/
def Owns (life : ℕ → Life) (n k : ℕ) : Prop :=
  ∃ r, s.recs n = some r ∧ r.ownedStack = some k ∧ (life n).pending = true

end Slots

/-- The record, its slot and its thread are as its life says. -/
structure RecOk (s : Slots) (n : ℕ) (life : Life) : Prop where
  live : life.live = true → ∃ r, s.recs n = some r ∧ r.freed = false ∧ r.joined = life.marked ∧
    (life.bare = true → r.ownedStack = none)
  unused : life = .unused → s.recs n = none
  gone : life = .freed → ∃ r, s.recs n = some r ∧ r.freed = true ∧ (s.pc n ≠ none → r.joined = true)
  slot : ∀ i, s.slots i = some n ↔ life.inSlot = true ∧ ∃ r, s.recs n = some r ∧ r.tid = i
  thread : life.Fits (s.pc n)

/-- What holds of every state the allowed steps reach, for some lives of the records. -/
structure Inv (s : Slots) (life : ℕ → Life) : Prop where
  fault : s.fault = false
  main : life 0 = .idle ∧ ∃ r, s.recs 0 = some r ∧ r.osStarted = false ∧ r.tid = 0
  recs : ∀ n, RecOk s n (life n)
  views : ∀ t th n L, s.threads t = some th → th.pc.view t = some (n, L) → life n = L
  workers : ∀ n t, (life n).worker = some t →
    ∃ th, s.threads t = some th ∧ th.pc.view t = some (n, life n)
  named : ∀ t th n tid, s.threads t = some th → th.pc.named = some (n, tid) →
    ∃ r, s.recs n = some r ∧ r.tid = tid
  foreign : ∀ n t, (life n).worker = some t → n ≠ t
  mutual_ : ∀ n t, life n = .joining t → life t ≠ .joining n
  fresh : ∀ n, s.nextRec ≤ n → life n = .unused
  range : ∀ i n, s.slots i = some n → i < maxThreads
  clone : ∀ n th, s.threads n = some th → th.pc = .done → th.clone = false

/-- Where a stack is. -/
inductive Place where
  | future
  /-- In the hands of a call that creates a thread. -/
  | creator (t : ℕ)
  | thread (n : ℕ)
  | gone
deriving DecidableEq, Repr

/-- Every stack is in its place. -/
structure StackInv (s : Slots) (life : ℕ → Life) (place : ℕ → Place) : Prop where
  frees : ∀ k, s.frees k = if place k = .gone then 1 else 0
  fresh : ∀ k, s.nextStack ≤ k ↔ place k = .future
  held : ∀ t k, s.Holds t k ↔ place k = .creator t
  owned : ∀ n k, s.Owns life n k ↔ place k = .thread n

/-! ## Rules for a step -/

section Rules

variable {s s' : Slots} {life : ℕ → Life} {t : ℕ} {th : GuestThread} {pc : ThreadPc}

/-- The thread `t` goes on at `pc` and nothing else changes that the invariant speaks of. -/
structure Quiet (s : Slots) (t : ℕ) (th : GuestThread) (pc : ThreadPc) (s' : Slots) : Prop where
  slots : s'.slots = s.slots
  recs : s'.recs = s.recs
  fault : s'.fault = s.fault
  nextRec : s'.nextRec = s.nextRec
  threads : s'.threads = Function.update s.threads t (some { th with pc })

theorem Slots.goto_threads (s : Slots) {t : ℕ} (here : s.threads t = some th) (pc : ThreadPc) :
    (s.goto t pc).threads = Function.update s.threads t (some { th with pc }) := by
  rw [Slots.goto, here]
  rfl

/-- The calls of the other threads stay where they are. -/
theorem threads_of_update (threads : s'.threads = Function.update s.threads t (some { th with pc }))
    {u : ℕ} {other : GuestThread} (there : s'.threads u = some other) :
    (u = t ∧ other = { th with pc }) ∨ u ≠ t ∧ s.threads u = some other := by
  rw [threads] at there
  by_cases same : u = t
  · subst same
    rw [Function.update_self] at there
    exact .inl ⟨rfl, (Option.some.inj there).symm⟩
  · rw [Function.update_of_ne same] at there
    exact .inr ⟨same, there⟩

/-- A record that a step does not change, nor its slot. -/
theorem RecOk.goto {m : ℕ} {L : Life} (before : RecOk s m L) (here : s.threads t = some th)
    (alive : th.pc ≠ .done) (recs : s'.recs m = s.recs m)
    (slots : ∀ i, s'.slots i = some m ↔ s.slots i = some m)
    (threads : s'.threads m = Function.update s.threads t (some { th with pc }) m) : RecOk s' m L := by
  refine ⟨?_, ?_, fun freed => ?_, fun i => ?_, ?_⟩
  · rw [recs]
    exact before.live
  · rw [recs]
    exact before.unused
  · obtain ⟨r, was, dead, joined⟩ := before.gone freed
    refine ⟨r, recs.trans was, dead, fun thread => joined ?_⟩
    by_cases self : m = t
    · subst self
      simp [Slots.pc, here]
    · rwa [Slots.pc, threads, Function.update_of_ne self] at thread
  · rw [slots, recs]
    exact before.slot i
  · have fits := before.thread
    rw [Slots.pc] at fits ⊢
    rw [threads]
    by_cases self : m = t
    · subst self
      rw [here] at fits
      rw [Function.update_self]
      exact fits.goto alive
    · rw [Function.update_of_ne self]
      exact fits

/-- A step that keeps the view of its thread. -/
theorem Inv.quiet (inv : Inv s life) (here : s.threads t = some th) (quiet : Quiet s t th pc s')
    (alive : th.pc ≠ .done) (view : pc.view t = th.pc.view t) (goes : pc = .done → th.clone = false)
    (named : ∀ n tid, pc.named = some (n, tid) → ∃ r, s.recs n = some r ∧ r.tid = tid) :
    Inv s' life where
  fault := quiet.fault.trans inv.fault
  main := by
    rw [quiet.recs]
    exact inv.main
  recs n := (inv.recs n).goto here alive (congrFun quiet.recs n) (fun i => by rw [quiet.slots])
    (congrFun quiet.threads n)
  views u other n L there seen := by
    rcases threads_of_update quiet.threads there with ⟨rfl, rfl⟩ | ⟨_, before⟩
    · exact inv.views u th n L here (view ▸ seen)
    · exact inv.views u other n L before seen
  workers n u works := by
    obtain ⟨other, before, seen⟩ := inv.workers n u works
    by_cases mine : u = t
    · subst mine
      obtain rfl : th = other := Option.some.inj (here.symm.trans before)
      exact ⟨{ th with pc }, by rw [quiet.threads, Function.update_self], view.trans seen⟩
    · exact ⟨other, by rw [quiet.threads, Function.update_of_ne mine]; exact before, seen⟩
  named u other n tid there called := by
    rw [quiet.recs]
    rcases threads_of_update quiet.threads there with ⟨rfl, rfl⟩ | ⟨_, before⟩
    · exact named n tid called
    · exact inv.named u other n tid before called
  foreign := inv.foreign
  mutual_ := inv.mutual_
  fresh n beyond := inv.fresh n (quiet.nextRec ▸ beyond)
  range i n slot := inv.range i n (quiet.slots ▸ slot)
  clone n other there ended := by
    rcases threads_of_update quiet.threads there with ⟨rfl, rfl⟩ | ⟨_, before⟩
    · exact goes ended
    · exact inv.clone n other before ended

/-- The thread `t` goes on at `pc`, and the record `n`, its slot and its thread may change. -/
structure Move (s : Slots) (t : ℕ) (th : GuestThread) (pc : ThreadPc) (n : ℕ) (s' : Slots) : Prop where
  other : n ≠ t
  fault : s'.fault = s.fault
  recs : ∀ m, m ≠ n → s'.recs m = s.recs m
  slots : ∀ m i, m ≠ n → (s'.slots i = some m ↔ s.slots i = some m)
  threads : ∀ u, u ≠ n → s'.threads u = Function.update s.threads t (some { th with pc }) u
  own : s'.threads n = s.threads n ∨ s.threads n = none ∧ ∃ clone, s'.threads n = some ⟨.run, clone⟩

theorem Move.threads_cases {n : ℕ} (move : Move s t th pc n s') {u : ℕ} {other : GuestThread}
    (there : s'.threads u = some other) :
    (u = t ∧ other = { th with pc }) ∨ (u ≠ t ∧ s.threads u = some other) ∨ other.pc = .run := by
  by_cases target : u = n
  · subst target
    rcases move.own with same | ⟨-, clone, born⟩
    · exact .inr (.inl ⟨move.other, same ▸ there⟩)
    · exact .inr (.inr (by rw [born] at there; cases there; rfl))
  · rw [move.threads u target] at there
    by_cases same : u = t
    · subst same
      rw [Function.update_self] at there
      exact .inl ⟨rfl, (Option.some.inj there).symm⟩
    · rw [Function.update_of_ne same] at there
      exact .inr (.inl ⟨same, there⟩)

/-- A thread that is in a call does not change by the move of another one. -/
theorem Move.thread_of_ne {n : ℕ} (move : Move s t th pc n s') {u : ℕ} {other : GuestThread}
    (ne : u ≠ t) (before : s.threads u = some other) : s'.threads u = some other := by
  by_cases target : u = n
  · subst target
    rcases move.own with same | ⟨none_, -⟩
    · exact same.trans before
    · rw [none_] at before
      cases before
  · rw [move.threads u target, Function.update_of_ne ne, before]

/-- A thread other than the one that works on `n` works on other records. -/
theorem Inv.apart {n u m : ℕ} {other : GuestThread} {L : Life} (inv : Inv s life)
    (mine : ∀ u, (life n).worker = some u → u = t) (ne : u ≠ t) (before : s.threads u = some other)
    (seen : other.pc.view u = some (m, L)) : m ≠ n := by
  rintro rfl
  have works := ThreadPc.view_worker seen
  rw [← inv.views u other m L before seen] at works
  exact ne (mine u works)

/-- The thread that works on a record after a step is the one that made the step. -/
theorem works_of_view {n u : ℕ} {after : Life} (view : (after.worker = some t ∧
      pc.view t = some (n, after)) ∨ (after.worker = none ∧ pc.view t = none))
    (works : after.worker = some u) : u = t ∧ pc.view t = some (n, after) := by
  rcases view with ⟨worker, seen⟩ | ⟨worker, -⟩
  · exact ⟨Option.some.inj (works.symm.trans worker), seen⟩
  · rw [worker] at works
    cases works

/-- Two threads that do not join each other still do not when the record `n` goes on. -/
theorem Inv.mutual_update {n m u : ℕ} {after : Life} (inv : Inv s life)
    (other : ∀ u, after = .joining u → u ≠ n)
    (joins : ∀ u, after = .joining u → life n = .joining u ∨ life u ≠ .joining n)
    (joining : Function.update life n after m = .joining u) :
    Function.update life n after u ≠ .joining m := by
  by_cases target : m = n
  · subst target
    rw [Function.update_self] at joining
    rw [Function.update_of_ne (other u joining)]
    rcases joins u joining with old | free
    · exact inv.mutual_ m u old
    · exact free
  · rw [Function.update_of_ne target] at joining
    have free := inv.mutual_ m u joining
    by_cases target' : u = n
    · subst target'
      rw [Function.update_self]
      intro back
      rcases joins m back with old | free'
      · exact free old
      · exact free' joining
    · rwa [Function.update_of_ne target']

/-- A step that takes the record `n` to the life `after`. -/
theorem Inv.move {n : ℕ} {after : Life} (inv : Inv s life) (here : s.threads t = some th)
    (move : Move s t th pc n s') (alive : th.pc ≠ .done) (goes : pc ≠ .done) (main : n ≠ 0)
    (only : ∀ m L, th.pc.view t = some (m, L) → m = n)
    (mine : ∀ u, (life n).worker = some u → u = t)
    (view : (after.worker = some t ∧ pc.view t = some (n, after)) ∨
      (after.worker = none ∧ pc.view t = none))
    (record : RecOk s' n after)
    (joins : ∀ u, after = .joining u → life n = .joining u ∨ life u ≠ .joining n)
    (named : ∀ m tid, pc.named = some (m, tid) → ∃ r, s'.recs m = some r ∧ r.tid = tid)
    (fresh : ∀ m, s'.nextRec ≤ m → m ≠ n ∧ s.nextRec ≤ m)
    (range : ∀ i, s'.slots i = some n → i < maxThreads) :
    Inv s' (Function.update life n after) where
  fault := move.fault.trans inv.fault
  main := by
    rw [Function.update_of_ne main.symm, move.recs 0 main.symm]
    exact inv.main
  recs m := by
    by_cases target : m = n
    · subst target
      rw [Function.update_self]
      exact record
    · rw [Function.update_of_ne target]
      exact (inv.recs m).goto here alive (move.recs m target) (fun i => move.slots m i target)
        (move.threads m target)
  views u other m L there seen := by
    rcases move.threads_cases there with ⟨rfl, rfl⟩ | ⟨ne, before⟩ | run
    · rcases view with ⟨-, seen'⟩ | ⟨-, seen'⟩
      · obtain ⟨rfl, rfl⟩ : n = m ∧ after = L := by
          have same := seen'.symm.trans seen
          cases same
          exact ⟨rfl, rfl⟩
        rw [Function.update_self]
      · rw [show ({ th with pc } : GuestThread).pc.view u = none from seen'] at seen
        cases seen
    · rw [Function.update_of_ne (inv.apart mine ne before seen)]
      exact inv.views u other m L before seen
    · rw [run] at seen
      cases seen
  workers m u works := by
    by_cases target : m = n
    · subst target
      rw [Function.update_self] at works ⊢
      obtain ⟨rfl, seen⟩ := works_of_view view works
      exact ⟨{ th with pc }, by rw [move.threads u move.other.symm, Function.update_self], seen⟩
    · rw [Function.update_of_ne target] at works ⊢
      obtain ⟨other, before, seen⟩ := inv.workers m u works
      have ne : u ≠ t := by
        rintro rfl
        obtain rfl : th = other := Option.some.inj (here.symm.trans before)
        exact target (only m _ seen)
      exact ⟨other, move.thread_of_ne ne before, seen⟩
  named u other m tid there called := by
    rcases move.threads_cases there with ⟨rfl, rfl⟩ | ⟨ne, before⟩ | run
    · exact named m tid called
    · have target : m ≠ n := by
        rcases ThreadPc.view_of_named called u with rfl | ⟨L, seen⟩
        · exact main.symm
        · exact inv.apart mine ne before seen
      rw [move.recs m target]
      exact inv.named u other m tid before called
    · rw [run] at called
      cases called
  foreign m u works := by
    by_cases target : m = n
    · subst target
      rw [Function.update_self] at works
      exact (works_of_view view works).1 ▸ move.other
    · rw [Function.update_of_ne target] at works
      exact inv.foreign m u works
  mutual_ m u := inv.mutual_update (fun u joining same => move.other <| by
    rw [joining] at view
    rw [← same, (works_of_view view rfl).1]) joins
  fresh m beyond := by
    obtain ⟨target, beyond⟩ := fresh m beyond
    rw [Function.update_of_ne target]
    exact inv.fresh m beyond
  range i m slot := by
    by_cases target : m = n
    · subst target
      exact range i slot
    · exact inv.range i m ((move.slots m i target).1 slot)
  clone m other there ended := by
    rcases move.threads_cases there with ⟨rfl, rfl⟩ | ⟨-, before⟩ | run
    · exact absurd ended goes
    · exact inv.clone m other before ended
    · rw [run] at ended
      cases ended

/-- A step of the thread that works on the record `n`. -/
theorem Inv.work {n : ℕ} {K L : Life} (inv : Inv s life) (here : s.threads t = some th)
    (move : Move s t th pc n s') (seen : th.pc.view t = some (n, K)) (goes : pc ≠ .done)
    (view : (L.worker = some t ∧ pc.view t = some (n, L)) ∨
      (L.worker = none ∧ pc.view t = none))
    (record : RecOk s' n L) (joins : ∀ u, L = .joining u → K = .joining u)
    (named : ∀ m tid, pc.named = some (m, tid) → ∃ r, s'.recs m = some r ∧ r.tid = tid)
    (nextRec : s'.nextRec = s.nextRec)
    (range : ∀ i, s'.slots i = some n → i < maxThreads ∨ s.slots i = some n) :
    Inv s' (Function.update life n L) := by
  have now : life n = K := inv.views t th n K here seen
  have worker : K.worker = some t := ThreadPc.view_worker seen
  have main : n ≠ 0 := by
    rintro rfl
    rw [inv.main.1] at now
    rw [← now] at worker
    cases worker
  refine inv.move here move (fun ended => ?_) goes main (fun m L' other => ?_) (fun u works => ?_) view
    record (fun u joining => ?_) named (fun m beyond => ?_) fun i slot => ?_
  · rw [ended] at seen
    cases seen
  · cases seen.symm.trans other
    rfl
  · rw [now, worker] at works
    exact (Option.some.inj works).symm
  · exact .inl (now.trans (joins u joining))
  · rw [nextRec] at beyond
    refine ⟨?_, beyond⟩
    rintro rfl
    rw [← now, inv.fresh m beyond] at worker
    cases worker
  · exact (range i slot).elim id (inv.range i n)

theorem RecOk.slot_iff {n i : ℕ} {L : Life} {r : HostThread} (record : RecOk s n L)
    (recs : s.recs n = some r) : s.slots i = some n ↔ L.inSlot = true ∧ r.tid = i := by
  rw [record.slot, recs]
  simp

/-- What a record and a life must have in common. -/
theorem recOk_of {n : ℕ} {L : Life} {r : HostThread} (recs : s.recs n = some r)
    (live : L.live = true → r.freed = false ∧ r.joined = L.marked ∧
      (L.bare = true → r.ownedStack = none))
    (gone : L.live = false → L = .freed ∧ r.freed = true ∧ (s.pc n ≠ none → r.joined = true))
    (slot : ∀ i, s.slots i = some n ↔ L.inSlot = true ∧ r.tid = i) (thread : L.Fits (s.pc n)) :
    RecOk s n L where
  live alive := ⟨r, recs, live alive⟩
  unused never := by
    rw [never] at gone
    cases (gone rfl).1
  gone freed := ⟨r, recs, (gone (by rw [freed]; rfl)).2⟩
  slot i := by
    rw [slot i, recs]
    simp
  thread := thread

theorem recOk_of_live {n : ℕ} {L : Life} {r : HostThread} (recs : s.recs n = some r)
    (alive : L.live = true) (live : r.freed = false ∧ r.joined = L.marked ∧
      (L.bare = true → r.ownedStack = none))
    (slot : ∀ i, s.slots i = some n ↔ L.inSlot = true ∧ r.tid = i) (thread : L.Fits (s.pc n)) :
    RecOk s n L :=
  recOk_of recs (fun _ => live) (fun dead => by rw [alive] at dead; cases dead) slot thread

/-- An access to a record that is not freed. -/
theorem RecOk.access {n : ℕ} {L : Life} {next : HostThread → Option Slots} (record : RecOk s n L)
    (live : L.live = true) (step : s.access n next = some s') : ∃ r, s.recs n = some r ∧
      r.freed = false ∧ r.joined = L.marked ∧ (L.bare = true → r.ownedStack = none) ∧
        next r = some s' := by
  obtain ⟨r, recs, freed, joined, bare⟩ := record.live live
  refine ⟨r, recs, freed, joined, bare, ?_⟩
  simp only [Slots.access, recs, freed] at step
  exact step

/-! ## Stacks -/

variable {life' : ℕ → Life} {place : ℕ → Place}

/-- A step that leaves every stack where it is. -/
theorem StackInv.keep (stacked : StackInv s life place) (frees : s'.frees = s.frees)
    (next : s'.nextStack = s.nextStack) (held : ∀ u k, s'.Holds u k ↔ s.Holds u k)
    (owned : ∀ n k, s'.Owns life' n k ↔ s.Owns life n k) : StackInv s' life' place where
  frees k := by
    rw [frees]
    exact stacked.frees k
  fresh k := by
    rw [next]
    exact stacked.fresh k
  held u k := (held u k).trans (stacked.held u k)
  owned n k := (owned n k).trans (stacked.owned n k)

/-- A step that moves the stack `k` to the place `p`. -/
theorem StackInv.relocate {k : ℕ} {p : Place} (stacked : StackInv s life place)
    (frees : ∀ j, j ≠ k → s'.frees j = s.frees j) (freed : s'.frees k = if p = .gone then 1 else 0)
    (next : ∀ j, j ≠ k → (s'.nextStack ≤ j ↔ s.nextStack ≤ j))
    (fresh : s'.nextStack ≤ k ↔ p = .future)
    (held : ∀ u j, j ≠ k → (s'.Holds u j ↔ s.Holds u j)) (holds : ∀ u, s'.Holds u k ↔ p = .creator u)
    (owned : ∀ n j, j ≠ k → (s'.Owns life' n j ↔ s.Owns life n j))
    (owns : ∀ n, s'.Owns life' n k ↔ p = .thread n) :
    StackInv s' life' (Function.update place k p) where
  frees j := by
    by_cases same : j = k
    · subst same
      rw [Function.update_self]
      exact freed
    · rw [Function.update_of_ne same, frees j same]
      exact stacked.frees j
  fresh j := by
    by_cases same : j = k
    · subst same
      rw [Function.update_self]
      exact fresh
    · rw [Function.update_of_ne same, next j same]
      exact stacked.fresh j
  held u j := by
    by_cases same : j = k
    · subst same
      rw [Function.update_self]
      exact holds u
    · rw [Function.update_of_ne same, held u j same]
      exact stacked.held u j
  owned n j := by
    by_cases same : j = k
    · subst same
      rw [Function.update_self]
      exact owns n
    · rw [Function.update_of_ne same, owned n j same]
      exact stacked.owned n j

theorem holds_of_thread {u k : ℕ} (same : s'.threads u = s.threads u) :
    s'.Holds u k ↔ s.Holds u k := by
  rw [Slots.Holds, Slots.Holds, same]

theorem holds_iff {k : ℕ} (here : s.threads t = some th) : s.Holds t k ↔ th.pc.stack = some k := by
  simp [Slots.Holds, here]

theorem Move.holds_of_ne {n u k : ℕ} (move : Move s t th pc n s') (ne : u ≠ t) :
    s'.Holds u k ↔ s.Holds u k := by
  by_cases target : u = n
  · subst target
    rcases move.own with same | ⟨none_, clone, born⟩
    · exact holds_of_thread same
    · simp [Slots.Holds, none_, born, ThreadPc.stack]
  · exact holds_of_thread ((move.threads u target).trans (Function.update_of_ne ne _ _))

theorem Move.holds_self {n k : ℕ} (move : Move s t th pc n s') :
    s'.Holds t k ↔ pc.stack = some k :=
  holds_iff ((move.threads t move.other.symm).trans (Function.update_self _ _ _))

/-- The thread goes on with the stack it has in its hands. -/
theorem Move.holds {n : ℕ} (move : Move s t th pc n s') (here : s.threads t = some th)
    (stack : pc.stack = th.pc.stack) (u k : ℕ) : s'.Holds u k ↔ s.Holds u k := by
  by_cases same : u = t
  · subst same
    rw [move.holds_self, holds_iff here, stack]
  · exact move.holds_of_ne same

theorem Quiet.holds_of_ne {u k : ℕ} (quiet : Quiet s t th pc s') (ne : u ≠ t) :
    s'.Holds u k ↔ s.Holds u k :=
  holds_of_thread (by rw [quiet.threads, Function.update_of_ne ne])

theorem Quiet.holds_self {k : ℕ} (quiet : Quiet s t th pc s') :
    s'.Holds t k ↔ pc.stack = some k :=
  holds_iff (by rw [quiet.threads, Function.update_self])

theorem Quiet.holds (quiet : Quiet s t th pc s') (here : s.threads t = some th)
    (stack : pc.stack = th.pc.stack) (u k : ℕ) : s'.Holds u k ↔ s.Holds u k := by
  by_cases same : u = t
  · subst same
    rw [quiet.holds_self, holds_iff here, stack]
  · exact quiet.holds_of_ne same

/-- The stack `k` goes out of the hands of the thread `t`. -/
theorem StackInv.drop {k : ℕ} {p : Place} (stacked : StackInv s life place)
    (has : ∀ j, s.Holds t j ↔ k = j) (others : ∀ u j, u ≠ t → (s'.Holds u j ↔ s.Holds u j))
    (empty : ∀ j, ¬ s'.Holds t j) (somewhere : p ≠ .future) (elsewhere : ∀ u, p ≠ .creator u)
    (frees : ∀ j, j ≠ k → s'.frees j = s.frees j) (freed : s'.frees k = if p = .gone then 1 else 0)
    (next : s'.nextStack = s.nextStack)
    (owned : ∀ n j, j ≠ k → (s'.Owns life' n j ↔ s.Owns life n j))
    (owns : ∀ n, s'.Owns life' n k ↔ p = .thread n) :
    StackInv s' life' (Function.update place k p) := by
  have before : place k = .creator t := (stacked.held t k).1 ((has k).2 rfl)
  refine stacked.relocate frees freed (fun j _ => by rw [next]) ?_ (fun u j ne => ?_) (fun u => ?_)
    owned owns
  · rw [next, stacked.fresh, before]
    simp [somewhere]
  · by_cases same : u = t
    · subst same
      exact iff_of_false (empty j) fun holds => ne ((has j).1 holds).symm
    · exact others u j same
  · refine iff_of_false (fun holds => ?_) (elsewhere u)
    by_cases same : u = t
    · subst same
      exact empty k holds
    · rw [others u k same, stacked.held, before] at holds
      exact same (Place.creator.inj holds).symm

/-- A stack in the hands of a call belongs to no record. -/
theorem StackInv.not_owns {n k : ℕ} (stacked : StackInv s life place) (has : s.Holds t k) :
    ¬ s.Owns life n k := by
  intro owns
  have owner := (stacked.owned n k).1 owns
  rw [(stacked.held t k).1 has] at owner
  cases owner

/-- The other records keep their stacks. -/
theorem Move.owns_of_ne {n m k : ℕ} {after : Life} (move : Move s t th pc n s') (ne : m ≠ n) :
    s'.Owns (Function.update life n after) m k ↔ s.Owns life m k := by
  rw [Slots.Owns, Slots.Owns, move.recs m ne, Function.update_of_ne ne]

theorem Move.owns {n : ℕ} {after : Life} (move : Move s t th pc n s')
    (own : ∀ k, s'.Owns (Function.update life n after) n k ↔ s.Owns life n k) (m k : ℕ) :
    s'.Owns (Function.update life n after) m k ↔ s.Owns life m k := by
  by_cases target : m = n
  · subst target
    exact own k
  · exact move.owns_of_ne target

theorem owns_iff {n k : ℕ} {r : HostThread} (recs : s.recs n = some r) :
    s.Owns life n k ↔ r.ownedStack = some k ∧ (life n).pending = true := by
  simp [Slots.Owns, recs]

/-- Some lives and places fit the state. -/
def Good (s : Slots) : Prop := ∃ life place, Inv s life ∧ StackInv s life place

/-- A step that keeps the view of its thread and the stack in its hands. -/
theorem Good.quiet (inv : Inv s life) (stacked : StackInv s life place)
    (here : s.threads t = some th) (quiet : Quiet s t th pc s') (frees : s'.frees = s.frees)
    (next : s'.nextStack = s.nextStack) (alive : th.pc ≠ .done) (view : pc.view t = th.pc.view t)
    (goes : pc = .done → th.clone = false) (stack : pc.stack = th.pc.stack)
    (named : ∀ n tid, pc.named = some (n, tid) → ∃ r, s.recs n = some r ∧ r.tid = tid) : Good s' := by
  refine ⟨life, place, inv.quiet here quiet alive view goes named,
    stacked.keep frees next (quiet.holds here stack) fun n k => ?_⟩
  rw [Slots.Owns, Slots.Owns, quiet.recs]

/-- A step of the thread that works on the record `n`, which leaves every stack where it is. -/
theorem Good.work {n : ℕ} {before after : Life} {r r' : HostThread} (inv : Inv s life)
    (stacked : StackInv s life place) (here : s.threads t = some th) (move : Move s t th pc n s')
    (seen : th.pc.view t = some (n, before)) (goes : pc ≠ .done)
    (view : (after.worker = some t ∧ pc.view t = some (n, after)) ∨
      (after.worker = none ∧ pc.view t = none))
    (record : RecOk s' n after) (joins : ∀ u, after = .joining u → before = .joining u)
    (named : ∀ m tid, pc.named = some (m, tid) → ∃ r, s'.recs m = some r ∧ r.tid = tid)
    (nextRec : s'.nextRec = s.nextRec)
    (range : ∀ i, s'.slots i = some n → i < maxThreads ∨ s.slots i = some n)
    (frees : s'.frees = s.frees) (next : s'.nextStack = s.nextStack) (stack : pc.stack = th.pc.stack)
    (was : s.recs n = some r) (is : s'.recs n = some r')
    (own : ∀ k, r'.ownedStack = some k ∧ after.pending = true ↔
      r.ownedStack = some k ∧ before.pending = true) : Good s' := by
  refine ⟨_, place, inv.work here move seen goes view record joins named nextRec range,
    stacked.keep frees next (move.holds here stack) (move.owns fun k => ?_)⟩
  rw [owns_iff was, owns_iff is, Function.update_self, inv.views t th n before here seen]
  exact own k

end Rules

end ThreadSlots

end Yos
