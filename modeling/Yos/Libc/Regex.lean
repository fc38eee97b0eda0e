import Mathlib.Logic.Function.Basic
import Yos.Lib.Bytes
import Yos.Lib.System

/-!
# Compiled patterns (`impl/libc/regex.c`)

All guests share one table of 64 compiled patterns.  `yos_regcomp` reserves a slot, compiles into it
and writes the number of the slot, plus one, into the first word of the `regex_t`; `yos_regexec` and
`yos_regfree` read the word back.  Only the reservation and the release of a slot hold the lock.  The
word is ordinary guest memory: a fork copies it, an exit leaves its slot in use, and a guest can store
any number there.  `patterns_private` says what is left: in a run that keeps to `RegexOk`, every
`regexec` runs the pattern last compiled into its `regex_t`, and every slot in use belongs to a
running process.

`last` and `log` record what was compiled and what `regexec` ran; no step depends on them.  The
matches that `yos_regexec` writes into guest memory are stores of the guest.
-/

open Word

namespace Yos

namespace Regex

/-! ## States and steps -/

/-- A slot of `g_regex_tab`. -/
inductive Slot (P : Type) where
  | free
  /-- In use, and not compiled yet. -/
  | reserved
  | compiled (pattern : P)
deriving DecidableEq, Repr

/-- `!in_use`. -/
def Slot.isFree {P : Type} : Slot P → Bool
  | .free => true
  | _ => false

/-- Where the thread of a process is. -/
inductive Job (P : Type) where
  | idle
  /-- `yos_regcomp` reserved a slot. -/
  | comp (preg : ℕ) (pattern : P) (slot : ℕ)
  /-- The host compiled the pattern. -/
  | comped (preg : ℕ) (pattern : P) (slot : ℕ)
  /-- `yos_regexec` resolved its handle. -/
  | execing (preg slot : ℕ)
  /-- `yos_regfree` resolved its handle. -/
  | freeing (preg slot : ℕ)
  /-- It released the slot. -/
  | freed (preg : ℕ)
deriving DecidableEq, Repr

/-- The slot that a `yos_regcomp` under way holds. -/
def Job.slot {P : Type} : Job P → Option ℕ
  | .comp _ _ i | .comped _ _ i => some i
  | _ => none

/-- A call of `yos_regexec`: what it should run, and the slot it ran, if its handle resolved. -/
structure Use (P : Type) where
  expected : Option P
  ran : Option (Slot P)
deriving DecidableEq, Repr

/-- The processes, their memories and the table. -/
structure State (P : Type) where
  live : ℕ → Bool
  size : ℕ → ℕ
  mem : ℕ → Bytes
  slots : ℕ → Slot P
  job : ℕ → Job P
  /-- The pattern last compiled into a `regex_t` of a running process and not freed. -/
  last : ℕ → ℕ → Option P
  log : List (Use P)

/-- The steps of the processes. -/
inductive Step (P : Type) where
  /-- `yos_regcomp` reserves a slot. -/
  | regcomp (p preg : ℕ) (pattern : P)
  /-- The host compiles, or refuses the pattern. -/
  | compile (p : ℕ) (accepts : Bool)
  /-- The handle is written. -/
  | store (p : ℕ)
  /-- `yos_regexec` resolves its handle. -/
  | regexec (p preg : ℕ)
  /-- The host runs the pattern. -/
  | run (p : ℕ)
  /-- `yos_regfree` resolves its handle. -/
  | regfree (p preg : ℕ)
  /-- It releases the slot. -/
  | release (p : ℕ)
  /-- It clears the handle. -/
  | clear (p : ℕ)
  /-- The guest stores a byte. -/
  | write (p addr : ℕ) (byte : UInt8)
  /-- Process `c` becomes a copy of `p`. -/
  | fork (p c : ℕ)
  /-- The process ends. -/
  | exit (p : ℕ)
deriving DecidableEq, Repr

namespace State

variable {P : Type}

/-- The first word of a `regex_t`. -/
def word (s : State P) (p preg : ℕ) : ℕ := (s.mem p).read32 preg

/-- The test of the bounds, in 32-bit arithmetic. -/
def outside (s : State P) (p preg : ℕ) : Bool := preg = 0 ∨ s.size p < u32 (preg + 4)

/-- `regex_handle_to_slot`. -/
def regexHandleToSlot (s : State P) (p preg : ℕ) : Option ℕ :=
  if s.outside p preg then none
  else if s.word p preg = 0 ∨ 64 < s.word p preg then none
  else if (s.slots (s.word p preg - 1)).isFree then none
  else some (s.word p preg - 1)

/-- `regex_slot_alloc`: the first free slot. -/
def regexSlotAlloc (s : State P) : Option ℕ := (List.range 64).find? fun i => (s.slots i).isFree

/-- A process runs and is in no call. -/
def ready (s : State P) (p : ℕ) : Bool :=
  match s.job p with
  | .idle => s.live p
  | _ => false

/-- The thread of a process moves on. -/
def goto (s : State P) (p : ℕ) (job : Job P) : State P :=
  { s with job := Function.update s.job p job }

/-- A slot changes. -/
def setSlot (s : State P) (i : ℕ) (slot : Slot P) : State P :=
  { s with slots := Function.update s.slots i slot }

/-- The memory of a process changes. -/
def setMem (s : State P) (p : ℕ) (mem : Bytes) : State P :=
  { s with mem := Function.update s.mem p mem }

/-- What is compiled into a `regex_t` changes. -/
def setLast (s : State P) (p preg : ℕ) (pattern : Option P) : State P :=
  { s with last := Function.update s.last p (Function.update (s.last p) preg pattern) }

/-- A call of `yos_regexec` is noted. -/
def note (s : State P) (p preg : ℕ) (ran : Option (Slot P)) : State P :=
  { s with log := ⟨s.last p preg, ran⟩ :: s.log }

/-- One step. -/
def next (s : State P) : Step P → Option (State P)
  | .regcomp p preg pattern =>
    if s.ready p then
      if s.outside p preg then some s
      else
        match s.regexSlotAlloc with
        | none => some s
        | some i => some ((s.setSlot i .reserved).goto p (.comp preg pattern i))
    else none
  | .compile p accepts =>
    match s.job p with
    | .comp preg pattern i =>
      if accepts then some ((s.setSlot i (.compiled pattern)).goto p (.comped preg pattern i))
      else some ((s.setSlot i .free).goto p .idle)
    | _ => none
  | .store p =>
    match s.job p with
    | .comped preg pattern i =>
      some (((s.setMem p ((s.mem p).write32 preg (i + 1))).setLast p preg (some pattern)).goto p .idle)
    | _ => none
  | .regexec p preg =>
    if s.ready p then
      match s.regexHandleToSlot p preg with
      | none => some (s.note p preg none)
      | some i => some (s.goto p (.execing preg i))
    else none
  | .run p =>
    match s.job p with
    | .execing preg i => some ((s.note p preg (some (s.slots i))).goto p .idle)
    | _ => none
  | .regfree p preg =>
    if s.ready p then
      match s.regexHandleToSlot p preg with
      | none => some s
      | some i => some (s.goto p (.freeing preg i))
    else none
  | .release p =>
    match s.job p with
    | .freeing preg i => some (((s.setSlot i .free).setLast p preg none).goto p (.freed preg))
    | _ => none
  | .clear p =>
    match s.job p with
    | .freed preg => some ((s.setMem p ((s.mem p).write32 preg 0)).goto p .idle)
    | _ => none
  | .write p addr byte =>
    if s.ready p then
      some (s.setMem p (Function.update (s.mem p) addr byte))
    else none
  | .fork p c =>
    if s.ready p ∧ ¬ s.live c then
      some { s with
        live := Function.update s.live c true
        size := Function.update s.size c (s.size p)
        mem := Function.update s.mem c (s.mem p)
        last := Function.update s.last c (s.last p) }
    else none
  | .exit p =>
    if s.ready p then
      some { s with
        live := Function.update s.live p false
        last := Function.update s.last p fun _ => none }
    else none

/-- A pattern is compiled into the `regex_t` at `a`, whose handle is that of slot `i`. -/
def Refers (s : State P) (p a i : ℕ) : Prop := (s.last p a).isSome = true ∧ s.word p a = i + 1

/-- No compiled `regex_t` of the process overlaps the one at `preg`. -/
def Apart (s : State P) (p preg : ℕ) : Prop :=
  ∀ a, (s.last p a).isSome = true → a + 4 ≤ preg ∨ preg + 4 ≤ a

/-- A slot belongs to a process, by one of its `regex_t` or by a `yos_regcomp` under way. -/
def Holds (s : State P) (p i : ℕ) : Prop := (∃ a, s.Refers p a i) ∨ (s.job p).slot = some i

end State

/-- The runs of the processes. -/
def system (P : Type) : System (State P) (Step P) where
  init s := (∀ i, s.slots i = .free) ∧ (∀ p, s.job p = .idle) ∧ (∀ p a, s.last p a = none) ∧
    s.log = []
  step s a s' := s.next a = some s'

variable {P : Type}

/-! ## What should hold -/

/-- Every `regexec` ran the pattern last compiled into its `regex_t`, and nothing where there is none;
and every slot in use belongs to a running process. -/
structure Kept (s : State P) : Prop where
  used : ∀ u ∈ s.log, u.ran = u.expected.map .compiled
  recycled : ∀ i, s.slots i ≠ .free → ∃ p, s.live p = true ∧ s.Holds p i

/-- A guest compiles only into memory that holds no compiled `regex_t` and does not wrap, runs and
frees only a `regex_t` that holds a pattern or a word that resolves to no slot, frees a slot only while
no other process refers to it, stores over no compiled `regex_t`, and ends only when another process
refers to each slot it refers to. -/
def RegexOk (s : State P) : Step P → Prop
  | .regcomp p preg _ => preg + 4 < 2 ^ 32 ∧ s.Apart p preg
  | .regexec p preg => s.regexHandleToSlot p preg = none ∨ (s.last p preg).isSome = true
  | .regfree p preg => s.regexHandleToSlot p preg = none ∨ (s.last p preg).isSome = true ∧
      ∀ q a, q ≠ p → (s.last q a).isSome = true → s.word q a ≠ s.word p preg
  | .write p addr _ => ∀ a, (s.last p a).isSome = true → addr < a ∨ a + 4 ≤ addr
  | .exit p => ∀ a i, s.Refers p a i → ∃ q b, q ≠ p ∧ s.Refers q b i
  | _ => True

/-! ## The invariant -/

/-- What is known of a process in the middle of a call. -/
def Job.Sound (s : State P) (p : ℕ) : Job P → Prop
  | .idle => True
  | .comp preg _ i => i < 64 ∧ s.slots i = .reserved ∧ s.outside p preg = false ∧ s.Apart p preg
  | .comped preg pattern i => i < 64 ∧ s.slots i = .compiled pattern ∧ s.outside p preg = false ∧
      s.Apart p preg ∧ ∀ q a, ¬ s.Refers q a i
  | .execing preg i => s.Refers p preg i
  | .freeing preg i => s.Refers p preg i ∧ ∀ q a, s.Refers q a i → q = p
  | .freed preg => s.Apart p preg

/-- A compiled `regex_t` has the handle of a slot with its pattern and shares neither its memory nor
its slot with another one of its process; the calls under way hold their slots alone; and every slot
in use is held by a process. -/
structure Inv (s : State P) : Prop where
  held : ∀ p a pattern, s.last p a = some pattern →
    s.outside p a = false ∧ ∃ i < 64, s.word p a = i + 1 ∧ s.slots i = .compiled pattern
  apart : ∀ p a b, (s.last p a).isSome = true → (s.last p b).isSome = true → a ≠ b →
    a + 4 ≤ b ∨ b + 4 ≤ a
  single : ∀ p a b i, s.Refers p a i → s.Refers p b i → a = b
  jobs : ∀ p, (s.job p).Sound s p
  distinct : ∀ p q i, (s.job p).slot = some i → (s.job q).slot = some i → p = q
  owned : ∀ i, s.slots i ≠ .free → ∃ p, s.Holds p i
  running : ∀ p a, (s.last p a).isSome = true → s.live p = true
  busy : ∀ p, s.job p ≠ .idle → s.live p = true
  used : ∀ u ∈ s.log, u.ran = u.expected.map .compiled

section Facts

variable {s : State P} {p q preg a i : ℕ}

theorem Inv.start (init : (system P).init s) : Inv s := by
  obtain ⟨slots, jobs, last, log⟩ := init
  refine ⟨fun p a pattern h => ?_, fun p a b h => ?_, fun p a b i h => ?_, fun p => ?_,
    fun p q i h => ?_, fun i h => absurd (slots i) h, fun p a h => ?_, fun p h => absurd (jobs p) h,
    fun u h => ?_⟩
  · rw [last p a] at h
    cases h
  · rw [last p a] at h
    cases h
  · rw [State.Refers, last p a] at h
    cases h.1
  · rw [jobs p]
    trivial
  · rw [jobs p] at h
    cases h
  · rw [last p a] at h
    cases h
  · rw [log] at h
    cases h

/-- The handle of a compiled `regex_t` resolves to its slot. -/
theorem Inv.resolves (inv : Inv s) (ready : (s.last p preg).isSome = true) :
    ∃ i < 64, s.Refers p preg i ∧ s.regexHandleToSlot p preg = some i := by
  obtain ⟨pattern, last⟩ := Option.isSome_iff_exists.mp ready
  obtain ⟨inside, i, small, handle, slot⟩ := inv.held p preg pattern last
  refine ⟨i, small, ⟨ready, handle⟩, ?_⟩
  rw [State.regexHandleToSlot, inside, handle]
  simp [slot, Slot.isFree]
  omega

/-- A slot that a `regex_t` refers to is compiled, with its pattern. -/
theorem Inv.slot_of_refers (inv : Inv s) (refers : s.Refers p a i) :
    ∃ pattern, s.last p a = some pattern ∧ s.slots i = .compiled pattern := by
  obtain ⟨pattern, last⟩ := Option.isSome_iff_exists.mp refers.1
  obtain ⟨-, j, -, handle, slot⟩ := inv.held p a pattern last
  have same : j = i := Nat.succ.inj (handle.symm.trans refers.2)
  exact ⟨pattern, last, same ▸ slot⟩

/-- The slot of a `yos_regcomp` under way is in use. -/
theorem Inv.slot_of_job (inv : Inv s) (holds : (s.job p).slot = some i) : s.slots i ≠ .free := by
  have sound := inv.jobs p
  cases job : s.job p with
  | comp preg pattern j =>
    rw [job] at sound holds
    cases holds
    rw [sound.2.1]
    exact nofun
  | comped preg pattern j =>
    rw [job] at sound holds
    cases holds
    rw [sound.2.1]
    exact nofun
  | _ =>
    rw [job] at holds
    cases holds

/-- No `regex_t` refers to the slot of a `yos_regcomp` under way. -/
theorem Inv.job_slot_unreferred (inv : Inv s) (holds : (s.job p).slot = some i) :
    ¬ s.Refers q a i := by
  intro refers
  obtain ⟨_, _, slot⟩ := inv.slot_of_refers refers
  have sound := inv.jobs p
  cases job : s.job p with
  | comp preg pattern j =>
    rw [job] at sound holds
    cases holds
    exact nomatch sound.2.1.symm.trans slot
  | comped preg pattern j =>
    rw [job] at sound holds
    cases holds
    exact sound.2.2.2.2 q a refers
  | _ =>
    rw [job] at holds
    cases holds

theorem regexSlotAlloc_some (found : s.regexSlotAlloc = some i) : i < 64 ∧ s.slots i = .free := by
  have small := List.mem_of_find?_eq_some found
  have free := List.find?_some found
  refine ⟨List.mem_range.mp small, ?_⟩
  revert free
  cases s.slots i <;> simp [Slot.isFree]

theorem Slot.isFree_eq_false {slot : Slot P} (used : slot ≠ .free) : slot.isFree = false := by
  cases slot <;> first | rfl | exact absurd rfl used

theorem ready_spec (ready : s.ready p = true) : s.live p = true ∧ s.job p = .idle := by
  unfold State.ready at ready
  split at ready
  · next idle => exact ⟨ready, idle⟩
  · cases ready

/-- The call of a process stays sound when its slot and its compiled `regex_t` stay and nobody new
refers to its slot. -/
theorem Job.Sound.mono {s' : State P} {job : Job P} (sound : job.Sound s q)
    (slots : ∀ i, job.slot = some i → s'.slots i = s.slots i)
    (outside : ∀ a, s'.outside q a = s.outside q a)
    (last : ∀ a, (s'.last q a).isSome = true → (s.last q a).isSome = true)
    (kept : ∀ a i, s.Refers q a i → s'.Refers q a i)
    (fresh : ∀ r a i, s'.Refers r a i → (job.slot = some i ∨ ∃ b, s.Refers q b i) →
      ∃ r' b, s.Refers r' b i ∧ (r' = q → r = q)) :
    job.Sound s' q := by
  have apart (preg : ℕ) (before : s.Apart q preg) : s'.Apart q preg := fun a ready =>
    before a (last a ready)
  cases job with
  | idle => trivial
  | comp preg pattern i =>
    obtain ⟨small, slot, inside, away⟩ := sound
    exact ⟨small, (slots i rfl).trans slot, (outside preg).trans inside, apart preg away⟩
  | comped preg pattern i =>
    obtain ⟨small, slot, inside, away, nobody⟩ := sound
    refine ⟨small, (slots i rfl).trans slot, (outside preg).trans inside, apart preg away, ?_⟩
    intro r a refers
    obtain ⟨r', b, before, -⟩ := fresh r a i refers (.inl rfl)
    exact nobody r' b before
  | execing preg i => exact kept preg i sound
  | freeing preg i =>
    refine ⟨kept preg i sound.1, fun r a refers => ?_⟩
    obtain ⟨r', b, before, same⟩ := fresh r a i refers (.inr ⟨preg, sound.1⟩)
    exact same (sound.2 r' b before)
  | freed preg => exact apart preg sound

end Facts

/-! ## The steps of a call -/

section Calls

variable {s : State P} {p preg i : ℕ} {pattern : P}

/-- A step that changes only the job of a process, to one that holds no slot it did not hold. -/
theorem Inv.goto (inv : Inv s) {job : Job P} (runs : s.live p = true) (sound : job.Sound s p)
    (slot : job.slot = (s.job p).slot) : Inv (s.goto p job) := by
  have slots (q : ℕ) : ((s.goto p job).job q).slot = (s.job q).slot := by
    rcases eq_or_ne q p with rfl | other
    · simp only [State.goto, Function.update_self]
      exact slot
    · simp only [State.goto, Function.update_of_ne other]
  have same {q : ℕ} {job' : Job P} (sound : job'.Sound s q) : job'.Sound (s.goto p job) q :=
    sound.mono (fun _ _ => rfl) (fun _ => rfl) (fun _ => id) (fun _ _ => id)
      fun r a i refers _ => ⟨r, a, refers, id⟩
  refine ⟨inv.held, inv.apart, inv.single, fun q => ?_, fun q r i => ?_, fun i used => ?_,
    inv.running, fun q working => ?_, inv.used⟩
  · rcases eq_or_ne q p with rfl | other
    · simp only [State.goto, Function.update_self]
      exact same sound
    · simp only [State.goto, Function.update_of_ne other]
      exact same (inv.jobs q)
  · rw [slots q, slots r]
    exact inv.distinct q r i
  · obtain ⟨q, holds⟩ := inv.owned i used
    refine ⟨q, holds.imp id fun job => ?_⟩
    rw [slots q]
    exact job
  · rcases eq_or_ne q p with rfl | other
    · exact runs
    · simp only [State.goto, Function.update_of_ne other] at working
      exact inv.busy q working

/-- A process changes a slot that is its own or nobody's, and keeps it exactly if it is in use. -/
theorem Inv.setSlot_goto (inv : Inv s) {slot : Slot P} {job : Job P} (runs : s.live p = true)
    (alone : ∀ q a, ¬ s.Refers q a i) (others : ∀ q, q ≠ p → (s.job q).slot ≠ some i)
    (mine : ∀ j, (s.job p).slot = some j → j = i)
    (sound : job.Sound ((s.setSlot i slot).goto p job) p)
    (keeps : job.slot = if slot.isFree then none else some i) :
    Inv ((s.setSlot i slot).goto p job) := by
  have job_slot {q j : ℕ} (holds : (((s.setSlot i slot).goto p job).job q).slot = some j) :
      q = p ∧ j = i ∨ q ≠ p ∧ (s.job q).slot = some j := by
    rcases eq_or_ne q p with rfl | other
    · simp only [State.goto, State.setSlot, Function.update_self, keeps] at holds
      split at holds
      · cases holds
      · cases holds
        exact .inl ⟨rfl, rfl⟩
    · simp only [State.goto, State.setSlot, Function.update_of_ne other] at holds
      exact .inr ⟨other, holds⟩
  refine ⟨fun q a pat last => ?_, inv.apart, inv.single, fun q => ?_, fun q r j hq hr => ?_,
    fun j used => ?_, inv.running, fun q working => ?_, inv.used⟩
  · obtain ⟨inside, j, small, handle, known⟩ := inv.held q a pat last
    refine ⟨inside, j, small, handle, ?_⟩
    have away : j ≠ i := by
      rintro rfl
      exact alone q a ⟨Option.isSome_iff_exists.mpr ⟨pat, last⟩, handle⟩
    simpa only [State.goto, State.setSlot, Function.update_of_ne away] using known
  · rcases eq_or_ne q p with rfl | other
    · simp only [State.goto, State.setSlot, Function.update_self]
      exact sound
    · simp only [State.goto, State.setSlot, Function.update_of_ne other]
      refine (inv.jobs q).mono (fun j holds => ?_) (fun _ => rfl) (fun _ => id) (fun _ _ => id)
        fun r a j refers _ => ⟨r, a, refers, id⟩
      refine Function.update_of_ne ?_ _ _
      rintro rfl
      exact others q other holds
  · rcases job_slot hq with ⟨rfl, rfl⟩ | ⟨hqp, first⟩
    · rcases job_slot hr with ⟨rfl, -⟩ | ⟨hrp, second⟩
      · rfl
      · exact absurd second (others r hrp)
    · rcases job_slot hr with ⟨rfl, rfl⟩ | ⟨hrp, second⟩
      · exact absurd first (others q hqp)
      · exact inv.distinct q r j first second
  · rcases eq_or_ne j i with rfl | away
    · refine ⟨p, .inr ?_⟩
      simp only [State.goto, State.setSlot, Function.update_self] at used ⊢
      rw [keeps, Slot.isFree_eq_false used]
      rfl
    · simp only [State.goto, State.setSlot, Function.update_of_ne away] at used
      obtain ⟨q, holds⟩ := inv.owned j used
      refine ⟨q, holds.imp id fun under => ?_⟩
      have other : q ≠ p := by
        rintro rfl
        exact away (mine j under)
      simpa only [State.goto, State.setSlot, Function.update_of_ne other] using under
  · rcases eq_or_ne q p with rfl | other
    · exact runs
    · simp only [State.goto, State.setSlot, Function.update_of_ne other] at working
      exact inv.busy q working

/-- `yos_regcomp` reserves a free slot. -/
theorem Inv.reserve (inv : Inv s) (runs : s.live p = true) (idle : s.job p = .idle)
    (inside : s.outside p preg = false) (away : s.Apart p preg) (small : i < 64)
    (free : s.slots i = .free) :
    Inv ((s.setSlot i .reserved).goto p (.comp preg pattern i)) := by
  refine inv.setSlot_goto runs (fun q a refers => ?_) (fun q _ holds => ?_) (fun j holds => ?_) ?_ rfl
  · obtain ⟨_, _, slot⟩ := inv.slot_of_refers refers
    exact nomatch free.symm.trans slot
  · exact inv.slot_of_job holds free
  · rw [idle] at holds
    cases holds
  · exact ⟨small, Function.update_self .., inside, away⟩

/-- The host compiles into the reserved slot. -/
theorem Inv.compiles (inv : Inv s) (job : s.job p = .comp preg pattern i) :
    Inv ((s.setSlot i (.compiled pattern)).goto p (.comped preg pattern i)) := by
  have mine : (s.job p).slot = some i := by
    rw [job]
    rfl
  have sound := inv.jobs p
  rw [job] at sound
  obtain ⟨small, -, inside, away⟩ := sound
  refine inv.setSlot_goto (inv.busy p (by rw [job]; exact nofun)) (fun q a => ?_)
    (fun q other holds => ?_) (fun j holds => ?_) ?_ rfl
  · exact inv.job_slot_unreferred mine
  · exact other (inv.distinct q p i holds mine)
  · exact Option.some.inj (holds.symm.trans mine)
  · exact ⟨small, Function.update_self .., inside, away, fun q a => inv.job_slot_unreferred mine⟩

/-- The host refuses the pattern and the slot is released. -/
theorem Inv.refuses (inv : Inv s) (job : s.job p = .comp preg pattern i) :
    Inv ((s.setSlot i .free).goto p .idle) := by
  have mine : (s.job p).slot = some i := by
    rw [job]
    rfl
  refine inv.setSlot_goto (inv.busy p (by rw [job]; exact nofun)) (fun q a => ?_)
    (fun q other holds => ?_) (fun j holds => ?_) trivial rfl
  · exact inv.job_slot_unreferred mine
  · exact other (inv.distinct q p i holds mine)
  · exact Option.some.inj (holds.symm.trans mine)

/-- The memory of a process changes outside its compiled `regex_t`. -/
theorem Inv.setMem (inv : Inv s) {mem : Bytes}
    (kept : ∀ a, (s.last p a).isSome = true → mem.read32 a = (s.mem p).read32 a) :
    Inv (s.setMem p mem) := by
  have word (q a : ℕ) (ready : (s.last q a).isSome = true) : (s.setMem p mem).word q a = s.word q a := by
    rcases eq_or_ne q p with rfl | other
    · simp only [State.word, State.setMem, Function.update_self]
      exact kept a ready
    · simp only [State.word, State.setMem, Function.update_of_ne other]
  have refers (q a j : ℕ) : (s.setMem p mem).Refers q a j ↔ s.Refers q a j := by
    constructor
    · exact fun ⟨ready, handle⟩ => ⟨ready, (word q a ready).symm.trans handle⟩
    · exact fun ⟨ready, handle⟩ => ⟨ready, (word q a ready).trans handle⟩
  refine ⟨fun q a pat last => ?_, inv.apart, fun q a b j ha hb => ?_, fun q => ?_, inv.distinct,
    fun j used => ?_, inv.running, inv.busy, inv.used⟩
  · obtain ⟨inside, j, small, handle, slot⟩ := inv.held q a pat last
    exact ⟨inside, j, small, (word q a (Option.isSome_iff_exists.mpr ⟨pat, last⟩)).trans handle, slot⟩
  · exact inv.single q a b j ((refers q a j).mp ha) ((refers q b j).mp hb)
  · exact (inv.jobs q).mono (fun _ _ => rfl) (fun _ => rfl) (fun _ => id)
      (fun a j => (refers q a j).mpr) fun r a j now _ => ⟨r, a, (refers r a j).mp now, id⟩
  · obtain ⟨q, holds⟩ := inv.owned j used
    refine ⟨q, holds.imp (fun ⟨a, now⟩ => ⟨a, (refers q a j).mpr now⟩) id⟩

theorem isSome_setLast_some {q a : ℕ} :
    ((s.setLast p preg (some pattern)).last q a).isSome = true ↔
      q = p ∧ a = preg ∨ (s.last q a).isSome = true := by
  rcases eq_or_ne q p with rfl | other
  · rcases eq_or_ne a preg with rfl | differs
    · simp [State.setLast]
    · simp [State.setLast, differs]
  · simp [State.setLast, other]

theorem isSome_setLast_none {q a : ℕ} :
    ((s.setLast p preg none).last q a).isSome = true ↔
      ¬ (q = p ∧ a = preg) ∧ (s.last q a).isSome = true := by
  rcases eq_or_ne q p with rfl | other
  · rcases eq_or_ne a preg with rfl | differs
    · simp [State.setLast]
    · simp [State.setLast, differs]
  · simp [State.setLast, other]

theorem setLast_of_ne {q a : ℕ} {last : Option P} (other : ¬ (q = p ∧ a = preg)) :
    (s.setLast p preg last).last q a = s.last q a := by
  rcases eq_or_ne q p with rfl | differs
  · have apart : a ≠ preg := fun same => other ⟨rfl, same⟩
    simp [State.setLast, apart]
  · simp [State.setLast, differs]

/-- A `yos_regcomp` whose handle is in place ends: the `regex_t` holds its pattern. -/
theorem Inv.register (inv : Inv s) (job : s.job p = .comped preg pattern i)
    (handle : s.word p preg = i + 1) : Inv ((s.setLast p preg (some pattern)).goto p .idle) := by
  have mine : (s.job p).slot = some i := by
    rw [job]
    rfl
  have sound := inv.jobs p
  rw [job] at sound
  obtain ⟨small, slot, inside, away, nobody⟩ := sound
  have refers {q a j : ℕ} (now : (s.setLast p preg (some pattern)).Refers q a j) :
      q = p ∧ a = preg ∧ j = i ∨ s.Refers q a j := by
    rcases isSome_setLast_some.mp now.1 with ⟨rfl, rfl⟩ | ready
    · exact .inl ⟨rfl, rfl, Nat.succ.inj (now.2.symm.trans handle)⟩
    · exact .inr ⟨ready, now.2⟩
  have kept {q a j : ℕ} (before : s.Refers q a j) : (s.setLast p preg (some pattern)).Refers q a j :=
    ⟨isSome_setLast_some.mpr (.inr before.1), before.2⟩
  have job_slot {q j : ℕ} (holds : (((s.setLast p preg (some pattern)).goto p .idle).job q).slot =
      some j) : q ≠ p ∧ (s.job q).slot = some j := by
    rcases eq_or_ne q p with rfl | other
    · simp only [State.goto, Function.update_self] at holds
      cases holds
    · simp only [State.goto, Function.update_of_ne other] at holds
      exact ⟨other, holds⟩
  refine ⟨fun q a pat last => ?_, fun q a b ha hb apart => ?_, fun q a b j ha hb => ?_, fun q => ?_,
    fun q r j hq hr => ?_, fun j used => ?_, fun q a ready => ?_, fun q working => ?_, inv.used⟩
  · by_cases same : q = p ∧ a = preg
    · obtain ⟨rfl, rfl⟩ := same
      simp only [State.goto, State.setLast, Function.update_self, Option.some.injEq] at last
      subst last
      exact ⟨inside, i, small, handle, slot⟩
    · exact inv.held q a pat ((setLast_of_ne same).symm.trans last)
  · rcases isSome_setLast_some.mp ha with ⟨rfl, rfl⟩ | first
    · rcases isSome_setLast_some.mp hb with ⟨-, rfl⟩ | second
      · exact absurd rfl apart
      · exact (away b second).symm
    · rcases isSome_setLast_some.mp hb with ⟨rfl, rfl⟩ | second
      · exact away a first
      · exact inv.apart q a b first second apart
  · rcases refers ha with ⟨rfl, rfl, rfl⟩ | first
    · rcases refers hb with ⟨-, rfl, -⟩ | second
      · rfl
      · exact absurd second (nobody q b)
    · rcases refers hb with ⟨rfl, rfl, rfl⟩ | second
      · exact absurd first (nobody q a)
      · exact inv.single q a b j first second
  · rcases eq_or_ne q p with rfl | other
    · simp only [State.goto, Function.update_self]
      trivial
    · simp only [State.goto, Function.update_of_ne other]
      refine (inv.jobs q).mono (fun _ _ => rfl) (fun _ => rfl) (fun a ready => ?_) (fun _ _ => kept)
        fun r a j now held => ?_
      · exact (isSome_setLast_some.mp ready).resolve_left fun same => other same.1
      · rcases refers now with ⟨rfl, rfl, rfl⟩ | before
        · rcases held with holds | ⟨b, before⟩
          · exact absurd (inv.distinct q r j holds mine) other
          · exact absurd before (nobody q b)
        · exact ⟨r, a, before, id⟩
  · exact inv.distinct q r j (job_slot hq).2 (job_slot hr).2
  · obtain ⟨q, ⟨a, before⟩ | holds⟩ := inv.owned j used
    · exact ⟨q, .inl ⟨a, kept before⟩⟩
    · rcases eq_or_ne q p with rfl | other
      · have same : i = j := Option.some.inj (mine.symm.trans holds)
        exact ⟨q, .inl ⟨preg, isSome_setLast_some.mpr (.inl ⟨rfl, rfl⟩), same ▸ handle⟩⟩
      · refine ⟨q, .inr ?_⟩
        simp only [State.goto, Function.update_of_ne other]
        exact holds
  · rcases isSome_setLast_some.mp ready with ⟨rfl, rfl⟩ | before
    · exact inv.busy q (by rw [job]; exact nofun)
    · exact inv.running q a before
  · rcases eq_or_ne q p with rfl | other
    · simp [State.goto] at working
    · simp only [State.goto, Function.update_of_ne other] at working
      exact inv.busy q working

/-- The handle is written: the `regex_t` holds the new pattern. -/
theorem Inv.store (inv : Inv s) (job : s.job p = .comped preg pattern i) :
    Inv (((s.setMem p ((s.mem p).write32 preg (i + 1))).setLast p preg (some pattern)).goto p .idle) := by
  have sound := inv.jobs p
  rw [job] at sound
  obtain ⟨small, -, -, away, -⟩ := sound
  have written := inv.setMem fun a ready =>
    Bytes.read32_write32_disjoint (m := s.mem p) (v := i + 1) (away a ready)
  refine written.register job ?_
  simp only [State.word, State.setMem, Function.update_self]
  exact Bytes.read32_write32_self (by omega)

/-- `yos_regfree` releases its slot, which no other `regex_t` refers to. -/
theorem Inv.release (inv : Inv s) (job : s.job p = .freeing preg i) :
    Inv (((s.setSlot i .free).setLast p preg none).goto p (.freed preg)) := by
  have sound := inv.jobs p
  rw [job] at sound
  obtain ⟨mine, only⟩ := sound
  have refers {q a j : ℕ} (now : (s.setLast p preg none).Refers q a j) : s.Refers q a j ∧ j ≠ i := by
    obtain ⟨other, ready⟩ := isSome_setLast_none.mp now.1
    have before : s.Refers q a j := ⟨ready, now.2⟩
    refine ⟨before, ?_⟩
    rintro rfl
    have same := only q a before
    subst same
    exact other ⟨rfl, inv.single q a preg j before mine⟩
  have kept {q a j : ℕ} (before : s.Refers q a j) (away : j ≠ i) :
      (s.setLast p preg none).Refers q a j := by
    refine ⟨isSome_setLast_none.mpr ⟨?_, before.1⟩, before.2⟩
    rintro ⟨rfl, rfl⟩
    exact away (Nat.succ.inj (before.2.symm.trans mine.2))
  have job_slot {q j : ℕ} (holds : ((((s.setSlot i .free).setLast p preg none).goto p
      (.freed preg)).job q).slot = some j) : (s.job q).slot = some j := by
    rcases eq_or_ne q p with rfl | other
    · simp only [State.goto, Function.update_self] at holds
      cases holds
    · simpa only [State.goto, State.setLast, State.setSlot, Function.update_of_ne other] using holds
  have slot_ne {q j : ℕ} (holds : (s.job q).slot = some j) : j ≠ i := by
    rintro rfl
    exact inv.job_slot_unreferred holds mine
  refine ⟨fun q a pat last => ?_, fun q a b ha hb apart => ?_, fun q a b j ha hb => ?_, fun q => ?_,
    fun q r j hq hr => ?_, fun j used => ?_, fun q a ready => ?_, fun q working => ?_, inv.used⟩
  · have ready : ((s.setLast p preg none).last q a).isSome = true :=
      Option.isSome_iff_exists.mpr ⟨pat, last⟩
    obtain ⟨inside, j, small, handle, slot⟩ :=
      inv.held q a pat ((setLast_of_ne (isSome_setLast_none.mp ready).1).symm.trans last)
    refine ⟨inside, j, small, handle, ?_⟩
    have away : j ≠ i := (refers (q := q) (a := a) ⟨ready, handle⟩).2
    simpa only [State.goto, State.setLast, State.setSlot, Function.update_of_ne away] using slot
  · exact inv.apart q a b (isSome_setLast_none.mp ha).2 (isSome_setLast_none.mp hb).2 apart
  · exact inv.single q a b j (refers ha).1 (refers hb).1
  · rcases eq_or_ne q p with rfl | other
    · simp only [State.goto, Function.update_self]
      intro a ready
      obtain ⟨differs, before⟩ := isSome_setLast_none.mp ready
      exact inv.apart q a preg before mine.1 fun same => differs ⟨rfl, same⟩
    · simp only [State.goto, Function.update_of_ne other]
      refine (inv.jobs q).mono (fun j holds => ?_) (fun _ => rfl) (fun a ready => ?_)
        (fun a j before => ?_) fun r a j now _ => ⟨r, a, (refers now).1, id⟩
      · exact Function.update_of_ne (slot_ne holds) _ _
      · exact (isSome_setLast_none.mp ready).2
      · refine kept before ?_
        rintro rfl
        exact other (only q a before)
  · exact inv.distinct q r j (job_slot hq) (job_slot hr)
  · have away : j ≠ i := by
      rintro rfl
      exact used (by simp [State.goto, State.setLast, State.setSlot])
    simp only [State.goto, State.setLast, State.setSlot, Function.update_of_ne away] at used
    obtain ⟨q, ⟨a, before⟩ | holds⟩ := inv.owned j used
    · exact ⟨q, .inl ⟨a, kept before away⟩⟩
    · refine ⟨q, .inr ?_⟩
      have other : q ≠ p := by
        rintro rfl
        rw [job] at holds
        cases holds
      simpa only [State.goto, State.setLast, State.setSlot, Function.update_of_ne other] using holds
  · exact inv.running q a (isSome_setLast_none.mp ready).2
  · rcases eq_or_ne q p with rfl | other
    · exact inv.busy q (by rw [job]; exact nofun)
    · simp only [State.goto, Function.update_of_ne other] at working
      exact inv.busy q working

/-- `yos_regfree` clears the handle. -/
theorem Inv.clear (inv : Inv s) (job : s.job p = .freed preg) :
    Inv ((s.setMem p ((s.mem p).write32 preg 0)).goto p .idle) := by
  have away := inv.jobs p
  rw [job] at away
  have written := inv.setMem fun a ready =>
    Bytes.read32_write32_disjoint (m := s.mem p) (v := 0) (away a ready)
  refine written.goto (inv.busy p (by rw [job]; exact nofun)) trivial ?_
  simp only [State.setMem, job]
  rfl

/-- A call of `yos_regexec` that ran what it should is noted. -/
theorem Inv.note (inv : Inv s) {ran : Option (Slot P)}
    (right : ran = (s.last p preg).map .compiled) : Inv (s.note p preg ran) := by
  refine ⟨inv.held, inv.apart, inv.single, fun q => ?_, inv.distinct, inv.owned, inv.running, inv.busy,
    fun u noted => ?_⟩
  · exact (inv.jobs q).mono (fun _ _ => rfl) (fun _ => rfl) (fun _ => id) (fun _ _ => id)
      fun r a j refers _ => ⟨r, a, refers, id⟩
  · rcases List.mem_cons.mp noted with rfl | before
    · exact right
    · exact inv.used u before

/-- A `regex_t` without a slot is not compiled. -/
theorem Inv.fails (inv : Inv s) (missing : s.regexHandleToSlot p preg = none) :
    Inv (s.note p preg none) := by
  refine inv.note ?_
  cases last : s.last p preg with
  | none => rfl
  | some pattern =>
    obtain ⟨i, -, -, found⟩ := inv.resolves (by rw [last]; rfl)
    exact nomatch missing.symm.trans found

/-- The slot that is found is the one the `regex_t` refers to. -/
theorem Inv.refers_of_found (inv : Inv s) (ready : (s.last p preg).isSome = true)
    (found : s.regexHandleToSlot p preg = some i) : s.Refers p preg i := by
  obtain ⟨j, -, refers, known⟩ := inv.resolves ready
  cases found.symm.trans known
  exact refers

/-- `yos_regexec` has found the slot. -/
theorem Inv.execs (inv : Inv s) (runs : s.live p = true) (idle : s.job p = .idle)
    (ready : (s.last p preg).isSome = true) (found : s.regexHandleToSlot p preg = some i) :
    Inv (s.goto p (.execing preg i)) := by
  refine inv.goto runs (inv.refers_of_found ready found) ?_
  rw [idle]
  rfl

/-- The host runs what is in the slot. -/
theorem Inv.ran (inv : Inv s) (job : s.job p = .execing preg i) :
    Inv ((s.note p preg (some (s.slots i))).goto p .idle) := by
  have refers := inv.jobs p
  rw [job] at refers
  obtain ⟨pattern, last, slot⟩ := inv.slot_of_refers refers
  have noted : Inv (s.note p preg (some (s.slots i))) := inv.note (by rw [last, slot]; rfl)
  refine noted.goto (inv.busy p (by rw [job]; exact nofun)) trivial ?_
  simp only [State.note, job]
  rfl

/-- `yos_regfree` has found the slot, which no other process refers to. -/
theorem Inv.frees (inv : Inv s) (runs : s.live p = true) (idle : s.job p = .idle)
    (ready : (s.last p preg).isSome = true)
    (alone : ∀ q a, q ≠ p → (s.last q a).isSome = true → s.word q a ≠ s.word p preg)
    (found : s.regexHandleToSlot p preg = some i) : Inv (s.goto p (.freeing preg i)) := by
  have refers := inv.refers_of_found ready found
  refine inv.goto runs ⟨refers, fun q a others => ?_⟩ ?_
  · by_contra other
    exact alone q a other others.1 (others.2.trans refers.2.symm)
  · rw [idle]
    rfl

/-- A guest writes outside its compiled `regex_t`. -/
theorem Inv.write (inv : Inv s) {addr : ℕ} {byte : UInt8}
    (outside : ∀ a, (s.last p a).isSome = true → addr < a ∨ a + 4 ≤ addr) :
    Inv (s.setMem p (Function.update (s.mem p) addr byte)) := by
  refine inv.setMem fun a ready => Bytes.read32_congr fun x low high => ?_
  have apart := outside a ready
  exact Function.update_of_ne (by omega) _ _

end Calls

/-! ## Forks and exits -/

section Processes

variable {s : State P} {p c : ℕ}

/-- A fork copies the compiled `regex_t` of a process. -/
theorem Inv.fork (inv : Inv s) (idle : s.job p = .idle)
    (free : s.live c = false) :
    Inv { s with
      live := Function.update s.live c true
      size := Function.update s.size c (s.size p)
      mem := Function.update s.mem c (s.mem p)
      last := Function.update s.last c (s.last p) } := by
  generalize made : { s with
    live := Function.update s.live c true
    size := Function.update s.size c (s.size p)
    mem := Function.update s.mem c (s.mem p)
    last := Function.update s.last c (s.last p) } = t
  -- A process of the new state looks like the one it is a copy of.
  have copied (q : ℕ) : ∃ r, t.last q = s.last r ∧ t.mem q = s.mem r ∧ t.size q = s.size r ∧
      (q = c ∧ r = p ∨ q ≠ c ∧ r = q) := by
    rw [← made]
    rcases eq_or_ne q c with rfl | other
    · exact ⟨p, by simp, by simp, by simp, .inl ⟨rfl, rfl⟩⟩
    · exact ⟨q, by simp [other], by simp [other], by simp [other], .inr ⟨other, rfl⟩⟩
  have refers {q a j r : ℕ} (last : t.last q = s.last r) (mem : t.mem q = s.mem r) :
      t.Refers q a j ↔ s.Refers r a j := by
    rw [State.Refers, State.Refers, State.word, State.word, last, mem]
  have jobs : t.job = s.job := by
    rw [← made]
  have slots : t.slots = s.slots := by
    rw [← made]
  have child_idle : s.job c = .idle := by
    by_contra working
    exact nomatch free.symm.trans (inv.busy c working)
  have live (q : ℕ) (before : s.live q = true) : t.live q = true := by
    rw [← made]
    rcases eq_or_ne q c with rfl | other
    · simp
    · simpa [other] using before
  refine ⟨fun q a pat last => ?_, fun q a b => ?_, fun q a b j => ?_, fun q => ?_, ?_,
    fun j used => ?_, fun q a ready => ?_, fun q working => ?_, ?_⟩
  · obtain ⟨r, lastq, memq, sizeq, -⟩ := copied q
    rw [lastq] at last
    rw [State.outside, State.word, memq, sizeq, slots]
    exact inv.held r a pat last
  · obtain ⟨r, lastq, -, -, -⟩ := copied q
    rw [lastq]
    exact inv.apart r a b
  · obtain ⟨r, lastq, memq, -, -⟩ := copied q
    rw [refers lastq memq, refers lastq memq]
    exact inv.single r a b j
  · rw [jobs]
    rcases eq_or_ne q c with rfl | other
    · rw [child_idle]
      trivial
    · obtain ⟨r, lastq, memq, sizeq, ⟨same, -⟩ | ⟨-, rfl⟩⟩ := copied q
      · exact absurd same other
      rcases eq_or_ne r p with rfl | outer
      · rw [idle]
        trivial
      refine (inv.jobs r).mono (fun j _ => by rw [slots]) (fun a => ?_) (fun a => ?_) (fun a j => ?_)
        fun q' a j now held => ?_
      · rw [State.outside, State.outside, sizeq]
      · rw [lastq]
        exact id
      · exact (refers lastq memq).mpr
      · obtain ⟨r', last', mem', -, origin⟩ := copied q'
        have before := (refers last' mem').mp now
        refine ⟨r', a, before, fun same => ?_⟩
        rcases origin with ⟨-, rfl⟩ | ⟨-, rfl⟩
        · exact absurd same.symm outer
        · exact same
  · rw [jobs]
    exact inv.distinct
  · rw [slots] at used
    obtain ⟨q, ⟨a, before⟩ | holds⟩ := inv.owned j used
    · obtain ⟨r, lastq, memq, -, ⟨rfl, -⟩ | ⟨-, rfl⟩⟩ := copied q
      · exact nomatch free.symm.trans (inv.running q a before.1)
      · exact ⟨r, .inl ⟨a, (refers lastq memq).mpr before⟩⟩
    · exact ⟨q, .inr (by rw [jobs]; exact holds)⟩
  · obtain ⟨r, lastq, -, -, ⟨rfl, -⟩ | ⟨-, rfl⟩⟩ := copied q
    · rw [← made]
      simp
    · rw [lastq] at ready
      exact live r (inv.running r a ready)
  · rw [jobs] at working
    exact live q (inv.busy q working)
  · rw [← made]
    exact inv.used

/-- A process ends that refers to no slot alone. -/
theorem Inv.exit (inv : Inv s) (idle : s.job p = .idle)
    (shared : ∀ a i, s.Refers p a i → ∃ q b, q ≠ p ∧ s.Refers q b i) :
    Inv { s with
      live := Function.update s.live p false
      last := Function.update s.last p fun _ => none } := by
  generalize made : { s with
    live := Function.update s.live p false
    last := Function.update s.last p fun _ => none } = t
  have last (q a : ℕ) (ready : (t.last q a).isSome = true) :
      q ≠ p ∧ t.last q a = s.last q a ∧ t.live q = s.live q := by
    rw [← made] at ready ⊢
    rcases eq_or_ne q p with rfl | other
    · simp at ready
    · simp [other]
  have refers {q a j : ℕ} (now : t.Refers q a j) : s.Refers q a j := by
    refine ⟨(last q a now.1).2.1 ▸ now.1, ?_⟩
    rw [← now.2, ← made]
    rfl
  have kept {q a j : ℕ} (other : q ≠ p) (before : s.Refers q a j) : t.Refers q a j := by
    rw [← made]
    exact ⟨by simpa [other] using before.1, before.2⟩
  have slots : t.slots = s.slots := by
    rw [← made]
  have jobs : t.job = s.job := by
    rw [← made]
  refine ⟨fun q a pat ready => ?_, fun q a b ha hb => ?_, fun q a b j ha hb => ?_, fun q => ?_, ?_,
    fun j used => ?_, fun q a ready => ?_, fun q working => ?_, ?_⟩
  · have known := (last q a (Option.isSome_iff_exists.mpr ⟨pat, ready⟩)).2.1
    rw [known] at ready
    rw [← made]
    exact inv.held q a pat ready
  · refine inv.apart q a b ?_ ?_
    · rw [← (last q a ha).2.1]
      exact ha
    · rw [← (last q b hb).2.1]
      exact hb
  · exact inv.single q a b j (refers ha) (refers hb)
  · rw [jobs]
    rcases eq_or_ne q p with rfl | other
    · rw [idle]
      trivial
    refine (inv.jobs q).mono (fun j _ => by rw [slots]) (fun a => ?_) (fun a ready => ?_)
      (fun a j => kept other) fun r a j now _ => ⟨r, a, refers now, id⟩
    · rw [← made]
      rfl
    · rw [← (last q a ready).2.1]
      exact ready
  · rw [jobs]
    exact inv.distinct
  · rw [slots] at used
    obtain ⟨q, ⟨a, before⟩ | holds⟩ := inv.owned j used
    · rcases eq_or_ne q p with rfl | other
      · obtain ⟨r, b, away, another⟩ := shared a j before
        exact ⟨r, .inl ⟨b, kept away another⟩⟩
      · exact ⟨q, .inl ⟨a, kept other before⟩⟩
    · exact ⟨q, .inr (by rw [jobs]; exact holds)⟩
  · obtain ⟨-, known, live⟩ := last q a ready
    rw [known] at ready
    rw [live]
    exact inv.running q a ready
  · rw [jobs] at working
    have other : q ≠ p := by
      rintro rfl
      exact working idle
    rw [← made]
    simpa [other] using inv.busy q working
  · rw [← made]
    exact inv.used

end Processes

/-! ## Every run -/

/-- Every allowed step keeps the invariant. -/
theorem Inv.next {s s' : State P} {a : Step P} (inv : Inv s) (allowed : RegexOk s a)
    (made : s.next a = some s') : Inv s' := by
  cases a with
  | regcomp p preg pattern =>
    simp only [State.next] at made
    split at made
    · next guard =>
      split at made
      · cases made
        exact inv
      · next inside =>
        split at made
        · cases made
          exact inv
        · next i found =>
          cases made
          obtain ⟨small, free⟩ := regexSlotAlloc_some found
          obtain ⟨runs, idle⟩ := ready_spec guard
          exact inv.reserve runs idle (Bool.eq_false_iff.mpr inside) allowed.2 small free
    · cases made
  | compile p accepts =>
    simp only [State.next] at made
    split at made
    · next preg pattern i job =>
      split at made
      · cases made
        exact inv.compiles job
      · cases made
        exact inv.refuses job
    · cases made
  | store p =>
    simp only [State.next] at made
    split at made
    · next preg pattern i job =>
      cases made
      exact inv.store job
    · cases made
  | regexec p preg =>
    simp only [State.next] at made
    split at made
    · next guard =>
      split at made
      · next missing =>
        cases made
        exact inv.fails missing
      · next i found =>
        cases made
        obtain ⟨runs, idle⟩ := ready_spec guard
        exact inv.execs runs idle (allowed.resolve_left (by rw [found]; exact nofun)) found
    · cases made
  | run p =>
    simp only [State.next] at made
    split at made
    · next preg i job =>
      cases made
      exact inv.ran job
    · cases made
  | regfree p preg =>
    simp only [State.next] at made
    split at made
    · next guard =>
      split at made
      · cases made
        exact inv
      · next i found =>
        cases made
        obtain ⟨runs, idle⟩ := ready_spec guard
        obtain ⟨ready, alone⟩ := allowed.resolve_left (by rw [found]; exact nofun)
        exact inv.frees runs idle ready alone found
    · cases made
  | release p =>
    simp only [State.next] at made
    split at made
    · next preg i job =>
      cases made
      exact inv.release job
    · cases made
  | clear p =>
    simp only [State.next] at made
    split at made
    · next preg job =>
      cases made
      exact inv.clear job
    · cases made
  | write p addr byte =>
    simp only [State.next] at made
    split at made
    · cases made
      exact inv.write allowed
    · cases made
  | fork p c =>
    simp only [State.next] at made
    split at made
    · next guard =>
      cases made
      obtain ⟨-, idle⟩ := ready_spec guard.1
      exact inv.fork idle (Bool.eq_false_iff.mpr guard.2)
    · cases made
  | exit p =>
    simp only [State.next] at made
    split at made
    · next guard =>
      cases made
      exact inv.exit (ready_spec guard).2 allowed
    · cases made

/-- In every run that keeps to `RegexOk`, every `regexec` runs the pattern last compiled into its
`regex_t`, and every slot in use belongs to a running process. -/
theorem patterns_private {s : State P} (run : (system P).ReachableIf RegexOk s) : Kept s := by
  have inv : Inv s := run.invariant (fun _ init => .start init) fun _ _ _ before allowed made =>
    before.next allowed made
  refine ⟨inv.used, fun i used => ?_⟩
  obtain ⟨p, holds⟩ := inv.owned i used
  refine ⟨p, ?_, holds⟩
  rcases holds with ⟨a, refers⟩ | job
  · exact inv.running p a refers.1
  · refine inv.busy p ?_
    rintro idle
    rw [idle] at job
    cases job

/-- One process, with an empty memory. -/
def oneProcess : State ℕ where
  live p := p = 1
  size _ := 0x10000
  mem _ _ := 0
  slots _ := .free
  job _ := .idle
  last _ _ := none
  log := []

/-- A process compiles a pattern and forks; the child runs it and ends, and the process runs it. -/
theorem patterns_private_after_fork : ∃ s, (system ℕ).ReachableIf RegexOk s ∧
    s.log = [⟨some 7, some (.compiled 7)⟩, ⟨some 7, some (.compiled 7)⟩] ∧ Kept s := by
  have start : (system ℕ).ReachableIf RegexOk oneProcess :=
    .init ⟨fun _ => rfl, fun _ => rfl, fun _ _ => rfl, rfl⟩
  have reserved := start.step (a := Step.regcomp 1 0x100 7) ⟨by decide, fun _ h => nomatch h⟩ rfl
  have compiled := reserved.step (a := Step.compile 1 true) trivial rfl
  have stored := compiled.step (a := Step.store 1) trivial rfl
  have forked := stored.step (a := Step.fork 1 2) trivial rfl
  have resolved := forked.step (a := Step.regexec 2 0x100) (.inr rfl) rfl
  have ran := resolved.step (a := Step.run 2) trivial rfl
  have ended := ran.step (a := Step.exit 2) (fun a i refers => ⟨1, a, by decide, refers⟩) rfl
  have again := ended.step (a := Step.regexec 1 0x100) (.inr rfl) rfl
  have done := again.step (a := Step.run 1) trivial rfl
  exact ⟨_, done, rfl, patterns_private done⟩

/-- A process that ends without `regfree` leaves its slot in use for nobody, a forged handle runs the
pattern of another process, and the `regfree` of a child takes the pattern of its parent away. -/
theorem patterns_leak_and_cross :
    (∃ s, (system ℕ).Reachable s ∧ s.slots 0 = .compiled 7 ∧ ∀ p, s.live p = false) ∧
    (∃ s, (system ℕ).Reachable s ∧ s.last 2 0x200 = none ∧ s.log = [⟨none, some (.compiled 7)⟩]) ∧
    ∃ s, (system ℕ).Reachable s ∧ s.last 1 0x100 = some 7 ∧ s.log = [⟨some 7, none⟩] := by
  have start : (system ℕ).Reachable oneProcess :=
    .start ⟨fun _ => rfl, fun _ => rfl, fun _ _ => rfl, rfl⟩
  have stored := ((start.next (a := Step.regcomp 1 0x100 7) rfl).next
    (a := Step.compile 1 true) rfl).next (a := Step.store 1) rfl
  refine ⟨?_, ?_, ?_⟩
  · refine ⟨_, stored.next (a := Step.exit 1) rfl, rfl, fun p => ?_⟩
    rcases eq_or_ne p 1 with rfl | other
    · rfl
    · exact (Function.update_of_ne other _ _).trans (decide_eq_false other)
  · have forked := start.next (a := Step.fork 1 2) rfl
    have compiled := ((forked.next (a := Step.regcomp 1 0x100 7) rfl).next
      (a := Step.compile 1 true) rfl).next (a := Step.store 1) rfl
    have forged := compiled.next (a := Step.write 2 0x200 1) rfl
    have ran := (forged.next (a := Step.regexec 2 0x200) rfl).next (a := Step.run 2) rfl
    exact ⟨_, ran, rfl, rfl⟩
  · have forked := stored.next (a := Step.fork 1 2) rfl
    have freed := ((forked.next (a := Step.regfree 2 0x100) rfl).next
      (a := Step.release 2) rfl).next (a := Step.clear 2) rfl
    exact ⟨_, freed.next (a := Step.regexec 1 0x100) rfl, rfl, rfl⟩

end Regex

end Yos
