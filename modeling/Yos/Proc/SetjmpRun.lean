import Yos.Lib.System
import Yos.Proc.Setjmp

/-!
# Runs of `setjmp` and `longjmp` (`main.c`)

A guest calls and returns, and while the frame that called `setjmp` is active, `longjmp` to its `jmp_buf`
should make that call return again.  The slot of the `jmp_buf` holds what was unwound (`Kept`); every other
`setjmp` leaves it alone (`Kept.take`) unless it finds the table full and takes the slots whose `jmp_buf`
lies below the stack pointer for dead.  That is so for a `jmp_buf` on the stack, but one in static data or on
the heap may lie there while its frame is active.  While this does not happen (`ReapOk`), every jump lands
(`setjmp_kept`).
-/

namespace Yos

open Word

/-! ## The guest -/

/-- A `setjmp` whose frame is active: the number of frames at the call, and what was unwound. -/
structure Jump where
  jmpBuf : ℕ
  depth : ℕ
  save : Bytes

/-- The context, the number of active frames, and the last `setjmp` of each `jmp_buf` if its frame is
active. -/
structure JumpState where
  ctx : SjCtx
  depth : ℕ
  jumps : List Jump

/-- What the guest does.  `sp` is its stack pointer, and `unwound` the memory after an unwind. -/
inductive JumpEvent where
  /-- It writes to its memory, which may grow. -/
  | run (mem : MemCtx)
  | call
  | ret
  | setjmp (jmpBuf sp : ℕ) (unwound : Bytes)
  | longjmp (jmpBuf : ℕ) (val : ℤ) (sp : ℕ) (unwound : Bytes)

namespace SjCtx

/-- The interpreter has unwound the stack. -/
def unwind (s : SjCtx) (memory : Bytes) : SjCtx := { s with mem := { s.mem with memory } }

/-- What is done for a `longjmp` before the landing `setjmp`: the call, the unwind and the pump. -/
def leap (s : SjCtx) (jmpBuf : ℕ) (val : ℤ) (unwound : Bytes) : SjCtx :=
  ((s.longjmp jmpBuf val).unwind unwound).pump

end SjCtx

namespace JumpState

/-- The frames above `depth` are gone. -/
def cut (s : JumpState) (depth : ℕ) : JumpState :=
  { s with depth, jumps := s.jumps.filter fun j => j.depth ≤ depth }

/-- A call of `setjmp`: the call, the unwind, the pump and the call that ends the rewind. -/
def setjmp (s : JumpState) (jmpBuf sp : ℕ) (unwound : Bytes) : JumpState :=
  let ctx := (s.ctx.setjmp jmpBuf false sp).1
  match ctx.setjmpPending with
  | none => { s with ctx }
  | some i =>
    { s with
      ctx := ((ctx.unwind unwound).pump.setjmp jmpBuf true sp).1
      jumps := ⟨jmpBuf, s.depth, fun x => unwound (ctx.bufOf i + x)⟩ ::
        s.jumps.filter fun j => j.jmpBuf ≠ jmpBuf }

/-- What an event does. -/
def next (s : JumpState) : JumpEvent → JumpState
  | .run mem => { s with ctx := { s.ctx with mem } }
  | .call => { s with depth := s.depth + 1 }
  | .ret => s.cut (s.depth - 1)
  | .setjmp jmpBuf sp unwound => s.setjmp jmpBuf sp unwound
  | .longjmp jmpBuf val sp unwound =>
    let landed := { s with ctx := ((s.ctx.leap jmpBuf val unwound).setjmp jmpBuf true sp).1 }
    match s.jumps.find? fun j => j.jmpBuf = jmpBuf with
    | none => s
    | some j => landed.cut j.depth

/-- A `jmp_buf` is not at address 0, and `longjmp` goes to one whose frame is active. -/
def Defined (s : JumpState) : JumpEvent → Prop
  | .setjmp jmpBuf _ _ => jmpBuf ≠ 0
  | .longjmp jmpBuf _ _ _ => ∃ j ∈ s.jumps, j.jmpBuf = jmpBuf
  | _ => True

/-- If `setjmp` finds no slot and reads the stack pointer, no `jmp_buf` of an active frame lies below
it. -/
def ReapOk (s : JumpState) : JumpEvent → Prop
  | .setjmp jmpBuf sp _ =>
    sjFindSlot s.ctx.sjSlots jmpBuf = none → sjFreeSlot s.ctx.sjSlots = none → sp ≠ 0 →
      ∀ j ∈ s.jumps, sp ≤ j.jmpBuf
  | _ => True

/-- A `longjmp` to the `jmp_buf` finds its slot, rewinds what its `setjmp` unwound, and that call returns
`val`, or 1 for 0, and is done with it. -/
def Lands (s : JumpState) (j : Jump) : Prop :=
  ∃ i, sjFindSlot s.ctx.sjSlots j.jmpBuf = some i ∧ ∀ val sp unwound,
    let leap := s.ctx.leap j.jmpBuf val unwound
    let landed := leap.setjmp j.jmpBuf true sp
    (∀ x, x < sjBufSize → leap.mem.memory (leap.bufOf i + x) = j.save x) ∧
      landed.2 = (if val = 0 then 1 else val) ∧
      landed.1.longjmpPending = false ∧ landed.1.setjmpPending = none

end JumpState

/-- Runs from a context without slots. -/
def jumpSystem : System JumpState JumpEvent where
  init s := (∀ slot ∈ s.ctx.sjSlots, slot.jmpBufPtr = 0) ∧ s.ctx.setjmpPending = none ∧
    s.ctx.longjmpPending = false ∧ s.jumps = []
  step s e s' := s.Defined e ∧ s' = s.next e

/-! ## The slots -/

section Slots

variable {slots slots' : List SjSlot} {slot : SjSlot} {key jb sp memSize i : ℕ} {save : Bytes}

theorem sjFindSlot_eq_some_iff :
    sjFindSlot slots key = some i ↔ key ≠ 0 ∧ (∃ slot, slots[i]? = some slot ∧ slot.jmpBufPtr = key) ∧
      ∀ k slot, k < i → slots[k]? = some slot → slot.jmpBufPtr ≠ key := by
  unfold sjFindSlot
  split_ifs with zero
  · simp [zero]
  · rw [List.findIdx?_eq_some_iff_getElem]
    simp only [beq_iff_eq, List.getElem?_eq_some_iff, zero, ne_eq, not_false_iff, true_and]
    constructor
    · rintro ⟨bound, here, before⟩
      refine ⟨⟨_, ⟨bound, rfl⟩, here⟩, ?_⟩
      rintro k slot lt ⟨_, rfl⟩
      exact before k lt
    · rintro ⟨⟨slot, ⟨bound, rfl⟩, here⟩, before⟩
      exact ⟨bound, here, fun k lt => before k _ lt ⟨by omega, rfl⟩⟩

/-- The slot of the `jmp_buf` is found and holds what its `setjmp` unwound. -/
def Kept (slots : List SjSlot) (jb : ℕ) (save : Bytes) : Prop :=
  ∃ i slot, sjFindSlot slots jb = some i ∧ slots[i]? = some slot ∧ slot.saveData = some save

/-- The tables agree on the slots of the `jmp_buf`. -/
def Agree (jb : ℕ) (slots slots' : List SjSlot) : Prop :=
  ∀ k : ℕ, (slots[k]? = none ∧ slots'[k]? = none) ∨ ∃ slot slot' : SjSlot, slots[k]? = some slot ∧
    slots'[k]? = some slot' ∧ (slot'.jmpBufPtr = jb ↔ slot.jmpBufPtr = jb) ∧
      (slot.jmpBufPtr = jb → slot'.saveData = slot.saveData)

theorem Kept.congr (kept : Kept slots jb save) (agree : Agree jb slots slots') : Kept slots' jb save := by
  obtain ⟨i, slot, found, at_i, saved⟩ := kept
  obtain ⟨some, ⟨first, at_first, here⟩, before⟩ := sjFindSlot_eq_some_iff.1 found
  obtain rfl : slot = first := Option.some.inj (at_i.symm.trans at_first)
  rcases agree i with ⟨none, -⟩ | ⟨old, new, at_old, at_new, same, data⟩
  · exact absurd (at_i.symm.trans none) (by simp)
  obtain rfl : slot = old := Option.some.inj (at_i.symm.trans at_old)
  refine ⟨i, new, sjFindSlot_eq_some_iff.2 ⟨some, ⟨new, at_new, same.2 here⟩, fun k other lt at_k => ?_⟩, at_new,
    (data here).trans saved⟩
  rcases agree k with ⟨-, none⟩ | ⟨old', new', at_old', at_new', same', -⟩
  · exact absurd (at_k.symm.trans none) (by simp)
  · obtain rfl : other = new' := Option.some.inj (at_k.symm.trans at_new')
    exact fun hit => before k old' lt at_old' (same'.1 hit)

/-- A slot that is not the `jmp_buf`'s is changed. -/
theorem agree_modify {f : SjSlot → SjSlot} (at_i : slots[i]? = some slot) (before : slot.jmpBufPtr ≠ jb)
    (after : (f slot).jmpBufPtr ≠ jb) : Agree jb slots (slots.modify i f) := by
  intro k
  rw [List.getElem?_modify]
  rcases at_k : slots[k]? with _ | other
  · exact Or.inl ⟨rfl, by simp⟩
  · right
    by_cases same : i = k
    · subst same
      obtain rfl : slot = other := Option.some.inj (at_i.symm.trans at_k)
      exact ⟨slot, f slot, rfl, by simp, iff_of_false after before, fun hit => absurd hit before⟩
    · exact ⟨other, other, rfl, by simp [same], Iff.rfl, fun _ => rfl⟩

theorem agree_reap (some : jb ≠ 0) (high : sp ≠ 0 → sp ≤ jb) : Agree jb slots (sjReapDead slots sp) := by
  intro k
  unfold sjReapDead
  split_ifs with unknown
  · rcases at_k : slots[k]? with _ | other
    · exact Or.inl ⟨rfl, rfl⟩
    · exact Or.inr ⟨other, other, rfl, rfl, Iff.rfl, fun _ => rfl⟩
  · have above := high unknown
    rw [List.getElem?_map]
    rcases at_k : slots[k]? with _ | other
    · exact Or.inl ⟨rfl, rfl⟩
    · refine Or.inr ⟨other, _, rfl, rfl, ?_⟩
      dsimp only
      split_ifs with dead
      · exact ⟨⟨fun zero => absurd zero.symm some, fun hit => by omega⟩, fun hit => by omega⟩
      · exact ⟨Iff.rfl, fun _ => rfl⟩

/-- A free slot is free. -/
theorem getElem?_of_sjFreeSlot (free : sjFreeSlot slots = some i) :
    ∃ slot, slots[i]? = some slot ∧ slot.jmpBufPtr = 0 := by
  obtain ⟨bound, here, -⟩ := List.findIdx?_eq_some_iff_getElem.1 free
  exact ⟨_, List.getElem?_eq_getElem bound, by simpa using here⟩

theorem sjFindSlot_eq_none_iff (some : key ≠ 0) :
    sjFindSlot slots key = none ↔ ∀ slot ∈ slots, slot.jmpBufPtr ≠ key := by
  unfold sjFindSlot
  rw [if_neg some, List.findIdx?_eq_none_iff]
  simp

/-- The slot that was taken is found. -/
theorem sjFindSlot_fill (some : key ≠ 0) (none : sjFindSlot slots key = none)
    (free : sjFreeSlot slots = Option.some i) : sjFindSlot (sjFill slots key memSize i) key = Option.some i := by
  obtain ⟨slot, at_i, -⟩ := getElem?_of_sjFreeSlot free
  have filled : (sjFill slots key memSize i)[i]? = Option.some
      { slot with jmpBufPtr := key, asyncifyBuf := belowTop memSize ((4 + i) * sjBufSize) } := by
    rw [sjFill, List.getElem?_modify, at_i]
    simp
  refine sjFindSlot_eq_some_iff.2 ⟨some, ⟨_, filled, rfl⟩, fun k other lt at_k => ?_⟩
  rw [sjFill, List.getElem?_modify_ne _ _ (by omega)] at at_k
  exact (sjFindSlot_eq_none_iff some).1 none other (List.mem_of_getElem? at_k)

theorem sjFindSlot_reap (some : key ≠ 0) (none : sjFindSlot slots key = none) :
    sjFindSlot (sjReapDead slots sp) key = Option.none := by
  rw [sjFindSlot_eq_none_iff some] at none ⊢
  unfold sjReapDead
  split_ifs
  · exact none
  · intro slot mem
    obtain ⟨old, hold, rfl⟩ := List.mem_map.1 mem
    split_ifs
    · exact some.symm
    · exact none old hold

/-- `setjmp` has a slot already, or takes a free one of the table or of the table it has reaped, or finds
none. -/
theorem sjTakeSlot_cases (slots : List SjSlot) (key memSize sp : ℕ) :
    (∃ i, sjFindSlot slots key = some i ∧ sjTakeSlot slots key memSize sp = (slots, some i)) ∨
      sjFindSlot slots key = none ∧ ∃ table, (table = slots ∨ sjFreeSlot slots = none ∧ table = sjReapDead slots sp) ∧
        ((∃ i, sjFreeSlot table = some i ∧ sjTakeSlot slots key memSize sp = (sjFill table key memSize i, some i)) ∨
          sjTakeSlot slots key memSize sp = (table, none)) := by
  unfold sjTakeSlot sjAllocSlot
  rcases sjFindSlot slots key with _ | i
  · refine Or.inr ⟨rfl, ?_⟩
    rcases free : sjFreeSlot slots with _ | i
    · refine ⟨sjReapDead slots sp, Or.inr ⟨rfl, rfl⟩, ?_⟩
      rcases reaped : sjFreeSlot (sjReapDead slots sp) with _ | i
      · right
        simp only [reaped]
      · refine Or.inl ⟨i, rfl, ?_⟩
        simp only [reaped]
    · exact ⟨slots, Or.inl rfl, Or.inl ⟨i, free, rfl⟩⟩
  · exact Or.inl ⟨i, rfl, rfl⟩

/-- `setjmp` keeps the slots of the other `jmp_buf`s, and finds its own if it gets one. -/
theorem sjTakeSlot_spec (memSize sp : ℕ) (some : key ≠ 0) :
    (∀ i, (sjTakeSlot slots key memSize sp).2 = Option.some i →
        sjFindSlot (sjTakeSlot slots key memSize sp).1 key = Option.some i) ∧
      ((sjTakeSlot slots key memSize sp).2 = none → sjFindSlot slots key = none) ∧
      ∀ jb save, jb ≠ key → Kept slots jb save →
        (sjFindSlot slots key = none → sjFreeSlot slots = none → sp ≠ 0 → sp ≤ jb) →
        Kept (sjTakeSlot slots key memSize sp).1 jb save := by
  rcases sjTakeSlot_cases slots key memSize sp with ⟨k, found, eq⟩ | ⟨none, table, made, taken⟩
  · rw [eq]
    exact ⟨fun i same => found.trans same, nofun, fun jb save _ kept _ => kept⟩
  · have keeps (jb : ℕ) (save : Bytes) (kept : Kept slots jb save)
        (high : sjFindSlot slots key = Option.none → sjFreeSlot slots = Option.none → sp ≠ 0 → sp ≤ jb) :
        Kept table jb save := by
      rcases made with rfl | ⟨full, rfl⟩
      · exact kept
      · obtain ⟨i, slot, found, -⟩ := id kept
        exact kept.congr (agree_reap (sjFindSlot_eq_some_iff.1 found).1 (high none full))
    refine ⟨fun i same => ?_, fun _ => none, fun jb save other kept high => ?_⟩
    · rcases taken with ⟨k, free, eq⟩ | eq
      · rw [eq] at same ⊢
        cases same
        refine sjFindSlot_fill some ?_ free
        rcases made with rfl | ⟨-, rfl⟩
        · exact none
        · exact sjFindSlot_reap some none
      · rw [eq] at same
        exact nomatch same
    · have kept' := keeps jb save kept high
      rcases taken with ⟨k, free, eq⟩ | eq
      · rw [eq]
        obtain ⟨slot, at_k, zero⟩ := getElem?_of_sjFreeSlot free
        obtain ⟨i, -, found, -⟩ := id kept'
        refine kept'.congr (agree_modify at_k ?_ other.symm)
        rw [zero]
        exact (sjFindSlot_eq_some_iff.1 found).1.symm
      · rw [eq]
        exact kept'

end Slots

/-! ## The calls -/

section Calls

variable {s : SjCtx} {jb sp i : ℕ} {val : ℤ} {save unwound : Bytes}

/-- The first call of `setjmp` takes a slot, if there is one. -/
theorem SjCtx.setjmp_first (idle : s.setjmpPending = none) (quiet : s.longjmpPending = false) :
    (s.setjmp jb false sp).1.sjSlots = (sjTakeSlot s.sjSlots jb s.mem.memorySize sp).1 ∧
      (s.setjmp jb false sp).1.setjmpPending = (sjTakeSlot s.sjSlots jb s.mem.memorySize sp).2 ∧
      (s.setjmp jb false sp).1.longjmpPending = false := by
  unfold SjCtx.setjmp
  rw [quiet]
  simp only [Bool.false_eq_true, if_false]
  rcases sjTakeSlot s.sjSlots jb s.mem.memorySize sp with ⟨slots, _ | i⟩
  · exact ⟨rfl, idle, rfl⟩
  · exact ⟨rfl, rfl, rfl⟩

/-- The call that ends the rewind of a first call. -/
theorem SjCtx.setjmp_rewound (quiet : s.longjmpPending = false) : s.setjmp jb true sp = (s, 0) := by
  unfold SjCtx.setjmp
  rw [quiet]
  simp

/-- After a first call the pump keeps what was unwound. -/
theorem SjCtx.pump_first (pending : s.setjmpPending = some i) :
    (s.unwind unwound).pump.sjSlots = s.sjSlots.modify i (fun slot =>
        { slot with saveData := some fun x => unwound (s.bufOf i + x) }) ∧
      (s.unwind unwound).pump.setjmpPending = none ∧
      (s.unwind unwound).pump.longjmpPending = s.longjmpPending := by
  have unwinds : (s.unwind unwound).setjmpPending = some i := pending
  unfold SjCtx.pump
  rw [unwinds]
  exact ⟨rfl, rfl, rfl⟩

/-- The slot that the pump has filled. -/
theorem kept_saved {slots : List SjSlot} (found : sjFindSlot slots jb = some i) :
    Kept (slots.modify i fun slot => { slot with saveData := some save }) jb save := by
  obtain ⟨some, ⟨slot, at_i, here⟩, before⟩ := sjFindSlot_eq_some_iff.1 found
  have saved : (slots.modify i fun slot => { slot with saveData := Option.some save })[i]? =
      Option.some { slot with saveData := Option.some save } := by
    rw [List.getElem?_modify, at_i]
    simp
  refine ⟨i, _, sjFindSlot_eq_some_iff.2 ⟨some, ⟨_, saved, here⟩, fun k other lt at_k => ?_⟩, saved, rfl⟩
  rw [List.getElem?_modify_ne _ _ (by omega)] at at_k
  exact before k other lt at_k

/-- A `longjmp` to a `jmp_buf` whose slot is kept is under way after the pump, with the target's copy
back in its buffer. -/
theorem SjCtx.leap_spec (idle : s.setjmpPending = none) (kept : Kept s.sjSlots jb save) :
    (s.leap jb val unwound).sjSlots = s.sjSlots ∧ (s.leap jb val unwound).setjmpPending = none ∧
      (s.leap jb val unwound).longjmpPending = true ∧ (s.leap jb val unwound).longjmpTarget = jb ∧
      (s.leap jb val unwound).longjmpValue = (if val = 0 then 1 else val) ∧
      ∃ i, sjFindSlot s.sjSlots jb = some i ∧ ∀ x, x < sjBufSize →
        (s.leap jb val unwound).mem.memory ((s.leap jb val unwound).bufOf i + x) = save x := by
  obtain ⟨i, slot, found, at_i, saved⟩ := kept
  have call : (s.longjmp jb val).sjSlots = s.sjSlots ∧ (s.longjmp jb val).setjmpPending = none ∧
      (s.longjmp jb val).longjmpPending = true ∧ (s.longjmp jb val).longjmpTarget = jb ∧
      (s.longjmp jb val).longjmpValue = if val = 0 then 1 else val := by
    unfold SjCtx.longjmp
    rw [found]
    exact ⟨rfl, idle, rfl, rfl, rfl⟩
  unfold SjCtx.leap
  generalize s.longjmp jb val = t at call
  obtain ⟨slots, none, pending, target, value⟩ := call
  have copied : (t.unwind unwound).pump = { t.unwind unwound with
      setjmpPending := Option.none
      mem := { (t.unwind unwound).mem with
        memory := fun x => if t.bufOf i ≤ x ∧ x < t.bufOf i + sjBufSize then save (x - t.bufOf i)
          else unwound x } } := by
    have idle' : (t.unwind unwound).setjmpPending = Option.none := none
    have pending' : (t.unwind unwound).longjmpPending = true := pending
    have found' : sjFindSlot (t.unwind unwound).sjSlots (t.unwind unwound).longjmpTarget = some i := by
      change sjFindSlot t.sjSlots t.longjmpTarget = some i
      rw [slots, target]
      exact found
    have save' : (t.unwind unwound).sjSlots[i]?.bind SjSlot.saveData = some save := by
      change t.sjSlots[i]?.bind SjSlot.saveData = some save
      rw [slots, at_i]
      exact saved
    unfold SjCtx.pump
    rw [idle']
    dsimp only
    rw [if_pos pending', found']
    dsimp only
    rw [save']
    rfl
  rw [copied]
  refine ⟨slots, rfl, pending, target, value, i, found, fun x small => ?_⟩
  change (if t.bufOf i ≤ t.bufOf i + x ∧ t.bufOf i + x < t.bufOf i + sjBufSize then
    save (t.bufOf i + x - t.bufOf i) else unwound (t.bufOf i + x)) = save x
  rw [if_pos (by omega), Nat.add_sub_cancel_left]

/-- The landing. -/
theorem SjCtx.setjmp_lands (pending : s.longjmpPending = true) (target : s.longjmpTarget = jb) :
    s.setjmp jb true sp = ({ s with longjmpPending := false, longjmpTarget := 0 }, s.longjmpValue) := by
  unfold SjCtx.setjmp
  rw [if_pos pending, if_pos target]

end Calls

/-! ## Runs -/

namespace JumpState

variable {s : JumpState}

/-- Nothing is under way, and the slots of the active `setjmp`s are kept. -/
structure Inv (s : JumpState) : Prop where
  idle : s.ctx.setjmpPending = none
  quiet : s.ctx.longjmpPending = false
  kept : ∀ j ∈ s.jumps, Kept s.ctx.sjSlots j.jmpBuf j.save

theorem Inv.cut (inv : s.Inv) (depth : ℕ) : (s.cut depth).Inv :=
  ⟨inv.idle, inv.quiet, fun j mem => inv.kept j (List.mem_of_mem_filter mem)⟩

theorem Inv.setjmp {jb sp : ℕ} (inv : s.Inv) (some : jb ≠ 0) (unwound : Bytes)
    (reap : s.ReapOk (.setjmp jb sp unwound)) : (s.setjmp jb sp unwound).Inv := by
  obtain ⟨slots, taken, quiet⟩ := @SjCtx.setjmp_first s.ctx jb sp inv.idle inv.quiet
  obtain ⟨mine, failed, others⟩ := sjTakeSlot_spec s.ctx.mem.memorySize sp some
  have before := inv.kept
  have keeps (j : Jump) (mem : j ∈ s.jumps) (other : j.jmpBuf ≠ jb) :
      Kept (s.ctx.setjmp jb false sp).1.sjSlots j.jmpBuf j.save := by
    rw [slots]
    exact others j.jmpBuf j.save other (before j mem) fun none full known => reap none full known j mem
  rw [← slots] at mine
  rw [← taken] at mine failed
  unfold JumpState.setjmp
  generalize (s.ctx.setjmp jb false sp).1 = ctx at *
  rcases pending : ctx.setjmpPending with _ | i
  · simp only [pending]
    refine ⟨pending, quiet, fun j mem => keeps j mem fun same => ?_⟩
    obtain ⟨k, -, found, -⟩ := before j mem
    rw [same, failed pending] at found
    exact nomatch found
  · simp only [pending]
    obtain ⟨pumped, none, still⟩ := @SjCtx.pump_first ctx i unwound pending
    rw [SjCtx.setjmp_rewound (still.trans quiet)]
    refine ⟨none, still.trans quiet, fun j mem => ?_⟩
    change Kept (ctx.unwind unwound).pump.sjSlots j.jmpBuf j.save
    rw [pumped]
    have found := mine i pending
    rcases List.mem_cons.1 mem with rfl | mem
    · exact kept_saved found
    · obtain ⟨old, other⟩ := List.mem_filter.1 mem
      have ne : j.jmpBuf ≠ jb := by simpa using other
      obtain ⟨-, ⟨slot, at_i, here⟩, -⟩ := sjFindSlot_eq_some_iff.1 found
      refine (keeps j old ne).congr (agree_modify at_i ?_ ?_)
      · rw [here]
        exact ne.symm
      · change slot.jmpBufPtr ≠ j.jmpBuf
        rw [here]
        exact ne.symm

theorem Inv.lands (inv : s.Inv) {j : Jump} (mem : j ∈ s.jumps) : s.Lands j := by
  obtain ⟨i, -, found, -⟩ := inv.kept j mem
  refine ⟨i, found, fun val sp unwound => ?_⟩
  obtain ⟨slots, idle, pending, target, value, k, found', copied⟩ :=
    @SjCtx.leap_spec s.ctx j.jmpBuf val j.save unwound inv.idle (inv.kept j mem)
  obtain rfl : i = k := Option.some.inj (found.symm.trans found')
  dsimp only
  rw [SjCtx.setjmp_lands pending target]
  exact ⟨copied, value, rfl, idle⟩

theorem Inv.longjmp {j : Jump} (inv : s.Inv) (mem : j ∈ s.jumps) (val : ℤ) (sp : ℕ) (unwound : Bytes) :
    Inv { s with ctx := ((s.ctx.leap j.jmpBuf val unwound).setjmp j.jmpBuf true sp).1 } := by
  obtain ⟨slots, idle, pending, target, -⟩ :=
    @SjCtx.leap_spec s.ctx j.jmpBuf val j.save unwound inv.idle (inv.kept j mem)
  rw [SjCtx.setjmp_lands pending target]
  refine ⟨idle, rfl, fun k hk => ?_⟩
  change Kept (s.ctx.leap j.jmpBuf val unwound).sjSlots k.jmpBuf k.save
  rw [slots]
  exact inv.kept k hk

theorem Inv.next (inv : s.Inv) {e : JumpEvent} (defined : s.Defined e) (reap : s.ReapOk e) :
    (s.next e).Inv := by
  cases e with
  | run mem => exact ⟨inv.idle, inv.quiet, inv.kept⟩
  | call => exact ⟨inv.idle, inv.quiet, inv.kept⟩
  | ret => exact inv.cut _
  | setjmp jb sp unwound => exact inv.setjmp defined unwound reap
  | longjmp jb val sp unwound =>
    obtain ⟨j, mem, rfl⟩ := defined
    rw [JumpState.next]
    split
    · exact inv
    · exact (inv.longjmp mem val sp unwound).cut _

end JumpState

/-- In every run in which `setjmp` reaps no `jmp_buf` of an active frame, a `longjmp` to any of them lands:
its slot is found, and the call of `setjmp` returns again, once. -/
theorem setjmp_kept {s : JumpState} (run : jumpSystem.ReachableIf JumpState.ReapOk s) :
    ∀ j ∈ s.jumps, s.Lands j := by
  have inv : s.Inv := by
    refine run.invariant (fun s start => ?_) fun s e s' inv ok step => ?_
    · obtain ⟨-, idle, quiet, none⟩ := start
      refine ⟨idle, quiet, fun j mem => ?_⟩
      rw [none] at mem
      exact absurd mem (List.not_mem_nil)
    · obtain ⟨defined, rfl⟩ := step
      exact inv.next defined ok
  exact fun j mem => inv.lands mem

/-- A context with 64 free slots and a memory of 4 MiB, in `main`. -/
def jumpStart : JumpState where
  ctx :=
    { mem := ⟨fun _ => 0, 0x400000, 0, 0, [], [], 0, 0, 0⟩
      asyncifyPtr := 0
      sjDiscardPtr := 0
      sjSlots := List.replicate sjSlotCount ⟨0, 0, none⟩
      setjmpPending := none
      longjmpPending := false
      longjmpTarget := 0
      longjmpValue := 0 }
  depth := 1
  jumps := []

theorem jumpStart_init : jumpSystem.init jumpStart := by
  refine ⟨fun slot mem => ?_, rfl, rfl, rfl⟩
  rw [List.eq_of_mem_replicate mem]

/-- One `setjmp`, with its `jmp_buf` in static data, and a `longjmp` to it with 0. -/
theorem setjmp_kept_once :
    ∃ j ∈ (jumpStart.setjmp 4096 0x20000 fun _ => 7).jumps, j.jmpBuf = 4096 ∧
      (((jumpStart.setjmp 4096 0x20000 fun _ => 7).ctx.leap 4096 0 fun _ => 9).setjmp 4096 true 0x1f000).2 =
        1 := by
  have run : jumpSystem.ReachableIf JumpState.ReapOk (jumpStart.next (.setjmp 4096 0x20000 fun _ => 7)) := by
    have free : sjFreeSlot jumpStart.ctx.sjSlots = some 0 := rfl
    have ok : jumpStart.ReapOk (.setjmp 4096 0x20000 fun _ => 7) := fun _ full => absurd (free.symm.trans full) nofun
    have static : (4096 : ℕ) ≠ 0 := by decide
    exact (System.ReachableIf.init jumpStart_init).step ok ⟨static, rfl⟩
  obtain ⟨i, found, lands⟩ := setjmp_kept run _ List.mem_cons_self
  exact ⟨_, List.mem_cons_self, rfl, (lands 0 0x1f000 fun _ => 9).2.1⟩

/-- A `setjmp` in `main` with its `jmp_buf` in static data, and 64 nested calls that each call `setjmp` with
a `jmp_buf` in their frame. -/
def nestedJumps : List JumpEvent :=
  .setjmp 4096 0x20000 (fun _ => 7) :: (List.range 64).flatMap fun k =>
    [.call, .setjmp (0x1ff00 - 0x100 * k) (0x1fe00 - 0x100 * k) fun _ => 8]

/-- The event is no jump. -/
def JumpEvent.Plain : JumpEvent → Prop
  | .setjmp jmpBuf _ _ => jmpBuf ≠ 0
  | .longjmp _ _ _ _ => False
  | _ => True

theorem reachable_plain {s : JumpState} (reach : jumpSystem.Reachable s) {events : List JumpEvent}
    (plain : ∀ e ∈ events, e.Plain) : jumpSystem.Reachable (events.foldl JumpState.next s) := by
  induction events generalizing s with
  | nil => exact reach
  | cons e events ih =>
    have first := plain e List.mem_cons_self
    refine ih (reach.next (a := e) ⟨?_, rfl⟩) fun f mem => plain f (List.mem_cons_of_mem e mem)
    cases e with
    | longjmp => exact absurd first id
    | _ => exact first

/-- The last of them takes the slot of `main`'s `jmp_buf` for dead, and `longjmp` finds none. -/
theorem setjmp_reaps_active :
    ∃ s, jumpSystem.Reachable s ∧ ∃ j ∈ s.jumps, j.jmpBuf = 4096 ∧ ¬ s.Lands j := by
  have plain : ∀ e ∈ nestedJumps, e.Plain := by
    intro e mem
    rcases List.mem_cons.1 mem with rfl | mem
    · exact (by decide : (4096 : ℕ) ≠ 0)
    · obtain ⟨k, small, mem⟩ := List.mem_flatMap.1 mem
      have below := List.mem_range.1 small
      simp only [List.mem_cons, List.not_mem_nil, or_false] at mem
      rcases mem with rfl | rfl
      · trivial
      · change 0x1ff00 - 0x100 * k ≠ 0
        omega
  have active : ((nestedJumps.foldl JumpState.next jumpStart).jumps.map Jump.jmpBuf).contains 4096 = true := by
    decide +kernel
  have gone : sjFindSlot (nestedJumps.foldl JumpState.next jumpStart).ctx.sjSlots 4096 = none := by
    decide +kernel
  obtain ⟨j, mem, static⟩ := List.mem_map.1 (List.contains_iff_mem.1 active)
  refine ⟨_, reachable_plain (.start jumpStart_init) plain, j, mem, static, fun lands => ?_⟩
  obtain ⟨i, found, -⟩ := lands
  rw [static, gone] at found
  exact nomatch found

end Yos
