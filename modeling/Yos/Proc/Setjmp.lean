import Yos.Lib.Table
import Yos.Mem.Ctx

/-!
# `setjmp`, `longjmp` and the asyncify buffers (`main.c`, `yos_fork` in `impl/proc/proc.c`)

A call stack is saved by unwinding it into a buffer in the linear memory.  Every live `setjmp` has a
buffer of its own (`sj_slots`), `longjmp` unwinds into a discard buffer and `fork` into a third one.
None of them is allocated: each is put at a fixed distance below the top of the memory, with the
size the memory has at that moment.

`rewinding` says that the call is replayed by a rewind, and `sp` is the guest's stack pointer, 0 if
it is not exported.  The unwinding itself is the work of the interpreter.
-/

namespace Yos

open Word

/-- `SJ_BUF_SIZE`. -/
def sjBufSize : ℕ := 64 * 1024

/-- `ASYNCIFY_BUF_SIZE`. -/
def asyncifyBufSize : ℕ := 16 * 1024

/-- The number of entries of `sj_slots`. -/
def sjSlotCount : ℕ := 64

/-- `struct yos_sj_slot`; `saveData` is the host's copy of the buffer. -/
structure SjSlot where
  jmpBufPtr : ℕ
  asyncifyBuf : ℕ
  saveData : Option Bytes

/-- The fields of `struct yos_exec_ctx` the jumps and `yos_fork` use.  `setjmpPending` is the slot
whose first unwind is under way. -/
structure SjCtx where
  mem : MemCtx
  asyncifyPtr : ℕ
  sjDiscardPtr : ℕ
  sjSlots : List SjSlot
  setjmpPending : Option ℕ
  longjmpPending : Bool
  longjmpTarget : ℕ
  longjmpValue : ℤ

/-- `mem_size - k` in 32 bits. -/
def belowTop (memSize k : ℕ) : ℕ := u32 (memSize + 2 ^ 32 - k)

/-- The two words at the start of a buffer: where the next frame goes and where the buffer ends.
This is `main_init_asyncify_buf`, with the size of the buffer as a parameter. -/
def initAsyncifyBuf (memory : Bytes) (bufPtr size : ℕ) : Bytes :=
  (memory.write32 bufPtr (u32 (bufPtr + 8))).write32 (bufPtr + 4) (u32 (bufPtr + size))

/-! ## Slots -/

/-- `sj_find_slot`. -/
def sjFindSlot (slots : List SjSlot) (key : ℕ) : Option ℕ :=
  if key = 0 then none else slots.findIdx? fun slot => slot.jmpBufPtr == key

/-- `sj_reap_dead`. -/
def sjReapDead (slots : List SjSlot) (sp : ℕ) : List SjSlot :=
  if sp = 0 then slots
  else
    slots.map fun slot =>
      if slot.jmpBufPtr ≠ 0 ∧ slot.jmpBufPtr < sp then { slot with jmpBufPtr := 0, saveData := none }
      else slot

/-- The slot `sj_alloc_slot` takes. -/
def sjFreeSlot (slots : List SjSlot) : Option ℕ := slots.findIdx? fun slot => slot.jmpBufPtr == 0

/-- What `sj_alloc_slot` stores in slot `i`. -/
def sjFill (slots : List SjSlot) (jmpBufPtr memSize i : ℕ) : List SjSlot :=
  slots.modify i fun slot =>
    { slot with jmpBufPtr, asyncifyBuf := belowTop memSize ((4 + i) * sjBufSize) }

/-- `sj_alloc_slot`. -/
def sjAllocSlot (slots : List SjSlot) (jmpBufPtr memSize : ℕ) : List SjSlot × Option ℕ :=
  match sjFreeSlot slots with
  | some i => (sjFill slots jmpBufPtr memSize i, some i)
  | none => (slots, none)

/-- The slot `m3_setjmp` uses on a first call: the one of this `jmp_buf`, else a free one, else one
whose frame has returned. -/
def sjTakeSlot (slots : List SjSlot) (jmpBufPtr memSize sp : ℕ) : List SjSlot × Option ℕ :=
  match sjFindSlot slots jmpBufPtr with
  | some i => (slots, some i)
  | none =>
    match sjAllocSlot slots jmpBufPtr memSize with
    | (slots, some i) => (slots, some i)
    | (slots, none) => sjAllocSlot (sjReapDead slots sp) jmpBufPtr memSize

/-! ## The calls -/

namespace SjCtx

/-- The buffer of a slot. -/
def bufOf (s : SjCtx) (i : ℕ) : ℕ := (s.sjSlots[i]?.map SjSlot.asyncifyBuf).getD 0

/-- Write the two words of a buffer. -/
def initBuf (s : SjCtx) (bufPtr size : ℕ) : SjCtx :=
  { s with mem := { s.mem with memory := initAsyncifyBuf s.mem.memory bufPtr size } }

/-- `m3_setjmp` and the value it returns to the guest. -/
def setjmp (s : SjCtx) (jmpBufPtr : ℕ) (rewinding : Bool) (sp : ℕ) : SjCtx × ℤ :=
  if s.longjmpPending then
    if s.longjmpTarget = jmpBufPtr then
      ({ s with longjmpPending := false, longjmpTarget := 0 }, s.longjmpValue)
    else (s, 0)
  else if rewinding then (s, 0)
  else
    match sjTakeSlot s.sjSlots jmpBufPtr s.mem.memorySize sp with
    | (slots, none) => ({ s with sjSlots := slots }, -1)
    | (slots, some i) =>
      let s := { s with sjSlots := slots, setjmpPending := some i }
      (s.initBuf (s.bufOf i) sjBufSize, 0)

/-- `m3_longjmp`.  Without a matching slot the process exits, and the context stays as it is. -/
def longjmp (s : SjCtx) (jmpBufPtr : ℕ) (val : ℤ) : SjCtx :=
  match sjFindSlot s.sjSlots jmpBufPtr with
  | none => s
  | some _ =>
    let discard :=
      if s.sjDiscardPtr = 0 then belowTop s.mem.memorySize (3 * sjBufSize) else s.sjDiscardPtr
    let s := { s with sjDiscardPtr := discard }.initBuf discard sjBufSize
    { s with
      longjmpPending := true
      longjmpValue := if val = 0 then 1 else val
      longjmpTarget := jmpBufPtr }

/-- One iteration of `yos_setjmp_pump`: keep a copy of the buffer that was just filled, or put the
copy of the target's buffer back. -/
def pump (s : SjCtx) : SjCtx :=
  match s.setjmpPending with
  | some i =>
    let save : Bytes := fun x => s.mem.memory (s.bufOf i + x)
    { s with
      sjSlots := s.sjSlots.modify i fun slot => { slot with saveData := some save }
      setjmpPending := none }
  | none =>
    if s.longjmpPending then
      match sjFindSlot s.sjSlots s.longjmpTarget with
      | none => { s with longjmpPending := false, longjmpTarget := 0 }
      | some i =>
        match s.sjSlots[i]?.bind SjSlot.saveData with
        | none => s
        | some save =>
          let buf := s.bufOf i
          let memory : Bytes := fun x =>
            if buf ≤ x ∧ x < buf + sjBufSize then save (x - buf) else s.mem.memory x
          { s with mem := { s.mem with memory } }
    else s

/-- The part of `yos_fork` that prepares the unwind. -/
def fork (s : SjCtx) (rewinding : Bool) : SjCtx :=
  if rewinding then s
  else if s.mem.memorySize = 0 then s
  else
    let ptr :=
      if s.asyncifyPtr = 0 then belowTop s.mem.memorySize asyncifyBufSize else s.asyncifyPtr
    { s with asyncifyPtr := ptr }.initBuf ptr asyncifyBufSize

end SjCtx

/-! ## The buffers -/

/-- The buffer of a live slot. -/
def SjSlot.spans (slot : SjSlot) : List Span :=
  if slot.jmpBufPtr = 0 then [] else [⟨slot.asyncifyBuf, sjBufSize⟩]

/-- A buffer that is placed once, with 0 for none yet. -/
def placedSpan (ptr size : ℕ) : List Span := if ptr = 0 then [] else [⟨ptr, size⟩]

/-- The buffers in use. -/
def SjCtx.reserved (s : SjCtx) : List Span :=
  placedSpan s.asyncifyPtr asyncifyBufSize ++ placedSpan s.sjDiscardPtr sjBufSize ++
    s.sjSlots.flatMap SjSlot.spans

end Yos
