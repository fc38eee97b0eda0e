import Yos.Mem.HeapClient

/-!
# Reading a record into a growing buffer (`impl/io/file.c`)

`do_getdelim` reads bytes up to a delimiter into the caller's heap block, which it doubles with
`yos_realloc` when it is full.  It stores the block and its size in the caller's two cells when the record
is read and at end of file, but not when `yos_realloc` fails: then the cells still name the block that the
call started with, which an earlier `yos_realloc` may have moved away from (`getdelim_met_iff`).

A stream is given by the bytes that are left to read of it.
-/

namespace Yos

open Word Bytes Span

/-! ## The code -/

/-- What `do_getdelim` leaves: the memory, the rest of the stream, its value and the error number it set. -/
structure GetdelimOut where
  ctx : MemCtx
  rest : Option (List UInt8)
  ret : ℤ
  err : Option Errno

/-- The stores to `*lineptr` and `*n`. -/
def storeLine (ctx : MemCtx) (lineptrOff nOff bufOff bufCap : ℕ) : MemCtx :=
  { ctx with memory := (ctx.memory.write32 lineptrOff bufOff).write32 nOff bufCap }

/-- The end of `do_getdelim` behind the loop. -/
def finishLine (ctx : MemCtx) (lineptrOff nOff bufOff bufCap pos : ℕ) (rest : List UInt8) : GetdelimOut where
  ctx := storeLine { ctx with memory := ctx.memory.fill (bufOff + pos) 1 0 } lineptrOff nOff bufOff bufCap
  rest := some rest
  ret := Int.bmod pos (2 ^ 32)
  err := none

/-- Room for a byte and the NUL; the pointer is 0 if `yos_realloc` fails. -/
def growBuf (ctx : MemCtx) (bufOff bufCap pos : ℕ) : Option (MemCtx × ℕ × ℕ) :=
  if bufCap ≤ pos + 1 then
    (reallocCall ctx bufOff (u32 (bufCap * 2))).map fun (ctx, newOff) => (ctx, newOff, u32 (bufCap * 2))
  else some (ctx, bufOff, bufCap)

/-- The loop of `do_getdelim`. -/
def getdelimLoop (lineptrOff nOff : ℕ) (delim : ℤ) :
    List UInt8 → MemCtx → (bufOff bufCap pos : ℕ) → Option GetdelimOut
  | [], ctx, bufOff, bufCap, pos =>
    if pos = 0 then some ⟨storeLine ctx lineptrOff nOff bufOff bufCap, some [], -1, none⟩
    else some (finishLine ctx lineptrOff nOff bufOff bufCap pos [])
  | c :: rest, ctx, bufOff, bufCap, pos =>
    match growBuf ctx bufOff bufCap pos with
    | none => none
    | some (ctx, bufOff, bufCap) =>
      if bufOff = 0 then some ⟨ctx, some rest, -1, some .ENOMEM⟩
      else
        let ctx := { ctx with memory := ctx.memory.fill (bufOff + pos) 1 c }
        if (c.toNat : ℤ) = delim then some (finishLine ctx lineptrOff nOff bufOff bufCap (pos + 1) rest)
        else getdelimLoop lineptrOff nOff delim rest ctx bufOff bufCap (pos + 1)

/-- `do_getdelim` of the stream that the handle stands for, if it does for one; `none` if a walk of
`yos_free` goes round for ever. -/
def doGetdelim (ctx : MemCtx) (lineptrOff nOff : ℕ) (delim : ℤ) (f : Option (List UInt8)) :
    Option GetdelimOut :=
  match f with
  | none => some ⟨ctx, f, -1, some .EBADF⟩
  | some content =>
    if ctx.memorySize < u32 (lineptrOff + 4) ∨ ctx.memorySize < u32 (nOff + 4) then
      some ⟨ctx, f, -1, some .EFAULT⟩
    else
      let bufOff := ctx.memory.read32 lineptrOff
      let bufCap := ctx.memory.read32 nOff
      if bufOff = 0 ∨ bufCap = 0 then
        let (ctx, bufOff) := yosMalloc ctx 128
        if bufOff = 0 then some ⟨ctx, f, -1, some .ENOMEM⟩
        else getdelimLoop lineptrOff nOff delim content ctx bufOff 128 0
      else getdelimLoop lineptrOff nOff delim content ctx bufOff bufCap 0

/-! ## What it is for -/

/-- The next record: up to and with the first delimiter, or all that is left. -/
def nextRecord (delim : ℤ) : List UInt8 → List UInt8
  | [] => []
  | c :: rest => if (c.toNat : ℤ) = delim then [c] else c :: nextRecord delim rest

/-- In a heap in order there is a block of at least `n` bytes at `p`. -/
def LiveBlock (ctx : MemCtx) (p n : ℕ) : Prop :=
  ∃ held, AllocInv ⟨ctx, held⟩ ∧ ∃ h ∈ held, h.alignment = hdrSize ∧ h.ptr = p ∧ n ≤ h.size

/-- The record is delivered at `*lineptr`, in a live block of `*n` bytes, and `rest` is left of the stream. -/
structure RecordStored (out : GetdelimOut) (lineptrOff nOff : ℕ) (record rest : List UInt8) : Prop where
  ret : out.ret = record.length
  rest : out.rest = some rest
  live : LiveBlock out.ctx (out.ctx.memory.read32 lineptrOff) (out.ctx.memory.read32 nOff)
  room : record.length < out.ctx.memory.read32 nOff
  text : ∀ i (lt : i < record.length), out.ctx.memory (out.ctx.memory.read32 lineptrOff + i) = record[i]
  nul : out.ctx.memory (out.ctx.memory.read32 lineptrOff + record.length) = 0

/-- The caller's buffer is what a caller may hand in again: NULL as before, or a live block of `*n` bytes. -/
def BufferValid (ctx : MemCtx) (out : GetdelimOut) (lineptrOff nOff : ℕ) : Prop :=
  (ctx.memory.read32 lineptrOff = 0 ∧ out.ctx.memory.read32 lineptrOff = 0) ∨
    LiveBlock out.ctx (out.ctx.memory.read32 lineptrOff) (out.ctx.memory.read32 nOff)

/-- A call that succeeds delivers the next record and consumes it, and one that fails leaves the caller a
valid buffer. -/
def GetdelimMet (ctx : MemCtx) (lineptrOff nOff : ℕ) (delim : ℤ) (f : Option (List UInt8)) : Prop :=
  ∃ out, doGetdelim ctx lineptrOff nOff delim f = some out ∧
    (out.ret ≠ -1 → ∃ content, f = some content ∧ RecordStored out lineptrOff nOff (nextRecord delim content)
      (content.drop (nextRecord delim content).length)) ∧
    (out.ret = -1 → BufferValid ctx out lineptrOff nOff)

/-- What a caller hands in: NULL or a live block from `yos_malloc` of at least `*n` bytes, and two cells of
its own outside the block. -/
structure CallerBuffer (s : GuestHeap) (lineptrOff nOff : ℕ) : Prop where
  heap : AllocInv s
  buffer : s.ctx.memory.read32 lineptrOff = 0 ∨ ∃ h ∈ s.held, h.alignment = hdrSize ∧
    h.ptr = s.ctx.memory.read32 lineptrOff ∧ s.ctx.memory.read32 nOff ≤ h.size
  apart : lineptrOff + 4 ≤ nOff ∨ nOff + 4 ≤ lineptrOff
  cells : ∀ x, (lineptrOff ≤ x ∧ x < lineptrOff + 4) ∨ (nOff ≤ x ∧ x < nOff + 4) →
    s.ctx.Outside x ∨ ∃ k ∈ s.held, k.ptr ≠ s.ctx.memory.read32 lineptrOff ∧ k.Owns x

/-- The buffer after it was doubled `k` times, and 0 from the first time that fails. -/
def grown (ctx : MemCtx) (off cap : ℕ) : ℕ → Option (MemCtx × ℕ)
  | 0 => some (ctx, off)
  | k + 1 =>
    match grown ctx off cap k with
    | none => none
    | some (ctx, p) => if p = 0 then some (ctx, 0) else reallocCall ctx p (2 ^ (k + 1) * cap)

/-- The buffer is at `p` when the next doubling fails. -/
def GrowthFails (ctx : MemCtx) (off cap k p : ℕ) : Prop :=
  p ≠ 0 ∧ ∃ c c', grown ctx off cap k = some (c, p) ∧ grown ctx off cap (k + 1) = some (c', 0)

/-- If a doubling that the record asks for fails, the buffer is still where the caller handed it in. -/
def FailsInPlace (ctx : MemCtx) (off cap length : ℕ) : Prop :=
  ∀ k p, 2 ^ k * cap ≤ length → GrowthFails ctx off cap k p → p = off

/-! ## Filling the buffer -/

/-- The block `b` holds the bytes read so far and has room for a NUL, and the rest of the heap is as in
`start`. -/
structure Filling (start : MemCtx) (others : List HeldPtr) (ctx : MemCtx) (b : HeldPtr) (cap : ℕ)
    (got : List UInt8) : Prop where
  move : HeapMove ⟨start, others⟩ ⟨ctx, b :: others⟩
  plain : b.alignment = hdrSize
  room : cap ≤ b.size
  spare : got.length < cap
  text : ∀ i (lt : i < got.length), ctx.memory (b.ptr + i) = got[i]

section Filling

variable {start ctx : MemCtx} {others : List HeldPtr} {b : HeldPtr} {cap : ℕ} {got : List UInt8}

/-- A byte stored to the buffer. -/
theorem Filling.poke (fill : Filling start others ctx b cap got) {i : ℕ} (lt : i < cap) (c : UInt8) :
    HeapMove ⟨start, others⟩ ⟨{ ctx with memory := ctx.memory.fill (b.ptr + i) 1 c }, b :: others⟩ := by
  have own : b.Owns (b.ptr + i) :=
    fill.move.inv.owns (h := b) List.mem_cons_self (Nat.lt_of_lt_of_le lt fill.room)
  refine HeapMove.fillNew (e := [b]) fill.move fun x changed => ⟨b, List.mem_singleton_self b, ?_⟩
  have only : x = b.ptr + i := by
    by_contra other
    exact changed (if_neg (by omega))
  rw [only]
  exact own

theorem Filling.put (fill : Filling start others ctx b cap got) (more : got.length + 1 < cap) (c : UInt8) :
    Filling start others { ctx with memory := ctx.memory.fill (b.ptr + got.length) 1 c } b cap (got ++ [c]) where
  move := fill.poke fill.spare c
  plain := fill.plain
  room := fill.room
  spare := by
    rw [List.length_append, List.length_singleton]
    exact more
  text i lt := by
    rw [List.length_append, List.length_singleton] at lt
    rcases Nat.lt_succ_iff_lt_or_eq.mp lt with before | rfl
    · rw [List.getElem_append_left before]
      exact (if_neg (by omega)).trans (fill.text i before)
    · rw [List.getElem_concat_length rfl]
      exact if_pos ⟨le_rfl, by omega⟩

/-- The buffer after a doubling that succeeded. -/
theorem Filling.grow (fill : Filling start others ctx b cap got) {ctx' : MemCtx} {new : HeldPtr}
    (done : Resized ⟨ctx, b :: others⟩ b (cap * 2) ctx' new) : Filling start others ctx' new (cap * 2) got := by
  have left : (b :: others).erase b = others := List.erase_cons_head b others
  have move := done.move
  dsimp only at move
  rw [left] at move
  refine ⟨⟨⟨move.inv, move.lo.trans fill.move.lo, move.hi.trans fill.move.hi, move.size.trans fill.move.size⟩,
    fun x mine after => ?_⟩, done.plain, Nat.le_of_eq done.asked.symm, ?_, fun i lt => ?_⟩
  · have between := fill.move.mine_of_subset (fun _ => List.mem_cons_of_mem b) mine
    exact (move.frame x between after).trans (fill.move.frame x mine between)
  · have spare := fill.spare
    omega
  · have spare := fill.spare
    have room := fill.room
    rw [done.kept i (by omega) (by omega)]
    exact fill.text i lt

end Filling

/-! ## The doublings by themselves -/

section Grown

variable {c₀ c c' : MemCtx} {off cap₀ k k' p p' length : ℕ}

/-- A doubling that the record asks for is among those that succeed. -/
def Enough (c₀ : MemCtx) (off cap₀ length : ℕ) : Prop :=
  ∃ k c p, grown c₀ off cap₀ k = some (c, p) ∧ p ≠ 0 ∧ length < 2 ^ k * cap₀

theorem grown_zero (fails : grown c₀ off cap₀ k = some (c, 0)) (le : k ≤ k') :
    grown c₀ off cap₀ k' = some (c, 0) := by
  induction le with
  | refl => exact fails
  | step _ ih => simp only [grown, ih, if_true]

/-- The doublings fail for the first time once. -/
theorem GrowthFails.unique (fails : GrowthFails c₀ off cap₀ k p) (fails' : GrowthFails c₀ off cap₀ k' p') :
    p = p' := by
  obtain ⟨some, _, _, at_k, next⟩ := fails
  obtain ⟨some', _, _, at_k', next'⟩ := fails'
  have early : ¬ k + 1 ≤ k' := fun le => by
    rw [grown_zero next le] at at_k'
    exact some' (congrArg Prod.snd (Option.some.inj at_k')).symm
  have late : ¬ k' + 1 ≤ k := fun le => by
    rw [grown_zero next' le] at at_k
    exact some (congrArg Prod.snd (Option.some.inj at_k)).symm
  obtain rfl : k = k' := by omega
  rw [at_k] at at_k'
  exact congrArg Prod.snd (Option.some.inj at_k')

/-- If the buffer gets large enough, no doubling that the record asks for fails. -/
theorem Enough.failsInPlace (enough : Enough c₀ off cap₀ length) : FailsInPlace c₀ off cap₀ length := by
  rintro k p asked ⟨some, _, c', _, next⟩
  obtain ⟨m, _, q, at_m, pos, large⟩ := enough
  have later : k + 1 ≤ m := by
    by_contra before
    have mono : 2 ^ m * cap₀ ≤ 2 ^ k * cap₀ := Nat.mul_le_mul_right cap₀ (Nat.pow_le_pow_right (by decide) (by omega))
    omega
  rw [grown_zero next later] at at_m
  exact absurd (congrArg Prod.snd (Option.some.inj at_m)).symm pos

/-- The buffer `b` is the one that `k` doublings by themselves lead to. -/
structure Shadow (c₀ : MemCtx) (off cap₀ : ℕ) (s : GuestHeap) (b : HeldPtr) (cap k : ℕ) : Prop where
  size : cap = 2 ^ k * cap₀
  alike : ∃ c, grown c₀ off cap₀ k = some (c, b.ptr) ∧ AllocInv ⟨c, s.held⟩ ∧
    c.setUp.allocLo = s.ctx.setUp.allocLo ∧ c.setUp.allocHi = s.ctx.setUp.allocHi

theorem Shadow.store {s : GuestHeap} {b : HeldPtr} {cap : ℕ} (shadow : Shadow c₀ off cap₀ s b cap k) (m : Bytes) :
    Shadow c₀ off cap₀ (s.store m) b cap k := by
  obtain ⟨c, at_k, inv, lo, hi⟩ := shadow.alike
  have bounds := setUp_store s.ctx m
  exact ⟨shadow.size, c, at_k, inv, lo.trans bounds.1.symm, hi.trans bounds.2.symm⟩

variable {start ctx : MemCtx} {others : List HeldPtr} {b : HeldPtr} {cap : ℕ} {got : List UInt8}

theorem Shadow.enough (shadow : Shadow c₀ off cap₀ ⟨ctx, b :: others⟩ b cap k)
    (fill : Filling start others ctx b cap got) : Enough c₀ off cap₀ got.length := by
  obtain ⟨c, at_k, -⟩ := shadow.alike
  have low := (fill.move.inv.bounds (h := b) List.mem_cons_self).1
  refine ⟨k, c, b.ptr, at_k, by omega, ?_⟩
  rw [← shadow.size]
  exact fill.spare

/-- What `growBuf` does: there is room already, or the buffer is doubled, or that fails. -/
theorem Filling.growBuf (fill : Filling start others ctx b cap got)
    (shadow : Shadow c₀ off cap₀ ⟨ctx, b :: others⟩ b cap k) :
    (∃ ctx' b' cap' k', Yos.growBuf ctx b.ptr cap got.length = some (ctx', b'.ptr, cap') ∧
        Filling start others ctx' b' cap' got ∧ Shadow c₀ off cap₀ ⟨ctx', b' :: others⟩ b' cap' k' ∧
        got.length + 1 < cap') ∨
      ((∃ cap', Yos.growBuf ctx b.ptr cap got.length = some (ctx, 0, cap')) ∧
        GrowthFails c₀ off cap₀ k b.ptr ∧ cap ≤ got.length + 1) := by
  have spare := fill.spare
  have room := fill.room
  have bounds := fill.move.inv.bounds (h := b) List.mem_cons_self
  unfold Yos.growBuf
  by_cases full : cap ≤ got.length + 1
  · have word : u32 (cap * 2) = cap * 2 := u32_of_lt (by omega)
    obtain ⟨c, at_k, inv, lo, hi⟩ := shadow.alike
    have double : cap * 2 = 2 ^ (k + 1) * cap₀ := by
      rw [shadow.size, Nat.pow_succ]
      ring
    have next : grown c₀ off cap₀ (k + 1) = reallocCall c b.ptr (cap * 2) := by
      rw [double]
      simp only [grown, at_k]
      rw [if_neg (by omega)]
    rw [if_pos full, word]
    rcases fill.move.inv.realloc_congr inv lo.symm hi.symm (h := b) List.mem_cons_self fill.plain
      (show cap * 2 ≠ 0 by omega) (by unfold Fits hdrSize blkAlign; omega) with
      ⟨fails, fails'⟩ | ⟨ctx', c', new, done, done'⟩
    · right
      rw [fails'] at next
      refine ⟨⟨cap * 2, by rw [fails]; rfl⟩, ⟨by omega, c, c, at_k, next⟩, full⟩
    · left
      have left : (b :: others).erase b = others := List.erase_cons_head b others
      have move := done.move
      have move' := done'.move
      dsimp only at move move'
      rw [left] at move move'
      rw [done'.eq] at next
      refine ⟨ctx', new, cap * 2, k + 1, by rw [done.eq]; rfl, fill.grow done, ⟨double, c', next, move'.inv, ?_, ?_⟩,
        by omega⟩
      · rw [move'.lo, move.lo]
        exact lo
      · rw [move'.hi, move.hi]
        exact hi
  · left
    rw [if_neg full]
    exact ⟨ctx, b, cap, k, rfl, fill, shadow, by omega⟩

end Grown

/-! ## The loop -/

section Loop

variable {c₀ start : MemCtx} {others : List HeldPtr} {off cap₀ lineptrOff nOff : ℕ} {delim : ℤ}

/-- How the loop ends: with the record, at the end of the stream, or without memory. -/
inductive LineEnds (c₀ : MemCtx) (off cap₀ : ℕ) (start : MemCtx) (others : List HeldPtr) (lineptrOff nOff : ℕ)
    (record rest : List UInt8) : GetdelimOut → Prop where
  | stored {ctx : MemCtx} {b : HeldPtr} {cap : ℕ} (fill : Filling start others ctx b cap record)
      (enough : Enough c₀ off cap₀ record.length) :
      LineEnds c₀ off cap₀ start others lineptrOff nOff record rest
        (finishLine ctx lineptrOff nOff b.ptr cap record.length rest)
  | ended {ctx : MemCtx} {b : HeldPtr} {cap : ℕ} (fill : Filling start others ctx b cap record)
      (enough : Enough c₀ off cap₀ record.length) :
      LineEnds c₀ off cap₀ start others lineptrOff nOff record rest
        ⟨storeLine ctx lineptrOff nOff b.ptr cap, some [], -1, none⟩
  | noMem {ctx : MemCtx} {b : HeldPtr} {cap k : ℕ} {got rest' : List UInt8}
      (fill : Filling start others ctx b cap got) (fails : GrowthFails c₀ off cap₀ k b.ptr)
      (size : cap = 2 ^ k * cap₀) (asked : cap ≤ record.length) :
      LineEnds c₀ off cap₀ start others lineptrOff nOff record rest ⟨ctx, some rest', -1, some .ENOMEM⟩

theorem getdelimLoop_ends (lineptrOff nOff : ℕ) (delim : ℤ) (content : List UInt8) {ctx : MemCtx} {b : HeldPtr}
    {cap k : ℕ} {got : List UInt8}
    (fill : Filling start others ctx b cap got) (shadow : Shadow c₀ off cap₀ ⟨ctx, b :: others⟩ b cap k) :
    ∃ out, getdelimLoop lineptrOff nOff delim content ctx b.ptr cap got.length = some out ∧
      LineEnds c₀ off cap₀ start others lineptrOff nOff (got ++ nextRecord delim content)
        (content.drop (nextRecord delim content).length) out := by
  induction content generalizing ctx b cap k got with
  | nil =>
    rw [getdelimLoop, nextRecord, List.append_nil]
    split_ifs
    · exact ⟨_, rfl, .ended fill (shadow.enough fill)⟩
    · exact ⟨_, rfl, .stored fill (shadow.enough fill)⟩
  | cons c rest ih =>
    have first : got.length + 1 ≤ (got ++ nextRecord delim (c :: rest)).length := by
      rw [List.length_append, nextRecord]
      split_ifs <;> simp
    rw [getdelimLoop]
    rcases fill.growBuf shadow with ⟨ctx', b', cap', k', eq, fill', shadow', more⟩ | ⟨⟨cap', eq⟩, fails, full⟩
    · have low := (fill'.move.inv.bounds (h := b') List.mem_cons_self).1
      have put := fill'.put more c
      have shadow'' := shadow'.store (ctx'.memory.fill (b'.ptr + got.length) 1 c)
      have count : (got ++ [c]).length = got.length + 1 := List.length_append
      rw [eq]
      dsimp only
      rw [if_neg (by omega), ← count, nextRecord]
      by_cases last : (c.toNat : ℤ) = delim
      · rw [if_pos last, if_pos last]
        exact ⟨_, rfl, .stored put (shadow''.enough put)⟩
      · rw [if_neg last, if_neg last]
        obtain ⟨out, run, ends⟩ := ih put shadow''
        rw [List.append_assoc, List.singleton_append] at ends
        exact ⟨out, run, ends⟩
    · rw [eq]
      exact ⟨_, rfl, .noMem fill fails shadow.size (full.trans first)⟩

end Loop

/-! ## The cells -/

section Cells

variable {c₀ start ctx : MemCtx} {others : List HeldPtr} {b : HeldPtr} {off cap cap₀ lineptrOff nOff : ℕ}
  {got : List UInt8}

/-- The caller's cells are its own besides the buffer. -/
structure OwnCells (start : MemCtx) (others : List HeldPtr) (lineptrOff nOff : ℕ) : Prop where
  apart : lineptrOff + 4 ≤ nOff ∨ nOff + 4 ≤ lineptrOff
  mine : ∀ x, (lineptrOff ≤ x ∧ x < lineptrOff + 4) ∨ (nOff ≤ x ∧ x < nOff + 4) →
    (⟨start, others⟩ : GuestHeap).Mine x

theorem storeLine_of_not_mem {x : ℕ} (out : ¬ ((lineptrOff ≤ x ∧ x < lineptrOff + 4) ∨ (nOff ≤ x ∧ x < nOff + 4))) :
    (storeLine ctx lineptrOff nOff off cap).memory x = ctx.memory x :=
  (write32_apply_of_disjoint (by omega)).trans (write32_apply_of_disjoint (by omega))

theorem OwnCells.read (own : OwnCells start others lineptrOff nOff) (ctx : MemCtx) (small : off < 2 ^ 32)
    (small' : cap < 2 ^ 32) :
    (storeLine ctx lineptrOff nOff off cap).memory.read32 lineptrOff = off ∧
      (storeLine ctx lineptrOff nOff off cap).memory.read32 nOff = cap := by
  have apart := own.apart
  unfold storeLine
  dsimp only
  rw [read32_write32_disjoint (by omega), read32_write32_self small, read32_write32_self small']
  exact ⟨rfl, rfl⟩

/-- The cells are not in the buffer. -/
theorem OwnCells.not_owns (own : OwnCells start others lineptrOff nOff) (fill : Filling start others ctx b cap got)
    {x : ℕ} (owns : b.Owns x) :
    ¬ ((lineptrOff ≤ x ∧ x < lineptrOff + 4) ∨ (nOff ≤ x ∧ x < nOff + 4)) :=
  fun inside => fill.move.not_mine (e := [b]) (List.mem_singleton_self b) owns (own.mine x inside)

/-- The stores to the cells leave the buffer live. -/
theorem OwnCells.live (own : OwnCells start others lineptrOff nOff)
    (move : HeapMove ⟨start, others⟩ ⟨ctx, b :: others⟩) (plain : b.alignment = hdrSize) (room : cap ≤ b.size) :
    LiveBlock (storeLine ctx lineptrOff nOff b.ptr cap)
      ((storeLine ctx lineptrOff nOff b.ptr cap).memory.read32 lineptrOff)
      ((storeLine ctx lineptrOff nOff b.ptr cap).memory.read32 nOff) := by
  have bounds := move.inv.bounds (h := b) List.mem_cons_self
  obtain ⟨ptr, size⟩ := own.read ctx (show b.ptr < 2 ^ 32 by omega) (show cap < 2 ^ 32 by omega)
  rw [ptr, size]
  refine ⟨b :: others, move.inv.store fun x changed => ?_, b, List.mem_cons_self, plain, rfl, room⟩
  by_contra other
  refine changed (storeLine_of_not_mem fun inside => other ?_)
  exact move.mine_of_subset (fun _ => List.mem_cons_of_mem b) (own.mine x inside)

/-- The record in the buffer is delivered. -/
theorem OwnCells.stored (own : OwnCells start others lineptrOff nOff) {record : List UInt8} (rest : List UInt8)
    (fill : Filling start others ctx b cap record) :
    RecordStored (finishLine ctx lineptrOff nOff b.ptr cap record.length rest) lineptrOff nOff record rest := by
  have spare := fill.spare
  have room := fill.room
  have bounds := fill.move.inv.bounds (h := b) List.mem_cons_self
  obtain ⟨ptr, size⟩ := own.read { ctx with memory := ctx.memory.fill (b.ptr + record.length) 1 0 }
    (show b.ptr < 2 ^ 32 by omega) (show cap < 2 ^ 32 by omega)
  have inBuffer {i : ℕ} (lt : i < cap) : b.Owns (b.ptr + i) :=
    fill.move.inv.owns (h := b) List.mem_cons_self (Nat.lt_of_lt_of_le lt room)
  refine ⟨?_, rfl, own.live (fill.poke spare 0) fill.plain room, ?_, fun i lt => ?_, ?_⟩
  · unfold finishLine
    dsimp only
    rw [Int.bmod_eq_of_le] <;> omega
  · unfold finishLine
    rw [size]
    exact spare
  · unfold finishLine
    rw [ptr, storeLine_of_not_mem (own.not_owns fill (inBuffer (Nat.lt_trans lt spare)))]
    exact (if_neg (by omega)).trans (fill.text i lt)
  · unfold finishLine
    rw [ptr, storeLine_of_not_mem (own.not_owns fill (inBuffer spare))]
    exact if_pos ⟨le_rfl, by omega⟩

/-- When memory runs out, the cells are as they were. -/
theorem OwnCells.unchanged (own : OwnCells start others lineptrOff nOff) {held : List HeldPtr}
    (move : HeapMove ⟨start, others⟩ ⟨ctx, held⟩) (more : ∀ h ∈ others, h ∈ held) :
    ctx.memory.read32 lineptrOff = start.memory.read32 lineptrOff ∧
      ctx.memory.read32 nOff = start.memory.read32 nOff := by
  have same {x : ℕ} (inside : (lineptrOff ≤ x ∧ x < lineptrOff + 4) ∨ (nOff ≤ x ∧ x < nOff + 4)) :
      ctx.memory x = start.memory x :=
    move.frame x (own.mine x inside) (move.mine_of_subset more (own.mine x inside))
  exact ⟨read32_congr fun x low high => same (Or.inl ⟨low, high⟩),
    read32_congr fun x low high => same (Or.inr ⟨low, high⟩)⟩

end Cells

/-! ## The call -/

section Call

variable {s : GuestHeap} {lineptrOff nOff : ℕ} {h : HeldPtr}

/-- A caller that hands in NULL, or a block without room, keeps what it holds. -/
theorem CallerBuffer.ownCells (caller : CallerBuffer s lineptrOff nOff) :
    OwnCells s.ctx s.held lineptrOff nOff :=
  ⟨caller.apart, fun x inside => (caller.cells x inside).imp id fun ⟨k, held, _, owns⟩ => ⟨k, held, owns⟩⟩

/-- A caller that hands in a block keeps the rest. -/
theorem CallerBuffer.ownCells_erase (caller : CallerBuffer s lineptrOff nOff)
    (at_h : h.ptr = s.ctx.memory.read32 lineptrOff) : OwnCells s.ctx (s.held.erase h) lineptrOff nOff := by
  refine ⟨caller.apart, fun x inside => (caller.cells x inside).imp id fun ⟨k, held, other, owns⟩ => ⟨k, ?_, owns⟩⟩
  refine (List.mem_erase_of_ne ?_).mpr held
  rintro rfl
  exact other at_h

/-- The buffer that the caller hands in. -/
theorem CallerBuffer.filling (caller : CallerBuffer s lineptrOff nOff) (held : h ∈ s.held)
    (plain : h.alignment = hdrSize) (room : s.ctx.memory.read32 nOff ≤ h.size)
    (given : s.ctx.memory.read32 nOff ≠ 0) :
    Filling s.ctx (s.held.erase h) s.ctx h (s.ctx.memory.read32 nOff) [] where
  move := ⟨⟨caller.heap.perm (List.perm_cons_erase held), rfl, rfl, rfl⟩, fun _ _ _ => rfl⟩
  plain := plain
  room := room
  spare := Nat.pos_of_ne_zero given
  text i lt := absurd lt (Nat.not_lt_zero i)

/-- The block that `yos_malloc` hands out. -/
theorem Allocated.filling {ctx : MemCtx} {new : HeldPtr} (done : Allocated s 128 ctx new) :
    Filling s.ctx s.held ctx new 128 [] where
  move := done.move
  plain := done.plain
  room := Nat.le_of_eq done.asked.symm
  spare := by decide
  text i lt := absurd lt (Nat.not_lt_zero i)

/-- The start of the doublings. -/
theorem Filling.shadow {start ctx : MemCtx} {others : List HeldPtr} {cap : ℕ} {got : List UInt8}
    (fill : Filling start others ctx h cap got) : Shadow ctx h.ptr cap ⟨ctx, h :: others⟩ h cap 0 :=
  ⟨by rw [Nat.pow_zero, Nat.one_mul], ctx, rfl, fill.move.inv, rfl, rfl⟩

/-- The caller's block is not among those that are left when it was moved away. -/
theorem CallerBuffer.not_live {start ctx : MemCtx} {b : HeldPtr} {cap n : ℕ} {got : List UInt8}
    (caller : CallerBuffer s lineptrOff nOff) (held : h ∈ s.held) (plain : h.alignment = hdrSize)
    (fill : Filling start (s.held.erase h) ctx b cap got) (moved : b.ptr ≠ h.ptr) : ¬ LiveBlock ctx h.ptr n := by
  rintro ⟨held', inv', k, mem, plain', at_h, -⟩
  have raw := caller.heap.plain held plain
  have raw' := inv'.plain mem plain'
  obtain ⟨j, mem_j, same⟩ := inv'.block_unique fill.move.inv mem
  rcases List.mem_cons.mp mem_j with rfl | mem_j
  · have raw_j := fill.move.inv.plain (h := j) List.mem_cons_self fill.plain
    unfold HeldPtr.raw at raw raw' raw_j
    rw [same] at raw_j
    omega
  · -- two of the caller's pointers would have blocks with the same start
    obtain ⟨free, ready⟩ := caller.heap.ready held
    have held_j := List.mem_of_mem_erase mem_j
    have start : j.block.addr = h.block.addr := by
      unfold HeldPtr.raw at raw raw'
      rw [same]
      omega
    have long := ready.heap.long (List.mem_append_right free (Ready.mem_blocks held))
    have long_j := ready.heap.long (List.mem_append_right free (Ready.mem_blocks held_j))
    obtain rfl := ready.eq_of_has (x := h.block.addr) held_j held ⟨by omega, by omega⟩ ⟨le_rfl, by omega⟩
    exact ready.not_mem_erase _ mem_j

/-- The caller's buffer stays valid while nothing it holds is freed. -/
theorem CallerBuffer.valid (caller : CallerBuffer s lineptrOff nOff) {out : GetdelimOut} {held : List HeldPtr}
    (move : HeapMove s ⟨out.ctx, held⟩) (more : ∀ h ∈ s.held, h ∈ held) :
    BufferValid s.ctx out lineptrOff nOff := by
  obtain ⟨ptr, size⟩ := caller.ownCells.unchanged move more
  unfold BufferValid
  rw [ptr, size]
  rcases caller.buffer with null | ⟨h, given, plain, at_h, room⟩
  · exact Or.inl ⟨null, null⟩
  · exact Or.inr ⟨held, move.inv, h, more h given, plain, at_h, room⟩

/-- With a new buffer the caller's cells name NULL or a block that stays live. -/
theorem CallerBuffer.met_new (caller : CallerBuffer s lineptrOff nOff) (content : List UInt8) (delim : ℤ)
    {ctx : MemCtx} {new : HeldPtr} (done : Allocated s 128 ctx new) :
    ∃ out, getdelimLoop lineptrOff nOff delim content ctx new.ptr 128 0 = some out ∧
      (out.ret ≠ -1 → RecordStored out lineptrOff nOff (nextRecord delim content)
        (content.drop (nextRecord delim content).length)) ∧
      (out.ret = -1 → BufferValid s.ctx out lineptrOff nOff) := by
  have own := caller.ownCells
  have fill := done.filling
  obtain ⟨out, run, ends⟩ := getdelimLoop_ends lineptrOff nOff delim content fill fill.shadow
  rw [List.nil_append] at ends
  refine ⟨out, run, ?_⟩
  cases ends with
  | stored fill _ =>
    have stored := own.stored (content.drop (nextRecord delim content).length) fill
    exact ⟨fun _ => stored, fun failed => absurd (stored.ret.symm.trans failed) (by omega)⟩
  | ended fill _ =>
    exact ⟨fun ok => absurd rfl ok, fun _ => Or.inr (own.live fill.move fill.plain fill.room)⟩
  | @noMem ctx b cap k got rest' fill _ _ _ =>
    exact ⟨fun ok => absurd rfl ok, fun _ => caller.valid fill.move fun _ => List.mem_cons_of_mem b⟩

/-- With the caller's buffer all is well unless a doubling fails after the buffer was moved. -/
theorem CallerBuffer.met_old (caller : CallerBuffer s lineptrOff nOff) (content : List UInt8) (delim : ℤ)
    (given : s.ctx.memory.read32 lineptrOff ≠ 0) (room : s.ctx.memory.read32 nOff ≠ 0) :
    ∃ out, getdelimLoop lineptrOff nOff delim content s.ctx (s.ctx.memory.read32 lineptrOff)
        (s.ctx.memory.read32 nOff) 0 = some out ∧
      (out.ret ≠ -1 → RecordStored out lineptrOff nOff (nextRecord delim content)
        (content.drop (nextRecord delim content).length)) ∧
      ((out.ret = -1 → BufferValid s.ctx out lineptrOff nOff) ↔
        FailsInPlace s.ctx (s.ctx.memory.read32 lineptrOff) (s.ctx.memory.read32 nOff)
          (nextRecord delim content).length) := by
  obtain ⟨h, held, plain, at_h, large⟩ := caller.buffer.resolve_left given
  have own := caller.ownCells_erase at_h
  have fill := caller.filling held plain large room
  obtain ⟨out, run, ends⟩ := getdelimLoop_ends lineptrOff nOff delim content fill fill.shadow
  rw [List.nil_append, at_h] at ends
  rw [at_h] at run
  refine ⟨out, run, ?_⟩
  cases ends with
  | stored fill enough =>
    have stored := own.stored (content.drop (nextRecord delim content).length) fill
    exact ⟨fun _ => stored, iff_of_true (fun failed => absurd (stored.ret.symm.trans failed) (by omega))
      enough.failsInPlace⟩
  | ended fill enough =>
    exact ⟨fun ok => absurd rfl ok, iff_of_true (fun _ => Or.inr (own.live fill.move fill.plain fill.room))
      enough.failsInPlace⟩
  | @noMem ctx b cap k got rest' fill fails size asked =>
    refine ⟨fun ok => absurd rfl ok, ?_⟩
    obtain ⟨ptr, word⟩ := own.unchanged fill.move fun _ => List.mem_cons_of_mem b
    have valid : BufferValid s.ctx ⟨ctx, some rest', -1, some .ENOMEM⟩ lineptrOff nOff ↔
        LiveBlock ctx (s.ctx.memory.read32 lineptrOff) (s.ctx.memory.read32 nOff) := by
      unfold BufferValid
      dsimp only
      rw [ptr, word]
      exact or_iff_right fun null => given null.1
    constructor
    · intro kept k' p' asked' fails'
      rw [fails'.unique fails]
      by_contra moved
      rw [← at_h] at moved valid
      exact caller.not_live held plain fill moved (valid.mp (kept rfl))
    · intro inPlace _
      have home := inPlace k b.ptr (by rwa [← size]) fails
      refine valid.mpr ⟨_, fill.move.inv, b, List.mem_cons_self, fill.plain, home, ?_⟩
      have more := Nat.le_mul_of_pos_left (s.ctx.memory.read32 nOff) (Nat.two_pow_pos k)
      have size' := fill.room
      omega

end Call

/-- `do_getdelim` does what it should exactly when no doubling that the record asks for fails after the
caller's block was moved. -/
theorem getdelim_met_iff {s : GuestHeap} {lineptrOff nOff : ℕ} (caller : CallerBuffer s lineptrOff nOff)
    (delim : ℤ) (f : Option (List UInt8)) :
    GetdelimMet s.ctx lineptrOff nOff delim f ↔ ∀ content, f = some content →
      ¬ (s.ctx.memorySize < u32 (lineptrOff + 4) ∨ s.ctx.memorySize < u32 (nOff + 4)) →
      s.ctx.memory.read32 lineptrOff ≠ 0 → s.ctx.memory.read32 nOff ≠ 0 →
      FailsInPlace s.ctx (s.ctx.memory.read32 lineptrOff) (s.ctx.memory.read32 nOff)
        (nextRecord delim content).length := by
  have kept (f' : Option (List UInt8)) (e : Option Errno) : BufferValid s.ctx ⟨s.ctx, f', -1, e⟩ lineptrOff nOff :=
    caller.valid (.refl caller.heap) fun _ => id
  unfold GetdelimMet
  cases f with
  | none =>
    refine iff_of_true ⟨_, rfl, fun ok => absurd rfl ok, fun _ => kept _ _⟩ ?_
    rintro _ ⟨⟩
  | some content =>
    unfold doGetdelim
    dsimp only
    by_cases range : s.ctx.memorySize < u32 (lineptrOff + 4) ∨ s.ctx.memorySize < u32 (nOff + 4)
    · rw [if_pos range]
      exact iff_of_true ⟨_, rfl, fun ok => absurd rfl ok, fun _ => kept _ _⟩ fun _ _ fine => absurd range fine
    · rw [if_neg range]
      by_cases fresh : s.ctx.memory.read32 lineptrOff = 0 ∨ s.ctx.memory.read32 nOff = 0
      · refine iff_of_true ?_ fun _ _ _ given room => absurd fresh (not_or.mpr ⟨given, room⟩)
        rw [if_pos fresh]
        rcases caller.heap.malloc_cases (show Fits 128 by decide) with ⟨ctx, eq, move⟩ | ⟨ctx, new, done⟩
        · rw [eq]
          exact ⟨_, if_pos rfl, fun ok => absurd rfl ok, fun _ => caller.valid move fun _ => id⟩
        · obtain ⟨out, run, met, valid⟩ := caller.met_new content delim done
          rw [done.eq]
          exact ⟨out, (if_neg done.ptr_ne).trans run, fun ok => ⟨content, rfl, met ok⟩, valid⟩
      · obtain ⟨given, room⟩ := not_or.mp fresh
        obtain ⟨out, run, met, valid⟩ := caller.met_old content delim given room
        rw [if_neg fresh, run]
        constructor
        · rintro ⟨out', same, -, kept⟩ content' same' - - -
          cases same
          cases same'
          exact valid.mp kept
        · intro inPlace
          exact ⟨out, rfl, fun ok => ⟨content, rfl, met ok⟩, valid.mpr (inPlace content rfl range given room)⟩

theorem getdelim_met_null :
    GetdelimMet (.blank (2 ^ 22) 0x50000) 16 20 10 (some [104, 105, 10, 33]) := by
  have caller : CallerBuffer ⟨.blank (2 ^ 22) 0x50000, []⟩ 16 20 := by
    refine ⟨Or.inl ⟨freshHeap_blank, rfl⟩, Or.inl rfl, Or.inl (by decide), fun x inside => Or.inl (Or.inl ?_)⟩
    exact Nat.lt_of_lt_of_le (show x < 24 by omega) (by decide)
  exact (getdelim_met_iff caller 10 (some [104, 105, 10, 33])).mpr fun _ _ _ given => absurd rfl given

/-- A heap with a block of 24 bytes, a large block and 64 free bytes, and the first block in the caller's
cells. -/
def nearlyFull : GuestHeap :=
  let first := GuestHeap.take ⟨.blank (2 ^ 22) 0x50000, []⟩ 24 24 hdrSize (yosMalloc (.blank (2 ^ 22) 0x50000) 24)
  let full := first.take 1769368 1769368 hdrSize (yosMalloc first.ctx 1769368)
  full.store ((full.ctx.memory.write32 16 0x50008).write32 20 24)

theorem nearlyFull_caller : CallerBuffer nearlyFull 16 20 := by
  have first : AllocInv ⟨.blank (2 ^ 22) 0x50000, []⟩ := Or.inl ⟨freshHeap_blank, rfl⟩
  have full := (first.malloc (show Fits 24 by decide) le_rfl).malloc (show Fits 1769368 by decide) le_rfl
  have low : (2 ^ 18 : ℕ) ≤ nearlyFull.ctx.setUp.allocLo := by decide +kernel
  have cells {x : ℕ} (inside : (16 ≤ x ∧ x < 16 + 4) ∨ (20 ≤ x ∧ x < 20 + 4)) : nearlyFull.ctx.Outside x :=
    Or.inl (Nat.lt_of_lt_of_le (show x < 2 ^ 18 by omega) low)
  refine ⟨full.store fun x changed => ?_, Or.inr ⟨⟨⟨0x50000, 32⟩, 0x50008, 24, 8⟩, ?_⟩, Or.inl (by decide),
    fun x inside => Or.inl (cells inside)⟩
  · refine (GuestHeap.mine_store _ _ x).mp (Or.inl (cells ?_))
    by_contra out
    exact changed ((write32_apply_of_disjoint (by omega)).trans (write32_apply_of_disjoint (by omega)))
  · decide +kernel

/-- A record of 48 bytes: the buffer is moved to a block of 48 bytes, and there is none of 96. -/
theorem getdelim_dangling : ¬ ∀ s lineptrOff nOff delim f, CallerBuffer s lineptrOff nOff →
    GetdelimMet s.ctx lineptrOff nOff delim f := by
  intro claim
  have cells : nearlyFull.ctx.memory.read32 16 = 0x50008 ∧ nearlyFull.ctx.memory.read32 20 = 24 := by
    decide +kernel
  obtain ⟨out, run, -, valid⟩ := nearlyFull_caller.met_old (List.replicate 48 97) 10
    (by rw [cells.1]; decide) (by rw [cells.2]; decide)
  obtain ⟨out', run', -, kept⟩ := claim nearlyFull 16 20 10 (some (List.replicate 48 97)) nearlyFull_caller
  have fits : ¬ (nearlyFull.ctx.memorySize < u32 (16 + 4) ∨ nearlyFull.ctx.memorySize < u32 (20 + 4)) := by
    decide +kernel
  have given : ¬ (nearlyFull.ctx.memory.read32 16 = 0 ∨ nearlyFull.ctx.memory.read32 20 = 0) := by
    rw [cells.1, cells.2]
    decide
  unfold doGetdelim at run'
  dsimp only at run'
  rw [if_neg fits, if_neg given, run] at run'
  cases run'
  have moved : (grown nearlyFull.ctx 0x50008 24 1).map Prod.snd = some 0x1fffc8 := by decide +kernel
  have fails : (grown nearlyFull.ctx 0x50008 24 2).map Prod.snd = some 0 := by decide +kernel
  obtain ⟨⟨c, p⟩, at_1, rfl⟩ := Option.map_eq_some_iff.mp moved
  obtain ⟨⟨c', z⟩, at_2, rfl⟩ := Option.map_eq_some_iff.mp fails
  have inPlace := valid.mp kept
  rw [cells.1, cells.2] at inPlace
  have home := inPlace 1 0x1fffc8 (by decide) ⟨by decide, c, c', at_1, at_2⟩
  exact absurd home (by decide)

end Yos
