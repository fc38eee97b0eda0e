import Yos.Mem.Ctx

/-!
# The guest heap (`impl/mem/alloc.c`)

A first-fit allocator whose free list lives in the guest's linear memory.  A block starts with an
8-byte header: its size at offset 0 and, while it is free, the offset of the next free block at
offset 4.  The pointer handed to the guest is the block's offset plus 8.

`yos_free` walks the list without a bound, so `freeWalk` and `yosFree` take a number of iterations
and answer `none` when it does not suffice.  `do_alloc` carries its own bound of `2 ^ 22` nodes.
The diagnostic walk `dump_free_list` only logs and is left out.
-/

namespace Yos

open Word

/-- `HDR_SIZE`. -/
def hdrSize : ℕ := 8

/-- `MIN_BLOCK`. -/
def minBlock : ℕ := 32

/-- `ALIGN`. -/
def blkAlign : ℕ := 16

/-- `align_up`. -/
def alignUp (x a : ℕ) : ℕ := bclr (u32 (x + (a - 1))) (a - 1)

/-- The difference of two `uint32_t`. -/
def sub32 (a b : ℕ) : ℕ := u32 (a + 2 ^ 32 - b)

/-- `blk_size`. -/
def blkSize (ctx : MemCtx) (off : ℕ) : ℕ := ctx.memory.read32 off

/-- `blk_set_size`. -/
def blkSetSize (ctx : MemCtx) (off s : ℕ) : MemCtx :=
  { ctx with memory := ctx.memory.write32 off s }

/-- `blk_next`. -/
def blkNext (ctx : MemCtx) (off : ℕ) : ℕ := ctx.memory.read32 (off + 4)

/-- `blk_set_next`. -/
def blkSetNext (ctx : MemCtx) (off n : ℕ) : MemCtx :=
  { ctx with memory := ctx.memory.write32 (off + 4) n }

/-- `alloc_init_locked`; `none` is the result `-1`. -/
def allocInitLocked (ctx : MemCtx) : Option MemCtx :=
  if ctx.allocHi ≠ 0 then some ctx
  else
    let lo := alignUp ctx.heapEnd blkAlign
    let hi := bclr (ctx.memorySize / 2) 0xfff
    if hi ≤ u32 (lo + 2 ^ 20) then none
    else
      let ctx := { ctx with allocLo := lo, allocHi := hi, allocFreeHead := lo }
      let ctx := blkSetSize ctx lo (sub32 hi lo)
      let ctx := blkSetNext ctx lo 0
      some { ctx with heapEnd := hi }

/-- Make `n` the successor of the free block `prev`, or the first free block if `prev` is 0. -/
def setLink (ctx : MemCtx) (prev n : ℕ) : MemCtx :=
  if prev ≠ 0 then blkSetNext ctx prev n else { ctx with allocFreeHead := n }

/-- The body of `do_alloc` once the block at `cur` is large enough: split it if the leftover is a
block of its own, unlink it, and return its payload. -/
def takeBlock (ctx : MemCtx) (need prevOff cur : ℕ) : MemCtx × ℕ :=
  let bsz := blkSize ctx cur
  let bnext := blkNext ctx cur
  let (ctx, afterNext) :=
    if u32 (need + minBlock) ≤ bsz then
      let split := u32 (cur + need)
      (blkSetSize (blkSetNext (blkSetSize ctx split (sub32 bsz need)) split bnext) cur need, split)
    else (ctx, bnext)
  (setLink ctx prevOff afterNext, u32 (cur + hdrSize))

/-- The loop of `do_alloc`; `guard` is the number of nodes it may still visit. -/
def doAllocLoop (ctx : MemCtx) (need : ℕ) : (guard prevOff cur : ℕ) → MemCtx × ℕ
  | 0, _, _ => (ctx, 0)
  | guard + 1, prevOff, cur =>
    if cur = 0 then (ctx, 0)
    else if need ≤ blkSize ctx cur then takeBlock ctx need prevOff cur
    else doAllocLoop ctx need guard cur (blkNext ctx cur)

/-- `do_alloc`. -/
def doAlloc (ctx : MemCtx) (need : ℕ) : MemCtx × ℕ :=
  doAllocLoop ctx need (2 ^ 22) 0 ctx.allocFreeHead

/-- The block size `yos_malloc` computes for a request. -/
def mallocNeed (size : ℕ) : ℕ :=
  let size := if size = 0 then 1 else size
  let need := alignUp (u32 (size + hdrSize)) blkAlign
  if need < minBlock then minBlock else need

/-- `yos_malloc`; the second component is the returned pointer. -/
def yosMalloc (ctx : MemCtx) (size : ℕ) : MemCtx × ℕ :=
  match allocInitLocked ctx with
  | none => (ctx, 0)
  | some ctx => doAlloc ctx (mallocNeed size)

/-- `unshift_user_off`. -/
def unshiftUserOff (ctx : MemCtx) (off : ℕ) : ℕ :=
  if off &&& 15 ≠ 0 then off
  else if off < u32 (ctx.allocLo + 2 * hdrSize) then off
  else
    let raw := ctx.memory.read32 (off - 4)
    if raw < u32 (ctx.allocLo + hdrSize) ∨ off ≤ raw then off
    else if ctx.allocHi < u32 (raw + hdrSize) then off
    else
      let bo := sub32 raw hdrSize
      let bs := blkSize ctx bo
      if bs < minBlock ∨ ctx.allocHi < u32 (bo + bs) then off
      else if u32 (bo + bs) ≤ off then off
      else raw

/-- How the walk of `yos_free` ends: the block lies inside a free block, or the insertion point
between `prev` and `cur` is found. -/
inductive FreeWalk where
  | doubleFree
  | stop (prev cur : ℕ)
deriving DecidableEq, Repr

/-- The loop of `yos_free`. -/
def freeWalk (ctx : MemCtx) (blkOff : ℕ) : (fuel prev cur : ℕ) → Option FreeWalk
  | 0, _, _ => none
  | fuel + 1, prev, cur =>
    if cur ≠ 0 ∧ cur < blkOff then
      if blkOff < u32 (cur + blkSize ctx cur) then some .doubleFree
      else freeWalk ctx blkOff fuel cur (blkNext ctx cur)
    else some (.stop prev cur)

/-- Link the block `[blkOff, blkOff + sz)` after `prev`, or merge it into `prev`.  Returns the
context, and the offset and size of the block that now contains it. -/
def linkPrev (ctx : MemCtx) (prev cur blkOff sz : ℕ) : MemCtx × ℕ × ℕ :=
  if prev ≠ 0 then
    let prevSz := blkSize ctx prev
    if u32 (prev + prevSz) = blkOff then
      (blkSetSize ctx prev (u32 (prevSz + sz)), prev, u32 (prevSz + sz))
    else (blkSetNext (blkSetNext ctx prev blkOff) blkOff cur, blkOff, sz)
  else ({ blkSetNext ctx blkOff cur with allocFreeHead := blkOff }, blkOff, sz)

/-- Merge the free block `cur` into the block `[blkOff, blkOff + sz)` that ends where it starts. -/
def mergeNext (ctx : MemCtx) (blkOff sz cur : ℕ) : MemCtx :=
  if cur ≠ 0 ∧ u32 (blkOff + sz) = cur then
    let curSz := blkSize ctx cur
    let curNext := blkNext ctx cur
    blkSetNext (blkSetSize ctx blkOff (u32 (sz + curSz))) blkOff curNext
  else ctx

/-- `yos_free`; `none` if `fuel` iterations of the walk do not suffice. -/
def yosFree (fuel : ℕ) (ctx : MemCtx) (off : ℕ) : Option MemCtx :=
  if off = 0 then some ctx
  else if off < u32 (ctx.allocLo + hdrSize) ∨ ctx.allocHi ≤ off then some ctx
  else
    let blkOff := sub32 (unshiftUserOff ctx off) hdrSize
    let sz := blkSize ctx blkOff
    if sz < minBlock ∨ ctx.allocHi < u32 (blkOff + sz) then some ctx
    else
      match freeWalk ctx blkOff fuel 0 ctx.allocFreeHead with
      | none => none
      | some .doubleFree => some ctx
      | some (.stop prev cur) =>
        if cur = blkOff then some ctx
        else
          let (ctx, blkOff, sz) := linkPrev ctx prev cur blkOff sz
          some (mergeNext ctx blkOff sz cur)

end Yos
