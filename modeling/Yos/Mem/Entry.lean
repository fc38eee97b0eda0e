import Yos.Errno
import Yos.Mem.Alloc

/-!
# The other entry points of the guest heap (`impl/mem/alloc.c`)

`yos_calloc`, `yos_realloc`, `yos_reallocarray`, `yos_posix_memalign`, `yos_aligned_alloc`,
`yos_memalign`, `yos_valloc` and `yos_malloc_usable_size` over `yos_malloc` and `yos_free`.  For an
alignment above 8 `yos_posix_memalign` hands out a pointer behind the start of the payload and stores
the start in the four bytes before it, where `unshift_user_off` looks for it.

`yos_realloc` frees the old block, so like `yosFree` it takes a number of iterations for the walk.
-/

namespace Yos

open Word

/-- The test `nmemb && size > UINT32_MAX / nmemb`. -/
def mulOverflows (nmemb size : ℕ) : Prop := nmemb ≠ 0 ∧ (2 ^ 32 - 1) / nmemb < size

instance (nmemb size : ℕ) : Decidable (mulOverflows nmemb size) :=
  inferInstanceAs (Decidable (_ ∧ _))

/-- `yos_calloc`. -/
def yosCalloc (ctx : MemCtx) (nmemb size : ℕ) : MemCtx × ℕ :=
  if mulOverflows nmemb size then (ctx, 0)
  else
    let total := u32 (nmemb * size)
    let (ctx, off) := yosMalloc ctx total
    if off = 0 then (ctx, 0)
    else
      let bsz := blkSize ctx (sub32 off hdrSize)
      let usable := if hdrSize < bsz then bsz - hdrSize else total
      let usable := if usable < total then total else usable
      ({ ctx with memory := ctx.memory.fill off usable 0 }, off)

/-- `yos_realloc`; `none` if `fuel` iterations of the walk of `yos_free` do not suffice. -/
def yosRealloc (fuel : ℕ) (ctx : MemCtx) (off newsize : ℕ) : Option (MemCtx × ℕ) :=
  if off = 0 then some (yosMalloc ctx newsize)
  else if newsize = 0 then (yosFree fuel ctx off).map fun ctx => (ctx, 0)
  else if off < u32 (ctx.allocLo + hdrSize) ∨ ctx.allocHi ≤ off then some (ctx, 0)
  else
    let off := unshiftUserOff ctx off
    let blkOff := sub32 off hdrSize
    let oldsz := blkSize ctx blkOff
    if oldsz < hdrSize ∨ ctx.allocHi < u32 (blkOff + oldsz) then some (ctx, 0)
    else
      let oldPayload := oldsz - hdrSize
      if newsize ≤ oldPayload then some (ctx, off)
      else
        let (ctx, newoff) := yosMalloc ctx newsize
        if newoff = 0 then some (ctx, 0)
        else
          let ctx := { ctx with memory := ctx.memory.copy newoff off oldPayload }
          (yosFree fuel ctx off).map fun ctx => (ctx, newoff)

/-- `yos_reallocarray`. -/
def yosReallocarray (fuel : ℕ) (ctx : MemCtx) (off nmemb size : ℕ) : Option (MemCtx × ℕ) :=
  if mulOverflows nmemb size then some (ctx, 0) else yosRealloc fuel ctx off (u32 (nmemb * size))

/-- The size `yos_posix_memalign` asks `yos_malloc` for. -/
def memalignNeed (alignment size : ℕ) : ℕ :=
  if alignment ≤ hdrSize then if size ≠ 0 then size else 1
  else if size + alignment = 0 then 1 else size + alignment

/-- The pointer of `yos_posix_memalign` in the block with the payload at `raw`, for an alignment
above `HDR_SIZE`. -/
def alignedOff (raw alignment : ℕ) : ℕ :=
  let aligned := bclr (u32 (raw + alignment - 1)) (alignment - 1)
  if aligned = raw then u32 (raw + alignment) else aligned

/-- `yos_posix_memalign`; the pointer is stored in the word at `memptrOff`. -/
def yosPosixMemalign (ctx : MemCtx) (memptrOff alignment size : ℕ) : MemCtx × Except Errno Unit :=
  if memptrOff = 0 ∨ ctx.memorySize < memptrOff + 4 then (ctx, .error .EINVAL)
  else if alignment < 4 ∨ alignment &&& (alignment - 1) ≠ 0 then (ctx, .error .EINVAL)
  else if alignment ≤ hdrSize then
    let (ctx, off) := yosMalloc ctx (memalignNeed alignment size)
    if off = 0 then (ctx, .error .ENOMEM)
    else ({ ctx with memory := ctx.memory.write32 memptrOff off }, .ok ())
  else if 2 ^ 32 - 1 < memalignNeed alignment size then (ctx, .error .ENOMEM)
  else
    let (ctx, raw) := yosMalloc ctx (memalignNeed alignment size)
    if raw = 0 then (ctx, .error .ENOMEM)
    else
      let aligned := alignedOff raw alignment
      let memory := (ctx.memory.write32 (aligned - 4) raw).write32 memptrOff aligned
      ({ ctx with memory }, .ok ())

/-- `yos_aligned_alloc`. -/
def yosAlignedAlloc (ctx : MemCtx) (alignment size : ℕ) : MemCtx × ℕ :=
  if alignment = 0 ∨ alignment &&& (alignment - 1) ≠ 0 then (ctx, 0)
  else if blkAlign < alignment then (ctx, 0)
  else yosMalloc ctx size

/-- `yos_memalign`. -/
def yosMemalign (ctx : MemCtx) (alignment size : ℕ) : MemCtx × ℕ := yosAlignedAlloc ctx alignment size

/-- `yos_valloc`. -/
def yosValloc (ctx : MemCtx) (size : ℕ) : MemCtx × ℕ := yosMalloc ctx size

/-- `yos_malloc_usable_size`. -/
def yosMallocUsableSize (ctx : MemCtx) (off : ℕ) : ℕ :=
  if off = 0 then 0
  else if off < u32 (ctx.allocLo + hdrSize) ∨ ctx.allocHi ≤ off then 0
  else
    let sz := blkSize ctx (sub32 off hdrSize)
    if sz < hdrSize then 0 else sz - hdrSize

end Yos
