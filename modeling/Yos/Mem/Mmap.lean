import Yos.Errno
import Yos.Lib.Table
import Yos.Mem.Ctx

/-!
# Anonymous mappings and the program break (`impl/mem/mem.c`)

`yos_mmap2` and `yos_munmap` keep two bounded tables: `free_list` holds the ranges that may be
handed out again, `live_list` the mappings that may be unmapped.  Ranges beyond both are handed out
at `mmap_top`, which only rises.  A table entry is removed by moving the last entry to its slot.

The two loops that take a range out of a table restart at the slot they refilled; `carveLoop` bounds
their iterations by three times the entries, which always suffices (`carve_spec` in
`Mem/Regions`).  The overlap test `range_overlaps_live` only selects a log line and is left out.
-/

namespace Yos

open Word Table

/-! ## The region tables -/

/-- The loop of `find_free_region`: the slot of the smallest entry that holds `len` bytes. -/
def bestFit (len : ℕ) : List Span → (i : ℕ) → (best : Option ℕ) → (bestSize : ℕ) → Option ℕ
  | [], _, best, _ => best
  | r :: l, i, best, bestSize =>
    if len ≤ r.len ∧ r.len < bestSize then bestFit len l (i + 1) (some i) r.len
    else bestFit len l (i + 1) best bestSize

/-- `find_free_region`: the table and the address found, 0 if there is none. -/
def findFreeRegion (free : List Span) (len : ℕ) : List Span × ℕ :=
  match bestFit len free 0 none (2 ^ 32 - 1) with
  | none => (free, 0)
  | some best =>
    let r := free.getD best ⟨0, 0⟩
    let remaining := r.len - len
    if 4096 ≤ remaining then (free.set best ⟨u32 (r.addr + len), remaining⟩, r.addr)
    else (swapRemove free best, r.addr)

/-- `free_list_push_raw`. -/
def freeListPushRaw (free : List Span) (r : Span) : List Span :=
  if r.len = 0 then free
  else (if maxFreeRegions ≤ free.length then swapRemove free 0 else free) ++ [r]

/-- The inner loop of `add_free_region`: the first entry that touches `[addr, addr + len)`, and
the two ranges joined. -/
def findTouching (addr len : ℕ) : List Span → (i : ℕ) → Option (ℕ × Span)
  | [], _ => none
  | r :: l, i =>
    if u32 (r.addr + r.len) = addr then some (i, ⟨r.addr, u32 (len + r.len)⟩)
    else if u32 (addr + len) = r.addr then some (i, ⟨addr, u32 (len + r.len)⟩)
    else findTouching addr len l (i + 1)

/-- The outer loop of `add_free_region`; every merge takes an entry out of the table. -/
def mergeLoop : (fuel : ℕ) → List Span → Span → List Span × Span
  | 0, free, r => (free, r)
  | fuel + 1, free, r =>
    match findTouching r.addr r.len free 0 with
    | none => (free, r)
    | some (i, r') => mergeLoop fuel (swapRemove free i) r'

/-- `add_free_region`. -/
def addFreeRegion (free : List Span) (r : Span) : List Span :=
  if r.len = 0 then free
  else
    let (free, r) := mergeLoop free.length free r
    freeListPushRaw free r

/-- The loop of `carve_free_range` and `live_remove`: drop every entry that meets `[addr, stop)`
and push what is left of it on either side. -/
def carveLoop (push : List Span → Span → List Span) (addr stop : ℕ) :
    (fuel i : ℕ) → List Span → List Span
  | 0, _, l => l
  | fuel + 1, i, l =>
    match l[i]? with
    | none => l
    | some r =>
      let regionEnd := r.addr + r.len
      if regionEnd ≤ addr ∨ stop ≤ r.addr then carveLoop push addr stop fuel (i + 1) l
      else
        let l := swapRemove l i
        let l := if r.addr < addr then push l ⟨r.addr, addr - r.addr⟩ else l
        let l := if stop < regionEnd then push l ⟨u32 stop, u32 (regionEnd - stop)⟩ else l
        carveLoop push addr stop fuel i l

/-- `carve_free_range`. -/
def carveFreeRange (free : List Span) (addr len : ℕ) : List Span :=
  carveLoop freeListPushRaw addr (addr + len) (3 * free.length) 0 free

/-- `range_overlaps_free`. -/
def rangeOverlapsFree (free : List Span) (addr len : ℕ) : Bool :=
  free.any fun r => r.addr < addr + len ∧ addr < r.addr + r.len

/-- `live_add`. -/
def liveAdd (live : List Span) (r : Span) : List Span :=
  if r.len = 0 then live
  else if maxLiveRegions ≤ live.length then live
  else live ++ [r]

/-- `live_remove`. -/
def liveRemove (live : List Span) (addr len : ℕ) : List Span :=
  carveLoop liveAdd addr (addr + len) (3 * live.length) 0 live

/-! ## The bridges -/

/-- The bound `yos_brk` puts on the break. -/
def mmapAnchor (ctx : MemCtx) : ℕ := if ctx.mmapTop ≠ 0 then ctx.mmapTop else ctx.memorySize / 2

/-- `yos_brk`; the result is the break. -/
def yosBrk (ctx : MemCtx) (addr : ℕ) : MemCtx × Except Errno ℕ :=
  if addr = 0 then (ctx, .ok ctx.heapEnd)
  else if ctx.memorySize < addr then (ctx, .error .ENOMEM)
  else if mmapAnchor ctx < addr then (ctx, .error .ENOMEM)
  else ({ ctx with heapEnd := addr }, .ok addr)

/-- A length rounded up to pages, in 64-bit arithmetic. -/
def pageAlign (len : ℕ) : ℕ := bclr (len + 4095) 4095

theorem pageAlign_eq (len : ℕ) : pageAlign len = (len + 4095) / 4096 * 4096 :=
  bclr_two_pow (len + 4095) 12

/-- The loop of `yos_munmap` over the live table: zero and free every overlap with
`[addr, stop)`. -/
def munmapLoop (addr stop : ℕ) :
    List Span → (memory : Bytes) → (free : List Span) → (freedAny : Bool) → Bytes × List Span × Bool
  | [], memory, free, freedAny => (memory, free, freedAny)
  | r :: l, memory, free, freedAny =>
    let overlapLo := if addr < r.addr then r.addr else addr
    let overlapHi := if r.addr + r.len < stop then r.addr + r.len else stop
    if overlapHi ≤ overlapLo then munmapLoop addr stop l memory free freedAny
    else
      let overlapLen := u32 (overlapHi - overlapLo)
      munmapLoop addr stop l (memory.fill overlapLo overlapLen 0)
        (addFreeRegion free ⟨overlapLo, overlapLen⟩) true

/-- `yos_munmap`. -/
def yosMunmap (ctx : MemCtx) (addr len : ℕ) : MemCtx × Except Errno Unit :=
  let aligned := pageAlign len
  if aligned = 0 ∨ ctx.memorySize < aligned ∨ ctx.memorySize < addr + aligned then
    (ctx, .error .EINVAL)
  else if rangeOverlapsFree ctx.freeList addr aligned then (ctx, .ok ())
  else
    let (memory, freeList, freedAny) :=
      munmapLoop addr (addr + aligned) ctx.liveList ctx.memory ctx.freeList false
    let liveList := if freedAny then liveRemove ctx.liveList addr aligned else ctx.liveList
    ({ ctx with memory, freeList, liveList }, .ok ())

/-- `MAP_FIXED`. -/
def mapFixed : ℕ := 0x10

/-- The part of `yos_mmap2` for `MAP_FIXED`; `length` is page-aligned. -/
def mmapFixedAt (ctx : MemCtx) (addr length : ℕ) : MemCtx × Except Errno ℕ :=
  if ctx.memorySize < addr + length then (ctx, .error .ENOMEM)
  else if addr < ctx.heapEnd then (ctx, .error .EINVAL)
  else
    let liveList := liveAdd (liveRemove ctx.liveList addr length) ⟨addr, length⟩
    let freeList := carveFreeRange ctx.freeList addr length
    let mmapTop := if ctx.mmapTop = 0 then ctx.memorySize / 2 else ctx.mmapTop
    let mmapTop := if mmapTop < addr + length then u32 (addr + length) else mmapTop
    ({ ctx with liveList, freeList, mmapTop, memory := ctx.memory.fill addr length 0 }, .ok addr)

/-- The end of `yos_mmap2`: hand out the range at `mmap_top`. -/
def mmapBump (ctx : MemCtx) (length : ℕ) : MemCtx × Except Errno ℕ :=
  if ctx.mmapTop < ctx.heapEnd then (ctx, .error .ENOMEM)
  else
    let result := ctx.mmapTop
    if ctx.memorySize < result + length then (ctx, .error .ENOMEM)
    else
      ({ ctx with
          mmapTop := u32 (result + length)
          liveList := liveAdd ctx.liveList ⟨result, length⟩
          memory := ctx.memory.fill result length 0 }, .ok result)

/-- The part of `yos_mmap2` that chooses the address itself. -/
def mmapAnywhere (ctx : MemCtx) (length : ℕ) : MemCtx × Except Errno ℕ :=
  let (freeList, result) := findFreeRegion ctx.freeList length
  let ctx := { ctx with freeList }
  if result ≠ 0 then
    ({ ctx with liveList := liveAdd ctx.liveList ⟨result, length⟩ }, .ok result)
  else mmapBump (if ctx.mmapTop = 0 then { ctx with mmapTop := ctx.memorySize / 2 } else ctx) length

/-- `yos_mmap2`; `prot` and `pgoffset` are not read. -/
def yosMmap2 (ctx : MemCtx) (addr length : ℕ) (flags : ℕ) (fd : ℤ) : MemCtx × Except Errno ℕ :=
  if fd ≠ -1 ∧ fd ≠ 0xffffffff then (ctx, .error .ENOSYS)
  else
    let aligned := pageAlign length
    if aligned = 0 ∨ ctx.memorySize < aligned then (ctx, .error .ENOMEM)
    else if flags &&& mapFixed ≠ 0 ∧ addr ≠ 0 then mmapFixedAt ctx addr aligned
    else mmapAnywhere ctx aligned

end Yos
