import Yos.Mem.Entry
import Yos.Mem.HeapRun

/-!
# Runs of all entry points of the guest heap

`allocSystem` runs every entry point of `impl/mem/alloc.c` from a context whose heap is not set up,
with guest writes to payloads and to memory outside the heap in between.  A state is the context and
what the guest holds: each pointer with its block, the bytes asked for and the alignment.

`yos_malloc` adds the header and rounds up in 32 bits, so a request of `2 ^ 32 - 23` bytes or more
wraps and gets a block of 32 bytes.  In a run without such requests the blocks stay in order and every
pointer keeps its place in its block (`AllocInv`).
-/

namespace Yos

open Word Bytes Span

/-! ## The system -/

/-- A pointer the guest holds: the block it was carved from, the bytes asked for, and the alignment
asked of `yos_posix_memalign` (8 from the other entry points). -/
structure HeldPtr where
  block : Span
  ptr : ℕ
  size : ℕ
  alignment : ℕ
deriving DecidableEq, Repr

/-- The pointer of the block. -/
def HeldPtr.raw (h : HeldPtr) : ℕ := h.block.addr + hdrSize

/-- The address belongs to the guest: from the pointer to the end of the block. -/
def HeldPtr.Owns (h : HeldPtr) (x : ℕ) : Prop := h.ptr ≤ x ∧ x < h.block.fin

/-- A context and what the guest holds. -/
structure GuestHeap where
  ctx : MemCtx
  held : List HeldPtr

/-- The blocks of what the guest holds. -/
def GuestHeap.blocks (s : GuestHeap) : List Span := s.held.map HeldPtr.block

/-- The calls of a run, and the guest's writes. -/
inductive AllocCall where
  | malloc (size : ℕ)
  | calloc (nmemb size : ℕ)
  | realloc (p newsize : ℕ)
  | reallocarray (p nmemb size : ℕ)
  | posixMemalign (memptr alignment size : ℕ)
  | alignedAlloc (alignment size : ℕ)
  | memalign (alignment size : ℕ)
  | valloc (size : ℕ)
  | free (p : ℕ)
  | write (a : ℕ) (v : UInt8)
deriving DecidableEq, Repr

/-- The block `yos_malloc` takes. -/
def mallocBlock (ctx : MemCtx) (size : ℕ) : Span :=
  blockOf (yosMalloc ctx size).1 (yosMalloc ctx size).2

/-- `yos_posix_memalign` with the pointer it stores, 0 if it fails. -/
def memalignResult (ctx : MemCtx) (memptr alignment size : ℕ) : MemCtx × ℕ :=
  match yosPosixMemalign ctx memptr alignment size with
  | (ctx, .ok _) => (ctx, ctx.memory.read32 memptr)
  | (ctx, .error _) => (ctx, 0)

/-- The state after an entry point that asked `yos_malloc` for `request` bytes. -/
def GuestHeap.take (s : GuestHeap) (request size alignment : ℕ) (result : MemCtx × ℕ) : GuestHeap :=
  if result.2 = 0 then { s with ctx := result.1 }
  else ⟨result.1, ⟨mallocBlock s.ctx request, result.2, size, alignment⟩ :: s.held⟩

/-- The block of the result of `yos_realloc`. -/
def resizedBlock (ctx : MemCtx) (h : HeldPtr) (newsize : ℕ) : Span :=
  if newsize + hdrSize ≤ h.block.len then h.block else mallocBlock ctx newsize

/-- The state after `yos_realloc` of a pointer the guest holds. -/
def GuestHeap.resize (s : GuestHeap) (h : HeldPtr) (newsize : ℕ) (result : MemCtx × ℕ) : GuestHeap :=
  if newsize = 0 then ⟨result.1, s.held.erase h⟩
  else if result.2 = 0 then { s with ctx := result.1 }
  else ⟨result.1, ⟨resizedBlock s.ctx h newsize, result.2, newsize, hdrSize⟩ :: s.held.erase h⟩

/-- The guest may use the `n` bytes at `a`: they lie outside the heap, or behind a pointer it holds. -/
def OwnCell (s : GuestHeap) (ctx : MemCtx) (a n : ℕ) : Prop :=
  (∀ x, a ≤ x → x < a + n → x < ctx.allocLo ∨ ctx.allocHi ≤ x) ∨
    ∃ h ∈ s.held, ∀ x, a ≤ x → x < a + n → h.Owns x

/-- The steps of a run. -/
inductive AllocStep : GuestHeap → AllocCall → GuestHeap → Prop where
  | malloc (s : GuestHeap) (size : ℕ) (word : size < 2 ^ 32) :
      AllocStep s (.malloc size) (s.take size size hdrSize (yosMalloc s.ctx size))
  | calloc (s : GuestHeap) (nmemb size : ℕ) (words : nmemb < 2 ^ 32 ∧ size < 2 ^ 32) :
      AllocStep s (.calloc nmemb size)
        (s.take (u32 (nmemb * size)) (nmemb * size) hdrSize (yosCalloc s.ctx nmemb size))
  | posixMemalign (s : GuestHeap) (memptr alignment size : ℕ)
      (words : memptr < 2 ^ 32 ∧ alignment < 2 ^ 32 ∧ size < 2 ^ 32)
      (cell : OwnCell s (memalignResult s.ctx memptr alignment size).1 memptr 4) :
      AllocStep s (.posixMemalign memptr alignment size)
        (s.take (memalignNeed alignment size) size alignment
          (memalignResult s.ctx memptr alignment size))
  | alignedAlloc (s : GuestHeap) (alignment size : ℕ) (words : alignment < 2 ^ 32 ∧ size < 2 ^ 32) :
      AllocStep s (.alignedAlloc alignment size)
        (s.take size size hdrSize (yosAlignedAlloc s.ctx alignment size))
  | memalign (s : GuestHeap) (alignment size : ℕ) (words : alignment < 2 ^ 32 ∧ size < 2 ^ 32) :
      AllocStep s (.memalign alignment size)
        (s.take size size hdrSize (yosMemalign s.ctx alignment size))
  | valloc (s : GuestHeap) (size : ℕ) (word : size < 2 ^ 32) :
      AllocStep s (.valloc size) (s.take size size hdrSize (yosValloc s.ctx size))
  | reallocNull (s : GuestHeap) (newsize : ℕ) (word : newsize < 2 ^ 32) {fuel : ℕ} {result : MemCtx × ℕ}
      (returns : yosRealloc fuel s.ctx 0 newsize = some result) :
      AllocStep s (.realloc 0 newsize) (s.take newsize newsize hdrSize result)
  | realloc {s : GuestHeap} {h : HeldPtr} {newsize fuel : ℕ} {result : MemCtx × ℕ} (held : h ∈ s.held)
      (word : newsize < 2 ^ 32) (returns : yosRealloc fuel s.ctx h.ptr newsize = some result) :
      AllocStep s (.realloc h.ptr newsize) (s.resize h newsize result)
  | reallocarrayNull (s : GuestHeap) (nmemb size : ℕ) (words : nmemb < 2 ^ 32 ∧ size < 2 ^ 32) {fuel : ℕ}
      {result : MemCtx × ℕ} (returns : yosReallocarray fuel s.ctx 0 nmemb size = some result) :
      AllocStep s (.reallocarray 0 nmemb size)
        (s.take (u32 (nmemb * size)) (nmemb * size) hdrSize result)
  | reallocarray {s : GuestHeap} {h : HeldPtr} {nmemb size fuel : ℕ} {result : MemCtx × ℕ}
      (held : h ∈ s.held) (words : nmemb < 2 ^ 32 ∧ size < 2 ^ 32)
      (returns : yosReallocarray fuel s.ctx h.ptr nmemb size = some result) :
      AllocStep s (.reallocarray h.ptr nmemb size) (s.resize h (nmemb * size) result)
  | freeNull (s : GuestHeap) : AllocStep s (.free 0) s
  | free {s : GuestHeap} {h : HeldPtr} {fuel : ℕ} {ctx : MemCtx} (held : h ∈ s.held)
      (returns : yosFree fuel s.ctx h.ptr = some ctx) :
      AllocStep s (.free h.ptr) ⟨ctx, s.held.erase h⟩
  | write {s : GuestHeap} {a : ℕ} {v : UInt8} (own : OwnCell s s.ctx a 1) :
      AllocStep s (.write a v) { s with ctx := { s.ctx with memory := s.ctx.memory.fill a 1 v } }

/-- A context whose heap is not set up, with the break inside the memory. -/
structure FreshHeap (ctx : MemCtx) : Prop where
  unset : ctx.allocHi = 0
  pos : 0 < ctx.heapEnd
  brk : ctx.heapEnd ≤ ctx.memorySize
  size : ctx.memorySize ≤ 2 ^ 31

theorem freshHeap_blank : FreshHeap (.blank (2 ^ 22) 0x50000) := ⟨rfl, by decide, by decide, by decide⟩

/-- The runs from a context whose heap is not set up. -/
def allocSystem : System GuestHeap AllocCall where
  init s := FreshHeap s.ctx ∧ s.held = []
  step := AllocStep

/-! ## Requests that wrap -/

/-- The size an entry point asks `yos_malloc` for, if it comes to that. -/
def AllocCall.request : AllocCall → Option ℕ
  | .malloc size => some size
  | .calloc nmemb size => if mulOverflows nmemb size then none else some (nmemb * size)
  | .realloc _ newsize => some newsize
  | .reallocarray _ nmemb size => if mulOverflows nmemb size then none else some (nmemb * size)
  | .posixMemalign _ alignment size =>
    if alignment < 4 ∨ alignment &&& (alignment - 1) ≠ 0 ∨ 2 ^ 32 - 1 < memalignNeed alignment size then
      none
    else some (memalignNeed alignment size)
  | .alignedAlloc alignment size =>
    if alignment = 0 ∨ alignment &&& (alignment - 1) ≠ 0 ∨ blkAlign < alignment then none else some size
  | .memalign alignment size =>
    if alignment = 0 ∨ alignment &&& (alignment - 1) ≠ 0 ∨ blkAlign < alignment then none else some size
  | .valloc size => some size
  | .free _ => none
  | .write _ _ => none

/-- The header and the rounding fit in 32 bits. -/
def Fits (request : ℕ) : Prop := request + hdrSize + (blkAlign - 1) < 2 ^ 32

instance (request : ℕ) : Decidable (Fits request) := inferInstanceAs (Decidable (_ < _))

/-- The call makes no request that wraps. -/
def RequestFits (_ : GuestHeap) (c : AllocCall) : Prop := ∀ request, c.request = some request → Fits request

theorem mallocNeed_of_fits {size : ℕ} (fits : Fits size) :
    mallocNeed size = max minBlock ((size + 23) / 16 * 16) := by
  unfold Fits hdrSize blkAlign at fits
  unfold mallocNeed hdrSize minBlock
  dsimp only
  by_cases zero : size = 0
  · rw [if_pos zero, u32_of_lt (by omega), alignUp_eq (by omega), zero]
    rfl
  · rw [if_neg zero, u32_of_lt (by omega), alignUp_eq (by omega)]
    split_ifs <;> omega

/-- The block of a request that does not wrap has room for header and bytes. -/
theorem le_mallocNeed {size : ℕ} (fits : Fits size) : size + 8 ≤ mallocNeed size := by
  rw [mallocNeed_of_fits fits]
  omega

/-- A request that wraps gets the smallest block. -/
theorem mallocNeed_of_not_fits {size : ℕ} (wraps : ¬ Fits size) (word : size < 2 ^ 32) :
    mallocNeed size = minBlock := by
  unfold Fits hdrSize blkAlign at wraps
  have rounded : alignUp (u32 (size + hdrSize)) blkAlign ≤ 16 := by
    unfold alignUp blkAlign u32 hdrSize
    rw [show 16 - 1 = 2 ^ 4 - 1 from rfl, bclr_two_pow]
    omega
  unfold mallocNeed minBlock
  dsimp only
  rw [if_neg (show size ≠ 0 by omega), if_pos (by omega)]

/-! ## The invariant -/

/-- Where a pointer lies in its block: behind the header, or, with an alignment above 8, at a multiple
of 16 after it, with the start of the payload stored in the four bytes before it. -/
structure InBlock (m : Bytes) (h : HeldPtr) : Prop where
  room : h.ptr + h.size ≤ h.block.fin
  plain : h.alignment ≤ hdrSize → h.ptr = h.raw
  shifted : hdrSize < h.alignment → h.ptr % 16 = 0 ∧ h.raw + hdrSize ≤ h.ptr ∧ h.ptr < h.block.fin ∧
    m.read32 (h.ptr - 4) = h.raw

/-- The blocks of what the guest holds and the free blocks tile the heap, and the pointers lie in their
blocks. -/
structure Ready (s : GuestHeap) (free : List Span) : Prop where
  heap : HeapInv s.ctx free s.blocks
  held : ∀ h ∈ s.held, InBlock s.ctx.memory h

/-- The heap is not set up, or it is in order. -/
def AllocInv (s : GuestHeap) : Prop := (FreshHeap s.ctx ∧ s.held = []) ∨ ∃ free, Ready s free

theorem InBlock.raw_le {m : Bytes} {h : HeldPtr} (inside : InBlock m h) : h.raw ≤ h.ptr := by
  by_cases plain : h.alignment ≤ hdrSize
  · exact Nat.le_of_eq (inside.plain plain).symm
  · exact Nat.le_of_add_right_le (inside.shifted (Nat.lt_of_not_le plain)).2.1

/-- A pointer's place depends on the bytes of its block behind the header and before the pointer. -/
theorem InBlock.congr {m m' : Bytes} {h : HeldPtr} (inside : InBlock m h)
    (same : ∀ x, h.raw ≤ x → x < h.ptr → m' x = m x) : InBlock m' h := by
  refine ⟨inside.room, inside.plain, fun above => ?_⟩
  obtain ⟨aligned, low, high, stored⟩ := inside.shifted above
  refine ⟨aligned, low, high, ?_⟩
  rw [← stored]
  unfold hdrSize at low
  exact read32_congr fun x start stop => same x (by omega) (by omega)

namespace Ready

variable {s : GuestHeap} {free : List Span}

theorem mem_blocks {h : HeldPtr} (held : h ∈ s.held) : h.block ∈ s.blocks := List.mem_map_of_mem held

/-- The blocks of what is left when a pointer is given back. -/
theorem blocks_perm {h : HeldPtr} (held : h ∈ s.held) :
    s.blocks.Perm (h.block :: (s.held.erase h).map HeldPtr.block) :=
  (List.perm_cons_erase held).map HeldPtr.block

theorem blocks_erase {h : HeldPtr} (held : h ∈ s.held) :
    (s.blocks.erase h.block).Perm ((s.held.erase h).map HeldPtr.block) :=
  (List.perm_cons_erase (mem_blocks held)).symm.trans (blocks_perm held) |>.cons_inv

/-- A memory that agrees on its block keeps a pointer in its place. -/
theorem inBlock_congr {m : Bytes} {h : HeldPtr} (ready : Ready s free) (held : h ∈ s.held)
    (same : ∀ x, h.block.Has x → m x = s.ctx.memory x) : InBlock m h := by
  have place := ready.held h held
  refine place.congr fun x low high => same x ?_
  have room := place.room
  unfold HeldPtr.raw hdrSize at low
  unfold fin at room
  exact ⟨by omega, by omega⟩

/-- An address lies in one block only. -/
theorem eq_of_has (ready : Ready s free) {h h' : HeldPtr} {x : ℕ} (held : h ∈ s.held) (held' : h' ∈ s.held)
    (has : h.block.Has x) (has' : h'.block.Has x) : h = h' := by
  have apart : s.blocks.Pairwise Span.Disjoint := (List.pairwise_append.1 ready.heap.pairwise).2.1
  by_contra other
  exact (List.pairwise_map.1 apart).forall (R := fun a b : HeldPtr => a.block.Disjoint b.block) held held'
    other x ⟨has, has'⟩

theorem inside {h : HeldPtr} (ready : Ready s free) (held : h ∈ s.held) :
    s.ctx.allocLo ≤ h.block.addr ∧ h.block.fin ≤ s.ctx.allocHi :=
  ready.heap.bounds (List.mem_append_right _ (mem_blocks held))

/-- The addresses a pointer owns lie in the payload of its block. -/
theorem payload_of_owns {h : HeldPtr} {x : ℕ} (ready : Ready s free) (held : h ∈ s.held) (owns : h.Owns x) :
    h.block.addr + 8 ≤ x ∧ x < h.block.fin :=
  ⟨(ready.held h held).raw_le.trans owns.1, owns.2⟩

/-- Stores of the guest to its own bytes and outside the heap keep everything in order. -/
theorem setMemory (ready : Ready s free) {m : Bytes}
    (own : ∀ x, m x ≠ s.ctx.memory x → (x < s.ctx.allocLo ∨ s.ctx.allocHi ≤ x) ∨ ∃ h ∈ s.held, h.Owns x) :
    Ready { s with ctx := { s.ctx with memory := m } } free := by
  constructor
  · refine ready.heap.setMemory fun c mem x start stop => ?_
    by_contra changed
    rcases own x changed with outside | ⟨h, held, owns⟩
    · exact ready.heap.outside_misses outside mem ⟨start, stop⟩
    · exact ready.heap.payload_misses (mem_blocks held) (ready.payload_of_owns held owns) mem ⟨start, stop⟩
  · intro h held
    refine (ready.held h held).congr fun x low high => ?_
    have room := (ready.held h held).room
    have has : h.block.Has x := by
      unfold HeldPtr.raw hdrSize at low
      unfold fin at room
      exact ⟨by omega, by omega⟩
    by_contra changed
    rcases own x changed with outside | ⟨h', held', owns⟩
    · obtain ⟨lo, hi⟩ := ready.inside held
      unfold Has at has
      unfold fin at hi
      omega
    · obtain ⟨start, stop⟩ := ready.payload_of_owns held' owns
      obtain rfl := ready.eq_of_has held held' has ⟨by omega, stop⟩
      exact absurd owns.1 (Nat.not_le.mpr high)

/-- `unshift_user_off` finds the start of the payload of every pointer the guest holds. -/
theorem unshift {h : HeldPtr} (ready : Ready s free) (held : h ∈ s.held) :
    unshiftUserOff s.ctx h.ptr = h.raw := by
  have place := ready.held h held
  have aligned := (ready.heap.shape h.block (List.mem_append_right _ (mem_blocks held))).1
  by_cases plain : h.alignment ≤ hdrSize
  · rw [place.plain plain]
    apply unshiftUserOff_of_mod
    unfold HeldPtr.raw hdrSize
    omega
  · obtain ⟨mod, low, high, stored⟩ := place.shifted (Nat.lt_of_not_le plain)
    obtain ⟨lo, hi⟩ := ready.inside held
    have top := ready.heap.hi_le
    have long := ready.heap.long (List.mem_append_right _ (mem_blocks held))
    have size : blkSize s.ctx h.block.addr = h.block.len := ready.heap.header _ (mem_blocks held)
    have raw : h.raw = h.block.addr + 8 := rfl
    have bits := Nat.and_two_pow_sub_one_eq_mod h.ptr 4
    norm_num at bits
    unfold hdrSize at low
    unfold fin at high hi
    have back : sub32 h.raw hdrSize = h.block.addr := by
      unfold sub32 u32 hdrSize
      omega
    unfold unshiftUserOff
    dsimp only
    rw [if_neg (by omega), if_neg (by rw [u32_of_lt (by unfold hdrSize; omega)]; unfold hdrSize; omega),
      stored, back, size, u32_of_lt (show s.ctx.allocLo + hdrSize < 2 ^ 32 by unfold hdrSize; omega),
      u32_of_lt (show h.raw + hdrSize < 2 ^ 32 by unfold hdrSize; omega),
      u32_of_lt (show h.block.addr + h.block.len < 2 ^ 32 by omega)]
    unfold hdrSize minBlock
    rw [if_neg (by omega), if_neg (by omega), if_neg (by omega), if_neg (by omega)]

/-- The range test of the entry points passes for what the guest holds. -/
theorem inRange {h : HeldPtr} (ready : Ready s free) (held : h ∈ s.held) :
    ¬ (h.ptr < u32 (s.ctx.allocLo + hdrSize) ∨ s.ctx.allocHi ≤ h.ptr) ∧
      ¬ (h.raw < u32 (s.ctx.allocLo + hdrSize) ∨ s.ctx.allocHi ≤ h.raw) := by
  obtain ⟨lo, hi⟩ := ready.inside held
  have top := ready.heap.hi_le
  have long := ready.heap.long (List.mem_append_right _ (mem_blocks held))
  have place := ready.held h held
  have low := place.raw_le
  have raw : h.raw = h.block.addr + 8 := rfl
  have high : h.ptr < h.block.fin := by
    by_cases plain : h.alignment ≤ hdrSize
    · rw [place.plain plain]
      unfold fin
      omega
    · exact (place.shifted (Nat.lt_of_not_le plain)).2.2.1
  unfold fin at hi high
  rw [u32_of_lt (show s.ctx.allocLo + hdrSize < 2 ^ 32 by unfold hdrSize; omega)]
  unfold hdrSize
  omega

theorem ne_zero {h : HeldPtr} (ready : Ready s free) (held : h ∈ s.held) : h.ptr ≠ 0 := by
  have low := (ready.held h held).raw_le
  unfold HeldPtr.raw hdrSize at low
  omega

/-- `yos_free` finds the block of a pointer the guest holds. -/
theorem yosFree_ptr {h : HeldPtr} (ready : Ready s free) (held : h ∈ s.held) (fuel : ℕ) :
    Yos.yosFree fuel s.ctx h.ptr = Yos.yosFree fuel s.ctx h.raw := by
  have raw : h.raw ≠ 0 := by
    unfold HeldPtr.raw hdrSize
    omega
  have aligned := (ready.heap.shape h.block (List.mem_append_right _ (mem_blocks held))).1
  have mod : h.raw % 16 = 8 := by
    unfold HeldPtr.raw hdrSize
    omega
  unfold Yos.yosFree
  rw [if_neg (ready.ne_zero held), if_neg raw, if_neg (ready.inRange held).1, if_neg (ready.inRange held).2,
    ready.unshift held, unshiftUserOff_of_mod mod]

/-- `yos_free` gives back the block of the pointer and no other. -/
theorem yosFree {h : HeldPtr} {fuel : ℕ} (ready : Ready s free) (held : h ∈ s.held)
    (enough : free.length < fuel) : ∃ ctx' free', Yos.yosFree fuel s.ctx h.ptr = some ctx' ∧
      Ready ⟨ctx', s.held.erase h⟩ free' ∧ GivenBack s.ctx ctx' free free' h.block := by
  obtain ⟨ctx', free', eq, heap, given⟩ := ready.heap.yosFree_givesBack (mem_blocks held) enough
  refine ⟨ctx', free', (ready.yosFree_ptr held fuel).trans eq, ⟨heap.perm (blocks_erase held), ?_⟩, given⟩
  intro k mem
  have kept := List.mem_of_mem_erase mem
  refine ready.inBlock_congr kept fun x has => given.frame x ?_ fun other => ?_
  · exact ready.heap.cover_free (mem_blocks kept) has
  · have apart : (h.block :: (s.held.erase h).map HeldPtr.block).Pairwise Span.Disjoint :=
      (List.pairwise_append.1 (ready.heap.perm (blocks_perm held)).pairwise).2.1
    exact (List.pairwise_cons.1 apart).1 k.block (List.mem_map_of_mem mem) x ⟨other, has⟩

end Ready

/-! ## `yos_malloc` -/

/-- `yos_malloc` took the block `t`. -/
structure Malloced (s : GuestHeap) (size : ℕ) (ctx' : MemCtx) (free' : List Span) (t : Span) : Prop where
  eq : yosMalloc s.ctx size = (ctx', t.addr + 8)
  block : mallocBlock s.ctx size = t
  heap : HeapInv ctx' free' (t :: s.blocks)
  large : mallocNeed size ≤ t.len
  frame : ∀ b ∈ s.blocks, ∀ x, b.Has x → ctx'.memory x = s.ctx.memory x
  held : ∀ h ∈ s.held, InBlock ctx'.memory h

theorem mallocBlock_of_eq {ctx ctx' : MemCtx} {free live : List Span} {t : Span} {size : ℕ}
    (eq : yosMalloc ctx size = (ctx', t.addr + 8)) (inv : HeapInv ctx' free (t :: live)) :
    mallocBlock ctx size = t := by
  unfold mallocBlock blockOf blkSize hdrSize
  rw [eq]
  dsimp only
  rw [Nat.add_sub_cancel, inv.header t (by simp)]

/-- What `yos_malloc` does to a heap in order. -/
theorem Ready.yosMalloc {s : GuestHeap} {free : List Span} (ready : Ready s free) (size : ℕ) :
    Yos.yosMalloc s.ctx size = (s.ctx, 0) ∨
      ∃ ctx' free' t, Malloced s size ctx' free' t ∧ TakenFrom s.ctx ctx' free free' (mallocNeed size) t := by
  have init := ready.heap.allocInitLocked
  have unfolded : Yos.yosMalloc s.ctx size = Yos.doAlloc s.ctx (mallocNeed size) := by
    unfold Yos.yosMalloc
    rw [init]
  obtain ⟨aligned, large⟩ := mallocNeed_shape size
  rw [unfolded]
  rcases found : firstFit (mallocNeed size) (2 ^ 22) free with _ | ⟨skip, b, post⟩
  · exact Or.inl (ready.heap.doAlloc_of_none found)
  · right
    obtain ⟨ctx', eq, heap, taken⟩ := ready.heap.doAlloc_of_fit aligned large found
    rw [← carveTaken_addr (mallocNeed size) b, ← unfolded] at eq
    have frame : ∀ b ∈ s.blocks, ∀ x, b.Has x → ctx'.memory x = s.ctx.memory x :=
      fun b mem x has => taken.frame x (ready.heap.cover_free mem has)
    exact ⟨ctx', _, _, ⟨eq, mallocBlock_of_eq eq heap, heap, taken.large, frame, fun h held =>
      ready.inBlock_congr held (frame _ (Ready.mem_blocks held))⟩, taken⟩

/-- The first call sets the heap up, if there is room for one. -/
theorem FreshHeap.setUp {s : GuestHeap} {ctx : MemCtx} (fresh : FreshHeap s.ctx) (none : s.held = [])
    (init : allocInitLocked s.ctx = some ctx) :
    Ready { s with ctx } [⟨ctx.allocLo, ctx.allocHi - ctx.allocLo⟩] ∧
      ∀ size, Yos.yosMalloc s.ctx size = Yos.yosMalloc ctx size := by
  have heap := allocInitLocked_inv fresh.size fresh.brk fresh.pos fresh.unset init
  constructor
  · constructor
    · unfold GuestHeap.blocks
      rw [none]
      exact heap
    · simp [none]
  · intro size
    unfold yosMalloc
    rw [init, heap.allocInitLocked]

/-- What `yos_malloc` does in a run. -/
theorem AllocInv.yosMalloc {s : GuestHeap} (inv : AllocInv s) (size : ℕ) :
    ((Yos.yosMalloc s.ctx size).2 = 0 ∧ AllocInv { s with ctx := (Yos.yosMalloc s.ctx size).1 }) ∨
      ∃ ctx' free' t, Malloced s size ctx' free' t := by
  rcases inv with ⟨fresh, none⟩ | ⟨free, ready⟩
  · rcases init : allocInitLocked s.ctx with _ | ctx
    · left
      unfold Yos.yosMalloc
      rw [init]
      exact ⟨rfl, Or.inl ⟨fresh, none⟩⟩
    · obtain ⟨ready, same⟩ := fresh.setUp none init
      rcases ready.yosMalloc size with eq | ⟨ctx', free', t, done, -⟩
      · left
        rw [same, eq]
        exact ⟨rfl, Or.inr ⟨_, ready⟩⟩
      · right
        refine ⟨ctx', free', t, (same size).trans done.eq, ?_, done.heap, done.large, ?_, done.held⟩
        · exact mallocBlock_of_eq ((same size).trans done.eq) done.heap
        · unfold GuestHeap.blocks
          simp [none]
  · rcases ready.yosMalloc size with eq | ⟨ctx', free', t, done, -⟩
    · left
      rw [eq]
      exact ⟨rfl, Or.inr ⟨free, ready⟩⟩
    · exact Or.inr ⟨ctx', free', t, done⟩

end Yos
