import Yos.Lib.System
import Yos.Mem.HeapTiling

/-!
# Runs of the guest heap

A run starts from a context whose heap is not set up yet and consists of `yos_malloc` calls,
`yos_free` calls on pointers `yos_malloc` returned, and guest writes to live payloads
(`heapSystem`).  After every call the free blocks and the live blocks tile the heap
(`heap_tiling`).  The offset 0 ends the free list, so the heap must not start there: a context
whose `heap_end` is 0 starts with a free block that no list reaches (`heap_tiling_fails_at_zero`).
-/

namespace Yos

open Word Bytes Span

/-! ## The system -/

/-- A context with the blocks handed out and not freed, and all pointers handed out. -/
structure HeapState where
  ctx : MemCtx
  live : List Span
  issued : List ℕ

/-- What a guest does to its heap. -/
inductive HeapCall where
  | malloc (size : ℕ)
  | free (p : ℕ)
  | write (a : ℕ) (v : UInt8)
deriving DecidableEq, Repr

/-- The block of the pointer `p`: its header word is its length. -/
def blockOf (ctx : MemCtx) (p : ℕ) : Span := ⟨p - hdrSize, blkSize ctx (p - hdrSize)⟩

/-- The state after `yos_malloc`. -/
def HeapState.malloc (s : HeapState) (size : ℕ) : HeapState :=
  let (ctx, p) := yosMalloc s.ctx size
  if p = 0 then { s with ctx }
  else { ctx, live := blockOf ctx p :: s.live, issued := p :: s.issued }

/-- The block of `p` lies inside a free block. -/
def InsideFree (ctx : MemCtx) (p : ℕ) : Prop :=
  ∃ free, FreeList ctx.memory ctx.allocFreeHead free ∧ ∃ f ∈ free, f.Has (p - hdrSize)

/-- The steps of a run. -/
inductive HeapStep : HeapState → HeapCall → HeapState → Prop where
  | malloc (s : HeapState) (size : ℕ) (word : size < 2 ^ 32) :
      HeapStep s (.malloc size) (s.malloc size)
  | free {s : HeapState} {b : Span} {fuel : ℕ} {ctx : MemCtx} (live : b ∈ s.live)
      (returns : yosFree fuel s.ctx (b.addr + hdrSize) = some ctx) :
      HeapStep s (.free (b.addr + hdrSize)) { s with ctx, live := s.live.erase b }
  | doubleFree {s : HeapState} {p fuel : ℕ} {ctx : MemCtx} (issued : p ∈ s.issued)
      (inside : InsideFree s.ctx p) (returns : yosFree fuel s.ctx p = some ctx) :
      HeapStep s (.free p) { s with ctx }
  | write {s : HeapState} {b : Span} {a : ℕ} {v : UInt8} (live : b ∈ s.live)
      (payload : b.addr + hdrSize ≤ a ∧ a < b.fin) :
      HeapStep s (.write a v) { s with ctx := { s.ctx with memory := s.ctx.memory.fill a 1 v } }

/-- The runs that start from the context `ctx`. -/
def heapSystem (ctx : MemCtx) : System HeapState HeapCall where
  init s := s = ⟨ctx, [], []⟩
  step := HeapStep

/-! ## What holds after every call -/

/-- The free list is ascending, its blocks are well shaped and not adjacent, and together with the
live blocks they tile the heap. -/
def Tiled (s : HeapState) : Prop :=
  ∃ free, FreeList s.ctx.memory s.ctx.allocFreeHead free ∧
    free.Pairwise (fun a b => a.addr < b.addr) ∧
    (∀ f ∈ free, f.addr % 16 = 0 ∧ f.len % 16 = 0 ∧ 32 ≤ f.len) ∧
    free.Pairwise (fun a b => a.fin ≠ b.addr ∧ b.fin ≠ a.addr) ∧
    ∀ x, cover (free ++ s.live) x = if s.ctx.allocLo ≤ x ∧ x < s.ctx.allocHi then 1 else 0

/-- Every `yos_free` of a live block returns. -/
def FreeReturns (s : HeapState) : Prop :=
  ∀ b ∈ s.live, ∃ fuel ctx, yosFree fuel s.ctx (b.addr + hdrSize) = some ctx

/-- A double free returns and leaves the context as it was. -/
def DoubleFreeIgnored (s : HeapState) : Prop :=
  ∀ p ∈ s.issued, InsideFree s.ctx p →
    (∃ fuel, yosFree fuel s.ctx p = some s.ctx) ∧
      ∀ fuel ctx, yosFree fuel s.ctx p = some ctx → ctx = s.ctx

/-! ## The invariant along a run -/

theorem FreeList.unique {m : Bytes} {h : ℕ} {l l' : List Span} (list : FreeList m h l)
    (list' : FreeList m h l') : l = l' := by
  unfold FreeList at list list'
  induction l generalizing h l' with
  | nil =>
    cases l' with
    | nil => rfl
    | cons b l' => exact absurd (list'.1.symm.trans list) list'.2.1
  | cons a l ih =>
    cases l' with
    | nil => exact absurd (list.1.symm.trans list') list.2.1
    | cons b l' =>
      obtain ⟨rfl, -, size, rest⟩ := list
      obtain ⟨addr, -, size', rest'⟩ := list'
      have same : a = b := by
        cases a
        cases b
        simp_all
      rw [same] at rest ⊢
      rw [ih rest rest']

theorem yosFree_unique {ctx c c' : MemCtx} {off fuel fuel' : ℕ}
    (h : yosFree fuel ctx off = some c) (h' : yosFree fuel' ctx off = some c') : c = c' := by
  unfold yosFree at h h'
  dsimp only at h h'
  split_ifs at h h'
  · exact Option.some.inj (h.symm.trans h')
  · exact Option.some.inj (h.symm.trans h')
  · exact Option.some.inj (h.symm.trans h')
  · rcases walk : freeWalk ctx (sub32 (unshiftUserOff ctx off) hdrSize) fuel 0 ctx.allocFreeHead with _ | w
    · simp [walk] at h
    · rcases walk' : freeWalk ctx (sub32 (unshiftUserOff ctx off) hdrSize) fuel' 0 ctx.allocFreeHead
        with _ | w'
      · simp [walk'] at h'
      · rw [walk, freeWalk_unique walk walk'] at h
        rw [walk'] at h'
        exact Option.some.inj (h.symm.trans h')

/-- A fresh heap is one free block. -/
theorem allocInitLocked_inv {ctx ctx' : MemCtx} (size : ctx.memorySize ≤ 2 ^ 31)
    (brk : ctx.heapEnd ≤ ctx.memorySize) (pos : 0 < ctx.heapEnd) (fresh : ctx.allocHi = 0)
    (init : allocInitLocked ctx = some ctx') :
    HeapInv ctx' [⟨ctx'.allocLo, ctx'.allocHi - ctx'.allocLo⟩] [] := by
  have hi : bclr (ctx.memorySize / 2) 0xfff = ctx.memorySize / 2 / 2 ^ 12 * 2 ^ 12 :=
    bclr_two_pow _ 12
  rw [allocInitLocked, if_neg (by simp [fresh])] at init
  dsimp only at init
  rw [alignUp_eq (by omega), hi] at init
  generalize lo_eq : (ctx.heapEnd + 15) / 16 * 16 = lo at init
  generalize hi_eq : ctx.memorySize / 2 / 2 ^ 12 * 2 ^ 12 = hi at init
  rw [u32_of_lt (by omega)] at init
  split_ifs at init with room
  have sub : sub32 hi lo = hi - lo := by unfold sub32 u32; omega
  cases init
  refine ⟨⟨rfl, ?_, ?_, ?_⟩, List.pairwise_singleton _ _, fun b hb => ?_, by simp, fun x => by simp,
    ?_, ?_, ?_⟩
  · simp only [blkSetNext, blkSetSize]
    omega
  · simp only [blkSetNext, blkSetSize, sub]
    rw [read32_write32_disjoint (by omega), read32_write32_self (by omega)]
  · simp only [blkSetNext, blkSetSize]
    exact read32_write32_self (by omega)
  · rw [List.append_nil, List.mem_singleton] at hb
    subst hb
    simp only [BlockShape, blkSetNext, blkSetSize, minBlock]
    omega
  · simp only [blkSetNext, blkSetSize]
    omega
  · simp only [blkSetNext, blkSetSize]
    omega
  · simp only [blkSetNext, blkSetSize]
    omega

/-- The heap is set up: the blocks tile it, and every pointer handed out is 8 modulo 16. -/
def HeapReady (s : HeapState) : Prop :=
  (∃ free, HeapInv s.ctx free s.live) ∧ ∀ p ∈ s.issued, p % 16 = 8

/-- `do_alloc` keeps the heap in order and hands out a block of it. -/
theorem HeapReady.doAlloc {s : HeapState} {ctx : MemCtx} {free : List Span} {size : ℕ}
    (inv : HeapInv ctx free s.live) (issued : ∀ p ∈ s.issued, p % 16 = 8)
    (init : allocInitLocked s.ctx = some ctx) : HeapReady (s.malloc size) := by
  obtain ⟨aligned, large⟩ := mallocNeed_shape size
  unfold HeapState.malloc yosMalloc
  rw [init]
  dsimp only
  rcases inv.doAlloc aligned large with eq | ⟨ctx', t, free', eq, inv'⟩
  · rw [eq]
    exact ⟨⟨free, inv⟩, issued⟩
  · have header : blockOf ctx' (t.addr + 8) = t := by
      unfold blockOf hdrSize blkSize
      rw [Nat.add_sub_cancel, inv'.header t (by simp)]
    rw [eq]
    dsimp only
    rw [if_neg (by omega), header]
    refine ⟨⟨free', inv'⟩, fun p hp => ?_⟩
    rcases List.mem_cons.1 hp with rfl | hp
    · have := (inv'.shape t (by simp)).1
      omega
    · exact issued p hp

/-- A guest write to a live payload touches no header. -/
theorem HeapInv.write {ctx : MemCtx} {free live : List Span} {b : Span} {a : ℕ} {v : UInt8}
    (inv : HeapInv ctx free live) (hb : b ∈ live) (payload : b.addr + hdrSize ≤ a ∧ a < b.fin) :
    HeapInv { ctx with memory := ctx.memory.fill a 1 v } free live := by
  refine inv.setMemory fun c hc x start stop => ?_
  unfold fill
  rw [if_neg]
  rintro ⟨low, high⟩
  obtain rfl : x = a := by omega
  exact inv.payload_misses hb payload hc ⟨start, stop⟩

theorem HeapInv.doubleFree_returns {ctx : MemCtx} {free live : List Span} {p fuel : ℕ}
    (inv : HeapInv ctx free live) (hp : p % 16 = 8) (inside : InsideFree ctx p)
    (enough : free.length < fuel) : Yos.yosFree fuel ctx p = some ctx := by
  obtain ⟨free', list, f, hf, has⟩ := inside
  obtain rfl := inv.list.unique list
  obtain ⟨blk, rfl⟩ : ∃ blk, p = blk + hdrSize := ⟨p - 8, by unfold hdrSize; omega⟩
  rw [Nat.add_sub_cancel] at has
  exact inv.yosFree_inside hf has (by unfold hdrSize at hp; omega) enough

theorem HeapInv.doubleFree {ctx ctx' : MemCtx} {free live : List Span} {p fuel : ℕ}
    (inv : HeapInv ctx free live) (hp : p % 16 = 8) (inside : InsideFree ctx p)
    (returns : Yos.yosFree fuel ctx p = some ctx') : ctx' = ctx :=
  yosFree_unique returns (inv.doubleFree_returns hp inside (Nat.lt_succ_self _))

theorem HeapReady.step {s s' : HeapState} {c : HeapCall} (ready : HeapReady s)
    (step : HeapStep s c s') : HeapReady s' := by
  obtain ⟨⟨free, inv⟩, issued⟩ := ready
  cases step with
  | malloc size =>
    refine HeapReady.doAlloc inv issued (if_pos ?_)
    have := inv.lo_lt
    omega
  | free live returns =>
    obtain ⟨ctx', free', eq, inv'⟩ := inv.yosFree live (Nat.lt_succ_self _)
    rw [yosFree_unique returns eq]
    exact ⟨⟨free', inv'⟩, issued⟩
  | doubleFree hp inside returns =>
    rw [inv.doubleFree (issued _ hp) inside returns]
    exact ⟨⟨free, inv⟩, issued⟩
  | write live payload => exact ⟨⟨free, inv.write live payload⟩, issued⟩

/-- The first call sets the heap up. -/
theorem heapReady_of_init {ctx ctx' : MemCtx} {s' : HeapState} {c : HeapCall}
    (init : allocInitLocked ctx = some ctx')
    (inv : HeapInv ctx' [⟨ctx'.allocLo, ctx'.allocHi - ctx'.allocLo⟩] [])
    (step : HeapStep ⟨ctx, [], []⟩ c s') : HeapReady s' := by
  cases step with
  | malloc size => exact HeapReady.doAlloc inv (by simp) init
  | free live => simp at live
  | doubleFree hp => simp at hp
  | write live => simp at live

/-- The invariant gives the properties of the heap. -/
theorem HeapReady.holds {s : HeapState} (ready : HeapReady s) :
    Tiled s ∧ FreeReturns s ∧ DoubleFreeIgnored s := by
  obtain ⟨⟨free, inv⟩, issued⟩ := ready
  refine ⟨⟨free, inv.list, ?_, fun f hf => inv.shape f (List.mem_append_left _ hf), ?_, ?_⟩, ?_, ?_⟩
  · refine inv.gaps.imp fun h => ?_
    unfold Gap fin at h
    omega
  · refine inv.gaps.imp fun h => ?_
    unfold Gap fin at *
    omega
  · intro x
    have h := inv.lo_lt
    rw [inv.tiles, hit, Nat.add_sub_cancel' (Nat.le_of_lt h)]
  · intro b hb
    obtain ⟨ctx', -, eq, -⟩ := inv.yosFree hb (Nat.lt_succ_self _)
    exact ⟨_, ctx', eq⟩
  · intro p hp inside
    have same : ∀ fuel ctx, yosFree fuel s.ctx p = some ctx → ctx = s.ctx := fun _ _ h =>
      inv.doubleFree (issued p hp) inside h
    exact ⟨⟨_, inv.doubleFree_returns (issued p hp) inside (Nat.lt_succ_self _)⟩, same⟩

/-- A state of a run is the first one, or the heap is in order. -/
theorem heapReady_of_reachable {ctx : MemCtx} {s : HeapState} (size : ctx.memorySize ≤ 2 ^ 31)
    (brk : ctx.heapEnd ≤ ctx.memorySize) (pos : 0 < ctx.heapEnd) (fresh : ctx.allocHi = 0)
    (init : (allocInitLocked ctx).isSome) (run : (heapSystem ctx).Reachable s) :
    s = ⟨ctx, [], []⟩ ∨ HeapReady s := by
  obtain ⟨ctx', init⟩ := Option.isSome_iff_exists.1 init
  have inv := allocInitLocked_inv size brk pos fresh init
  refine run.invariant (I := fun s => s = ⟨ctx, [], []⟩ ∨ HeapReady s) (fun s h => Or.inl h)
    fun s c s' h step => Or.inr ?_
  rcases h with rfl | ready
  · exact heapReady_of_init init inv step
  · exact ready.step step

/-- After every call of a run the heap is tiled by the free and the live blocks, every `yos_free` of
a live block returns, and a double free changes nothing. -/
theorem heap_tiling {ctx : MemCtx} {s s' : HeapState} {c : HeapCall} (size : ctx.memorySize ≤ 2 ^ 31)
    (brk : ctx.heapEnd ≤ ctx.memorySize) (pos : 0 < ctx.heapEnd) (fresh : ctx.allocHi = 0)
    (init : (allocInitLocked ctx).isSome) (run : (heapSystem ctx).Reachable s)
    (call : HeapStep s c s') : Tiled s' ∧ FreeReturns s' ∧ DoubleFreeIgnored s' := by
  obtain ⟨ctx', made⟩ := Option.isSome_iff_exists.1 init
  rcases heapReady_of_reachable size brk pos fresh init run with rfl | ready
  · exact (heapReady_of_init made (allocInitLocked_inv size brk pos fresh made) call).holds
  · exact (ready.step call).holds

theorem heap_tiling_first_malloc :
    Tiled (HeapState.malloc ⟨.blank (2 ^ 22) 0x50000, [], []⟩ 1) ∧
      FreeReturns (HeapState.malloc ⟨.blank (2 ^ 22) 0x50000, [], []⟩ 1) ∧
      DoubleFreeIgnored (HeapState.malloc ⟨.blank (2 ^ 22) 0x50000, [], []⟩ 1) :=
  heap_tiling (show (MemCtx.blank (2 ^ 22) 0x50000).memorySize ≤ 2 ^ 31 by decide) (by decide) (by decide) rfl
    (by decide) (.start rfl) (.malloc _ 1 (by decide))

/-- A heap that starts at offset 0 has a free block but an empty free list. -/
theorem heap_tiling_fails_at_zero :
    ¬ ∀ (ctx : MemCtx) (s s' : HeapState) (c : HeapCall), ctx.memorySize ≤ 2 ^ 31 →
      ctx.heapEnd ≤ ctx.memorySize → ctx.allocHi = 0 → (allocInitLocked ctx).isSome →
      (heapSystem ctx).Reachable s → HeapStep s c s' → Tiled s' := by
  intro claim
  have tiled := claim (.blank (2 ^ 22) 0) ⟨.blank (2 ^ 22) 0, [], []⟩ _ (.malloc 1) (by decide) (by decide) rfl
    (by decide) (.start rfl) (.malloc _ 1 (by decide))
  obtain ⟨ctx, init⟩ : ∃ ctx, allocInitLocked (.blank (2 ^ 22) 0) = some ctx := ⟨_, rfl⟩
  have head : ctx.allocFreeHead = 0 ∧ ctx.allocLo = 0 ∧ ctx.allocHi = 2 ^ 21 := by
    cases init
    decide
  have empty : FreeList ctx.memory ctx.allocFreeHead [] := head.1
  have same : HeapState.malloc ⟨.blank (2 ^ 22) 0, [], []⟩ 1 = ⟨ctx, [], []⟩ := by
    unfold HeapState.malloc yosMalloc
    rw [init]
    dsimp only
    rw [Yos.doAlloc, doAllocLoop_eq empty]
    rfl
  rw [same] at tiled
  obtain ⟨free, list, -, -, -, tiles⟩ := tiled
  obtain rfl := empty.unique list
  have := tiles 0
  simp [head] at this

end Yos
