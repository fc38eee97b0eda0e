import Yos.Mem.EntryInv
import Yos.Mem.HeapAccess

/-!
# Capacity of the blocks handed out

The entry points that return `n` bytes return a pointer whose `n` bytes lie in the block it was carved
from, and store only to that block, to headers of free blocks and to the caller's cell, in every run
without requests that wrap (`capacity`).  A request that wraps gets a block of 32 bytes
(`capacity_fails`).
-/

namespace Yos

open Word Bytes Span Access

/-! ## What an entry point answers -/

/-- The context after `alloc_init_locked`. -/
def MemCtx.setUp (ctx : MemCtx) : MemCtx := (allocInitLocked ctx).getD ctx

/-- What a call returns: its result with the block and the bytes asked for, the accesses it made, the
cell it was given for the result, and the contexts it went through. -/
structure Outcome where
  result : MemCtx × ℕ
  block : Span
  bytes : ℕ
  accesses : List Access
  cell : Span
  contexts : List MemCtx

/-- The outcome of a call that asks `yos_malloc` for `request` bytes. -/
def outcomeOf (s : GuestHeap) (request bytes : ℕ) (block cell : Span) (accesses : List Access)
    (result : MemCtx × ℕ) : Outcome where
  result := result
  block := block
  bytes := bytes
  accesses := accesses
  cell := cell
  contexts := [s.ctx.setUp, (yosMalloc s.ctx request).1, result.1]

/-- The calls of the entry points that return a number of bytes. -/
inductive Answers : GuestHeap → AllocCall → Outcome → Prop where
  | malloc (s : GuestHeap) (size : ℕ) (word : size < 2 ^ 32) :
      Answers s (.malloc size) (outcomeOf s size size (mallocBlock s.ctx size) ⟨0, 0⟩
        (mallocAccess s.ctx size) (yosMalloc s.ctx size))
  | calloc (s : GuestHeap) (nmemb size : ℕ) (words : nmemb < 2 ^ 32 ∧ size < 2 ^ 32) :
      Answers s (.calloc nmemb size) (outcomeOf s (u32 (nmemb * size)) (nmemb * size)
        (mallocBlock s.ctx (u32 (nmemb * size))) ⟨0, 0⟩ (callocAccess s.ctx nmemb size)
        (yosCalloc s.ctx nmemb size))
  | reallocNull (s : GuestHeap) (newsize fuel : ℕ) (word : newsize < 2 ^ 32) {result : MemCtx × ℕ}
      (returns : yosRealloc fuel s.ctx 0 newsize = some result) :
      Answers s (.realloc 0 newsize) (outcomeOf s newsize newsize (mallocBlock s.ctx newsize) ⟨0, 0⟩
        (reallocAccess fuel s.ctx 0 newsize) result)
  | realloc {s : GuestHeap} {h : HeldPtr} {newsize fuel : ℕ} (held : h ∈ s.held) (word : newsize < 2 ^ 32)
      {result : MemCtx × ℕ} (returns : yosRealloc fuel s.ctx h.ptr newsize = some result) :
      Answers s (.realloc h.ptr newsize) (outcomeOf s newsize newsize (resizedBlock s.ctx h newsize) ⟨0, 0⟩
        (reallocAccess fuel s.ctx h.ptr newsize) result)
  | reallocarrayNull (s : GuestHeap) (nmemb size fuel : ℕ) (words : nmemb < 2 ^ 32 ∧ size < 2 ^ 32)
      {result : MemCtx × ℕ} (returns : yosReallocarray fuel s.ctx 0 nmemb size = some result) :
      Answers s (.reallocarray 0 nmemb size) (outcomeOf s (u32 (nmemb * size)) (nmemb * size)
        (mallocBlock s.ctx (u32 (nmemb * size))) ⟨0, 0⟩ (reallocarrayAccess fuel s.ctx 0 nmemb size) result)
  | reallocarray {s : GuestHeap} {h : HeldPtr} {nmemb size fuel : ℕ} (held : h ∈ s.held)
      (words : nmemb < 2 ^ 32 ∧ size < 2 ^ 32) {result : MemCtx × ℕ}
      (returns : yosReallocarray fuel s.ctx h.ptr nmemb size = some result) :
      Answers s (.reallocarray h.ptr nmemb size) (outcomeOf s (u32 (nmemb * size)) (nmemb * size)
        (resizedBlock s.ctx h (u32 (nmemb * size))) ⟨0, 0⟩ (reallocarrayAccess fuel s.ctx h.ptr nmemb size)
        result)
  | posixMemalign (s : GuestHeap) (memptr alignment size : ℕ)
      (words : memptr < 2 ^ 32 ∧ alignment < 2 ^ 32 ∧ size < 2 ^ 32) :
      Answers s (.posixMemalign memptr alignment size) (outcomeOf s (memalignNeed alignment size) size
        (mallocBlock s.ctx (memalignNeed alignment size)) ⟨memptr, 4⟩
        (memalignAccess s.ctx memptr alignment size) (memalignResult s.ctx memptr alignment size))

/-- The byte belongs to the header of one of the blocks. -/
def InHeader (free : List Span) (x : ℕ) : Prop := ∃ f ∈ free, f.addr ≤ x ∧ x < f.addr + hdrSize

/-- The byte belongs to the header of a block on the free list. -/
def FreeHeader (ctx : MemCtx) (x : ℕ) : Prop :=
  ∃ free, FreeList ctx.memory ctx.allocFreeHead free ∧ InHeader free x

/-- The bytes of a pointer lie in its block and in the heap, and every store is to the block, to the cell
or to the header of a free block. -/
structure CapacityOk (o : Outcome) : Prop where
  inside : o.result.2 ≠ 0 → ∀ x, o.result.2 ≤ x → x < o.result.2 + o.bytes → o.block.Has x
  heap : o.result.2 ≠ 0 → o.result.1.allocLo ≤ o.block.addr ∧ o.block.fin ≤ o.result.1.allocHi
  stores : ∀ x, Stores o.accesses x →
    (o.result.2 ≠ 0 ∧ o.block.Has x) ∨ o.cell.Has x ∨ ∃ c ∈ o.contexts, FreeHeader c x

/-! ## The stores of `yos_malloc` -/

@[simp] theorem not_stores_dump (ctx : MemCtx) (n cur x : ℕ) : ¬ Stores (dumpAccess ctx n cur) x := by
  induction n generalizing cur with
  | zero => exact stores_nil
  | succ n ih =>
    rw [dumpAccess]
    split_ifs <;> simp [ih]

/-- The loop of `do_alloc` stores where it takes the block of the first fit. -/
theorem doAllocAccess_stores {ctx : MemCtx} {need g prev cur x : ℕ} {l : List Span}
    (list : FreeList ctx.memory cur l) (stored : Stores (doAllocAccess ctx need g prev cur) x) :
    ∃ skip b post, firstFit need g l = some (skip, b, post) ∧
      Stores (takeBlockAccess ctx need (lastAddr prev skip) b.addr) x := by
  induction g generalizing prev cur l with
  | zero =>
    rw [doAllocAccess] at stored
    split_ifs at stored
    · exact absurd stored (not_stores_dump _ _ _ _)
    · exact absurd stored stores_nil
  | succ g ih =>
    rw [doAllocAccess] at stored
    cases l with
    | nil =>
      rw [if_pos (show cur = 0 from list)] at stored
      exact absurd stored (not_stores_dump _ _ _ _)
    | cons b l =>
      obtain ⟨rfl, hz, hs, rest⟩ := list
      rw [if_neg hz, blkSize, hs, stores_loadWord_cons, stores_loadWord_cons] at stored
      by_cases fit : need ≤ b.len
      · rw [if_pos fit] at stored
        exact ⟨[], b, l, if_pos fit, stored⟩
      · rw [if_neg fit] at stored
        obtain ⟨skip, c, post, found, stored⟩ := ih rest stored
        refine ⟨b :: skip, c, post, ?_, stored⟩
        rw [firstFit, if_neg fit, found]
        rfl

/-- Taking a block stores to it and to the headers of the free blocks that are left. -/
theorem HeapInv.takeBlock_stores {ctx : MemCtx} {free live skip post : List Span} {b : Span} {need x : ℕ}
    (inv : HeapInv ctx free live) (large : 32 ≤ need)
    (found : firstFit need (2 ^ 22) free = some (skip, b, post))
    (stored : Stores (takeBlockAccess ctx need (lastAddr 0 skip) b.addr) x) :
    (carveTaken need b).Has x ∨ InHeader (skip ++ (carveRest need b ++ post)) x := by
  obtain ⟨rfl, fit⟩ := firstFit_some found
  have mem : b ∈ (skip ++ b :: post) ++ live := by simp
  have small := inv.small mem
  obtain ⟨-, -, size, -⟩ := (FreeSeg.append.1 inv.list).choose_spec.2
  unfold fin at small
  unfold takeBlockAccess at stored
  rw [stores_append, blkSize, size, u32_of_lt (by unfold minBlock; omega),
    u32_of_lt (by omega)] at stored
  rcases stored with stored | stored
  · split_ifs at stored with cut
    · simp only [stores_storeWord_cons, stores_nil, or_false] at stored
      unfold carveTaken carveRest
      rw [if_pos cut, if_pos cut]
      rcases stored with low | high | own
      · exact Or.inr ⟨⟨b.addr + need, b.len - need⟩, by simp, by dsimp only; omega,
          by unfold hdrSize; dsimp only; omega⟩
      · exact Or.inr ⟨⟨b.addr + need, b.len - need⟩, by simp, by dsimp only; omega,
          by unfold hdrSize; dsimp only; omega⟩
      · exact Or.inl ⟨own.1, by dsimp only; omega⟩
    · exact absurd stored stores_nil
  · -- the block before it in the list
    rcases List.eq_nil_or_concat skip with rfl | ⟨pre, p, rfl⟩
    · exact absurd stored (by simp [lastAddr])
    · rw [List.concat_eq_append] at stored ⊢
      rw [lastAddr_concat] at stored
      refine Or.inr ⟨p, by simp, ?_⟩
      split_ifs at stored
      · simp only [stores_storeWord_cons, stores_nil, or_false] at stored
        unfold hdrSize
        omega
      · exact absurd stored stores_nil

/-- The stores of `yos_malloc` on a heap in order. -/
theorem Ready.mallocAccess {s : GuestHeap} {free : List Span} {size x : ℕ} (ready : Ready s free)
    (stored : Stores (Yos.mallocAccess s.ctx size) x) :
    ((Yos.yosMalloc s.ctx size).2 ≠ 0 ∧ (mallocBlock s.ctx size).Has x) ∨
      FreeHeader (Yos.yosMalloc s.ctx size).1 x := by
  have init := ready.heap.allocInitLocked
  have set : initAccess s.ctx = [] := if_pos (by have := ready.heap.lo_lt; omega)
  obtain ⟨aligned, large⟩ := mallocNeed_shape size
  unfold Yos.mallocAccess at stored
  rw [set, init, List.nil_append] at stored
  obtain ⟨skip, b, post, found, stored⟩ := doAllocAccess_stores ready.heap.list stored
  obtain ⟨ctx', eq, heap, -⟩ := ready.heap.doAlloc_of_fit aligned large found
  have unfolded : Yos.yosMalloc s.ctx size = (ctx', b.addr + 8) := by
    unfold Yos.yosMalloc
    rw [init]
    exact eq
  have block : mallocBlock s.ctx size = carveTaken (mallocNeed size) b :=
    mallocBlock_of_eq (by rw [carveTaken_addr]; exact unfolded) heap
  rw [unfolded, block]
  rcases ready.heap.takeBlock_stores large found stored with taken | header
  · exact Or.inl ⟨Nat.succ_ne_zero _, taken⟩
  · exact Or.inr ⟨_, heap.list, header⟩

/-- The stores of `yos_malloc` in a run. -/
theorem AllocInv.mallocAccess {s : GuestHeap} {size x : ℕ} (inv : AllocInv s)
    (stored : Stores (Yos.mallocAccess s.ctx size) x) :
    ((Yos.yosMalloc s.ctx size).2 ≠ 0 ∧ (mallocBlock s.ctx size).Has x) ∨
      FreeHeader s.ctx.setUp x ∨ FreeHeader (Yos.yosMalloc s.ctx size).1 x := by
  rcases inv with ⟨fresh, none⟩ | ⟨free, ready⟩
  · rcases init : allocInitLocked s.ctx with _ | ctx
    · have nothing : initAccess s.ctx = [] := by
        unfold allocInitLocked at init
        unfold initAccess
        dsimp only at init ⊢
        split_ifs at init ⊢
        rfl
      unfold Yos.mallocAccess at stored
      rw [init, nothing] at stored
      exact absurd stored stores_nil
    · obtain ⟨ready, same⟩ := fresh.setUp none init
      have block : mallocBlock s.ctx size = mallocBlock ctx size := by
        unfold mallocBlock
        rw [same]
      have up : s.ctx.setUp = ctx := by
        unfold MemCtx.setUp
        rw [init]
        rfl
      have split : Yos.mallocAccess s.ctx size = initAccess s.ctx ++ Yos.mallocAccess ctx size := by
        have set : initAccess ctx = [] := if_pos (by have := ready.heap.lo_lt; dsimp only at this; omega)
        unfold Yos.mallocAccess
        rw [init, ready.heap.allocInitLocked, set]
        rfl
      rw [split, stores_append] at stored
      rw [same, block, up]
      rcases stored with header | stored
      · refine Or.inr (Or.inl ⟨_, ready.heap.list, _, List.mem_singleton_self _, ?_⟩)
        have lo : ctx.allocLo = alignUp s.ctx.heapEnd blkAlign := by
          unfold allocInitLocked at init
          dsimp only at init
          rw [if_neg (by simp [fresh.unset])] at init
          split_ifs at init
          cases init
          rfl
        unfold initAccess at header
        dsimp only at header ⊢
        split_ifs at header
        · exact absurd header stores_nil
        · exact absurd header stores_nil
        · simp only [stores_storeWord_cons, stores_nil, or_false] at header
          unfold hdrSize
          omega
      · exact (ready.mallocAccess stored).imp id Or.inr
  · exact (ready.mallocAccess stored).imp id Or.inr

/-! ## The stores of `yos_free` -/

/-- Linking and merging store to the headers of the block and of the free block before it, to the header
of the block only if it stays a block of its own. -/
theorem link_stores {ctx : MemCtx} {prev cur blkOff sz x : ℕ}
    (stored : Stores (linkPrevAccess ctx prev blkOff ++ mergeNextAccess (linkPrev ctx prev cur blkOff sz).2.1
      (linkPrev ctx prev cur blkOff sz).2.2 cur) x) :
    (prev ≠ 0 ∧ prev ≤ x ∧ x < prev + hdrSize) ∨
      ((prev ≠ 0 → u32 (prev + blkSize ctx prev) ≠ blkOff) ∧ blkOff ≤ x ∧ x < blkOff + hdrSize) := by
  have merged {blkOff sz : ℕ} (stored : Stores (mergeNextAccess blkOff sz cur) x) :
      blkOff ≤ x ∧ x < blkOff + hdrSize := by
    unfold mergeNextAccess at stored
    unfold hdrSize
    split_ifs at stored
    · simp only [stores_loadWord_cons, stores_storeWord_cons, stores_nil, or_false] at stored
      omega
    · exact absurd stored stores_nil
  rw [stores_append] at stored
  unfold linkPrevAccess linkPrev at stored
  dsimp only at stored
  by_cases some : prev ≠ 0
  · rw [if_pos some, if_pos some] at stored
    by_cases touch : u32 (prev + blkSize ctx prev) = blkOff
    · rw [if_pos touch, if_pos touch] at stored
      refine Or.inl ⟨some, ?_⟩
      rcases stored with stored | stored
      · simp only [stores_loadWord_cons, stores_storeWord_cons, stores_nil, or_false] at stored
        unfold hdrSize
        omega
      · exact merged stored
    · rw [if_neg touch, if_neg touch] at stored
      rcases stored with stored | stored
      · simp only [stores_loadWord_cons, stores_storeWord_cons, stores_nil, or_false] at stored
        unfold hdrSize
        rcases stored with link | own
        · exact Or.inl ⟨some, by omega, by omega⟩
        · exact Or.inr ⟨fun _ => touch, by omega, by omega⟩
      · exact Or.inr ⟨fun _ => touch, merged stored⟩
  · rw [if_neg some, if_neg some] at stored
    refine Or.inr ⟨fun other => absurd other some, ?_⟩
    rcases stored with stored | stored
    · simp only [stores_storeWord_cons, stores_nil, or_false] at stored
      unfold hdrSize
      omega
    · exact merged stored

/-- `yos_free` stores where it links the block into the list. -/
theorem freeAccess_stores {ctx : MemCtx} {fuel off x : ℕ} (stored : Stores (freeAccess fuel ctx off) x) :
    ∃ prev cur, freeWalk ctx (sub32 (unshiftUserOff ctx off) hdrSize) fuel 0 ctx.allocFreeHead =
        some (.stop prev cur) ∧
      Stores (linkPrevAccess ctx prev (sub32 (unshiftUserOff ctx off) hdrSize) ++
        mergeNextAccess
          (linkPrev ctx prev cur (sub32 (unshiftUserOff ctx off) hdrSize)
            (blkSize ctx (sub32 (unshiftUserOff ctx off) hdrSize))).2.1
          (linkPrev ctx prev cur (sub32 (unshiftUserOff ctx off) hdrSize)
            (blkSize ctx (sub32 (unshiftUserOff ctx off) hdrSize))).2.2 cur) x := by
  unfold freeAccess at stored
  dsimp only at stored
  split_ifs at stored
  · exact absurd stored stores_nil
  · exact absurd stored stores_nil
  · exact absurd stored (by simp)
  · rcases walk : freeWalk ctx (sub32 (unshiftUserOff ctx off) hdrSize) fuel 0 ctx.allocFreeHead with
      _ | _ | ⟨prev, cur⟩
    · rw [walk] at stored
      exact absurd stored (by simp)
    · rw [walk] at stored
      exact absurd stored (by simp)
    · rw [walk] at stored
      dsimp only at stored
      split_ifs at stored
      · exact absurd stored (by simp)
      · refine ⟨prev, cur, rfl, ?_⟩
        simpa using stored

theorem inHeader_joinNext {b : Span} {post : List Span} {x : ℕ} (inside : b.addr ≤ x ∧ x < b.addr + hdrSize) :
    InHeader (joinNext b post) x := by
  cases post with
  | nil => exact ⟨b, List.mem_singleton_self b, inside⟩
  | cons c post =>
    rw [joinNext]
    split_ifs
    · exact ⟨_, List.mem_cons_self, inside⟩
    · exact ⟨b, List.mem_cons_self, inside⟩

/-- `yos_free` of a live block stores to headers of blocks that were free or are. -/
theorem HeapInv.freeAccess {ctx ctx' : MemCtx} {free free' live : List Span} {b : Span} {fuel off x : ℕ}
    (inv : HeapInv ctx free live) (hb : b ∈ live) (found : sub32 (unshiftUserOff ctx off) hdrSize = b.addr)
    (inv' : HeapInv ctx' free' (live.erase b)) (given : GivenBack ctx ctx' free free' b)
    (stored : Stores (Yos.freeAccess fuel ctx off) x) : InHeader free x ∨ InHeader free' x := by
  obtain ⟨prev, cur, walk, stored⟩ := freeAccess_stores stored
  rw [found] at walk stored
  have mem : b ∈ free ++ live := List.mem_append_right _ hb
  obtain ⟨pre, post, rfl, before, after⟩ := inv.split hb
  have long : ∀ f ∈ pre ++ post, 32 ≤ f.len := fun f hf => inv.long (List.mem_append_left _ hf)
  have lb := inv.long mem
  have sb := inv.small mem
  unfold fin at sb
  have stop : freeWalk ctx b.addr (pre.length + (0 + 1)) 0 ctx.allocFreeHead = _ :=
      freeWalk_stop inv.list (fun f hf => ⟨by
    have := before f hf
    have := long f (List.mem_append_left _ hf)
    unfold fin at *
    omega, before f hf⟩) (fun f hf => by
    have := after f hf
    unfold fin at this
    omega) (by omega)
  obtain ⟨rfl, rfl⟩ := FreeWalk.stop.inj (freeWalk_unique walk stop)
  have list : free' = insertFree pre b post := by
    refine inv'.free_eq ?_ ?_ fun x => ?_
    · refine gap_insertFree inv.gaps (fun f hf => ?_) before after
      have := long f (List.mem_append_left _ hf)
      omega
    · intro f hf
      have shape : ∀ g ∈ pre ++ b :: post, BlockShape g := by
        intro g hg
        simp only [List.mem_append, List.mem_cons] at hg
        rcases hg with hg | rfl | hg
        · exact inv.shape g (by simp [hg])
        · exact inv.shape g mem
        · exact inv.shape g (by simp [hg])
      have := (shape_insertFree shape f hf).2.2
      unfold minBlock at this
      omega
    · rw [given.joins, cover_insertFree, cover_append]
      omega
  rcases List.eq_nil_or_concat pre with rfl | ⟨pre, p, rfl⟩
  · rcases link_stores stored with ⟨some, -⟩ | ⟨-, inside⟩
    · exact absurd rfl some
    · right
      rw [list]
      exact inHeader_joinNext inside
  · rw [List.concat_eq_append] at *
    rw [lastAddr_concat] at stored
    have size : blkSize ctx p.addr = p.len := by
      obtain ⟨k, -, -, -, size, -⟩ := FreeSeg.append.1 ((FreeSeg.append.1 inv.list).choose_spec.1)
      exact size
    have hp := before p (by simp)
    rcases link_stores stored with ⟨-, inside⟩ | ⟨apart, inside⟩
    · exact Or.inl ⟨p, by simp, inside⟩
    · have ne := inv.list.ne_zero p (by simp)
      have touch := apart ne
      unfold fin at hp
      rw [size, u32_of_lt (by omega)] at touch
      right
      rw [list]
      unfold insertFree
      rw [joinPrev_concat, if_neg (by unfold fin; omega)]
      obtain ⟨f, hf, header⟩ : InHeader (joinNext _ post) x := inHeader_joinNext inside
      exact ⟨f, List.mem_append_right _ hf, header⟩

/-! ## The entry points -/

section Outcomes

variable {s : GuestHeap} {request n : ℕ} {ctx ctx' : MemCtx} {free' : List Span} {block cell t : Span}
  {accesses : List Access}

/-- A call that fails without a store. -/
theorem capacityOk_nothing (quiet : ∀ x, ¬ Stores accesses x) :
    CapacityOk (outcomeOf s request n block cell accesses (ctx, 0)) :=
  ⟨fun success => absurd rfl success, fun success => absurd rfl success,
    fun x stored => absurd stored (quiet x)⟩

/-- A call that fails because `yos_malloc` does. -/
theorem AllocInv.capacityOk_none (inv : AllocInv s) (zero : (Yos.yosMalloc s.ctx request).2 = 0)
    (stores : ∀ x, Stores accesses x → Stores (Yos.mallocAccess s.ctx request) x) :
    CapacityOk (outcomeOf s request n block cell accesses (ctx, 0)) := by
  refine ⟨fun success => absurd rfl success, fun success => absurd rfl success, fun x stored => ?_⟩
  rcases inv.mallocAccess (stores x stored) with ⟨taken, -⟩ | up | after
  · exact absurd zero taken
  · exact Or.inr (Or.inr ⟨s.ctx.setUp, by simp [outcomeOf], up⟩)
  · exact Or.inr (Or.inr ⟨(Yos.yosMalloc s.ctx request).1, by simp [outcomeOf], after⟩)

/-- A call that returns a pointer into the block that `yos_malloc` took. -/
theorem Malloced.capacityOk {p : ℕ} (inv : AllocInv s) (done : Malloced s request ctx' free' t)
    (bounds : ctx.allocLo = ctx'.allocLo ∧ ctx.allocHi = ctx'.allocHi) (low : t.addr < p)
    (high : p + n ≤ t.fin)
    (stores : ∀ x, Stores accesses x → Stores (Yos.mallocAccess s.ctx request) x ∨ t.Has x ∨ cell.Has x ∨
      FreeHeader ctx' x ∨ FreeHeader ctx x) :
    CapacityOk (outcomeOf s request n (mallocBlock s.ctx request) cell accesses (ctx, p)) := by
  have taken : p ≠ 0 := Nat.ne_of_gt (Nat.zero_lt_of_lt low)
  have after : (Yos.yosMalloc s.ctx request).1 = ctx' := by rw [done.eq]
  rw [done.block]
  refine ⟨fun _ x start stop => ?_, fun _ => ?_, fun x stored => ?_⟩
  · unfold fin at high
    dsimp only [outcomeOf] at start stop
    exact (show t.Has x from ⟨by omega, by omega⟩)
  · have inside := done.heap.bounds (b := t) (by simp)
    dsimp only [outcomeOf]
    rw [bounds.1, bounds.2]
    exact inside
  · rcases stores x stored with stored | own | cell | header | header
    · rcases inv.mallocAccess stored with ⟨-, own⟩ | up | header
      · rw [done.block] at own
        exact Or.inl ⟨taken, own⟩
      · exact Or.inr (Or.inr ⟨s.ctx.setUp, by simp [outcomeOf], up⟩)
      · exact Or.inr (Or.inr ⟨(Yos.yosMalloc s.ctx request).1, by simp [outcomeOf], header⟩)
    · exact Or.inl ⟨taken, own⟩
    · exact Or.inr (Or.inl cell)
    · exact Or.inr (Or.inr ⟨ctx', by simp [outcomeOf, after], header⟩)
    · exact Or.inr (Or.inr ⟨ctx, by simp [outcomeOf], header⟩)

section Memalign

variable {s : GuestHeap} {memptr alignment size : ℕ}

theorem memalignAccess_of_checks (checks : MemalignChecks s.ctx memptr alignment size) :
    memalignAccess s.ctx memptr alignment size = Yos.mallocAccess s.ctx (memalignNeed alignment size) ++
      if (Yos.yosMalloc s.ctx (memalignNeed alignment size)).2 = 0 then []
      else if alignment ≤ hdrSize then [storeWord memptr]
      else
        [storeWord (alignedOff (Yos.yosMalloc s.ctx (memalignNeed alignment size)).2 alignment - 4),
          storeWord memptr] := by
  obtain ⟨cell, valid, small⟩ := checks
  unfold memalignAccess
  rw [if_neg cell, if_neg valid, if_neg small]
  by_cases plain : alignment ≤ hdrSize
  · rw [if_pos plain, if_pos plain]
  · rw [if_neg plain, if_neg plain]

theorem not_stores_of_not_checks (rejected : ¬ MemalignChecks s.ctx memptr alignment size)
    (word : size < 2 ^ 32) (x : ℕ) : ¬ Stores (memalignAccess s.ctx memptr alignment size) x := by
  unfold memalignAccess
  by_cases cell : memptr = 0 ∨ s.ctx.memorySize < memptr + 4
  · rw [if_pos cell]
    exact stores_nil
  · by_cases invalid : alignment < 4 ∨ alignment &&& (alignment - 1) ≠ 0
    · rw [if_neg cell, if_pos invalid]
      exact stores_nil
    · have large : 2 ^ 32 - 1 < memalignNeed alignment size :=
        by_contra fun small => rejected ⟨cell, invalid, small⟩
      rw [if_neg cell, if_neg invalid, if_neg (memalignNeed_large large word), if_pos large]
      exact stores_nil

end Memalign

end Outcomes

namespace AllocInv

variable {s : GuestHeap}

theorem capacity_malloc (inv : AllocInv s) {request n : ℕ} (fits : Fits request) (le : n ≤ request)
    (cell : Span) :
    CapacityOk (outcomeOf s request n (mallocBlock s.ctx request) cell (Yos.mallocAccess s.ctx request)
      (Yos.yosMalloc s.ctx request)) := by
  rcases inv.yosMalloc request with ⟨zero, -⟩ | ⟨ctx', free', t, done⟩
  · rw [← Prod.mk.eta (p := Yos.yosMalloc s.ctx request), zero]
    exact inv.capacityOk_none zero fun _ => id
  · have room := done.room fits
    rw [done.eq]
    refine done.capacityOk inv ⟨rfl, rfl⟩ (by omega) ?_ fun _ => Or.inl
    unfold fin
    omega

theorem capacity_calloc (inv : AllocInv s) {nmemb size : ℕ}
    (fits : ¬ mulOverflows nmemb size → Fits (nmemb * size)) :
    CapacityOk (outcomeOf s (u32 (nmemb * size)) (nmemb * size) (mallocBlock s.ctx (u32 (nmemb * size)))
      ⟨0, 0⟩ (callocAccess s.ctx nmemb size) (yosCalloc s.ctx nmemb size)) := by
  by_cases wraps : mulOverflows nmemb size
  · unfold yosCalloc callocAccess
    rw [if_pos wraps, if_pos wraps]
    exact capacityOk_nothing fun _ => stores_nil
  · have word := (not_mulOverflows_iff nmemb size).mp wraps
    have accesses : callocAccess s.ctx nmemb size = _ := if_neg wraps
    rw [u32_of_lt word] at accesses ⊢
    rcases inv.yosMalloc (nmemb * size) with ⟨zero, -⟩ | ⟨ctx', free', t, done⟩
    · unfold yosCalloc
      rw [if_neg wraps, u32_of_lt word]
      dsimp only
      rw [if_pos zero]
      refine inv.capacityOk_none zero fun x stored => ?_
      rw [accesses] at stored
      dsimp only at stored
      rwa [if_pos zero, List.append_nil] at stored
    · have room := done.room (fits wraps)
      have header : ctx'.memory.read32 t.addr = t.len := done.heap.header t (by simp)
      have small := done.heap.small (b := t) (by simp)
      have back : sub32 (t.addr + 8) hdrSize = t.addr := by
        unfold fin at small
        unfold sub32 u32 hdrSize
        omega
      rw [done.yosCalloc (fits wraps)]
      refine done.capacityOk inv ⟨rfl, rfl⟩ (by omega) (by unfold fin; omega) fun x stored => ?_
      rw [accesses] at stored
      dsimp only at stored
      rw [stores_append, done.eq] at stored
      dsimp only at stored
      rw [if_neg (by omega), stores_loadWord_cons, stores_store_cons, back, blkSize, header] at stored
      rcases stored with stored | cleared | rest
      · exact Or.inl stored
      · refine Or.inr (Or.inl ?_)
        unfold Has hdrSize at *
        dsimp only at cleared
        split_ifs at cleared <;> omega
      · exact absurd rest stores_nil

theorem capacity_memalign (inv : AllocInv s) {memptr alignment size : ℕ} (word : size < 2 ^ 32)
    (fits : RequestFits s (.posixMemalign memptr alignment size)) :
    CapacityOk (outcomeOf s (memalignNeed alignment size) size
      (mallocBlock s.ctx (memalignNeed alignment size)) ⟨memptr, 4⟩
      (memalignAccess s.ctx memptr alignment size) (memalignResult s.ctx memptr alignment size)) := by
  by_cases checks : MemalignChecks s.ctx memptr alignment size
  · have accesses := memalignAccess_of_checks checks
    rcases inv.yosMalloc (memalignNeed alignment size) with ⟨zero, -⟩ | ⟨ctx', free', t, done⟩
    · rw [memalignResult_of_zero checks zero]
      refine inv.capacityOk_none zero fun x stored => ?_
      rwa [accesses, if_pos zero, List.append_nil] at stored
    · have fit := fits _ (memalign_request checks)
      have room := done.room fit
      have le := le_memalignNeed alignment size
      obtain ⟨cell, valid, small⟩ := checks
      rw [done.eq] at accesses
      dsimp only at accesses
      rw [if_neg (by omega)] at accesses
      rw [done.memalignResult cell valid small fit]
      by_cases plain : alignment ≤ hdrSize
      · rw [if_pos plain] at accesses ⊢
        refine done.capacityOk inv ⟨rfl, rfl⟩ (by omega) (by unfold fin; omega) fun x stored => ?_
        rw [accesses, stores_append, stores_storeWord_cons] at stored
        rcases stored with stored | stored | rest
        · exact Or.inl stored
        · exact Or.inr (Or.inr (Or.inl stored))
        · exact absurd rest stores_nil
      · obtain ⟨-, -, low, high⟩ := done.alignedOff (Nat.lt_of_not_le plain) (by tauto) fit
        rw [if_neg plain] at accesses ⊢
        refine done.capacityOk inv ⟨rfl, rfl⟩ (by omega) (Nat.le_of_lt high) fun x stored => ?_
        rw [accesses, stores_append, stores_storeWord_cons, stores_storeWord_cons] at stored
        unfold fin at high
        rcases stored with stored | stash | stored | rest
        · exact Or.inl stored
        · exact Or.inr (Or.inl ⟨by omega, by omega⟩)
        · exact Or.inr (Or.inr (Or.inl stored))
        · exact absurd rest stores_nil
  · rw [memalignResult_of_not_checks checks word]
    exact capacityOk_nothing (not_stores_of_not_checks checks word)

end AllocInv

/-! ## `yos_realloc` -/

namespace Ready

variable {s : GuestHeap} {free : List Span} {h : HeldPtr} {newsize fuel : ℕ}

/-- The stores of `yos_realloc` of a pointer the guest holds: none if it fits in place, else those of
`yos_malloc`, the copy and those of `yos_free`. -/
theorem reallocAccess {x : ℕ} (ready : Ready s free) (held : h ∈ s.held) (pos : newsize ≠ 0)
    (stored : Stores (Yos.reallocAccess fuel s.ctx h.ptr newsize) x) :
    ¬ newsize + hdrSize ≤ h.block.len ∧ (Stores (Yos.mallocAccess s.ctx newsize) x ∨
      (Yos.yosMalloc s.ctx newsize).2 ≠ 0 ∧
        (Span.Has ⟨(Yos.yosMalloc s.ctx newsize).2, h.block.len - hdrSize⟩ x ∨
          Stores (freeAccess fuel { (Yos.yosMalloc s.ctx newsize).1 with
            memory := (Yos.yosMalloc s.ctx newsize).1.memory.copy (Yos.yosMalloc s.ctx newsize).2 h.raw
              (h.block.len - hdrSize) } h.raw) x)) := by
  have mem := List.mem_append_right free (mem_blocks held)
  have size : blkSize s.ctx h.block.addr = h.block.len := ready.heap.header _ (mem_blocks held)
  have top := (ready.heap.bounds mem).2
  have long := ready.heap.long mem
  have small := ready.heap.small mem
  unfold fin at top small
  unfold Yos.reallocAccess at stored
  rw [if_neg (ready.ne_zero held), if_neg pos, if_neg (ready.inRange held).1] at stored
  dsimp only at stored
  rw [ready.unshift held, ready.sub32_raw held, size, u32_of_lt (by omega), if_neg (by unfold hdrSize; omega), stores_append,
    stores_loadWord_cons, or_iff_right (not_stores_unshift _ _ _)] at stored
  by_cases fit : newsize ≤ h.block.len - hdrSize
  · rw [if_pos fit] at stored
    exact absurd stored stores_nil
  · refine ⟨by unfold hdrSize at *; omega, ?_⟩
    rw [if_neg fit, stores_append] at stored
    refine stored.imp id fun stored => ?_
    split_ifs at stored with none
    · exact absurd stored stores_nil
    · rw [stores_load_cons, stores_store_cons] at stored
      exact ⟨none, stored⟩

/-- `yos_realloc` of a pointer to 0 bytes frees it. -/
theorem capacity_realloc_zero {result : MemCtx × ℕ} (ready : Ready s free) (held : h ∈ s.held) (block : Span)
    (returns : Yos.yosRealloc fuel s.ctx h.ptr 0 = some result) :
    CapacityOk (outcomeOf s 0 0 block ⟨0, 0⟩ (Yos.reallocAccess fuel s.ctx h.ptr 0) result) := by
  unfold Yos.yosRealloc at returns
  rw [if_neg (ready.ne_zero held), if_pos rfl] at returns
  obtain ⟨ctx, run, rfl⟩ := Option.map_eq_some_iff.mp returns
  obtain ⟨ctx', free', eq, after, given⟩ := ready.yosFree held (Nat.lt_succ_self _)
  obtain rfl := yosFree_unique run eq
  have found : sub32 (unshiftUserOff s.ctx h.ptr) hdrSize = h.block.addr := by
    rw [ready.unshift held, ready.sub32_raw held]
  refine ⟨fun success => absurd rfl success, fun success => absurd rfl success, fun x stored => ?_⟩
  unfold outcomeOf Yos.reallocAccess at stored
  rw [if_neg (ready.ne_zero held), if_pos rfl] at stored
  have up : s.ctx.setUp = s.ctx := by
    unfold MemCtx.setUp
    rw [ready.heap.allocInitLocked]
    rfl
  have heap := after.heap.perm (blocks_erase held).symm
  right
  right
  rcases ready.heap.freeAccess (mem_blocks held) found heap given stored with header | header
  · refine ⟨s.ctx.setUp, by simp [outcomeOf], ?_⟩
    rw [up]
    exact ⟨free, ready.heap.list, header⟩
  · exact ⟨ctx, by simp [outcomeOf], free', after.heap.list, header⟩

theorem capacity_realloc {result : MemCtx × ℕ} (ready : Ready s free) (held : h ∈ s.held)
    (pos : newsize ≠ 0) (fits : Fits newsize) (returns : Yos.yosRealloc fuel s.ctx h.ptr newsize = some result) :
    CapacityOk (outcomeOf s newsize newsize (resizedBlock s.ctx h newsize) ⟨0, 0⟩
      (Yos.reallocAccess fuel s.ctx h.ptr newsize) result) := by
  rw [ready.yosRealloc_eq held pos] at returns
  by_cases fit : newsize + hdrSize ≤ h.block.len
  · rw [if_pos fit] at returns
    cases returns
    have block : resizedBlock s.ctx h newsize = h.block := if_pos fit
    rw [block]
    refine ⟨fun _ x low high => ?_, fun _ => ready.inside held, fun x stored => ?_⟩
    · dsimp only [outcomeOf] at low high
      unfold HeldPtr.raw hdrSize at low high
      unfold hdrSize at fit
      exact (show h.block.Has x from ⟨by omega, by omega⟩)
    · exact absurd fit (ready.reallocAccess held pos stored).1
  · have block : resizedBlock s.ctx h newsize = mallocBlock s.ctx newsize := if_neg fit
    rw [if_neg fit] at returns
    rw [block]
    have inv : AllocInv s := Or.inr ⟨free, ready⟩
    rcases ready.yosMalloc newsize with eq | ⟨ctx', free', t, done, -⟩
    · rw [eq] at returns
      cases returns
      refine inv.capacityOk_none (by rw [eq]) fun x stored => ?_
      rcases (ready.reallocAccess held pos stored).2 with stored | ⟨taken, -⟩
      · exact stored
      · rw [eq] at taken
        exact absurd rfl taken
    · rw [done.eq] at returns
      dsimp only at returns
      rw [if_neg (by omega)] at returns
      obtain ⟨ctx'', run, rfl⟩ := Option.map_eq_some_iff.mp returns
      have room := done.room fits
      have between := done.ready_copied (n := newsize) (by omega) h.raw (k := h.block.len - hdrSize)
        (by unfold hdrSize at *; omega)
      have mem := List.mem_cons_of_mem t (mem_blocks held)
      obtain ⟨ctx₂, free'', eq, heap, given⟩ := between.heap.yosFree_givesBack mem (Nat.lt_succ_self _)
      obtain rfl := yosFree_unique run eq
      have bounds := given.bounds
      obtain ⟨m, head, rfl⟩ := bounds
      refine done.capacityOk inv ⟨rfl, rfl⟩ (by omega) (by unfold fin; omega) fun x stored => ?_
      rcases (ready.reallocAccess held pos stored).2 with stored | ⟨-, stored⟩
      · exact Or.inl stored
      · rw [done.eq] at stored
        refine Or.inr (stored.imp (fun copied => ?_) fun freed => ?_)
        · unfold Has hdrSize at *
          dsimp only at copied
          omega
        · have found (ctx : MemCtx) : sub32 (unshiftUserOff ctx h.raw) hdrSize = h.block.addr := by
            have shape := (ready.heap.shape h.block (List.mem_append_right _ (mem_blocks held))).1
            rw [unshiftUserOff_of_mod (by unfold HeldPtr.raw hdrSize; omega), ready.sub32_raw held]
          rcases between.heap.freeAccess mem (found _) heap given freed with header | header
          · exact Or.inr (Or.inl ⟨free', done.heap.list, header⟩)
          · exact Or.inr (Or.inr ⟨free'', heap.list, header⟩)

end Ready

/-! ## Every run -/

/-- In every run without requests that wrap, a call whose request does not wrap either returns a pointer
whose bytes lie in its block, and stores only to the block, the cell and headers of free blocks. -/
theorem capacity {s : GuestHeap} {c : AllocCall} {o : Outcome} (run : allocSystem.ReachableIf RequestFits s)
    (noWrap : RequestFits s c) (answers : Answers s c o) : CapacityOk o := by
  have inv := AllocInv.of_run run
  cases answers with
  | malloc size => exact inv.capacity_malloc (noWrap size rfl) le_rfl _
  | calloc nmemb size => exact inv.capacity_calloc fun fine => noWrap _ (if_neg fine)
  | reallocNull newsize fuel word returns =>
    cases returns
    exact inv.capacity_malloc (noWrap newsize rfl) le_rfl _
  | @realloc h newsize fuel held word result returns =>
    obtain ⟨free, ready⟩ := inv.ready held
    by_cases pos : newsize = 0
    · subst pos
      exact ready.capacity_realloc_zero held _ returns
    · exact ready.capacity_realloc held pos (noWrap _ rfl) returns
  | reallocarrayNull nmemb size fuel words returns =>
    unfold reallocarrayAccess
    by_cases wraps : mulOverflows nmemb size
    · rw [yosReallocarray_of_overflows wraps] at returns
      cases returns
      rw [if_pos wraps]
      exact capacityOk_nothing fun _ => stores_nil
    · rw [yosReallocarray_of_not wraps] at returns
      cases returns
      rw [if_neg wraps, u32_of_lt ((not_mulOverflows_iff nmemb size).mp wraps)]
      exact inv.capacity_malloc (noWrap _ (if_neg wraps)) le_rfl _
  | @reallocarray h nmemb size fuel held words result returns =>
    obtain ⟨free, ready⟩ := inv.ready held
    unfold reallocarrayAccess
    by_cases wraps : mulOverflows nmemb size
    · rw [yosReallocarray_of_overflows wraps] at returns
      cases returns
      rw [if_pos wraps]
      exact capacityOk_nothing fun _ => stores_nil
    · rw [yosReallocarray_of_not wraps] at returns
      rw [if_neg wraps, u32_of_lt ((not_mulOverflows_iff nmemb size).mp wraps)]
      by_cases pos : nmemb * size = 0
      · rw [pos] at returns ⊢
        exact ready.capacity_realloc_zero held _ returns
      · exact ready.capacity_realloc held pos (noWrap _ (if_neg wraps)) returns
  | posixMemalign memptr alignment size words => exact inv.capacity_memalign words.2.2 noWrap

theorem capacity_first : CapacityOk (outcomeOf ⟨.blank (2 ^ 22) 0x50000, []⟩ 100 100
    (mallocBlock (.blank (2 ^ 22) 0x50000) 100) ⟨0, 0⟩ (mallocAccess (.blank (2 ^ 22) 0x50000) 100)
    (yosMalloc (.blank (2 ^ 22) 0x50000) 100)) := by
  refine capacity (.init ⟨freshHeap_blank, rfl⟩) (fun request asked => ?_)
    (.malloc ⟨.blank (2 ^ 22) 0x50000, []⟩ 100 (by decide))
  obtain rfl : 100 = request := Option.some.inj asked
  decide

/-- `yos_malloc(0xffffffff)` on a fresh heap succeeds with a block of 32 bytes. -/
theorem capacity_fails : ¬ ∀ s c o, allocSystem.Reachable s → Answers s c o → CapacityOk o := by
  intro claim
  have ok := claim ⟨.blank (2 ^ 22) 0x50000, []⟩ _ _ (.start ⟨freshHeap_blank, rfl⟩)
    (.malloc _ (2 ^ 32 - 1) (by decide))
  have inside := ok.inside (by decide) 0x50020 (by decide) (by decide)
  revert inside
  decide

end Yos
