import Yos.Lib.Access
import Yos.Mem.Entry

/-!
# The accesses of the guest heap

For each function of `impl/mem/alloc.c` the words it loads and stores in guest memory, and the bytes it
copies or clears, in the order of the source.  The functions of `Alloc` and `Entry` change memory only
where these lists store (`yosMalloc_framed`, `yosFree_framed`, `yosRealloc_framed`).
-/

namespace Yos

open Word Access

/-- `alloc_init_locked` stores the header of the one free block. -/
def initAccess (ctx : MemCtx) : List Access :=
  if ctx.allocHi ≠ 0 then []
  else
    let lo := alignUp ctx.heapEnd blkAlign
    let hi := bclr (ctx.memorySize / 2) 0xfff
    if hi ≤ u32 (lo + 2 ^ 20) then [] else [storeWord lo, storeWord (lo + 4)]

/-- `dump_free_list` loads the headers of at most `n` nodes. -/
def dumpAccess (ctx : MemCtx) : (n cur : ℕ) → List Access
  | 0, _ => []
  | n + 1, cur =>
    if cur = 0 then [] else loadWord cur :: loadWord (cur + 4) :: dumpAccess ctx n (blkNext ctx cur)

/-- `takeBlock`, behind the two loads of the header of `cur`. -/
def takeBlockAccess (ctx : MemCtx) (need prevOff cur : ℕ) : List Access :=
  (if u32 (need + minBlock) ≤ blkSize ctx cur then
    [storeWord (u32 (cur + need)), storeWord (u32 (cur + need) + 4), storeWord cur]
  else []) ++ if prevOff ≠ 0 then [storeWord (prevOff + 4)] else []

/-- The loop of `do_alloc`, and `dump_free_list` when it comes to the end of the list. -/
def doAllocAccess (ctx : MemCtx) (need : ℕ) : (guard prevOff cur : ℕ) → List Access
  | 0, _, cur => if cur = 0 then dumpAccess ctx 16 ctx.allocFreeHead else []
  | guard + 1, prevOff, cur =>
    if cur = 0 then dumpAccess ctx 16 ctx.allocFreeHead
    else
      loadWord cur :: loadWord (cur + 4) ::
        if need ≤ blkSize ctx cur then takeBlockAccess ctx need prevOff cur
        else doAllocAccess ctx need guard cur (blkNext ctx cur)

/-- `yos_malloc`. -/
def mallocAccess (ctx : MemCtx) (size : ℕ) : List Access :=
  initAccess ctx ++
    match allocInitLocked ctx with
    | none => []
    | some ctx => doAllocAccess ctx (mallocNeed size) (2 ^ 22) 0 ctx.allocFreeHead

/-- `unshift_user_off`. -/
def unshiftAccess (ctx : MemCtx) (off : ℕ) : List Access :=
  if off &&& 15 ≠ 0 then []
  else if off < u32 (ctx.allocLo + 2 * hdrSize) then []
  else
    let raw := ctx.memory.read32 (off - 4)
    loadWord (off - 4) ::
      if raw < u32 (ctx.allocLo + hdrSize) ∨ off ≤ raw then []
      else if ctx.allocHi < u32 (raw + hdrSize) then []
      else [loadWord (sub32 raw hdrSize)]

/-- The loop of `yos_free`. -/
def freeWalkAccess (ctx : MemCtx) (blkOff : ℕ) : (fuel cur : ℕ) → List Access
  | 0, _ => []
  | fuel + 1, cur =>
    if cur ≠ 0 ∧ cur < blkOff then
      loadWord cur ::
        if blkOff < u32 (cur + blkSize ctx cur) then []
        else loadWord (cur + 4) :: freeWalkAccess ctx blkOff fuel (blkNext ctx cur)
    else []

/-- `linkPrev`. -/
def linkPrevAccess (ctx : MemCtx) (prev blkOff : ℕ) : List Access :=
  if prev ≠ 0 then
    loadWord prev ::
      if u32 (prev + blkSize ctx prev) = blkOff then [storeWord prev]
      else [storeWord (prev + 4), storeWord (blkOff + 4)]
  else [storeWord (blkOff + 4)]

/-- `mergeNext`. -/
def mergeNextAccess (blkOff sz cur : ℕ) : List Access :=
  if cur ≠ 0 ∧ u32 (blkOff + sz) = cur then
    [loadWord cur, loadWord (cur + 4), storeWord blkOff, storeWord (blkOff + 4)]
  else []

/-- `yos_free`. -/
def freeAccess (fuel : ℕ) (ctx : MemCtx) (off : ℕ) : List Access :=
  if off = 0 then []
  else if off < u32 (ctx.allocLo + hdrSize) ∨ ctx.allocHi ≤ off then []
  else
    let blkOff := sub32 (unshiftUserOff ctx off) hdrSize
    let sz := blkSize ctx blkOff
    unshiftAccess ctx off ++ loadWord blkOff ::
      if sz < minBlock ∨ ctx.allocHi < u32 (blkOff + sz) then []
      else
        freeWalkAccess ctx blkOff fuel ctx.allocFreeHead ++
          match freeWalk ctx blkOff fuel 0 ctx.allocFreeHead with
          | none => []
          | some .doubleFree => []
          | some (.stop prev cur) =>
            if cur = blkOff then []
            else
              linkPrevAccess ctx prev blkOff ++
                mergeNextAccess (linkPrev ctx prev cur blkOff sz).2.1 (linkPrev ctx prev cur blkOff sz).2.2 cur

/-- `yos_calloc`. -/
def callocAccess (ctx : MemCtx) (nmemb size : ℕ) : List Access :=
  if mulOverflows nmemb size then []
  else
    let total := u32 (nmemb * size)
    mallocAccess ctx total ++
      let (ctx, off) := yosMalloc ctx total
      if off = 0 then []
      else
        let bsz := blkSize ctx (sub32 off hdrSize)
        let usable := if hdrSize < bsz then bsz - hdrSize else total
        let usable := if usable < total then total else usable
        [loadWord (sub32 off hdrSize), store ⟨off, usable⟩]

/-- `yos_realloc`. -/
def reallocAccess (fuel : ℕ) (ctx : MemCtx) (off newsize : ℕ) : List Access :=
  if off = 0 then mallocAccess ctx newsize
  else if newsize = 0 then freeAccess fuel ctx off
  else if off < u32 (ctx.allocLo + hdrSize) ∨ ctx.allocHi ≤ off then []
  else
    let raw := unshiftUserOff ctx off
    let blkOff := sub32 raw hdrSize
    let oldsz := blkSize ctx blkOff
    unshiftAccess ctx off ++ loadWord blkOff ::
      if oldsz < hdrSize ∨ ctx.allocHi < u32 (blkOff + oldsz) then []
      else
        let oldPayload := oldsz - hdrSize
        if newsize ≤ oldPayload then []
        else
          mallocAccess ctx newsize ++
            let (ctx, newoff) := yosMalloc ctx newsize
            if newoff = 0 then []
            else
              load ⟨raw, oldPayload⟩ :: store ⟨newoff, oldPayload⟩ ::
                freeAccess fuel { ctx with memory := ctx.memory.copy newoff raw oldPayload } raw

/-- `yos_reallocarray`. -/
def reallocarrayAccess (fuel : ℕ) (ctx : MemCtx) (off nmemb size : ℕ) : List Access :=
  if mulOverflows nmemb size then [] else reallocAccess fuel ctx off (u32 (nmemb * size))

/-- `yos_posix_memalign`. -/
def memalignAccess (ctx : MemCtx) (memptrOff alignment size : ℕ) : List Access :=
  if memptrOff = 0 ∨ ctx.memorySize < memptrOff + 4 then []
  else if alignment < 4 ∨ alignment &&& (alignment - 1) ≠ 0 then []
  else if alignment ≤ hdrSize then
    mallocAccess ctx (memalignNeed alignment size) ++
      if (yosMalloc ctx (memalignNeed alignment size)).2 = 0 then [] else [storeWord memptrOff]
  else if 2 ^ 32 - 1 < memalignNeed alignment size then []
  else
    mallocAccess ctx (memalignNeed alignment size) ++
      let raw := (yosMalloc ctx (memalignNeed alignment size)).2
      if raw = 0 then [] else [storeWord (alignedOff raw alignment - 4), storeWord memptrOff]

/-! ## Memory changes only where the lists store -/

section Framed

variable {ctx ctx' : MemCtx} {need prev cur blkOff sz off size newsize fuel : ℕ}

theorem allocInitLocked_framed (init : allocInitLocked ctx = some ctx') :
    Framed ctx.memory ctx'.memory (initAccess ctx) := by
  unfold allocInitLocked at init
  unfold initAccess
  dsimp only at init ⊢
  split_ifs at init ⊢ with set room
  · cases init
    exact framed_refl _ _
  · cases init
    exact (framed_write32 _ _ _).append (framed_write32 _ _ _)

theorem setLink_framed (ctx : MemCtx) (prev n : ℕ) :
    Framed ctx.memory (setLink ctx prev n).memory (if prev ≠ 0 then [storeWord (prev + 4)] else []) := by
  unfold setLink
  split_ifs
  · exact framed_write32 _ _ _
  · exact framed_refl _ _

theorem takeBlock_framed (ctx : MemCtx) (need prev cur : ℕ) :
    Framed ctx.memory (takeBlock ctx need prev cur).1.memory (takeBlockAccess ctx need prev cur) := by
  unfold takeBlock takeBlockAccess
  dsimp only
  refine Framed.append ?_ (setLink_framed _ _ _)
  split_ifs
  · exact (framed_write32 _ _ _).append ((framed_write32 _ _ _).append (framed_write32 _ _ _))
  · exact framed_refl _ _

theorem doAllocLoop_framed (guard : ℕ) :
    Framed ctx.memory (doAllocLoop ctx need guard prev cur).1.memory (doAllocAccess ctx need guard prev cur) := by
  induction guard generalizing prev cur with
  | zero => exact framed_refl _ _
  | succ guard ih =>
    rw [doAllocLoop, doAllocAccess]
    split_ifs
    · exact framed_refl _ _
    · exact (takeBlock_framed ctx need prev cur).congr (by simp)
    · exact ih.congr (by simp)

theorem yosMalloc_framed (ctx : MemCtx) (size : ℕ) :
    Framed ctx.memory (yosMalloc ctx size).1.memory (mallocAccess ctx size) := by
  unfold yosMalloc mallocAccess
  rcases init : allocInitLocked ctx with _ | ctx'
  · exact framed_refl _ _
  · exact (allocInitLocked_framed init).append (doAllocLoop_framed _)

theorem linkPrev_framed (ctx : MemCtx) (prev cur blkOff sz : ℕ) :
    Framed ctx.memory (linkPrev ctx prev cur blkOff sz).1.memory (linkPrevAccess ctx prev blkOff) := by
  unfold linkPrev linkPrevAccess
  dsimp only
  split_ifs
  · exact (framed_write32 _ _ _).congr (by simp)
  · exact ((framed_write32 _ _ _).append (framed_write32 _ _ _)).congr (by simp)
  · exact framed_write32 _ _ _

theorem mergeNext_framed (ctx : MemCtx) (blkOff sz cur : ℕ) :
    Framed ctx.memory (mergeNext ctx blkOff sz cur).memory (mergeNextAccess blkOff sz cur) := by
  unfold mergeNext mergeNextAccess
  split_ifs
  · exact ((framed_write32 _ _ _).append (framed_write32 _ _ _)).congr (by simp)
  · exact framed_refl _ _

@[simp] theorem not_stores_unshift (ctx : MemCtx) (off x : ℕ) : ¬ Stores (unshiftAccess ctx off) x := by
  unfold unshiftAccess
  dsimp only
  split_ifs <;> simp

@[simp] theorem not_stores_freeWalk (ctx : MemCtx) (blkOff fuel cur x : ℕ) :
    ¬ Stores (freeWalkAccess ctx blkOff fuel cur) x := by
  induction fuel generalizing cur with
  | zero => exact stores_nil
  | succ fuel ih =>
    rw [freeWalkAccess]
    split_ifs <;> simp [ih]

theorem yosFree_framed (returns : yosFree fuel ctx off = some ctx') :
    Framed ctx.memory ctx'.memory (freeAccess fuel ctx off) := by
  unfold yosFree at returns
  unfold freeAccess
  dsimp only at returns ⊢
  split_ifs at returns ⊢ with null foreign insane
  · cases returns
    exact framed_refl _ _
  · cases returns
    exact framed_refl _ _
  · cases returns
    exact framed_refl _ _
  · generalize freeWalk ctx (sub32 (unshiftUserOff ctx off) hdrSize) fuel 0 ctx.allocFreeHead = walk
      at returns ⊢
    cases walk with
    | none => cases returns
    | some walk =>
      cases walk with
      | doubleFree =>
        cases returns
        exact framed_refl _ _
      | stop prev cur =>
        dsimp only at returns ⊢
        split_ifs at returns ⊢
        · cases returns
          exact framed_refl _ _
        · cases returns
          exact ((linkPrev_framed ctx prev cur _ _).append (mergeNext_framed _ _ _ cur)).congr
            (by simp)

theorem framed_copy (m : Bytes) (dst src n : ℕ) : Framed m (m.copy dst src n) [load ⟨src, n⟩, store ⟨dst, n⟩] := by
  intro x out
  rw [stores_load_cons, stores_store_cons] at out
  exact if_neg fun inside => out (Or.inl inside)

theorem yosRealloc_framed {result : MemCtx × ℕ} (returns : yosRealloc fuel ctx off newsize = some result) :
    Framed ctx.memory result.1.memory (reallocAccess fuel ctx off newsize) := by
  unfold yosRealloc at returns
  unfold reallocAccess
  dsimp only at returns ⊢
  split_ifs at returns ⊢ with null zero foreign insane fit
  · cases returns
    exact yosMalloc_framed _ _
  · obtain ⟨ctx', run, rfl⟩ := Option.map_eq_some_iff.mp returns
    exact yosFree_framed run
  · cases returns
    exact framed_refl _ _
  · cases returns
    exact framed_refl _ _
  · cases returns
    exact framed_refl _ _
  · cases returns
    exact (yosMalloc_framed ctx newsize).congr (by simp)
  · obtain ⟨ctx', run, rfl⟩ := Option.map_eq_some_iff.mp returns
    exact (((yosMalloc_framed ctx newsize).append (framed_copy _ _ _ _)).append (yosFree_framed run)).congr
      (by simp)

theorem framed_fill (m : Bytes) (a n : ℕ) (v : UInt8) : Framed m (m.fill a n v) [store ⟨a, n⟩] := by
  intro x out
  rw [stores_store_cons] at out
  exact if_neg fun inside => out (Or.inl inside)

theorem yosCalloc_framed (ctx : MemCtx) (nmemb size : ℕ) :
    Framed ctx.memory (yosCalloc ctx nmemb size).1.memory (callocAccess ctx nmemb size) := by
  unfold yosCalloc callocAccess
  dsimp only
  by_cases wraps : mulOverflows nmemb size
  · rw [if_pos wraps, if_pos wraps]
    exact framed_refl _ _
  · rw [if_neg wraps, if_neg wraps]
    by_cases none : (yosMalloc ctx (u32 (nmemb * size))).2 = 0
    · rw [if_pos none, if_pos none]
      exact (yosMalloc_framed ctx _).congr (by simp)
    · rw [if_neg none, if_neg none]
      exact ((yosMalloc_framed ctx _).append (framed_fill _ _ _ _)).congr (by simp)

theorem yosPosixMemalign_framed (ctx : MemCtx) (memptr alignment size : ℕ) :
    Framed ctx.memory (yosPosixMemalign ctx memptr alignment size).1.memory
      (memalignAccess ctx memptr alignment size) := by
  unfold yosPosixMemalign memalignAccess
  dsimp only
  split_ifs with cell invalid plain none none large
  · exact framed_refl _ _
  · exact framed_refl _ _
  · exact (yosMalloc_framed ctx _).congr (by simp)
  · exact (yosMalloc_framed ctx _).append (framed_write32 _ _ _)
  · exact framed_refl _ _
  · exact (yosMalloc_framed ctx _).congr (by simp)
  · exact (((yosMalloc_framed ctx _).append (framed_write32 _ _ _)).append (framed_write32 _ _ _)).congr
      (by simp)

end Framed

end Yos
