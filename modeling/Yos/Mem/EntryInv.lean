import Yos.Mem.EntryRun
import Mathlib.Algebra.Order.Ring.Nat
import Mathlib.Tactic.NormNum
import Mathlib.Tactic.Ring

/-!
# Every entry point keeps the guest heap in order

One lemma per entry point of `allocSystem`: from a heap in order, a call whose request does not wrap
leaves a heap in order.  `yos_calloc` and `yos_posix_memalign` store into the block they took, which is
a change of the guest's own bytes (`Ready.setMemory`); `yos_realloc` takes a block, copies into it and
gives the old one back (`Ready.yosRealloc_moves`).
-/

namespace Yos

open Word Bytes Span

theorem not_mulOverflows_iff (nmemb size : ℕ) : ¬ mulOverflows nmemb size ↔ nmemb * size < 2 ^ 32 := by
  unfold mulOverflows
  rw [not_and, not_lt]
  by_cases zero : nmemb = 0
  · simp [zero]
  · rw [Nat.le_div_iff_mul_le (Nat.pos_of_ne_zero zero), Nat.mul_comm size]
    constructor
    · intro le
      have := le zero
      omega
    · intro lt _
      omega

/-! ## Holding a block -/

/-- The order in which the guest took its pointers does not matter. -/
theorem Ready.perm {s : GuestHeap} {free : List Span} {held : List HeldPtr} (ready : Ready s free)
    (same : s.held.Perm held) : Ready { s with held } free :=
  ⟨ready.heap.perm (same.map HeldPtr.block), fun h mem => ready.held h (same.mem_iff.mpr mem)⟩

/-- Another pointer into the same block. -/
theorem Ready.reshape {ctx : MemCtx} {free : List Span} {held : List HeldPtr} {h h' : HeldPtr}
    (ready : Ready ⟨ctx, h :: held⟩ free) (inside : InBlock ctx.memory h') (block : h'.block = h.block) :
    Ready ⟨ctx, h' :: held⟩ free := by
  refine ⟨?_, fun k mem => ?_⟩
  · have heap := ready.heap
    unfold GuestHeap.blocks at heap ⊢
    rw [List.map_cons] at heap ⊢
    rw [block]
    exact heap
  · rcases List.mem_cons.1 mem with rfl | mem
    · exact inside
    · exact ready.held k (List.mem_cons_of_mem h mem)

section Malloced

variable {s : GuestHeap} {size n : ℕ} {ctx' : MemCtx} {free' : List Span} {t : Span}

/-- The guest holds what `yos_malloc` returned. -/
theorem Malloced.ready (done : Malloced s size ctx' free' t) (room : n + 8 ≤ t.len) :
    Ready ⟨ctx', ⟨t, t.addr + 8, n, hdrSize⟩ :: s.held⟩ free' := by
  refine ⟨done.heap, fun h mem => ?_⟩
  rcases List.mem_cons.1 mem with rfl | mem
  · refine ⟨?_, fun _ => rfl, fun above => absurd above (Nat.lt_irrefl _)⟩
    unfold fin
    dsimp only
    omega
  · exact done.held h mem

/-- Bytes copied to the payload. -/
theorem Malloced.ready_copied (done : Malloced s size ctx' free' t) (room : n + 8 ≤ t.len) (src : ℕ) {k : ℕ}
    (inside : k + 8 ≤ t.len) :
    Ready ⟨{ ctx' with memory := ctx'.memory.copy (t.addr + 8) src k }, ⟨t, t.addr + 8, n, hdrSize⟩ :: s.held⟩
      free' := by
  refine (done.ready room).setMemory fun x changed => Or.inr ⟨_, List.mem_cons_self, ?_⟩
  by_contra outside
  unfold HeldPtr.Owns fin at outside
  exact changed (copy_of_not_mem (by dsimp only at outside; omega))

/-- A request that does not wrap gets a block with room for it. -/
theorem Malloced.room (done : Malloced s size ctx' free' t) (fits : Fits size) : size + 8 ≤ t.len :=
  (le_mallocNeed fits).trans done.large

/-- The state after an entry point that returned the pointer `p` into the block. -/
theorem Malloced.take_eq (done : Malloced s size ctx' free' t) {ctx : MemCtx} {p : ℕ} (ne : p ≠ 0)
    (n alignment : ℕ) : s.take size n alignment (ctx, p) = ⟨ctx, ⟨t, p, n, alignment⟩ :: s.held⟩ := by
  unfold GuestHeap.take
  rw [if_neg ne, done.block]

theorem GuestHeap.take_zero (s : GuestHeap) (request n alignment : ℕ) (ctx : MemCtx) :
    s.take request n alignment (ctx, 0) = { s with ctx } := if_pos rfl

end Malloced

/-! ## The entry points that allocate -/

namespace AllocInv

variable {s : GuestHeap}

/-- `yos_malloc` and the entry points that pass its result on. -/
theorem malloc (inv : AllocInv s) {size n : ℕ} (fits : Fits size) (le : n ≤ size) :
    AllocInv (s.take size n hdrSize (Yos.yosMalloc s.ctx size)) := by
  rcases inv.yosMalloc size with ⟨zero, kept⟩ | ⟨ctx', free', t, done⟩
  · rw [← Prod.mk.eta (p := Yos.yosMalloc s.ctx size), zero, s.take_zero]
    exact kept
  · rw [done.eq, done.take_eq (by omega)]
    have room := done.room fits
    exact Or.inr ⟨free', done.ready (by omega)⟩

theorem alignedAlloc (inv : AllocInv s) {alignment size : ℕ} (fits : RequestFits s (.alignedAlloc alignment size)) :
    AllocInv (s.take size size hdrSize (yosAlignedAlloc s.ctx alignment size)) := by
  unfold yosAlignedAlloc
  by_cases invalid : alignment = 0 ∨ alignment &&& (alignment - 1) ≠ 0
  · rw [if_pos invalid, s.take_zero]
    exact inv
  · by_cases large : blkAlign < alignment
    · rw [if_neg invalid, if_pos large, s.take_zero]
      exact inv
    · rw [if_neg invalid, if_neg large]
      exact inv.malloc (fits size (if_neg (by tauto))) le_rfl

end AllocInv

/-- `yos_calloc` clears the payload of the block it took. -/
theorem Malloced.yosCalloc {s : GuestHeap} {nmemb size : ℕ} {ctx' : MemCtx} {free' : List Span} {t : Span}
    (done : Malloced s (nmemb * size) ctx' free' t) (fits : Fits (nmemb * size)) :
    Yos.yosCalloc s.ctx nmemb size =
      ({ ctx' with memory := ctx'.memory.fill (t.addr + 8) (t.len - 8) 0 }, t.addr + 8) := by
  have room := done.room fits
  have word : nmemb * size < 2 ^ 32 := by
    unfold Fits at fits
    omega
  have small := done.heap.small (b := t) (by simp)
  have long := done.heap.long (b := t) (by simp)
  have header : ctx'.memory.read32 t.addr = t.len := done.heap.header t (by simp)
  have back : sub32 (t.addr + 8) hdrSize = t.addr := by
    unfold fin at small
    unfold sub32 u32 hdrSize
    omega
  unfold Yos.yosCalloc
  rw [if_neg ((not_mulOverflows_iff _ _).mpr word), u32_of_lt word]
  dsimp only
  rw [done.eq]
  dsimp only
  have usable : (if hdrSize < t.len then t.len - hdrSize else nmemb * size) = t.len - 8 :=
    if_pos (by unfold hdrSize; omega)
  rw [if_neg (by omega), back, blkSize, header, usable, if_neg (by omega)]

theorem AllocInv.calloc {s : GuestHeap} (inv : AllocInv s) {nmemb size : ℕ}
    (fits : ¬ mulOverflows nmemb size → Fits (nmemb * size)) :
    AllocInv (s.take (u32 (nmemb * size)) (nmemb * size) hdrSize (yosCalloc s.ctx nmemb size)) := by
  by_cases wraps : mulOverflows nmemb size
  · unfold yosCalloc
    rw [if_pos wraps, s.take_zero]
    exact inv
  · have word := (not_mulOverflows_iff nmemb size).mp wraps
    rw [u32_of_lt word]
    rcases inv.yosMalloc (nmemb * size) with ⟨zero, kept⟩ | ⟨ctx', free', t, done⟩
    · unfold yosCalloc
      rw [if_neg wraps, u32_of_lt word]
      dsimp only
      rw [if_pos zero, s.take_zero]
      exact kept
    · have room := done.room (fits wraps)
      rw [done.yosCalloc (fits wraps), done.take_eq (by omega)]
      refine Or.inr ⟨free', (done.ready room).setMemory fun x changed => Or.inr ⟨_, List.mem_cons_self, ?_⟩⟩
      by_contra outside
      apply changed
      unfold fill
      rw [if_neg]
      unfold HeldPtr.Owns fin at outside
      dsimp only at outside
      omega

/-! ## `yos_posix_memalign` -/

/-- The pointer of `yos_posix_memalign` is the first multiple of the alignment behind the start of the
payload. -/
theorem alignedOff_spec {a k : ℕ} (above : 4 ≤ k) (aligned : a % 16 = 0)
    (small : a + 8 + 2 ^ k < 2 ^ 32) :
    alignedOff (a + 8) (2 ^ k) % 2 ^ k = 0 ∧ a + 16 ≤ alignedOff (a + 8) (2 ^ k) ∧
      alignedOff (a + 8) (2 ^ k) < a + 8 + 2 ^ k := by
  obtain ⟨j, rfl⟩ := Nat.exists_eq_add_of_le above
  have sixteen : 2 ^ (4 + j) = 16 * 2 ^ j := by rw [Nat.pow_add]
  have pos : 0 < 2 ^ j := Nat.two_pow_pos j
  have rounded : bclr (u32 (a + 8 + 2 ^ (4 + j) - 1)) (2 ^ (4 + j) - 1) =
      (a + 8 + 2 ^ (4 + j) - 1) / 2 ^ (4 + j) * 2 ^ (4 + j) := by
    rw [bclr_two_pow, u32_of_lt (by omega)]
  generalize quotient : (a + 8 + 2 ^ (4 + j) - 1) / 2 ^ (4 + j) = q at rounded
  have split := Nat.div_add_mod (a + 8 + 2 ^ (4 + j) - 1) (2 ^ (4 + j))
  have rest := Nat.mod_lt (a + 8 + 2 ^ (4 + j) - 1) (Nat.two_pow_pos (4 + j))
  rw [quotient, Nat.mul_comm] at split
  have multiple : q * 2 ^ (4 + j) = 16 * (q * 2 ^ j) := by
    rw [sixteen]
    ring
  have moved : ¬ bclr (u32 (a + 8 + 2 ^ (4 + j) - 1)) (2 ^ (4 + j) - 1) = a + 8 := by
    rw [rounded]
    omega
  unfold alignedOff
  dsimp only
  rw [if_neg moved, rounded]
  refine ⟨Nat.mul_mod_left _ _, ?_, ?_⟩ <;> omega

/-- The pointer in the block `t`, for an alignment above `HDR_SIZE`. -/
theorem Malloced.alignedOff {s : GuestHeap} {alignment size : ℕ} {ctx' : MemCtx} {free' : List Span}
    {t : Span} (done : Malloced s (memalignNeed alignment size) ctx' free' t) (above : hdrSize < alignment)
    (power : alignment &&& (alignment - 1) = 0) (fits : Fits (memalignNeed alignment size)) :
    Yos.alignedOff (t.addr + 8) alignment % alignment = 0 ∧
      Yos.alignedOff (t.addr + 8) alignment % 16 = 0 ∧ t.addr + 16 ≤ Yos.alignedOff (t.addr + 8) alignment ∧
      Yos.alignedOff (t.addr + 8) alignment + size < t.fin := by
  unfold hdrSize at above
  obtain ⟨k, rfl⟩ := (Nat.and_sub_one_eq_zero_iff_isPowerOfTwo (by omega)).mp power
  have four : 4 ≤ k := by
    by_contra small
    have : 2 ^ k ≤ 2 ^ 3 := Nat.pow_le_pow_right (by decide) (by omega)
    omega
  have need : memalignNeed (2 ^ k) size = size + 2 ^ k := by
    unfold memalignNeed hdrSize
    rw [if_neg (by omega), if_neg (by omega)]
  rw [need] at done fits
  have room := done.room fits
  have small := done.heap.small (b := t) (by simp)
  unfold fin at small ⊢
  obtain ⟨aligned, low, high⟩ := alignedOff_spec four (done.heap.shape t (by simp)).1
    (show t.addr + 8 + 2 ^ k < 2 ^ 32 by omega)
  have sixteen : 16 ∣ 2 ^ k := pow_dvd_pow 2 four
  exact ⟨aligned, Nat.mod_eq_zero_of_dvd (sixteen.trans (Nat.dvd_of_mod_eq_zero aligned)), low, by omega⟩

section Memalign

variable {s : GuestHeap} {memptr alignment size : ℕ} {ctx' : MemCtx} {free' : List Span} {t : Span}

/-- The guest holds a pointer behind the start of the payload, which is stored before the pointer. -/
theorem Malloced.ready_shifted (done : Malloced s (memalignNeed alignment size) ctx' free' t)
    (above : hdrSize < alignment) (power : alignment &&& (alignment - 1) = 0)
    (fits : Fits (memalignNeed alignment size)) :
    Ready ⟨{ ctx' with memory := ctx'.memory.write32 (Yos.alignedOff (t.addr + 8) alignment - 4) (t.addr + 8) },
      ⟨t, Yos.alignedOff (t.addr + 8) alignment, size, alignment⟩ :: s.held⟩ free' := by
  obtain ⟨-, aligned, low, high⟩ := done.alignedOff above power fits
  have small := done.heap.small (b := t) (by simp)
  unfold fin at high small
  -- the word lies in the payload of the block, which the guest holds from its start
  have plain := (done.ready (n := memalignNeed alignment size) (done.room fits)).setMemory
    (m := ctx'.memory.write32 (Yos.alignedOff (t.addr + 8) alignment - 4) (t.addr + 8)) fun x changed =>
      Or.inr ⟨_, List.mem_cons_self, by
        by_contra outside
        unfold HeldPtr.Owns fin at outside
        exact changed (write32_apply_of_disjoint (by dsimp only at outside; omega))⟩
  refine plain.reshape ⟨?_, fun below => absurd above (Nat.not_lt.mpr below), fun _ => ⟨aligned, ?_, ?_, ?_⟩⟩ rfl
  · unfold fin
    exact Nat.le_of_lt high
  · exact low
  · unfold fin
    dsimp only
    omega
  · exact read32_write32_self (by omega)

/-- A store through a cell of the guest. -/
theorem Ready.writeCell {ctx : MemCtx} {held : List HeldPtr} {free : List Span} {new : HeldPtr} {v : ℕ}
    (ready : Ready ⟨ctx, new :: held⟩ free) (own : OwnCell ⟨s.ctx, held⟩ ctx memptr 4) :
    Ready ⟨{ ctx with memory := ctx.memory.write32 memptr v }, new :: held⟩ free := by
  refine ready.setMemory fun x changed => ?_
  have inside : memptr ≤ x ∧ x < memptr + 4 := by
    by_contra outside
    exact changed (write32_apply_of_disjoint (by omega))
  rcases own with outside | ⟨h, mem, owns⟩
  · exact Or.inl (outside x inside.1 inside.2)
  · exact Or.inr ⟨h, List.mem_cons_of_mem new mem, owns x inside.1 inside.2⟩

/-- What a successful `yos_posix_memalign` returns and stores. -/
theorem Malloced.memalignResult (done : Malloced s (memalignNeed alignment size) ctx' free' t)
    (cell : ¬ (memptr = 0 ∨ s.ctx.memorySize < memptr + 4))
    (valid : ¬ (alignment < 4 ∨ alignment &&& (alignment - 1) ≠ 0))
    (word : ¬ 2 ^ 32 - 1 < memalignNeed alignment size) (fits : Fits (memalignNeed alignment size)) :
    Yos.memalignResult s.ctx memptr alignment size =
      if alignment ≤ hdrSize then
        ({ ctx' with memory := ctx'.memory.write32 memptr (t.addr + 8) }, t.addr + 8)
      else
        ({ ctx' with memory := (ctx'.memory.write32 (Yos.alignedOff (t.addr + 8) alignment - 4)
            (t.addr + 8)).write32 memptr (Yos.alignedOff (t.addr + 8) alignment) },
          Yos.alignedOff (t.addr + 8) alignment) := by
  have small := done.heap.small (b := t) (by simp)
  have long := done.heap.long (b := t) (by simp)
  unfold fin at small
  unfold Yos.memalignResult yosPosixMemalign
  rw [if_neg cell, if_neg valid]
  by_cases plain : alignment ≤ hdrSize
  · rw [if_pos plain, if_pos plain, done.eq]
    dsimp only
    rw [if_neg (by omega)]
    dsimp only
    rw [read32_write32_self (by omega)]
  · obtain ⟨-, -, -, high⟩ := done.alignedOff (Nat.lt_of_not_le plain) (by tauto) fits
    unfold fin at high
    rw [if_neg plain, if_neg plain, if_neg word, done.eq]
    dsimp only
    rw [if_neg (by omega)]
    dsimp only
    rw [read32_write32_self (by omega)]

/-- The checks `yos_posix_memalign` makes before it allocates. -/
def MemalignChecks (ctx : MemCtx) (memptr alignment size : ℕ) : Prop :=
  ¬ (memptr = 0 ∨ ctx.memorySize < memptr + 4) ∧ ¬ (alignment < 4 ∨ alignment &&& (alignment - 1) ≠ 0) ∧
    ¬ 2 ^ 32 - 1 < memalignNeed alignment size

/-- Only a size with an alignment above `HDR_SIZE` exceeds 32 bits. -/
theorem memalignNeed_large (large : 2 ^ 32 - 1 < memalignNeed alignment size) (word : size < 2 ^ 32) :
    ¬ alignment ≤ hdrSize := by
  intro below
  unfold memalignNeed at large
  rw [if_pos below] at large
  split_ifs at large <;> omega

theorem memalignResult_of_not_checks (rejected : ¬ MemalignChecks s.ctx memptr alignment size)
    (word : size < 2 ^ 32) : Yos.memalignResult s.ctx memptr alignment size = (s.ctx, 0) := by
  unfold Yos.memalignResult yosPosixMemalign
  by_cases cell : memptr = 0 ∨ s.ctx.memorySize < memptr + 4
  · rw [if_pos cell]
  · rw [if_neg cell]
    by_cases invalid : alignment < 4 ∨ alignment &&& (alignment - 1) ≠ 0
    · rw [if_pos invalid]
    · have large : 2 ^ 32 - 1 < memalignNeed alignment size :=
        by_contra fun small => rejected ⟨cell, invalid, small⟩
      rw [if_neg invalid, if_neg (memalignNeed_large large word), if_pos large]

theorem memalignResult_of_zero (checks : MemalignChecks s.ctx memptr alignment size)
    (zero : (Yos.yosMalloc s.ctx (memalignNeed alignment size)).2 = 0) :
    Yos.memalignResult s.ctx memptr alignment size =
      ((Yos.yosMalloc s.ctx (memalignNeed alignment size)).1, 0) := by
  obtain ⟨cell, valid, small⟩ := checks
  unfold Yos.memalignResult yosPosixMemalign
  rw [if_neg cell, if_neg valid, if_neg small]
  dsimp only
  rw [if_pos zero]
  split_ifs <;> rfl

theorem memalign_request (checks : MemalignChecks s.ctx memptr alignment size) :
    (AllocCall.posixMemalign memptr alignment size).request = some (memalignNeed alignment size) := by
  obtain ⟨-, valid, small⟩ := checks
  unfold AllocCall.request
  apply if_neg
  tauto

theorem le_memalignNeed (alignment size : ℕ) : size ≤ memalignNeed alignment size := by
  unfold memalignNeed
  split_ifs <;> omega

/-- The guest holds what `yos_posix_memalign` stored in its cell. -/
theorem Malloced.ready_memalign (done : Malloced s (memalignNeed alignment size) ctx' free' t)
    (checks : MemalignChecks s.ctx memptr alignment size) (fits : Fits (memalignNeed alignment size))
    (own : OwnCell s (Yos.memalignResult s.ctx memptr alignment size).1 memptr 4) :
    Ready (s.take (memalignNeed alignment size) size alignment
      (Yos.memalignResult s.ctx memptr alignment size)) free' := by
  obtain ⟨cell, valid, small⟩ := checks
  rw [done.memalignResult cell valid small fits] at own ⊢
  have room := done.room fits
  have le := le_memalignNeed alignment size
  by_cases plain : alignment ≤ hdrSize
  · rw [if_pos plain] at own ⊢
    rw [done.take_eq (by omega)]
    have inside : InBlock ctx'.memory ⟨t, t.addr + 8, size, alignment⟩ := by
      refine ⟨?_, fun _ => rfl, fun above => absurd plain (Nat.not_le.mpr above)⟩
      unfold fin
      dsimp only
      omega
    exact ((done.ready (n := size) (by omega)).reshape inside rfl).writeCell own
  · have above := Nat.lt_of_not_le plain
    have low := (done.alignedOff above (by tauto) fits).2.2.1
    rw [if_neg plain] at own ⊢
    rw [done.take_eq (by omega)]
    exact (done.ready_shifted above (by tauto) fits).writeCell own

theorem AllocInv.posixMemalign (inv : AllocInv s) (word : size < 2 ^ 32)
    (fits : RequestFits s (.posixMemalign memptr alignment size))
    (own : OwnCell s (Yos.memalignResult s.ctx memptr alignment size).1 memptr 4) :
    AllocInv (s.take (memalignNeed alignment size) size alignment
      (Yos.memalignResult s.ctx memptr alignment size)) := by
  by_cases checks : MemalignChecks s.ctx memptr alignment size
  · rcases inv.yosMalloc (memalignNeed alignment size) with ⟨zero, kept⟩ | ⟨ctx', free', t, done⟩
    · rw [memalignResult_of_zero checks zero, s.take_zero]
      exact kept
    · exact Or.inr ⟨free', done.ready_memalign checks (fits _ (memalign_request checks)) own⟩
  · rw [memalignResult_of_not_checks checks word, s.take_zero]
    exact inv

end Memalign

/-! ## `yos_realloc` -/

namespace Ready

variable {s : GuestHeap} {free : List Span} {h : HeldPtr} {newsize fuel : ℕ}

theorem sub32_raw (ready : Ready s free) (held : h ∈ s.held) : sub32 h.raw hdrSize = h.block.addr := by
  have small := ready.heap.small (List.mem_append_right free (mem_blocks held))
  unfold fin at small
  unfold HeldPtr.raw sub32 u32 hdrSize
  omega

/-- What `yos_realloc` does with a pointer the guest holds. -/
theorem yosRealloc_eq (ready : Ready s free) (held : h ∈ s.held) (pos : newsize ≠ 0) :
    Yos.yosRealloc fuel s.ctx h.ptr newsize =
      if newsize + hdrSize ≤ h.block.len then some (s.ctx, h.raw)
      else
        let (ctx, newoff) := Yos.yosMalloc s.ctx newsize
        if newoff = 0 then some (ctx, 0)
        else
          (Yos.yosFree fuel { ctx with memory := ctx.memory.copy newoff h.raw (h.block.len - hdrSize) }
            h.raw).map fun ctx => (ctx, newoff) := by
  have mem := List.mem_append_right free (mem_blocks held)
  have size : blkSize s.ctx h.block.addr = h.block.len := ready.heap.header _ (mem_blocks held)
  have top := (ready.heap.bounds mem).2
  have long := ready.heap.long mem
  have small := ready.heap.small mem
  unfold fin at top small
  unfold Yos.yosRealloc
  rw [if_neg (ready.ne_zero held), if_neg pos, if_neg (ready.inRange held).1]
  dsimp only
  rw [ready.unshift held, ready.sub32_raw held, size, u32_of_lt (by omega), if_neg (by unfold hdrSize; omega)]
  unfold hdrSize
  by_cases fit : newsize + 8 ≤ h.block.len
  · rw [if_pos fit, if_pos (by omega)]
  · rw [if_neg fit, if_neg (by omega)]

/-- The guest holds a pointer once. -/
theorem nodup (ready : Ready s free) : s.held.Nodup := by
  have apart := (List.pairwise_append.1 ready.heap.pairwise).2.1
  refine (List.pairwise_map.1 apart).imp_of_mem fun {h k} held _ disjoint same => ?_
  subst same
  have long := ready.heap.long (List.mem_append_right free (mem_blocks held))
  exact disjoint h.block.addr ⟨⟨le_rfl, by omega⟩, le_rfl, by omega⟩

theorem not_mem_erase (ready : Ready s free) (h : HeldPtr) : h ∉ s.held.erase h :=
  fun mem => ((ready.nodup.mem_erase_iff).mp mem).1 rfl

/-- A pointer that keeps its block. -/
theorem shrink (ready : Ready s free) (held : h ∈ s.held) (fit : newsize + hdrSize ≤ h.block.len) :
    Ready ⟨s.ctx, ⟨h.block, h.raw, newsize, hdrSize⟩ :: s.held.erase h⟩ free := by
  have inside : InBlock s.ctx.memory ⟨h.block, h.raw, newsize, hdrSize⟩ := by
    refine ⟨?_, fun _ => rfl, fun above => absurd above (Nat.lt_irrefl _)⟩
    unfold HeldPtr.raw fin hdrSize at *
    dsimp only
    omega
  exact (ready.perm (List.perm_cons_erase held)).reshape inside rfl

/-- The old block and the new one have no byte in common. -/
theorem fresh_block {ctx' : MemCtx} {free' : List Span} {t : Span} (done : Malloced s newsize ctx' free' t)
    (held : h ∈ s.held) : t.Disjoint h.block :=
  (List.pairwise_cons.1 (List.pairwise_append.1 done.heap.pairwise).2.1).1 h.block (mem_blocks held)

/-- `yos_realloc` of a pointer whose block is too small: it takes a block, copies the payload of the old
block to it and gives the old block back. -/
theorem yosRealloc_moves {ctx' : MemCtx} {free' : List Span} {t : Span} (ready : Ready s free)
    (held : h ∈ s.held) (fits : Fits newsize) (larger : h.block.len < newsize + hdrSize)
    (done : Malloced s newsize ctx' free' t) (enough : free'.length < fuel) :
    ∃ ctx'' free'', Yos.yosRealloc fuel s.ctx h.ptr newsize = some (ctx'', t.addr + 8) ∧
      Ready ⟨ctx'', ⟨t, t.addr + 8, newsize, hdrSize⟩ :: s.held.erase h⟩ free'' ∧
      (∀ i < h.block.len - hdrSize, ctx''.memory (t.addr + 8 + i) = s.ctx.memory (h.raw + i)) ∧
      ∀ k ∈ s.held.erase h, ∀ x, k.block.Has x → ctx''.memory x = s.ctx.memory x := by
  have room := done.room fits
  have apart := fresh_block done held
  have long := ready.heap.long (List.mem_append_right free (mem_blocks held))
  unfold hdrSize at larger
  let new : HeldPtr := ⟨t, t.addr + 8, newsize, hdrSize⟩
  let copied := ctx'.memory.copy (t.addr + 8) h.raw (h.block.len - hdrSize)
  have between : Ready ⟨{ ctx' with memory := copied }, new :: s.held⟩ free' :=
    done.ready_copied (by omega) h.raw (by unfold hdrSize; omega)
  have mem : h ∈ new :: s.held := List.mem_cons_of_mem new held
  have differ : new ≠ h := by
    rintro rfl
    exact apart t.addr ⟨⟨le_rfl, by omega⟩, le_rfl, by dsimp only [new]; omega⟩
  obtain ⟨ctx'', free'', eq, after, given⟩ := between.yosFree mem enough
  rw [List.erase_cons_tail (by simpa using differ)] at after
  have unheld {x : ℕ} (has : t.Has x) : ctx''.memory x = copied x :=
    given.frame x (between.heap.cover_free List.mem_cons_self has) fun old => apart x ⟨has, old⟩
  refine ⟨ctx'', free'', ?_, after, fun i lt => ?_, fun k kept x has => ?_⟩
  · rw [ready.yosRealloc_eq held (by omega), if_neg (by unfold hdrSize; omega), done.eq]
    dsimp only
    rw [if_neg (by omega), ← between.yosFree_ptr mem, eq]
    rfl
  · unfold hdrSize at lt
    have has : t.Has (t.addr + 8 + i) := ⟨by omega, by omega⟩
    rw [unheld has]
    have payload : copied (t.addr + 8 + i) = ctx'.memory (h.raw + i) :=
      copy_of_lt (by unfold hdrSize; omega)
    rw [payload]
    exact done.frame h.block (mem_blocks held) _ ⟨by unfold HeldPtr.raw; omega, by unfold HeldPtr.raw hdrSize; omega⟩
  · have kept' := List.mem_of_mem_erase kept
    have free := between.heap.cover_free (b := k.block) (List.mem_cons_of_mem _ (mem_blocks kept')) has
    have old : ¬ h.block.Has x := by
      intro both
      obtain rfl := ready.eq_of_has kept' held has both
      exact absurd kept (ready.not_mem_erase _)
    have new' : ¬ t.Has x := fun both => fresh_block done kept' x ⟨both, has⟩
    rw [given.frame x free old]
    refine Eq.trans (copy_of_not_mem fun inside => new' ?_) (done.frame k.block (mem_blocks kept') x has)
    unfold hdrSize at inside
    exact ⟨by omega, by omega⟩

end Ready

/-- The result of `yos_realloc` does not depend on the number of iterations allowed. -/
theorem yosRealloc_unique {ctx : MemCtx} {off newsize fuel fuel' : ℕ} {r r' : MemCtx × ℕ}
    (returns : yosRealloc fuel ctx off newsize = some r) (returns' : yosRealloc fuel' ctx off newsize = some r') :
    r = r' := by
  have freed {c : MemCtx} {p q : ℕ} (eq : (yosFree fuel c p).map (fun ctx => (ctx, q)) = some r)
      (eq' : (yosFree fuel' c p).map (fun ctx => (ctx, q)) = some r') : r = r' := by
    obtain ⟨c₁, run, rfl⟩ := Option.map_eq_some_iff.mp eq
    obtain ⟨c₂, run', rfl⟩ := Option.map_eq_some_iff.mp eq'
    rw [yosFree_unique run run']
  unfold yosRealloc at returns returns'
  dsimp only at returns returns'
  split_ifs at returns returns'
  all_goals first | exact freed returns returns' | exact Option.some.inj (returns.symm.trans returns')

/-- A heap with something the guest holds is set up. -/
theorem AllocInv.ready {s : GuestHeap} {h : HeldPtr} (inv : AllocInv s) (held : h ∈ s.held) :
    ∃ free, Ready s free := by
  rcases inv with ⟨-, none⟩ | ready
  · rw [none] at held
    cases held
  · exact ready

theorem AllocInv.realloc {s : GuestHeap} {h : HeldPtr} {newsize fuel : ℕ} {result : MemCtx × ℕ}
    (inv : AllocInv s) (held : h ∈ s.held) (fits : Fits newsize)
    (returns : yosRealloc fuel s.ctx h.ptr newsize = some result) : AllocInv (s.resize h newsize result) := by
  obtain ⟨free, ready⟩ := inv.ready held
  unfold GuestHeap.resize
  by_cases pos : newsize = 0
  · rw [if_pos pos]
    unfold yosRealloc at returns
    rw [if_neg (ready.ne_zero held), if_pos pos] at returns
    obtain ⟨ctx, run, rfl⟩ := Option.map_eq_some_iff.mp returns
    obtain ⟨ctx', free', eq, after, -⟩ := ready.yosFree held (Nat.lt_succ_self _)
    rw [yosFree_unique run eq]
    exact Or.inr ⟨free', after⟩
  · rw [if_neg pos]
    by_cases fit : newsize + hdrSize ≤ h.block.len
    · rw [ready.yosRealloc_eq held pos, if_pos fit] at returns
      cases returns
      have raw : h.raw ≠ 0 := Nat.succ_ne_zero _
      dsimp only
      rw [if_neg raw, resizedBlock, if_pos fit]
      exact Or.inr ⟨free, ready.shrink held fit⟩
    · rcases ready.yosMalloc newsize with eq | ⟨ctx', free', t, done, -⟩
      · rw [ready.yosRealloc_eq held pos, if_neg fit, eq] at returns
        cases returns
        exact Or.inr ⟨free, ready⟩
      · obtain ⟨ctx'', free'', eq, after, -⟩ :=
          ready.yosRealloc_moves held fits (Nat.lt_of_not_le fit) done (Nat.lt_succ_self _)
        rw [yosRealloc_unique returns eq]
        dsimp only
        rw [if_neg (by omega), resizedBlock, if_neg fit, done.block]
        exact Or.inr ⟨free'', after⟩

theorem AllocInv.free {s : GuestHeap} {h : HeldPtr} {fuel : ℕ} {ctx : MemCtx} (inv : AllocInv s)
    (held : h ∈ s.held) (returns : yosFree fuel s.ctx h.ptr = some ctx) : AllocInv ⟨ctx, s.held.erase h⟩ := by
  obtain ⟨free, ready⟩ := inv.ready held
  obtain ⟨ctx', free', eq, after, -⟩ := ready.yosFree held (Nat.lt_succ_self _)
  rw [yosFree_unique returns eq]
  exact Or.inr ⟨free', after⟩

/-- A store of the guest. -/
theorem AllocInv.write {s : GuestHeap} {a : ℕ} {v : UInt8} (inv : AllocInv s) (own : OwnCell s s.ctx a 1) :
    AllocInv { s with ctx := { s.ctx with memory := s.ctx.memory.fill a 1 v } } := by
  rcases inv with ⟨⟨unset, pos, brk, size⟩, none⟩ | ⟨free, ready⟩
  · exact Or.inl ⟨⟨unset, pos, brk, size⟩, none⟩
  · refine Or.inr ⟨free, ready.setMemory fun x changed => ?_⟩
    have inside : a ≤ x ∧ x < a + 1 := by
      by_contra outside
      exact changed (if_neg outside)
    exact own.imp (fun free => free x inside.1 inside.2) fun ⟨h, held, owns⟩ => ⟨h, held, owns x inside.1 inside.2⟩

theorem yosReallocarray_of_overflows {ctx : MemCtx} {off nmemb size fuel : ℕ} (wraps : mulOverflows nmemb size) :
    yosReallocarray fuel ctx off nmemb size = some (ctx, 0) := if_pos wraps

theorem yosReallocarray_of_not {ctx : MemCtx} {off nmemb size fuel : ℕ} (fine : ¬ mulOverflows nmemb size) :
    yosReallocarray fuel ctx off nmemb size = yosRealloc fuel ctx off (nmemb * size) := by
  unfold yosReallocarray
  rw [if_neg fine, u32_of_lt ((not_mulOverflows_iff nmemb size).mp fine)]

/-! ## Every step -/

/-- A call that makes no request that wraps keeps the heap in order. -/
theorem AllocInv.step {s s' : GuestHeap} {c : AllocCall} (inv : AllocInv s) (noWrap : RequestFits s c)
    (step : AllocStep s c s') : AllocInv s' := by
  cases step with
  | malloc size => exact inv.malloc (noWrap size rfl) le_rfl
  | calloc nmemb size => exact inv.calloc fun fine => noWrap _ (if_neg fine)
  | posixMemalign memptr alignment size words cell => exact inv.posixMemalign words.2.2 noWrap cell
  | alignedAlloc alignment size => exact inv.alignedAlloc noWrap
  | memalign alignment size => exact inv.alignedAlloc noWrap
  | valloc size => exact inv.malloc (noWrap size rfl) le_rfl
  | reallocNull newsize word returns =>
    cases returns
    exact inv.malloc (noWrap newsize rfl) le_rfl
  | realloc held word returns => exact inv.realloc held (noWrap _ rfl) returns
  | reallocarrayNull nmemb size words returns =>
    by_cases wraps : mulOverflows nmemb size
    · rw [yosReallocarray_of_overflows wraps] at returns
      cases returns
      rw [s.take_zero]
      exact inv
    · rw [yosReallocarray_of_not wraps] at returns
      cases returns
      rw [u32_of_lt ((not_mulOverflows_iff nmemb size).mp wraps)]
      exact inv.malloc (noWrap _ (if_neg wraps)) le_rfl
  | @reallocarray h nmemb size fuel result held words returns =>
    by_cases wraps : mulOverflows nmemb size
    · have large := mt (not_mulOverflows_iff nmemb size).mpr (not_not.mpr wraps)
      rw [yosReallocarray_of_overflows wraps] at returns
      cases returns
      unfold GuestHeap.resize
      rw [if_neg (by omega), if_pos rfl]
      exact inv
    · rw [yosReallocarray_of_not wraps] at returns
      exact inv.realloc held (noWrap _ (if_neg wraps)) returns
  | freeNull => exact inv
  | free held returns => exact inv.free held returns
  | write own => exact inv.write own

/-- A run without requests that wrap keeps the heap in order. -/
theorem AllocInv.of_run {s : GuestHeap} (run : allocSystem.ReachableIf RequestFits s) : AllocInv s :=
  run.invariant (fun _ start => Or.inl start) fun _ _ _ inv noWrap step => inv.step noWrap step

end Yos
