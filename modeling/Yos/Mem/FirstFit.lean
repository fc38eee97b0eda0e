import Yos.Mem.HeapRun
import Yos.Mem.EntryRun

/-!
# First fit finds a block, and freeing everything restores the heap

`do_alloc` gives up after `2 ^ 22` nodes of the free list, which it takes for a cycle.  In a heap of more
than 256 MiB the list can be longer, so `yos_malloc` fails exactly when no block among the first
`2 ^ 22` is large enough (`first_fit_complete_iff`); a heap of up to 128 MiB has fewer free blocks
(`complete_of_small`).  Freeing every live block, in any order, leaves one free block, because a free
list with gaps is determined by the bytes it covers.
-/

namespace Yos

open Word Bytes Span

/-- The size of the block for `size` bytes. -/
def blockNeed (size : ℕ) : ℕ := max 32 ((size + 8 + 15) / 16 * 16)

theorem mallocNeed_eq_blockNeed {size : ℕ} (small : size ≤ 2 ^ 31) : mallocNeed size = blockNeed size :=
  mallocNeed_of_fits (by unfold Fits hdrSize blkAlign; omega)

/-- `yos_malloc` fails exactly when no free block is large enough. -/
def FirstFitComplete (ctx : MemCtx) (free : List Span) (size : ℕ) : Prop :=
  (yosMalloc ctx size).2 = 0 ↔ ∀ f ∈ free, f.len < blockNeed size

/-- If a free block is large enough, one of those that `do_alloc` looks at is. -/
def FitInReach (free : List Span) (size : ℕ) : Prop :=
  (∃ f ∈ free, blockNeed size ≤ f.len) → ∃ f ∈ free.take (2 ^ 22), blockNeed size ≤ f.len

/-- `yos_free` of the blocks, one after the other. -/
def freeAll (fuel : ℕ) (ctx : MemCtx) : List Span → Option MemCtx
  | [] => some ctx
  | b :: blocks => (yosFree fuel ctx (b.addr + hdrSize)).bind fun ctx => freeAll fuel ctx blocks

/-- Freeing the live blocks in any order returns, and leaves the whole heap as one free block. -/
def FreesToOne (s : HeapState) : Prop :=
  ∀ order, order.Perm s.live → (∃ fuel ctx, freeAll fuel s.ctx order = some ctx) ∧
    ∀ fuel ctx, freeAll fuel s.ctx order = some ctx →
      FreeList ctx.memory ctx.allocFreeHead [⟨s.ctx.allocLo, s.ctx.allocHi - s.ctx.allocLo⟩]

/-! ## First fit -/

theorem firstFit_eq_none_iff {need g : ℕ} {l : List Span} :
    firstFit need g l = none ↔ ∀ f ∈ l.take g, f.len < need := by
  induction g generalizing l with
  | zero => simp [firstFit]
  | succ g ih =>
    cases l with
    | nil => simp [firstFit]
    | cons b l =>
      rw [firstFit, List.take_succ_cons, List.forall_mem_cons, ← ih]
      split_ifs with fit
      · simp [Nat.not_lt.mpr fit]
      · simp [Nat.lt_of_not_le fit]

/-- `yos_malloc` fails exactly when none of the first `2 ^ 22` free blocks is large enough. -/
theorem HeapInv.yosMalloc_eq_zero_iff {ctx : MemCtx} {free live : List Span} {size : ℕ}
    (inv : HeapInv ctx free live) :
    (yosMalloc ctx size).2 = 0 ↔ ∀ f ∈ free.take (2 ^ 22), f.len < mallocNeed size := by
  have init := inv.allocInitLocked
  obtain ⟨aligned, large⟩ := mallocNeed_shape size
  rw [← firstFit_eq_none_iff]
  unfold yosMalloc
  rw [init]
  dsimp only
  rcases found : firstFit (mallocNeed size) (2 ^ 22) free with _ | ⟨skip, b, post⟩
  · rw [inv.doAlloc_of_none found]
    exact iff_of_true rfl rfl
  · obtain ⟨ctx', eq, -⟩ := inv.doAlloc_of_fit aligned large found
    rw [eq]
    exact iff_of_false (Nat.succ_ne_zero _) (by simp)

theorem HeapInv.complete_iff {ctx : MemCtx} {free live : List Span} {size : ℕ}
    (inv : HeapInv ctx free live) (small : size ≤ 2 ^ 31) :
    FirstFitComplete ctx free size ↔ FitInReach free size := by
  unfold FirstFitComplete FitInReach
  rw [inv.yosMalloc_eq_zero_iff, mallocNeed_eq_blockNeed small]
  constructor
  · intro complete ⟨f, mem, fit⟩
    by_contra none
    simp only [not_exists, not_and, not_le] at none
    exact absurd fit (Nat.not_le.mpr (complete.mp none f mem))
  · intro reach
    constructor
    · intro none f mem
      by_contra fit
      obtain ⟨g, mem', fit'⟩ := reach ⟨f, mem, Nat.le_of_not_lt fit⟩
      exact absurd fit' (Nat.not_le.mpr (none g mem'))
    · exact fun none f mem => none f (List.mem_of_mem_take mem)

/-- The free blocks of a heap of up to 128 MiB are all in reach. -/
theorem HeapInv.complete_of_small {ctx : MemCtx} {free live : List Span} {size : ℕ}
    (inv : HeapInv ctx free live) (small : ctx.allocHi - ctx.allocLo ≤ 2 ^ 27) : FitInReach free size := by
  have count : free.length * 32 ≤ ctx.allocHi - ctx.allocLo :=
    length_mul_le (sorted_of_gap inv.gaps) (fun f mem => inv.long (List.mem_append_left _ mem))
      (fun f mem => (inv.bounds (List.mem_append_left _ mem)).1)
      fun f mem => (inv.bounds (List.mem_append_left _ mem)).2
  unfold FitInReach
  rw [List.take_of_length_le (by omega)]
  exact id

/-! ## Freeing everything -/

/-- A heap with no live block is one free block. -/
theorem HeapInv.one_free {ctx : MemCtx} {free : List Span} (inv : HeapInv ctx free []) :
    free = [⟨ctx.allocLo, ctx.allocHi - ctx.allocLo⟩] := by
  refine inv.free_eq (List.pairwise_singleton _ _) (fun f mem => ?_) fun x => ?_
  · rw [List.mem_singleton.1 mem]
    have := inv.lo_lt
    dsimp only
    omega
  · rw [cover_cons, cover_nil, Nat.add_zero, ← inv.tiles x, List.append_nil]

theorem HeapInv.length_lt {ctx : MemCtx} {free live : List Span} (inv : HeapInv ctx free live) :
    free.length < ctx.allocHi := by
  have count : free.length * 32 ≤ ctx.allocHi - ctx.allocLo :=
    length_mul_le (sorted_of_gap inv.gaps) (fun f mem => inv.long (List.mem_append_left _ mem))
      (fun f mem => (inv.bounds (List.mem_append_left _ mem)).1)
      fun f mem => (inv.bounds (List.mem_append_left _ mem)).2
  have := inv.lo_lt
  omega

theorem HeapInv.freeAll {ctx : MemCtx} {free live order : List Span} (inv : HeapInv ctx free live)
    (same : order.Perm live) : ∃ ctx', Yos.freeAll ctx.allocHi ctx order = some ctx' ∧
      FreeList ctx'.memory ctx'.allocFreeHead [⟨ctx.allocLo, ctx.allocHi - ctx.allocLo⟩] := by
  induction order generalizing ctx free live with
  | nil =>
    obtain rfl := List.nil_perm.mp same
    exact ⟨ctx, rfl, inv.one_free ▸ inv.list⟩
  | cons b blocks ih =>
    have mem : b ∈ live := same.subset List.mem_cons_self
    obtain ⟨ctx', free', eq, inv', given⟩ := inv.yosFree_givesBack mem inv.length_lt
    obtain ⟨m, h, rfl⟩ := given.bounds
    have rest : blocks.Perm (live.erase b) := (List.cons_perm_iff_perm_erase.mp same).2
    obtain ⟨ctx'', run, list⟩ := ih inv' rest
    refine ⟨ctx'', ?_, list⟩
    rw [Yos.freeAll, eq]
    exact run

theorem freeAll_unique {ctx c c' : MemCtx} {blocks : List Span} {fuel fuel' : ℕ}
    (returns : freeAll fuel ctx blocks = some c) (returns' : freeAll fuel' ctx blocks = some c') : c = c' := by
  induction blocks generalizing ctx with
  | nil => exact Option.some.inj (returns.symm.trans returns')
  | cons b blocks ih =>
    obtain ⟨mid, first, rest⟩ := Option.bind_eq_some_iff.mp returns
    obtain ⟨mid', first', rest'⟩ := Option.bind_eq_some_iff.mp returns'
    obtain rfl := yosFree_unique first first'
    exact ih rest rest'

theorem HeapInv.freesToOne {s : HeapState} {free : List Span} (inv : HeapInv s.ctx free s.live) :
    FreesToOne s := by
  intro order same
  obtain ⟨ctx', run, list⟩ := inv.freeAll same
  refine ⟨⟨_, ctx', run⟩, fun fuel ctx returns => ?_⟩
  rw [freeAll_unique returns run]
  exact list

/-! ## Every reachable state -/

/-- In every state of a run after the heap is set up, `yos_malloc` is complete for a size exactly when a
free block that is large enough is among the first `2 ^ 22`, and freeing everything leaves one block. -/
theorem first_fit_complete_iff {ctx : MemCtx} {s : HeapState} (size : ctx.memorySize ≤ 2 ^ 31)
    (brk : ctx.heapEnd ≤ ctx.memorySize) (pos : 0 < ctx.heapEnd) (fresh : ctx.allocHi = 0)
    (init : (allocInitLocked ctx).isSome) (run : (heapSystem ctx).Reachable s) (setUp : s.ctx.allocHi ≠ 0) :
    (∃ free, FreeList s.ctx.memory s.ctx.allocFreeHead free ∧
      (∀ size ≤ 2 ^ 31, FirstFitComplete s.ctx free size ↔ FitInReach free size) ∧
      (s.ctx.allocHi - s.ctx.allocLo ≤ 2 ^ 27 → ∀ size ≤ 2 ^ 31, FirstFitComplete s.ctx free size)) ∧
    FreesToOne s := by
  rcases heapReady_of_reachable size brk pos fresh init run with rfl | ⟨⟨free, inv⟩, -⟩
  · exact absurd fresh setUp
  · exact ⟨⟨free, inv.list, fun _ small => inv.complete_iff small, fun heap _ small =>
      (inv.complete_iff small).mpr (inv.complete_of_small heap)⟩, inv.freesToOne⟩

theorem first_fit_complete_first :
    (∃ free, FreeList (HeapState.malloc ⟨.blank (2 ^ 22) 0x50000, [], []⟩ 1).ctx.memory
        (HeapState.malloc ⟨.blank (2 ^ 22) 0x50000, [], []⟩ 1).ctx.allocFreeHead free ∧
      (∀ size ≤ 2 ^ 31, FirstFitComplete (HeapState.malloc ⟨.blank (2 ^ 22) 0x50000, [], []⟩ 1).ctx free size ↔
        FitInReach free size) ∧
      ((HeapState.malloc ⟨.blank (2 ^ 22) 0x50000, [], []⟩ 1).ctx.allocHi -
          (HeapState.malloc ⟨.blank (2 ^ 22) 0x50000, [], []⟩ 1).ctx.allocLo ≤ 2 ^ 27 → ∀ size ≤ 2 ^ 31,
        FirstFitComplete (HeapState.malloc ⟨.blank (2 ^ 22) 0x50000, [], []⟩ 1).ctx free size)) ∧
      FreesToOne (HeapState.malloc ⟨.blank (2 ^ 22) 0x50000, [], []⟩ 1) :=
  first_fit_complete_iff (show (MemCtx.blank (2 ^ 22) 0x50000).memorySize ≤ 2 ^ 31 by decide) (by decide)
    (by decide) rfl (by decide) (.next (.start rfl) (.malloc _ 1 (by decide))) (by decide)

/-! ## A heap with more than `2 ^ 22` free blocks -/

/-- The block number `k` of 32 bytes. -/
def unit (lo k : ℕ) : Span := ⟨lo + 32 * k, 32⟩

/-- What is left of the heap behind `k` blocks of 32 bytes. -/
def restAfter (lo hi k : ℕ) : Span := ⟨lo + 32 * k, hi - (lo + 32 * k)⟩

/-- A request of 24 bytes takes the next block. -/
theorem malloc_unit {s : HeapState} {ctx : MemCtx} {lo hi k : ℕ} (init : allocInitLocked s.ctx = some ctx)
    (inv : HeapInv ctx [restAfter lo hi k] s.live) (room : lo + 32 * (k + 2) ≤ hi) :
    HeapInv (s.malloc 24).ctx [restAfter lo hi (k + 1)] (s.malloc 24).live ∧
      (s.malloc 24).live = unit lo k :: s.live := by
  have need : mallocNeed 24 = 32 := by decide
  have cut : 32 + minBlock ≤ (restAfter lo hi k).len := by
    unfold restAfter minBlock
    dsimp only
    omega
  have found : firstFit 32 (2 ^ 22) [restAfter lo hi k] = some ([], restAfter lo hi k, []) :=
    if_pos (Nat.le_trans (Nat.le_add_right _ _) cut)
  obtain ⟨ctx', eq, inv', -⟩ := inv.doAlloc_of_fit (by decide) le_rfl found
  have taken : carveTaken 32 (restAfter lo hi k) = unit lo k := if_pos cut
  have left : carveRest 32 (restAfter lo hi k) = [restAfter lo hi (k + 1)] := by
    unfold carveRest
    rw [if_pos cut]
    unfold restAfter
    dsimp only
    congr 2
  rw [taken, left] at inv'
  have header : blockOf ctx' ((restAfter lo hi k).addr + 8) = unit lo k := by
    unfold blockOf blkSize hdrSize
    rw [Nat.add_sub_cancel]
    exact congrArg (Span.mk _) (inv'.header (unit lo k) List.mem_cons_self)
  unfold HeapState.malloc yosMalloc
  rw [init]
  dsimp only
  rw [need, eq]
  dsimp only
  rw [if_neg (Nat.succ_ne_zero _), header]
  exact ⟨inv', rfl⟩

/-- `k + 1` requests of 24 bytes. -/
theorem exists_filled {ctx ctx' : MemCtx} {lo hi : ℕ} (init : allocInitLocked ctx = some ctx')
    (inv : HeapInv ctx' [restAfter lo hi 0] []) (k : ℕ) (room : lo + 32 * (k + 2) ≤ hi) :
    ∃ s, (heapSystem ctx).Reachable s ∧ HeapInv s.ctx [restAfter lo hi (k + 1)] s.live ∧
      ∀ j < k + 1, unit lo j ∈ s.live := by
  induction k with
  | zero =>
    obtain ⟨inv', live⟩ := malloc_unit (s := ⟨ctx, [], []⟩) init inv room
    refine ⟨_, .next (.start rfl) (.malloc _ 24 (by decide)), inv', fun j lt => ?_⟩
    rw [live, Nat.lt_one_iff.mp lt]
    exact List.mem_cons_self
  | succ k ih =>
    obtain ⟨s, run, before, mem⟩ := ih (by omega)
    obtain ⟨inv', live⟩ := malloc_unit before.allocInitLocked before room
    refine ⟨_, run.next (.malloc _ 24 (by decide)), inv', fun j lt => ?_⟩
    rw [live]
    rcases Nat.lt_succ_iff_lt_or_eq.mp lt with below | rfl
    · exact List.mem_cons_of_mem _ (mem j below)
    · exact List.mem_cons_self

/-- Every other block is free: the free list when `i` of them have been freed. -/
def everyOther (lo hi i n : ℕ) : List Span :=
  (List.range i).map (fun j => unit lo (2 * j)) ++ [restAfter lo hi n]

theorem everyOther_gaps {lo hi i n : ℕ} (before : 2 * i ≤ n) : (everyOther lo hi i n).Pairwise Gap := by
  refine List.pairwise_append.2 ⟨List.pairwise_map.2 (List.pairwise_lt_range.imp fun lt => ?_),
    List.pairwise_singleton _ _, fun f mem r last => ?_⟩
  · unfold Gap unit fin
    dsimp only
    omega
  · obtain ⟨j, lt, rfl⟩ := List.mem_map.1 mem
    rw [List.mem_singleton.1 last]
    rw [List.mem_range] at lt
    unfold Gap unit restAfter fin
    dsimp only
    omega

theorem cover_everyOther_succ (lo hi i n x : ℕ) :
    cover (everyOther lo hi (i + 1) n) x = cover (everyOther lo hi i n) x + (unit lo (2 * i)).hit x := by
  unfold everyOther
  rw [List.range_succ, List.map_append, cover_append, cover_append, cover_append]
  simp only [List.map_cons, List.map_nil, cover_cons, cover_nil]
  omega

theorem everyOther_pos {lo hi i n : ℕ} (room : lo + 32 * n < hi) : ∀ f ∈ everyOther lo hi i n, 0 < f.len := by
  intro f mem
  rcases List.mem_append.1 mem with mem | mem
  · obtain ⟨j, -, rfl⟩ := List.mem_map.1 mem
    exact Nat.succ_pos _
  · rw [List.mem_singleton.1 mem]
    unfold restAfter
    dsimp only
    omega

theorem unit_injective {lo j k : ℕ} (same : unit lo j = unit lo k) : j = k := by
  have addr := congrArg Span.addr same
  unfold unit at addr
  dsimp only at addr
  omega

/-- Freeing every other block of `2 * m`. -/
theorem exists_everyOther {ctx : MemCtx} {s : HeapState} {lo hi m : ℕ} (run : (heapSystem ctx).Reachable s)
    (inv : HeapInv s.ctx [restAfter lo hi (2 * m)] s.live) (mem : ∀ j < 2 * m, unit lo j ∈ s.live)
    (room : lo + 32 * (2 * m) < hi) (i : ℕ) (le : i ≤ m) :
    ∃ s, (heapSystem ctx).Reachable s ∧ HeapInv s.ctx (everyOther lo hi i (2 * m)) s.live ∧
      ∀ j, i ≤ j → j < m → unit lo (2 * j) ∈ s.live := by
  induction i with
  | zero => exact ⟨s, run, inv, fun j _ lt => mem (2 * j) (by omega)⟩
  | succ i ih =>
    obtain ⟨s, run, inv, mem⟩ := ih (by omega)
    have here := mem i le_rfl (by omega)
    obtain ⟨ctx', free', eq, inv', given⟩ := inv.yosFree_givesBack here (Nat.lt_succ_self _)
    have free : free' = everyOther lo hi (i + 1) (2 * m) :=
      inv'.free_eq (everyOther_gaps (by omega)) (everyOther_pos room) fun x => by
        rw [given.joins, cover_everyOther_succ]
    refine ⟨_, run.next (.free here eq), free ▸ inv', fun j low high => ?_⟩
    refine (List.mem_erase_of_ne fun same => ?_).mpr (mem j (by omega) high)
    have := unit_injective same
    omega

/-- A free list that starts with `m` blocks of 32 bytes, before the rest of the heap. -/
theorem exists_small_first {ctx ctx' : MemCtx} {lo hi m : ℕ} (init : allocInitLocked ctx = some ctx')
    (inv : HeapInv ctx' [restAfter lo hi 0] []) (pos : 0 < m) (room : lo + 32 * (2 * m + 1) ≤ hi) :
    ∃ s free, (heapSystem ctx).Reachable s ∧ HeapInv s.ctx free s.live ∧
      (∀ f ∈ free.take m, f.len = 32) ∧ restAfter lo hi (2 * m) ∈ free := by
  obtain ⟨s, run, full, mem⟩ := exists_filled init inv (2 * m - 1) (by omega)
  rw [Nat.sub_add_cancel (by omega)] at full mem
  obtain ⟨s, run, inv, -⟩ := exists_everyOther run full mem (by omega) m le_rfl
  refine ⟨s, _, run, inv, fun f mem => ?_, List.mem_append_right _ (by simp)⟩
  unfold everyOther at mem
  rw [List.take_left' (by rw [List.length_map, List.length_range])] at mem
  obtain ⟨j, -, rfl⟩ := List.mem_map.1 mem
  rfl

/-- In a memory of 2 GiB, `2 ^ 23` requests of 24 bytes and `yos_free` of every other block leave
`2 ^ 22` free blocks of 32 bytes in front of the rest of the heap, which a request of 40 bytes does not
reach. -/
theorem first_fit_fails : ¬ ∀ s, (heapSystem (.blank (2 ^ 31) 0x50000)).Reachable s → s.ctx.allocHi ≠ 0 →
    ∀ free, FreeList s.ctx.memory s.ctx.allocFreeHead free →
      ∀ size ≤ 2 ^ 31, FirstFitComplete s.ctx free size := by
  intro claim
  obtain ⟨ctx', init⟩ : ∃ ctx', allocInitLocked (.blank (2 ^ 31) 0x50000) = some ctx' := ⟨_, rfl⟩
  have inv := allocInitLocked_inv (by decide) (by decide) (by decide) rfl init
  have bounds : ctx'.allocLo = 0x50000 ∧ ctx'.allocHi = 2 ^ 30 := by
    cases init
    decide
  rw [bounds.1, bounds.2] at inv
  obtain ⟨s, free, run, inv, small, mem⟩ := exists_small_first init inv (Nat.two_pow_pos 22) (by decide)
  have set := inv.lo_lt
  have complete := claim s run (by omega) free inv.list 40 (by decide)
  have none : (yosMalloc s.ctx 40).2 = 0 := by
    rw [inv.yosMalloc_eq_zero_iff]
    intro f mem
    rw [small f mem]
    decide
  exact absurd (complete.mp none _ mem) (by decide)

end Yos
