import Yos.Mem.FreeList
import Yos.Mem.MmapRun

/-!
# The program break, the malloc heap and the mappings

`yos_brk`, the first `yos_malloc` and `yos_mmap2` share one memory.  A mapping at a fixed address is
checked against `heap_end` and the bump allocator compares `mmap_top` with it, but `yos_brk` is
bounded by `mmap_top` once that is set, not by the mappings below it: after one anonymous mapping
the break may be raised over it (`brk_covers_mapping`).  The first `yos_malloc` moves the break to
the middle of the memory without looking at the tables, and a break that is lowered again lets a
fixed mapping into the malloc heap.

In a run where the break is not moved over a tracked region and no fixed mapping is put on the
malloc heap (`LayoutOk`), no live mapping ever meets `[0, heap_end)` or `[alloc_lo, alloc_hi)`
(`layout_apart`).
-/

namespace Yos

open Word Span

/-! ## The system -/

/-- The calls that move the borders between the three areas. -/
inductive LayoutCall where
  | brk (addr : ℕ)
  | mmap2 (addr length flags : ℕ) (fd : ℤ)
  | munmap (addr len : ℕ)
  | malloc (size : ℕ)
deriving DecidableEq, Repr

/-- The context after a call. -/
def MemCtx.call (ctx : MemCtx) : LayoutCall → MemCtx
  | .brk addr => (yosBrk ctx addr).1
  | .mmap2 addr length flags fd => (yosMmap2 ctx addr length flags fd).1
  | .munmap addr len => (yosMunmap ctx addr len).1
  | .malloc size => (yosMalloc ctx size).1

/-- Runs from a context without mappings whose heap is not set up. -/
def layoutSystem : System MemCtx LayoutCall where
  init ctx := NoMappings ctx ∧ ctx.allocLo = 0 ∧ ctx.allocHi = 0
  step ctx c ctx' := ctx' = ctx.call c

/-- The live mappings meet neither the break area nor the malloc heap. -/
def LayoutApart (ctx : MemCtx) : Prop :=
  ∀ r ∈ ctx.liveList, ∀ x, r.Has x → ctx.heapEnd ≤ x ∧ ¬ (ctx.allocLo ≤ x ∧ x < ctx.allocHi)

/-- No region of the tables starts below `addr`. -/
def NoRegionBelow (ctx : MemCtx) (addr : ℕ) : Prop :=
  ∀ r ∈ ctx.freeList ++ ctx.liveList, addr ≤ r.addr

instance (ctx : MemCtx) (addr : ℕ) : Decidable (NoRegionBelow ctx addr) :=
  inferInstanceAs (Decidable (∀ r ∈ ctx.freeList ++ ctx.liveList, addr ≤ r.addr))

/-- The calls that respect the tables: the break is not moved over a region, neither by `yos_brk`
nor by the first `yos_malloc`, and no fixed mapping is put on the malloc heap. -/
def LayoutOk (ctx : MemCtx) : LayoutCall → Prop
  | .brk addr => addr ≤ mmapAnchor ctx → NoRegionBelow ctx addr
  | .mmap2 addr length flags _ => flags &&& mapFixed ≠ 0 ∧ addr ≠ 0 → ctx.heapEnd ≤ addr →
      addr + pageAlign length ≤ ctx.allocLo ∨ ctx.allocHi ≤ addr
  | .munmap _ _ => True
  | .malloc _ => ctx.allocHi = 0 → (allocInitLocked ctx).isSome →
      NoRegionBelow ctx (bclr (ctx.memorySize / 2) 0xfff)

/-! ## What a call does to the tracked addresses -/

/-- The number of table entries that contain `x`. -/
def tracked (ctx : MemCtx) (x : ℕ) : ℕ := cover ctx.freeList x + cover ctx.liveList x

section Calls

variable {ctx : MemCtx} {owned : Set ℕ}

theorem tracked_mmapFixedAt (inv : MmapInv ctx owned) {addr length x : ℕ} (pos : 0 < length)
    (hx : tracked (mmapFixedAt ctx addr length).1 x ≠ 0) :
    tracked ctx x ≠ 0 ∨
      ctx.heapEnd ≤ addr ∧ addr + length ≤ ctx.memorySize ∧ Has ⟨addr, length⟩ x := by
  by_cases beyond : ctx.memorySize < addr + length
  · rw [mmapFixedAt, if_pos beyond] at hx
    exact Or.inl hx
  by_cases brk : addr < ctx.heapEnd
  · rw [mmapFixedAt, if_neg beyond, if_pos brk] at hx
    exact Or.inl hx
  rw [mmapFixedAt, if_neg beyond, if_neg brk] at hx
  obtain ⟨h₁, h₂, h₃, h₄⟩ := liveRemove_spec addr length inv.liveOk inv.liveLen
  obtain ⟨-, -, k₃, -⟩ := carveFreeRange_spec addr length inv.freeOk inv.freeLen
  have word := inv.word
  obtain ⟨-, -, added⟩ := push_liveAdd.spec (r := ⟨addr, length⟩) (by decide) h₂ h₁ pos
    (by unfold fin; dsimp only; omega)
  have h₅ := h₃ x
  have h₆ := k₃ x
  have h₇ := added x
  by_cases has : Has ⟨addr, length⟩ x
  · exact Or.inr ⟨by omega, by omega, has⟩
  · rw [hit_eq_zero_iff.2 has] at h₇
    unfold tracked at hx ⊢
    dsimp only at hx
    omega

theorem tracked_mmapBump (inv : MmapInv ctx owned) {length x : ℕ} (pos : 0 < length)
    (hx : tracked (mmapBump ctx length).1 x ≠ 0) :
    tracked ctx x ≠ 0 ∨ ctx.heapEnd ≤ ctx.mmapTop ∧ ctx.mmapTop + length ≤ ctx.memorySize ∧
      Has ⟨ctx.mmapTop, length⟩ x := by
  by_cases brk : ctx.mmapTop < ctx.heapEnd
  · rw [mmapBump, if_pos brk] at hx
    exact Or.inl hx
  by_cases beyond : ctx.memorySize < ctx.mmapTop + length
  · rw [mmapBump, if_neg brk, if_pos beyond] at hx
    exact Or.inl hx
  rw [mmapBump, if_neg brk, if_neg beyond] at hx
  have word := inv.word
  obtain ⟨-, -, added⟩ := push_liveAdd.spec (r := ⟨ctx.mmapTop, length⟩) (by decide) inv.liveOk
    inv.liveLen pos (by unfold fin; dsimp only; omega)
  have h₁ := added x
  by_cases has : Has ⟨ctx.mmapTop, length⟩ x
  · exact Or.inr ⟨by omega, by omega, has⟩
  · rw [hit_eq_zero_iff.2 has] at h₁
    unfold tracked at hx ⊢
    dsimp only at hx
    omega

theorem tracked_mmapAnywhere (inv : MmapInv ctx owned) {length x : ℕ} (pos : 0 < length)
    (hx : tracked (mmapAnywhere ctx length).1 x ≠ 0) :
    tracked ctx x ≠ 0 ∨ (findFreeRegion ctx.freeList length).2 = 0 ∧
      ctx.heapEnd ≤ mmapAnchor ctx ∧ mmapAnchor ctx + length ≤ ctx.memorySize ∧
      Has ⟨mmapAnchor ctx, length⟩ x := by
  obtain ⟨h₁, h₂, h₃, h₄⟩ := findFreeRegion_spec length inv.freeOk inv.freeLen
  unfold mmapAnywhere at hx
  generalize findFreeRegion ctx.freeList length = found at *
  obtain ⟨free, result⟩ := found
  dsimp only at *
  have le := h₃ x
  by_cases reuse : result ≠ 0
  · rw [if_pos reuse] at hx
    left
    have taken := h₄ reuse x
    have word := inv.word
    have top := inv.top
    have small : Span.fin ⟨result, length⟩ < 2 ^ 32 := by
      by_contra large
      unfold fin at large
      dsimp only at large
      have h₅ := h₄ reuse (result + length - 1)
      rw [hit_eq_one_iff.2 (show Has ⟨result, length⟩ _ by unfold Has; dsimp only; omega)] at h₅
      have h₆ := inv.below (result + length - 1) (by omega)
      omega
    obtain ⟨-, -, added⟩ := push_liveAdd.spec (r := ⟨result, length⟩) (by decide) inv.liveOk
      inv.liveLen pos small
    have h₅ := added x
    unfold tracked at hx ⊢
    dsimp only at hx
    omega
  · rw [if_neg reuse] at hx
    rcases tracked_mmapBump (inv.shrinkFree h₁ h₂ h₃).anchor pos hx with h | h
    · left
      unfold tracked at h ⊢
      split_ifs at h
      all_goals
        dsimp only at h
        omega
    · refine Or.inr ⟨not_not.1 reuse, ?_⟩
      rw [mmapAnchor]
      by_cases unset : ctx.mmapTop = 0
      · simpa [unset] using h
      · simpa [unset] using h

theorem tracked_yosMunmap (inv : MmapInv ctx owned) {addr len x : ℕ}
    (hx : tracked (yosMunmap ctx addr len).1 x ≠ 0) : tracked ctx x ≠ 0 := by
  rw [yosMunmap] at hx
  by_cases range : pageAlign len = 0 ∨ ctx.memorySize < pageAlign len ∨
      ctx.memorySize < addr + pageAlign len
  · rwa [if_pos range] at hx
  rw [if_neg range] at hx
  by_cases overlap : rangeOverlapsFree ctx.freeList addr (pageAlign len)
  · rwa [if_pos overlap] at hx
  rw [if_neg overlap] at hx
  obtain ⟨-, -, h₃, -⟩ := munmapLoop_spec addr (addr + pageAlign len) ctx.memory false inv.liveOk
    inv.freeOk inv.freeLen
  obtain ⟨-, -, k₃, -⟩ := liveRemove_spec addr (pageAlign len) inv.liveOk inv.liveLen
  generalize munmapLoop addr (addr + pageAlign len) ctx.liveList ctx.memory ctx.freeList false =
    freed at *
  obtain ⟨memory, free, any⟩ := freed
  dsimp only at *
  have h₁ := h₃ x
  have h₂ := k₃ x
  have h₄ : cover free x ≤ cover ctx.freeList x + cover ctx.liveList x := by
    split_ifs at h₁ <;> omega
  unfold tracked at hx ⊢
  cases any with
  | false =>
    simp only [Bool.false_eq_true, if_false] at hx
    omega
  | true =>
    rw [if_pos rfl] at hx
    dsimp only at hx
    omega

end Calls

/-! ## The invariant -/

/-- What `yos_mmap2` and `yos_munmap` leave alone. -/
def SameAreas (ctx ctx' : MemCtx) : Prop :=
  ctx'.memorySize = ctx.memorySize ∧ ctx'.heapEnd = ctx.heapEnd ∧ ctx'.allocLo = ctx.allocLo ∧
    ctx'.allocHi = ctx.allocHi

/-- The tables lie above the break and outside the malloc heap, which ends below the arena. -/
structure LayoutInv (ctx : MemCtx) : Prop where
  mmap : MmapInv ctx ∅
  apart : ∀ x, tracked ctx x ≠ 0 → ctx.heapEnd ≤ x ∧ ¬ (ctx.allocLo ≤ x ∧ x < ctx.allocHi)
  topHalf : ctx.mmapTop = 0 ∨ ctx.memorySize / 2 ≤ ctx.mmapTop
  hiHalf : ctx.allocHi ≤ ctx.memorySize / 2

theorem sameAreas_mmap2 (ctx : MemCtx) (addr length flags : ℕ) (fd : ℤ) :
    SameAreas ctx (yosMmap2 ctx addr length flags fd).1 := by
  unfold yosMmap2 mmapFixedAt mmapAnywhere mmapBump
  dsimp only
  split_ifs <;> exact ⟨rfl, rfl, rfl, rfl⟩

theorem sameAreas_munmap (ctx : MemCtx) (addr len : ℕ) :
    SameAreas ctx (yosMunmap ctx addr len).1 ∧
      (yosMunmap ctx addr len).1.mmapTop = ctx.mmapTop := by
  unfold yosMunmap
  dsimp only
  split_ifs <;> exact ⟨⟨rfl, rfl, rfl, rfl⟩, rfl⟩

theorem topHalf_mmapBump {ctx : MemCtx} {owned : Set ℕ} (inv : MmapInv ctx owned) (length : ℕ)
    (half : ctx.memorySize / 2 ≤ ctx.mmapTop) :
    ctx.memorySize / 2 ≤ (mmapBump ctx length).1.mmapTop := by
  have word := inv.word
  unfold mmapBump
  dsimp only
  split_ifs with brk beyond
  · exact half
  · exact half
  · rw [u32_of_lt (by omega)]
    dsimp only
    omega

theorem topHalf_mmapFixedAt {ctx : MemCtx} {owned : Set ℕ} (inv : MmapInv ctx owned)
    (addr length : ℕ) (half : ctx.mmapTop = 0 ∨ ctx.memorySize / 2 ≤ ctx.mmapTop) :
    (mmapFixedAt ctx addr length).1.mmapTop = 0 ∨
      ctx.memorySize / 2 ≤ (mmapFixedAt ctx addr length).1.mmapTop := by
  have word := inv.word
  by_cases beyond : ctx.memorySize < addr + length
  · rw [mmapFixedAt, if_pos beyond]
    exact half
  by_cases brk : addr < ctx.heapEnd
  · rw [mmapFixedAt, if_neg beyond, if_pos brk]
    exact half
  rw [mmapFixedAt, if_neg beyond, if_neg brk]
  dsimp only
  rw [u32_of_lt (by omega)]
  split_ifs <;> omega

theorem topHalf_mmap2 {ctx : MemCtx} {owned : Set ℕ} (inv : MmapInv ctx owned)
    (addr length flags : ℕ) (fd : ℤ) (half : ctx.mmapTop = 0 ∨ ctx.memorySize / 2 ≤ ctx.mmapTop) :
    (yosMmap2 ctx addr length flags fd).1.mmapTop = 0 ∨
      ctx.memorySize / 2 ≤ (yosMmap2 ctx addr length flags fd).1.mmapTop := by
  unfold yosMmap2
  dsimp only
  split_ifs with anon range fixed
  · exact half
  · exact half
  · exact topHalf_mmapFixedAt inv addr _ half
  · obtain ⟨h₁, h₂, h₃, -⟩ := findFreeRegion_spec (pageAlign length) inv.freeOk inv.freeLen
    unfold mmapAnywhere
    generalize findFreeRegion ctx.freeList (pageAlign length) = found at *
    obtain ⟨free, result⟩ := found
    dsimp only at *
    by_cases reuse : result ≠ 0
    · rw [if_pos reuse]
      exact half
    · rw [if_neg reuse]
      right
      have inv' := (inv.shrinkFree h₁ h₂ h₃).anchor
      by_cases unset : ctx.mmapTop = 0
      · rw [if_pos unset] at inv' ⊢
        exact topHalf_mmapBump inv' _ (Nat.le_refl _)
      · rw [if_neg unset] at inv' ⊢
        exact topHalf_mmapBump inv' _ (half.resolve_left unset)

/-! ## The calls keep the invariant -/

namespace LayoutInv

variable {ctx : MemCtx}

theorem le_of_noRegionBelow {addr x : ℕ} (above : NoRegionBelow ctx addr)
    (hx : tracked ctx x ≠ 0) : addr ≤ x := by
  unfold tracked at hx
  rw [← cover_append] at hx
  obtain ⟨r, hr, has⟩ := cover_pos_iff.1 (Nat.pos_of_ne_zero hx)
  exact (above r hr).trans has.1

theorem sameBounds (inv : LayoutInv ctx) {ctx' : MemCtx} (same : SameBounds ctx ctx') :
    LayoutInv ctx' := by
  obtain ⟨m, h, rfl⟩ := same
  exact ⟨{ inv.mmap with }, inv.apart, inv.topHalf, inv.hiHalf⟩

theorem brk (inv : LayoutInv ctx) {addr : ℕ} (ok : LayoutOk ctx (.brk addr)) :
    LayoutInv (yosBrk ctx addr).1 := by
  unfold yosBrk
  split_ifs with query large anchor
  · exact inv
  · exact inv
  · exact inv
  · refine ⟨{ inv.mmap with }, fun x hx => ⟨?_, (inv.apart x hx).2⟩, inv.topHalf, inv.hiHalf⟩
    exact le_of_noRegionBelow (ok (by omega)) hx

theorem malloc (inv : LayoutInv ctx) {size : ℕ} (ok : LayoutOk ctx (.malloc size)) :
    LayoutInv (yosMalloc ctx size).1 := by
  unfold yosMalloc
  rcases init : allocInitLocked ctx with _ | ctx'
  · exact inv
  · refine LayoutInv.sameBounds ?_ (sameBounds_doAllocLoop _ _ _ _ _)
    by_cases ready : ctx.allocHi ≠ 0
    · rw [allocInitLocked, if_pos ready] at init
      cases init
      exact inv
    · have above := ok (by omega) (by simp [init])
      rw [allocInitLocked, if_neg ready] at init
      dsimp only at init
      split_ifs at init
      cases init
      refine ⟨{ inv.mmap with }, fun x hx => ?_, inv.topHalf, bclr_le _ _⟩
      have := le_of_noRegionBelow above hx
      exact ⟨this, fun h => absurd h.2 (Nat.not_lt.2 this)⟩

theorem mmap2 (inv : LayoutInv ctx) {addr length flags : ℕ} {fd : ℤ}
    (ok : LayoutOk ctx (.mmap2 addr length flags fd)) :
    LayoutInv (yosMmap2 ctx addr length flags fd).1 := by
  obtain ⟨h₁, h₂, h₃, h₄⟩ := sameAreas_mmap2 ctx addr length flags fd
  refine ⟨(inv.mmap.yosMmap2 addr length flags fd).mono (Set.empty_subset _), fun x hx => ?_, ?_, ?_⟩
  · rw [h₂, h₃, h₄]
    unfold yosMmap2 at hx
    dsimp only at hx
    split_ifs at hx with anon range fixed
    · exact inv.apart x hx
    · exact inv.apart x hx
    · rcases tracked_mmapFixedAt inv.mmap (by omega) hx with h | ⟨brk, -, lo, hi⟩
      · exact inv.apart x h
      · have := ok fixed brk
        dsimp only at lo hi
        omega
    · rcases tracked_mmapAnywhere inv.mmap (by omega) hx with h | ⟨-, brk, -, lo, -⟩
      · exact inv.apart x h
      · have half := inv.hiHalf
        have top := inv.topHalf
        have anchor : ctx.memorySize / 2 ≤ mmapAnchor ctx := by
          rw [mmapAnchor]
          split_ifs <;> omega
        dsimp only at lo
        exact ⟨by omega, by omega⟩
  · rw [h₁]
    exact topHalf_mmap2 inv.mmap addr length flags fd inv.topHalf
  · rw [h₁, h₄]
    exact inv.hiHalf

theorem munmap (inv : LayoutInv ctx) (addr len : ℕ) : LayoutInv (yosMunmap ctx addr len).1 := by
  obtain ⟨⟨h₁, h₂, h₃, h₄⟩, h₅⟩ := sameAreas_munmap ctx addr len
  refine ⟨(inv.mmap.yosMunmap addr len).mono (Set.empty_subset _), fun x hx => ?_, ?_, ?_⟩
  · rw [h₂, h₃, h₄]
    exact inv.apart x (tracked_yosMunmap inv.mmap hx)
  · rw [h₁, h₅]
    exact inv.topHalf
  · rw [h₁, h₄]
    exact inv.hiHalf

theorem call (inv : LayoutInv ctx) {c : LayoutCall} (ok : LayoutOk ctx c) :
    LayoutInv (ctx.call c) := by
  cases c with
  | brk addr => exact inv.brk ok
  | mmap2 addr length flags fd => exact inv.mmap2 ok
  | munmap addr len => exact inv.munmap addr len
  | malloc size => exact inv.malloc ok

end LayoutInv

/-- In a run of calls that respect the tables the live mappings stay outside the break area and the
malloc heap. -/
theorem layout_apart {ctx : MemCtx} (run : layoutSystem.ReachableIf LayoutOk ctx) :
    LayoutApart ctx := by
  have inv : LayoutInv ctx := by
    refine run.invariant (fun ctx start => ?_) fun ctx c ctx' inv ok step => ?_
    · obtain ⟨fresh, lo, hi⟩ := start
      refine ⟨mmapInv_init fresh, fun x hx => absurd ?_ hx, Or.inl fresh.2.2.1, by omega⟩
      simp [tracked, fresh.1, fresh.2.1]
    · rw [step]
      exact inv.call ok
  intro r hr x has
  refine inv.apart x ?_
  have := cover_pos_of_mem hr has
  unfold tracked
  omega

theorem layout_apart_one_page :
    LayoutApart ((MemCtx.blank (2 ^ 22) 0x50000).call (.mmap2 0 4096 0x22 (-1))) := by
  have start : layoutSystem.ReachableIf LayoutOk (.blank (2 ^ 22) 0x50000) :=
    .init ⟨⟨rfl, rfl, rfl, by decide⟩, rfl, rfl⟩
  have allowed : LayoutOk (.blank (2 ^ 22) 0x50000) (.mmap2 0 4096 0x22 (-1)) :=
    fun fixed => absurd rfl fixed.2
  exact layout_apart (.step start allowed rfl)

/-- After one anonymous mapping `yos_brk` may raise the break over it. -/
theorem brk_covers_mapping :
    ¬ ∀ ctx, layoutSystem.Reachable ctx → LayoutApart ctx := by
  intro claim
  have start : layoutSystem.Reachable (.blank (2 ^ 22) 0x50000) :=
    .start ⟨⟨rfl, rfl, rfl, by decide⟩, rfl, rfl⟩
  have mapped := start.next (a := .mmap2 0 4096 0x22 (-1)) rfl
  have raised := mapped.next (a := .brk (2 ^ 21 + 4096)) rfl
  have above := claim _ raised ⟨2 ^ 21, 4096⟩ (by decide) (2 ^ 21) (by decide)
  exact absurd above.1 (by decide)

end Yos
