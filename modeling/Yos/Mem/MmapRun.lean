import Yos.Lib.System
import Yos.Mem.Regions
import Mathlib.Data.Set.Basic

/-!
# Runs of `yos_mmap2` and `yos_munmap`

The state of a run is the context and the set of addresses that were handed out and not yet
unmapped (`MmapState`).  `MmapInv` says that no address is in two table entries, that no entry and
no owned address lies at or above `mmap_top`, and that no owned address is free.  It holds in every
reachable state, whatever the tables dropped, so that a range the code chooses is never one that is
still owned (`mmap_no_aliasing`).
-/

namespace Yos

open Word Span

/-- The addresses of a span. -/
def spanSet (r : Span) : Set ℕ := {x | r.Has x}

/-- The addresses owned after `yos_mmap2` of `length` page-aligned bytes. -/
def ownedMmap (owned : Set ℕ) (length : ℕ) : Except Errno ℕ → Set ℕ
  | .ok addr => owned ∪ spanSet ⟨addr, length⟩
  | .error _ => owned

/-- The addresses owned after `yos_munmap` of `[addr, addr + len)`. -/
def ownedMunmap (owned : Set ℕ) (addr len : ℕ) : Except Errno Unit → Set ℕ
  | .ok _ => owned \ spanSet ⟨addr, len⟩
  | .error _ => owned

/-! ## The invariant -/

/-- The tables are disjoint and lie below `mmap_top`; what is owned is not free. -/
structure MmapInv (ctx : MemCtx) (owned : Set ℕ) : Prop where
  freeLen : ctx.freeList.length ≤ maxFreeRegions
  liveLen : ctx.liveList.length ≤ maxLiveRegions
  freeOk : RegionsOk ctx.freeList
  liveOk : RegionsOk ctx.liveList
  once : ∀ x, cover ctx.freeList x + cover ctx.liveList x ≤ 1
  below : ∀ x, ctx.mmapTop ≤ x → cover ctx.freeList x + cover ctx.liveList x = 0
  notFree : ∀ x ∈ owned, cover ctx.freeList x = 0
  ownedBelow : ∀ x ∈ owned, x < ctx.mmapTop
  top : ctx.mmapTop ≤ ctx.memorySize
  word : ctx.memorySize < 2 ^ 32

namespace MmapInv

variable {ctx : MemCtx} {owned : Set ℕ}

/-- A larger memory keeps the invariant. -/
theorem resize (inv : MmapInv ctx owned) {n : ℕ} (grown : ctx.memorySize ≤ n) (small : n < 2 ^ 32) :
    MmapInv { ctx with memorySize := n } owned :=
  { inv with top := inv.top.trans grown, word := small }

theorem fin_le (inv : MmapInv ctx owned) {r : Span} (hr : r ∈ ctx.liveList ++ ctx.freeList) :
    r.fin ≤ ctx.mmapTop := by
  have pos : 0 < r.len := by
    rcases List.mem_append.1 hr with hr | hr
    · exact (inv.liveOk r hr).1
    · exact (inv.freeOk r hr).1
  have hit := cover_pos_of_mem hr (show r.Has (r.addr + r.len - 1) by unfold Has; omega)
  rw [cover_append] at hit
  by_contra above
  have := inv.below (r.addr + r.len - 1) (by unfold fin at above; omega)
  omega

/-- Less owned addresses are still not free. -/
theorem mono (inv : MmapInv ctx owned) {owned' : Set ℕ} (sub : owned' ⊆ owned) :
    MmapInv ctx owned' :=
  { inv with
    notFree := fun x hx => inv.notFree x (sub hx)
    ownedBelow := fun x hx => inv.ownedBelow x (sub hx) }

/-- A new mapping: the tables lose its range, and the live table may gain it. -/
theorem handOut (inv : MmapInv ctx owned) {r : Span} {free live : List Span} {mmapTop : ℕ}
    {memory : Bytes} (pos : 0 < r.len) (inside : r.fin ≤ mmapTop) (rises : ctx.mmapTop ≤ mmapTop)
    (top : mmapTop ≤ ctx.memorySize) (freeLen : free.length ≤ maxFreeRegions)
    (liveLen : live.length ≤ maxLiveRegions) (freeOk : RegionsOk free) (liveOk : RegionsOk live)
    (freeLe : ∀ x, cover free x ≤ cover ctx.freeList x)
    (liveLe : ∀ x, cover live x ≤ cover ctx.liveList x)
    (gone : ∀ x, r.Has x → cover free x + cover live x = 0) :
    MmapInv { ctx with
        memory, mmapTop, freeList := free, liveList := liveAdd live r }
      (owned ∪ spanSet r) := by
  have word := inv.word
  obtain ⟨h₁, h₂, h₃⟩ := push_liveAdd.spec (by decide) liveOk liveLen pos (by omega)
  refine ⟨freeLen, h₁, freeOk, h₂, fun x => ?_, fun x hx => ?_, fun x hx => ?_, fun x hx => ?_, top,
    inv.word⟩
  · have h₄ := h₃ x
    have h₅ := inv.once x
    have h₆ := freeLe x
    have h₇ := liveLe x
    have h₈ := hit_le_one r x
    by_cases has : r.Has x
    · have := gone x has
      dsimp only
      omega
    · rw [hit_eq_zero_iff.2 has] at h₄
      dsimp only
      omega
  · have h₄ := h₃ x
    have h₅ := inv.below x (rises.trans hx)
    have h₆ := freeLe x
    have h₇ := liveLe x
    have outside : r.hit x = 0 := hit_eq_zero_iff.2 fun has => by
      unfold fin at inside
      unfold Has at has
      dsimp only at hx
      omega
    dsimp only
    omega
  · dsimp only
    rcases hx with hx | hx
    · have h₄ := inv.notFree x hx
      have h₅ := freeLe x
      omega
    · have := gone x hx
      omega
  · rcases hx with hx | hx
    · exact lt_of_lt_of_le (inv.ownedBelow x hx) rises
    · exact lt_of_lt_of_le hx.2 inside

/-- `mmap_top` may be set to the middle of the memory while it is 0. -/
theorem anchor (inv : MmapInv ctx owned) :
    MmapInv (if ctx.mmapTop = 0 then { ctx with mmapTop := ctx.memorySize / 2 } else ctx) owned := by
  split_ifs with unset
  · have top : ctx.memorySize / 2 ≤ ctx.memorySize := Nat.div_le_self _ _
    exact { inv with
      below := fun x _ => inv.below x (by omega)
      ownedBelow := fun x hx => absurd (inv.ownedBelow x hx) (by omega)
      top }
  · exact inv

/-- Fewer free addresses keep the invariant. -/
theorem shrinkFree (inv : MmapInv ctx owned) {free : List Span}
    (freeLen : free.length ≤ maxFreeRegions) (freeOk : RegionsOk free)
    (freeLe : ∀ x, cover free x ≤ cover ctx.freeList x) :
    MmapInv { ctx with freeList := free } owned := by
  refine { inv with freeLen, freeOk, once := fun x => ?_, below := fun x hx => ?_,
                    notFree := fun x hx => ?_ }
  · exact (Nat.add_le_add_right (freeLe x) _).trans (inv.once x)
  · have h₁ := freeLe x
    have h₂ := inv.below x hx
    dsimp only
    omega
  · have h₁ := freeLe x
    have h₂ := inv.notFree x hx
    dsimp only
    omega

theorem mmapFixedAt (inv : MmapInv ctx owned) {addr length : ℕ} (pos : 0 < length) :
    MmapInv (mmapFixedAt ctx addr length).1
      (ownedMmap owned length (mmapFixedAt ctx addr length).2) := by
  by_cases beyond : ctx.memorySize < addr + length
  · rw [Yos.mmapFixedAt, if_pos beyond]
    exact inv
  by_cases brk : addr < ctx.heapEnd
  · rw [Yos.mmapFixedAt, if_neg beyond, if_pos brk]
    exact inv
  rw [Yos.mmapFixedAt, if_neg beyond, if_neg brk]
  obtain ⟨h₁, h₂, h₃, h₄⟩ := liveRemove_spec addr length inv.liveOk inv.liveLen
  obtain ⟨k₁, k₂, k₃, k₄⟩ := carveFreeRange_spec addr length inv.freeOk inv.freeLen
  have word := inv.word
  have top := inv.top
  dsimp only [ownedMmap]
  rw [u32_of_lt (by omega)]
  refine inv.handOut pos ?_ ?_ ?_ k₁ h₁ k₂ h₂ k₃ h₃ fun x hx => ?_
  · unfold fin
    dsimp only
    split_ifs <;> omega
  · split_ifs <;> omega
  · split_ifs <;> omega
  · rw [h₄ x hx.1 hx.2, k₄ x hx.1 hx.2]

/-- The range above `mmap_top` becomes owned, and was not owned before. -/
theorem mmapBump (inv : MmapInv ctx owned) {length : ℕ} (pos : 0 < length) :
    MmapInv (mmapBump ctx length).1 (ownedMmap owned length (mmapBump ctx length).2) ∧
      ∀ r, (Yos.mmapBump ctx length).2 = .ok r → ∀ x ∈ owned, ¬ Has ⟨r, length⟩ x := by
  by_cases brk : ctx.mmapTop < ctx.heapEnd
  · rw [Yos.mmapBump, if_pos brk]
    exact ⟨inv, fun r hr => by simp at hr⟩
  by_cases beyond : ctx.memorySize < ctx.mmapTop + length
  · rw [Yos.mmapBump, if_neg brk, if_pos beyond]
    exact ⟨inv, fun r hr => by simp at hr⟩
  have word := inv.word
  rw [Yos.mmapBump, if_neg brk, if_neg beyond, u32_of_lt (by omega)]
  refine ⟨inv.handOut pos (Nat.le_refl _) (by omega) (by omega) inv.freeLen inv.liveLen inv.freeOk
    inv.liveOk (fun x => Nat.le_refl _) (fun x => Nat.le_refl _) fun x hx => inv.below x hx.1,
    fun r hr x hx has => ?_⟩
  cases hr
  have := inv.ownedBelow x hx
  unfold Has at has
  dsimp only at has
  omega

/-- The range that the code chooses becomes owned, and was not owned before. -/
theorem mmapAnywhere (inv : MmapInv ctx owned) {length : ℕ} (pos : 0 < length) :
    MmapInv (mmapAnywhere ctx length).1 (ownedMmap owned length (mmapAnywhere ctx length).2) ∧
      ∀ r, (Yos.mmapAnywhere ctx length).2 = .ok r → ∀ x ∈ owned, ¬ Has ⟨r, length⟩ x := by
  obtain ⟨h₁, h₂, h₃, h₄⟩ := findFreeRegion_spec length inv.freeOk inv.freeLen
  unfold Yos.mmapAnywhere
  generalize findFreeRegion ctx.freeList length = found at *
  obtain ⟨free, result⟩ := found
  dsimp only at *
  by_cases reuse : result ≠ 0
  · rw [if_pos reuse]
    have taken := h₄ reuse
    have free_of_has : ∀ x, Has ⟨result, length⟩ x → cover ctx.freeList x = 1 := fun x hx => by
      have h₅ := taken x
      have h₆ := inv.once x
      rw [hit_eq_one_iff.2 hx] at h₅
      omega
    refine ⟨inv.handOut pos ?_ (Nat.le_refl _) inv.top h₁ inv.liveLen h₂ inv.liveOk h₃
      (fun x => Nat.le_refl _) fun x hx => ?_, fun r hr x hx has => ?_⟩
    · by_contra above
      unfold fin at above
      dsimp only at above
      have h₅ := free_of_has (result + length - 1) (by unfold Has; dsimp only; omega)
      have h₆ := inv.below (result + length - 1) (by omega)
      omega
    · have h₅ := taken x
      have h₆ := inv.once x
      rw [hit_eq_one_iff.2 hx] at h₅
      omega
    · cases hr
      have h₅ := free_of_has x has
      have h₆ := inv.notFree x hx
      omega
  · rw [if_neg reuse]
    exact (inv.shrinkFree h₁ h₂ h₃).anchor.mmapBump pos

theorem yosMmap2 (inv : MmapInv ctx owned) (addr length flags : ℕ) (fd : ℤ) :
    MmapInv (yosMmap2 ctx addr length flags fd).1
      (ownedMmap owned (pageAlign length) (yosMmap2 ctx addr length flags fd).2) := by
  unfold Yos.yosMmap2
  dsimp only
  split_ifs with anon range fixed
  · exact inv
  · exact inv
  · exact inv.mmapFixedAt (by omega)
  · exact (inv.mmapAnywhere (by omega)).1

/-- A mapping whose address the code chooses meets no owned address. -/
theorem yosMmap2_apart (inv : MmapInv ctx owned) {addr length flags r : ℕ} {fd : ℤ}
    (anywhere : flags &&& mapFixed = 0 ∨ addr = 0)
    (mapped : (Yos.yosMmap2 ctx addr length flags fd).2 = .ok r) :
    ∀ x ∈ owned, ¬ Has ⟨r, pageAlign length⟩ x := by
  unfold Yos.yosMmap2 at mapped
  dsimp only at mapped
  split_ifs at mapped with anon range fixed
  · omega
  · exact (inv.mmapAnywhere (by omega)).2 r mapped

theorem yosMunmap (inv : MmapInv ctx owned) (addr len : ℕ) :
    MmapInv (yosMunmap ctx addr len).1
      (ownedMunmap owned addr (pageAlign len) (yosMunmap ctx addr len).2) := by
  rw [Yos.yosMunmap]
  by_cases range : pageAlign len = 0 ∨ ctx.memorySize < pageAlign len ∨
      ctx.memorySize < addr + pageAlign len
  · rw [if_pos range]
    exact inv
  rw [if_neg range]
  by_cases overlap : rangeOverlapsFree ctx.freeList addr (pageAlign len)
  · rw [if_pos overlap]
    exact inv.mono Set.sdiff_subset
  rw [if_neg overlap]
  obtain ⟨h₁, h₂, h₃, h₄⟩ := munmapLoop_spec addr (addr + pageAlign len) ctx.memory false inv.liveOk
    inv.freeOk inv.freeLen
  generalize munmapLoop addr (addr + pageAlign len) ctx.liveList ctx.memory ctx.freeList false =
    freed at *
  obtain ⟨memory, free, any⟩ := freed
  dsimp only [ownedMunmap] at *
  cases any with
  | false =>
    rw [h₄ rfl]
    exact { inv.mono (Set.sdiff_subset (t := spanSet ⟨addr, pageAlign len⟩)) with }
  | true =>
    obtain ⟨k₁, k₂, k₃, k₄⟩ := liveRemove_spec addr (pageAlign len) inv.liveOk inv.liveLen
    rw [if_pos rfl]
    refine { inv with
      freeLen := h₁, liveLen := k₁, freeOk := h₂, liveOk := k₂, once := fun x => ?_,
      below := fun x hx => ?_, notFree := fun x hx => ?_,
      ownedBelow := fun x hx => inv.ownedBelow x hx.1 }
    · have h₅ := h₃ x
      have h₆ := inv.once x
      have h₇ := k₃ x
      by_cases inRange : addr ≤ x ∧ x < addr + pageAlign len
      · rw [if_pos inRange] at h₅
        have h₈ := k₄ x inRange.1 inRange.2
        dsimp only
        omega
      · rw [if_neg inRange] at h₅
        dsimp only
        omega
    · have h₅ := h₃ x
      have h₆ := inv.below x hx
      have h₇ := k₃ x
      dsimp only
      split_ifs at h₅ <;> omega
    · have h₅ := h₃ x
      have h₆ := inv.notFree x hx.1
      have outside : ¬ (addr ≤ x ∧ x < addr + pageAlign len) := hx.2
      rw [if_neg outside] at h₅
      dsimp only
      omega

end MmapInv

/-! ## The runs -/

/-- A context and the addresses handed out and not yet unmapped. -/
structure MmapState where
  ctx : MemCtx
  owned : Set ℕ

/-- The calls of a run. -/
inductive MmapCall where
  | mmap2 (addr length flags : ℕ) (fd : ℤ)
  | munmap (addr len : ℕ)
deriving DecidableEq, Repr

/-- The state after a call.  A mapping at a fixed address replaces what it meets. -/
def MmapState.next (s : MmapState) : MmapCall → MmapState
  | .mmap2 addr length flags fd =>
    let (ctx, r) := yosMmap2 s.ctx addr length flags fd
    ⟨ctx, ownedMmap s.owned (pageAlign length) r⟩
  | .munmap addr len =>
    let (ctx, r) := yosMunmap s.ctx addr len
    ⟨ctx, ownedMunmap s.owned addr (pageAlign len) r⟩

theorem next_mmap2 (s : MmapState) (addr length flags : ℕ) (fd : ℤ) :
    s.next (.mmap2 addr length flags fd) = ⟨(yosMmap2 s.ctx addr length flags fd).1,
      ownedMmap s.owned (pageAlign length) (yosMmap2 s.ctx addr length flags fd).2⟩ := rfl

theorem next_munmap (s : MmapState) (addr len : ℕ) :
    s.next (.munmap addr len) = ⟨(yosMunmap s.ctx addr len).1,
      ownedMunmap s.owned addr (pageAlign len) (yosMunmap s.ctx addr len).2⟩ := rfl

/-- Nothing is mapped yet. -/
def NoMappings (ctx : MemCtx) : Prop :=
  ctx.freeList = [] ∧ ctx.liveList = [] ∧ ctx.mmapTop = 0 ∧ ctx.memorySize < 2 ^ 32

/-- The runs of `yos_mmap2` and `yos_munmap` from a context without mappings. -/
def mmapSystem : System MmapState MmapCall where
  init s := NoMappings s.ctx ∧ s.owned = ∅
  step s c s' := s' = s.next c

theorem mmapInv_init {ctx : MemCtx} (fresh : NoMappings ctx) : MmapInv ctx ∅ := by
  obtain ⟨free, live, top, word⟩ := fresh
  refine ⟨?_, ?_, ?_, ?_, ?_, ?_, by simp, by simp, by omega, word⟩
  all_goals simp [free, live, RegionsOk]

theorem MmapInv.next {s : MmapState} (inv : MmapInv s.ctx s.owned) (c : MmapCall) :
    MmapInv (s.next c).ctx (s.next c).owned := by
  cases c with
  | mmap2 addr length flags fd => exact inv.yosMmap2 addr length flags fd
  | munmap addr len => exact inv.yosMunmap addr len

theorem MmapInv.of_run {s : MmapState} (run : mmapSystem.Reachable s) : MmapInv s.ctx s.owned := by
  refine run.invariant (I := fun s => MmapInv s.ctx s.owned) (fun s start => ?_) ?_
  · rw [start.2]
    exact mmapInv_init start.1
  · intro s c s' inv step
    rw [step]
    exact inv.next c

/-- A run of calls from a reachable state. -/
theorem reachable_foldl_next {s : MmapState} (run : mmapSystem.Reachable s) (calls : List MmapCall) :
    mmapSystem.Reachable (calls.foldl MmapState.next s) := by
  induction calls generalizing s with
  | nil => exact run
  | cons c calls ih => exact ih (run.next rfl)

/-- In every reachable state the table entries are disjoint and lie below `mmap_top`, and a mapping
whose address the code chooses meets nothing that is still owned. -/
theorem mmap_no_aliasing {s : MmapState} (run : mmapSystem.Reachable s) :
    s.ctx.liveList.Pairwise Span.Disjoint ∧ s.ctx.freeList.Pairwise Span.Disjoint ∧
      (∀ l ∈ s.ctx.liveList, ∀ f ∈ s.ctx.freeList, l.Disjoint f) ∧
      (∀ r ∈ s.ctx.liveList ++ s.ctx.freeList, r.fin ≤ s.ctx.mmapTop) ∧
      s.ctx.mmapTop ≤ s.ctx.memorySize ∧
      ∀ (addr length flags : ℕ) (fd : ℤ) (r : ℕ), flags &&& mapFixed = 0 ∨ addr = 0 →
        (yosMmap2 s.ctx addr length flags fd).2 = .ok r →
        ∀ x ∈ s.owned, ¬ Has ⟨r, pageAlign length⟩ x := by
  have inv := MmapInv.of_run run
  have all : (s.ctx.liveList ++ s.ctx.freeList).Pairwise Span.Disjoint :=
    disjoint_of_cover_le_one fun x => by
      rw [cover_append, Nat.add_comm]
      exact inv.once x
  obtain ⟨live, free, cross⟩ := List.pairwise_append.1 all
  exact ⟨live, free, cross, fun r hr => inv.fin_le hr, inv.top,
    fun addr length flags fd r anywhere mapped => inv.yosMmap2_apart anywhere mapped⟩

/-- A process with one page mapped. -/
def onePage : MmapState := MmapState.next ⟨.blank (2 ^ 22) 0x50000, ∅⟩ (.mmap2 0 4096 0x22 (-1))

theorem mmap_no_aliasing_two_pages :
    (yosMmap2 onePage.ctx 0 4096 0x22 (-1)).2 = .ok (2 ^ 21 + 4096) ∧
      onePage.owned ∩ spanSet ⟨2 ^ 21 + 4096, 4096⟩ = ∅ := by
  have mapped : (yosMmap2 onePage.ctx 0 4096 0x22 (-1)).2 = .ok (2 ^ 21 + 4096) := rfl
  have start : mmapSystem.Reachable ⟨.blank (2 ^ 22) 0x50000, ∅⟩ :=
    .start ⟨⟨rfl, rfl, rfl, by decide⟩, rfl⟩
  obtain ⟨-, -, -, -, -, apart⟩ := mmap_no_aliasing
    (start.next (a := .mmap2 0 4096 0x22 (-1)) (show onePage = _ from rfl))
  refine ⟨mapped, Set.eq_empty_iff_forall_notMem.mpr fun x mem => ?_⟩
  exact apart 0 4096 0x22 (-1) (2 ^ 21 + 4096) (Or.inl (by decide)) mapped x mem.1 mem.2

end Yos
