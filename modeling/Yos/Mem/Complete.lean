import Yos.Mem.Unmap

/-!
# When `yos_mmap2` finds no room

The entries of the free table never touch (`Coalesced`), since `add_free_region` joins what it adds
with its neighbours and every other operation only cuts entries down.  So a range that is free as a
whole lies in one entry, and `find_free_region` finds it.  A byte below `mmap_top` that is neither
held nor free is out of reach (`MmapState.Lost`); `lostBy` says which bytes a call loses, apart from
the entries that the full free table drops.  A mapping fails only where every range is held in part,
crosses `mmap_top` or contains a lost byte (`mmap_complete`).
-/

namespace Yos

open Word Table Span

/-! ## The free table stays coalesced -/

theorem Push.mem_foldl {cap : ℕ} {push : List Span → Span → List Span} (ok : Push cap push)
    (some : 0 < cap) {pieces l : List Span} (pos : ∀ p ∈ pieces, 0 < p.len) (len : l.length ≤ cap)
    {f : Span} (hf : f ∈ pieces.foldl push l) : f ∈ l ∨ f ∈ pieces := by
  induction pieces generalizing l with
  | nil => exact Or.inl hf
  | cons p pieces ih =>
    have hp := pos p (by simp)
    rcases ih (fun q hq => pos q (by simp [hq])) (ok.length_le hp len some).1 hf with hf | hf
    · rcases ok.mem hp len hf with hf | rfl
      · exact Or.inl hf
      · exact Or.inr (by simp)
    · exact Or.inr (by simp [hf])

section Carve

variable {cap : ℕ} {push : List Span → Span → List Span} {l : List Span} {addr stop i fuel : ℕ}

/-- What the loop leaves is left of entries of the table. -/
theorem carveLoop_pieces (ok : Push cap push) (some : 0 < cap) {l₀ : List Span}
    (regions : RegionsOk l) (len : l.length ≤ cap) (pieces : ∀ f ∈ l, PieceOf l₀ addr stop f) :
    ∀ f ∈ carveLoop push addr stop fuel i l, PieceOf l₀ addr stop f := by
  induction fuel generalizing i l with
  | zero => exact pieces
  | succ fuel ih =>
    rcases found : l[i]? with _ | r
    · rw [carveLoop_none found]
      exact pieces
    by_cases miss : Misses addr stop r
    · rw [carveLoop_skip found miss]
      exact ih regions len pieces
    have hr := regions r (List.mem_of_getElem? found)
    rw [carveLoop_drop found miss hr.2]
    have left : RegionsOk (remainders addr stop r) := fun p hp => by
      obtain ⟨h₁, h₂, -⟩ := mem_remainders hp
      unfold Misses at miss
      unfold fin at *
      omega
    have removed := length_swapRemove l i
    obtain ⟨h₁, -, h₃, -⟩ := ok.foldl (i := 0) (P := fun _ => True) some left (fun _ _ => trivial)
      (regions.swapRemove i) (by omega) (by simp)
      (Or.inl (by have := (List.getElem?_eq_some_iff.1 found).1; omega))
    refine ih h₃ h₁ fun f hf => ?_
    rcases ok.mem_foldl some (fun p hp => (left p hp).1) (by omega) hf with hf | hf
    · exact pieces f (mem_swapRemove hf)
    · obtain ⟨-, q, hq, start, last⟩ := pieces r (List.mem_of_getElem? found)
      refine ⟨(left f hf).1, q, hq, ?_⟩
      unfold remainders at hf
      unfold Misses at miss
      unfold fin at *
      rcases List.mem_append.1 hf with hf | hf
      · split_ifs at hf with before
        · rw [List.mem_singleton.1 hf]
          dsimp only
          omega
        · simp at hf
      · split_ifs at hf with after
        · rw [List.mem_singleton.1 hf]
          dsimp only
          omega
        · simp at hf

end Carve

theorem carveFreeRange_coalesced {free : List Span} (addr : ℕ) {len : ℕ} (pos : 0 < len)
    (regions : RegionsOk free) (bound : free.length ≤ maxFreeRegions)
    (once : ∀ x, cover free x ≤ 1) (apart : Coalesced free) :
    Coalesced (carveFreeRange free addr len) :=
  apart.pieces once (show addr < addr + len by omega) (carveLoop_pieces push_freeListPushRaw
    (by decide) regions bound fun f hf => .self hf (regions f hf).1)

theorem findTouching_none {addr len i : ℕ} {l : List Span} (regions : RegionsOk l)
    (small : addr + len < 2 ^ 32) (none : findTouching addr len l i = none) :
    ∀ f ∈ l, f.fin ≠ addr ∧ addr + len ≠ f.addr := by
  induction l generalizing i with
  | nil => simp
  | cons r l ih =>
    have hr := (regions r (by simp)).2
    unfold fin at hr
    rw [findTouching, u32_of_lt hr, u32_of_lt small] at none
    split_ifs at none with before after
    intro f hf
    rcases List.mem_cons.1 hf with rfl | hf
    · exact ⟨before, after⟩
    · exact ih (fun g hg => regions g (by simp [hg])) none f hf

theorem mergeLoop_subset (fuel : ℕ) (free : List Span) (r : Span) :
    ∀ f ∈ (mergeLoop fuel free r).1, f ∈ free := by
  induction fuel generalizing free r with
  | zero => exact fun f hf => hf
  | succ fuel ih =>
    rw [mergeLoop]
    rcases findTouching r.addr r.len free 0 with _ | ⟨k, r'⟩
    · exact fun f hf => hf
    · exact fun f hf => mem_swapRemove (ih _ _ f hf)

/-- `add_free_region` joins what touches. -/
theorem addFreeRegion_coalesced {free : List Span} {r : Span} (regions : RegionsOk free)
    (bound : free.length ≤ maxFreeRegions) (pos : 0 < r.len) (small : r.fin < 2 ^ 32)
    (apart : Coalesced free) : Coalesced (addFreeRegion free r) := by
  rw [addFreeRegion, if_neg (by omega)]
  obtain ⟨h₁, h₂, h₃, h₄, -⟩ := mergeLoop_spec free.length regions pos small
  have done := findTouching_none h₂ h₄ mergeLoop_done
  have old := apart.subset (mergeLoop_subset free.length free r)
  intro f hf g hg touch
  rcases push_freeListPushRaw.mem h₃ (h₁.trans bound) hf with hf | rfl
  · rcases push_freeListPushRaw.mem h₃ (h₁.trans bound) hg with hg | rfl
    · exact old f hf g hg touch
    · exact (done f hf).1 touch
  · rcases push_freeListPushRaw.mem h₃ (h₁.trans bound) hg with hg | rfl
    · exact (done g hg).2 touch
    · unfold fin at touch
      omega

theorem munmapLoop_coalesced {live free : List Span} (addr stop : ℕ) (memory : Bytes) (any : Bool)
    (regionsL : RegionsOk live) (regions : RegionsOk free) (bound : free.length ≤ maxFreeRegions)
    (apart : Coalesced free) : Coalesced (munmapLoop addr stop live memory free any).2.1 := by
  induction live generalizing free memory any with
  | nil => exact apart
  | cons r live ih =>
    have regionsL' : RegionsOk live := fun f hf => regionsL f (by simp [hf])
    have hr := (regionsL r (by simp)).2
    unfold fin at hr
    rw [munmapLoop]
    generalize (if addr < r.addr then r.addr else addr) = lo
    generalize hhi : (if r.addr + r.len < stop then r.addr + r.len else stop) = hi
    have inside : hi ≤ r.addr + r.len := by split_ifs at hhi <;> omega
    dsimp only
    split_ifs with empty
    · exact ih memory any regionsL' regions bound apart
    · rw [u32_of_lt (by omega)]
      have posP : 0 < (Span.mk lo (hi - lo)).len := by dsimp only; omega
      have smallP : (Span.mk lo (hi - lo)).fin < 2 ^ 32 := by unfold fin; dsimp only; omega
      obtain ⟨k₁, k₂, -⟩ := addFreeRegion_spec regions bound posP smallP
      exact ih _ true regionsL' k₂ k₁ (addFreeRegion_coalesced regions bound posP smallP apart)

theorem findFreeRegion_coalesced {free : List Span} (len : ℕ) (pos : 0 < len)
    (regions : RegionsOk free) (once : ∀ x, cover free x ≤ 1) (apart : Coalesced free) :
    Coalesced (findFreeRegion free len).1 := by
  rcases findFreeRegion_cases len regions with
    ⟨none, -⟩ | ⟨k, r, at_k, fit, ⟨split, eq⟩ | ⟨-, eq⟩⟩
  · rw [none]
    exact apart
  · rw [eq]
    have hr := List.mem_of_getElem? at_k
    -- the entry keeps its end, as if its first bytes were carved out
    refine apart.pieces once (show r.addr < r.addr + len by omega) fun f hf => ?_
    rcases List.mem_or_eq_of_mem_set hf with hf | rfl
    · exact .self hf (regions f hf).1
    · refine ⟨by dsimp only; omega, r, hr, Or.inr ⟨Nat.le_add_right _ _, rfl⟩, Or.inl ?_⟩
      unfold fin
      dsimp only
      omega
  · rw [eq]
    exact apart.subset fun f hf => mem_swapRemove hf

/-! ## The invariant -/

/-- The free table is coalesced, and nothing is mapped at address 0 or in front of the anchor. -/
structure RoomInv (ctx : MemCtx) : Prop where
  coalesced : Coalesced ctx.freeList
  noZero : cover ctx.freeList 0 + cover ctx.liveList 0 = 0
  anchored : ctx.mmapTop = 0 ∨ ctx.memorySize / 2 ≤ ctx.mmapTop

namespace RoomInv

variable {ctx : MemCtx} {owned : Set ℕ}

theorem once_free (inv : MmapInv ctx owned) (x : ℕ) : cover ctx.freeList x ≤ 1 := by
  have := inv.once x
  omega

/-- A new mapping that does not start at address 0. -/
theorem handOut (room : RoomInv ctx) {r : Span} {free live : List Span}
    {mmapTop : ℕ} {memory : Bytes} (pos : 0 < r.len) (start : 0 < r.addr) (small : r.fin < 2 ^ 32)
    (rises : mmapTop = 0 ∨ ctx.memorySize / 2 ≤ mmapTop) (liveLen : live.length ≤ maxLiveRegions)
    (liveOk : RegionsOk live) (coalesced : Coalesced free)
    (freeLe : ∀ x, cover free x ≤ cover ctx.freeList x)
    (liveLe : ∀ x, cover live x ≤ cover ctx.liveList x) :
    RoomInv { ctx with memory, mmapTop, freeList := free, liveList := liveAdd live r } := by
  refine ⟨coalesced, ?_, rises⟩
  obtain ⟨-, -, added⟩ := push_liveAdd.spec (by decide) liveOk liveLen pos small
  have outside : r.hit 0 = 0 := hit_eq_zero_iff.2 fun has => by
    unfold Has at has
    omega
  have h₁ := added 0
  have h₂ := freeLe 0
  have h₃ := liveLe 0
  have h₄ := room.noZero
  dsimp only
  omega

theorem mmapFixedAt (room : RoomInv ctx) (inv : MmapInv ctx owned) {addr length : ℕ}
    (start : 0 < addr) (pos : 0 < length) : RoomInv (mmapFixedAt ctx addr length).1 := by
  by_cases beyond : ctx.memorySize < addr + length
  · rw [Yos.mmapFixedAt, if_pos beyond]
    exact room
  by_cases brk : addr < ctx.heapEnd
  · rw [Yos.mmapFixedAt, if_neg beyond, if_pos brk]
    exact room
  rw [Yos.mmapFixedAt, if_neg beyond, if_neg brk]
  have word := inv.word
  have top := room.anchored
  obtain ⟨h₁, h₂, h₃, -⟩ := liveRemove_spec addr length inv.liveOk inv.liveLen
  obtain ⟨-, -, k₃, -⟩ := carveFreeRange_spec addr length inv.freeOk inv.freeLen
  rw [u32_of_lt (by omega)]
  refine room.handOut pos start (by unfold fin; dsimp only; omega) ?_ h₁ h₂
    (carveFreeRange_coalesced addr pos inv.freeOk inv.freeLen (once_free inv) room.coalesced) k₃ h₃
  split_ifs <;> omega

/-- The anchor is set before a range is handed out at `mmap_top`. -/
theorem anchor (room : RoomInv ctx) :
    RoomInv (if ctx.mmapTop = 0 then { ctx with mmapTop := ctx.memorySize / 2 } else ctx) := by
  split_ifs with unset
  · exact { room with anchored := Or.inr (Nat.le_refl _) }
  · exact room

theorem mmapBump (room : RoomInv ctx) (inv : MmapInv ctx owned) {length : ℕ}
    (page : 4096 ≤ length) (fits : length ≤ ctx.memorySize)
    (set : ctx.memorySize / 2 ≤ ctx.mmapTop) : RoomInv (mmapBump ctx length).1 := by
  by_cases brk : ctx.mmapTop < ctx.heapEnd
  · rw [Yos.mmapBump, if_pos brk]
    exact room
  by_cases beyond : ctx.memorySize < ctx.mmapTop + length
  · rw [Yos.mmapBump, if_neg brk, if_pos beyond]
    exact room
  have word := inv.word
  rw [Yos.mmapBump, if_neg brk, if_neg beyond, u32_of_lt (by omega)]
  exact room.handOut (r := ⟨ctx.mmapTop, length⟩) (show 0 < length by omega)
    (show 0 < ctx.mmapTop by omega) (show ctx.mmapTop + length < 2 ^ 32 by omega)
    (Or.inr (by omega)) inv.liveLen inv.liveOk room.coalesced (fun x => Nat.le_refl _)
    fun x => Nat.le_refl _

theorem mmapAnywhere (room : RoomInv ctx) (inv : MmapInv ctx owned) {length : ℕ}
    (page : 4096 ≤ length) (fits : length ≤ ctx.memorySize) :
    RoomInv (mmapAnywhere ctx length).1 := by
  obtain ⟨h₁, h₂, h₃, h₄⟩ := findFreeRegion_spec length inv.freeOk inv.freeLen
  have apart := findFreeRegion_coalesced length (by omega) inv.freeOk (once_free inv) room.coalesced
  unfold Yos.mmapAnywhere
  generalize findFreeRegion ctx.freeList length = found at *
  obtain ⟨free, result⟩ := found
  dsimp only at *
  have less := inv.shrinkFree h₁ h₂ h₃
  have smaller : RoomInv { ctx with freeList := free } := by
    refine ⟨apart, ?_, room.anchored⟩
    have zero := room.noZero
    have no_more := h₃ 0
    dsimp only
    omega
  by_cases reuse : result ≠ 0
  · rw [if_pos reuse]
    have last := inv.below (result + length - 1)
    have taken := h₄ reuse (result + length - 1)
    rw [hit_eq_one_iff.2 (by unfold Has; dsimp only; omega)] at taken
    have top := inv.top
    have word := inv.word
    refine smaller.handOut (r := ⟨result, length⟩) (show 0 < length by omega)
      (Nat.pos_of_ne_zero reuse) (show result + length < 2 ^ 32 by omega) room.anchored inv.liveLen
      inv.liveOk apart (fun x => Nat.le_refl _) fun x => Nat.le_refl _
  · rw [if_neg reuse]
    refine smaller.anchor.mmapBump less.anchor page ?_ ?_
    · split_ifs <;> exact fits
    · have set := room.anchored
      split_ifs with unset
      · exact Nat.le_refl _
      · exact set.resolve_left unset

theorem page_le {len : ℕ} (some : pageAlign len ≠ 0) : 4096 ≤ pageAlign len := by
  rw [pageAlign_eq] at *
  omega

theorem yosMmap2 (room : RoomInv ctx) (inv : MmapInv ctx owned) (addr length flags : ℕ) (fd : ℤ) :
    RoomInv (yosMmap2 ctx addr length flags fd).1 := by
  unfold Yos.yosMmap2
  dsimp only
  split_ifs with anon range fixed
  · exact room
  · exact room
  · exact room.mmapFixedAt inv (by omega) (by omega)
  · exact room.mmapAnywhere inv (page_le (by omega)) (by omega)

theorem yosMunmap (room : RoomInv ctx) (inv : MmapInv ctx owned) (addr len : ℕ) :
    RoomInv (yosMunmap ctx addr len).1 := by
  rw [Yos.yosMunmap]
  by_cases range : pageAlign len = 0 ∨ ctx.memorySize < pageAlign len ∨
      ctx.memorySize < addr + pageAlign len
  · rw [if_pos range]
    exact room
  rw [if_neg range]
  by_cases overlap : rangeOverlapsFree ctx.freeList addr (pageAlign len)
  · rw [if_pos overlap]
    exact room
  rw [if_neg overlap]
  have apart := munmapLoop_coalesced addr (addr + pageAlign len) ctx.memory false
    inv.liveOk inv.freeOk inv.freeLen room.coalesced
  obtain ⟨-, -, freed, -⟩ := munmapLoop_spec addr (addr + pageAlign len) ctx.memory false inv.liveOk
    inv.freeOk inv.freeLen
  obtain ⟨-, -, less, -⟩ := liveRemove_spec addr (pageAlign len) inv.liveOk inv.liveLen
  generalize munmapLoop addr (addr + pageAlign len) ctx.liveList ctx.memory ctx.freeList false =
    loop at *
  obtain ⟨memory, free, any⟩ := loop
  refine ⟨apart, ?_, room.anchored⟩
  have h₁ := freed 0
  have h₂ := less 0
  have h₃ := room.noZero
  dsimp only at h₁ ⊢
  split_ifs at h₁ ⊢ <;> omega

end RoomInv

/-- The two invariants of a run. -/
def RoomyState (s : MmapState) : Prop := MmapInv s.ctx s.owned ∧ RoomInv s.ctx

theorem RoomyState.call {s : MmapState} (state : RoomyState s) (c : MmapCall) :
    RoomyState (s.next c) := by
  obtain ⟨inv, room⟩ := state
  refine ⟨inv.next c, ?_⟩
  cases c with
  | mmap2 addr length flags fd => exact room.yosMmap2 inv addr length flags fd
  | munmap addr len => exact room.yosMunmap inv addr len

theorem RoomyState.of_run {s : MmapState} (run : mmapSystem.Reachable s) : RoomyState s := by
  refine run.invariant (I := RoomyState) (fun s start => ?_) ?_
  · obtain ⟨⟨free, live, top, word⟩, none⟩ := start
    refine ⟨none ▸ mmapInv_init ⟨free, live, top, word⟩, ?_, ?_, Or.inl top⟩
    · simp [free, Coalesced]
    · simp [free, live]
  · intro s c s' state step
    rw [step]
    exact state.call c

/-! ## What a failure says -/

theorem mmapAnywhere_reuse {ctx : MemCtx} {length : ℕ}
    (found : (findFreeRegion ctx.freeList length).2 ≠ 0) :
    mmapAnywhere ctx length =
      ({ ctx with
          freeList := (findFreeRegion ctx.freeList length).1
          liveList := liveAdd ctx.liveList ⟨(findFreeRegion ctx.freeList length).2, length⟩ },
        .ok (findFreeRegion ctx.freeList length).2) := by
  unfold mmapAnywhere
  dsimp only
  rw [if_pos found]

theorem mmapAnywhere_bump {ctx : MemCtx} {length : ℕ}
    (none : findFreeRegion ctx.freeList length = (ctx.freeList, 0)) :
    mmapAnywhere ctx length = mmapBump
      (if ctx.mmapTop = 0 then { ctx with mmapTop := ctx.memorySize / 2 } else ctx) length := by
  unfold mmapAnywhere
  rw [none]
  rfl

theorem mmapBump_fails {ctx : MemCtx} {length : ℕ} {e : Errno} (brk : ctx.heapEnd ≤ ctx.mmapTop)
    (failed : (mmapBump ctx length).2 = .error e) : ctx.memorySize < ctx.mmapTop + length := by
  rw [mmapBump, if_neg (by omega)] at failed
  by_contra room
  rw [if_neg room] at failed
  simp at failed

theorem RoomInv.addr_pos {ctx : MemCtx} {owned : Set ℕ} (room : RoomInv ctx)
    (inv : MmapInv ctx owned) {f : Span} (hf : f ∈ ctx.freeList) : 0 < f.addr := by
  by_contra zero
  have pos := (inv.freeOk f hf).1
  have covered := cover_pos_of_mem hf (x := 0) ⟨by omega, by omega⟩
  have none := room.noZero
  omega

/-- The search failed in both places. -/
theorem RoomInv.full {ctx : MemCtx} {owned : Set ℕ} (room : RoomInv ctx) (inv : MmapInv ctx owned)
    {length : ℕ} {e : Errno} (brk : ctx.heapEnd ≤ ctx.memorySize / 2)
    (failed : (Yos.mmapAnywhere ctx length).2 = .error e) :
    (∀ f ∈ ctx.freeList, f.len < length) ∧ ctx.memorySize < mmapAnchor ctx + length := by
  rcases findFreeRegion_cases length inv.freeOk with ⟨none, short⟩ | ⟨k, r, at_k, fit, cut⟩
  · rw [mmapAnywhere_bump none] at failed
    refine ⟨fun f hf => ?_, ?_⟩
    · have start := room.addr_pos inv hf
      have word := (inv.freeOk f hf).2
      have long := short f hf
      unfold fin at word
      by_contra enough
      omega
    · have set := room.anchored
      unfold mmapAnchor
      by_cases unset : ctx.mmapTop = 0
      · rw [if_pos unset] at failed
        rw [if_neg (by omega)]
        exact mmapBump_fails brk failed
      · rw [if_neg unset] at failed
        rw [if_pos unset]
        exact mmapBump_fails (brk.trans (set.resolve_left unset)) failed
  · have start := room.addr_pos inv (List.mem_of_getElem? at_k)
    have result : (findFreeRegion ctx.freeList length).2 = r.addr := by
      rcases cut with ⟨-, eq⟩ | ⟨-, eq⟩ <;> rw [eq]
    rw [mmapAnywhere_reuse (by omega)] at failed
    simp at failed

/-- A byte below `mmap_top` that is neither held nor free. -/
def MmapState.Lost (s : MmapState) (x : ℕ) : Prop :=
  s.ctx.memorySize / 2 ≤ x ∧ x < s.ctx.mmapTop ∧ x ∉ s.owned ∧ cover s.ctx.freeList x = 0

/-- The bytes that a call loses, apart from what the full free table drops: a mapping at a fixed
address above `mmap_top` skips those in between, a reused entry loses a rest of less than a page, and
`yos_munmap` does not give back what is not tracked as live or, of a range that is partly free,
anything. -/
def lostBy (s : MmapState) : MmapCall → Set ℕ
  | .mmap2 addr length flags fd =>
    if flags &&& mapFixed ≠ 0 ∧ addr ≠ 0 then {x | mmapAnchor s.ctx ≤ x ∧ x < addr}
    else
      {x | ∃ f ∈ s.ctx.freeList, (yosMmap2 s.ctx addr length flags fd).2 = .ok f.addr ∧
        f.len - pageAlign length < 4096 ∧ f.Has x ∧ f.addr + pageAlign length ≤ x}
  | .munmap addr len =>
    {x | Has ⟨addr, pageAlign len⟩ x ∧ (cover s.ctx.liveList x = 0 ∨
      ∃ y, Has ⟨addr, pageAlign len⟩ y ∧ 0 < cover s.ctx.freeList y)}

/-- How many entries the free table drops at most. -/
def dropsAt (s : MmapState) : MmapCall → ℕ
  | .mmap2 addr _ flags _ =>
    if flags &&& mapFixed ≠ 0 ∧ addr ≠ 0 then s.ctx.freeList.length + 1 - maxFreeRegions else 0
  | .munmap addr len =>
    s.ctx.freeList.length + weight (meets addr (addr + pageAlign len)) s.ctx.liveList -
      maxFreeRegions

/-- What is lost after a call was lost before or by it. -/
def LostInCall (s : MmapState) (c : MmapCall) : Prop :=
  ∃ dropped : List Span, dropped.length ≤ dropsAt s c ∧
    ∀ x, (s.next c).Lost x → s.Lost x ∨ x ∈ lostBy s c ∨ 0 < cover dropped x

section Lost

variable {s : MmapState}

/-- Nothing that is in reach goes out of reach. -/
theorem LostInCall.none {c : MmapCall} (same : ∀ x, (s.next c).Lost x → s.Lost x ∨ x ∈ lostBy s c) :
    LostInCall s c :=
  ⟨[], Nat.zero_le _, fun x lost => (same x lost).imp_right Or.inl⟩

theorem lostInCall_fixed (state : RoomyState s) {addr length flags : ℕ} {fd : ℤ}
    (fixed : flags &&& mapFixed ≠ 0 ∧ addr ≠ 0) (anon : ¬ (fd ≠ -1 ∧ fd ≠ 0xffffffff))
    (range : ¬ (pageAlign length = 0 ∨ s.ctx.memorySize < pageAlign length)) :
    LostInCall s (.mmap2 addr length flags fd) := by
  obtain ⟨inv, room⟩ := state
  have call : yosMmap2 s.ctx addr length flags fd = mmapFixedAt s.ctx addr (pageAlign length) := by
    unfold yosMmap2
    dsimp only
    rw [if_neg anon, if_neg range, if_pos fixed]
  by_cases beyond : s.ctx.memorySize < addr + pageAlign length
  · refine .none fun x lost => Or.inl ?_
    rwa [next_mmap2, call, mmapFixedAt, if_pos beyond] at lost
  by_cases brk : addr < s.ctx.heapEnd
  · refine .none fun x lost => Or.inl ?_
    rwa [next_mmap2, call, mmapFixedAt, if_neg beyond, if_pos brk] at lost
  obtain ⟨dropped, few, total⟩ : Loses _ (carveFreeRange s.ctx.freeList addr (pageAlign length)) _ _ :=
    carveLoop_loses push_freeListPushRaw (by decide) (Nat.le_add_right addr _) inv.freeOk inv.freeLen
  have single := weight_splits_le_one (Nat.le_add_right addr (pageAlign length))
    (RoomInv.once_free inv)
  refine ⟨dropped, ?_, fun x lost => ?_⟩
  · rw [dropsAt, if_pos fixed]
    omega
  · rw [MmapState.next, call, mmapFixedAt, if_neg beyond, if_neg brk] at lost
    obtain ⟨low, high, free, none⟩ := lost
    have word := inv.word
    have outside : ¬ Has ⟨addr, pageAlign length⟩ x := fun has => free (Or.inr has)
    have notHeld : x ∉ s.owned := fun held => free (Or.inl held)
    have counted := total x outside
    dsimp only at low high none
    rw [u32_of_lt (by omega)] at high
    unfold Has at outside
    dsimp only at outside
    rw [lostBy, if_pos fixed]
    by_cases above : s.ctx.mmapTop ≤ x
    · refine Or.inr (Or.inl ⟨?_, ?_⟩)
      · unfold mmapAnchor
        split_ifs <;> omega
      · split_ifs at high <;> omega
    · by_cases zero : cover s.ctx.freeList x = 0
      · exact Or.inl ⟨low, by omega, notHeld, zero⟩
      · exact Or.inr (Or.inr (by omega))

/-- What is handed out at `mmap_top` is held. -/
theorem lost_bump {x length : ℕ} (room : RoomInv s.ctx) (inv : MmapInv s.ctx s.owned)
    (lost : MmapState.Lost
      (let (ctx, r) := mmapBump
        (if s.ctx.mmapTop = 0 then { s.ctx with mmapTop := s.ctx.memorySize / 2 } else s.ctx) length
      ⟨ctx, ownedMmap s.owned length r⟩) x) : s.Lost x := by
  have set := room.anchored
  have word := inv.word
  -- the context in which the anchor is set
  generalize anchored : (if s.ctx.mmapTop = 0 then { s.ctx with mmapTop := s.ctx.memorySize / 2 }
    else s.ctx) = ctx at lost
  have same : ctx.freeList = s.ctx.freeList ∧ ctx.memorySize = s.ctx.memorySize ∧
      (ctx.mmapTop = s.ctx.mmapTop ∨ ctx.mmapTop = s.ctx.memorySize / 2) := by
    rw [← anchored]
    split_ifs <;> simp
  obtain ⟨free, size, top⟩ := same
  have before (low : s.ctx.memorySize / 2 ≤ x) (high : x < ctx.mmapTop) (notHeld : x ∉ s.owned)
      (none : cover s.ctx.freeList x = 0) : s.Lost x := ⟨low, by omega, notHeld, none⟩
  by_cases brk : ctx.mmapTop < ctx.heapEnd
  · rw [mmapBump, if_pos brk] at lost
    obtain ⟨low, high, notHeld, none⟩ := lost
    dsimp only at low none
    rw [size] at low
    rw [free] at none
    exact before low high notHeld none
  by_cases beyond : ctx.memorySize < ctx.mmapTop + length
  · rw [mmapBump, if_neg brk, if_pos beyond] at lost
    obtain ⟨low, high, notHeld, none⟩ := lost
    dsimp only at low none
    rw [size] at low
    rw [free] at none
    exact before low high notHeld none
  · rw [mmapBump, if_neg brk, if_neg beyond, u32_of_lt (by omega)] at lost
    obtain ⟨low, high, notHeld, none⟩ := lost
    dsimp only at low high none
    rw [size] at low
    rw [free] at none
    refine before low ?_ (fun held => notHeld (Or.inl held)) none
    by_contra above
    exact notHeld (Or.inr ⟨by dsimp only; omega, high⟩)

theorem yosMmap2_anywhere {ctx : MemCtx} {addr length flags : ℕ} {fd : ℤ}
    (anywhere : ¬ (flags &&& mapFixed ≠ 0 ∧ addr ≠ 0)) (anon : ¬ (fd ≠ -1 ∧ fd ≠ 0xffffffff))
    (range : ¬ (pageAlign length = 0 ∨ ctx.memorySize < pageAlign length)) :
    yosMmap2 ctx addr length flags fd = mmapAnywhere ctx (pageAlign length) := by
  unfold yosMmap2
  dsimp only
  rw [if_neg anon, if_neg range, if_neg anywhere]

theorem lostInCall_anywhere (state : RoomyState s) {addr length flags : ℕ} {fd : ℤ}
    (anywhere : ¬ (flags &&& mapFixed ≠ 0 ∧ addr ≠ 0)) (anon : ¬ (fd ≠ -1 ∧ fd ≠ 0xffffffff))
    (range : ¬ (pageAlign length = 0 ∨ s.ctx.memorySize < pageAlign length)) :
    LostInCall s (.mmap2 addr length flags fd) := by
  obtain ⟨inv, room⟩ := state
  have call := yosMmap2_anywhere anywhere anon range
  refine .none fun x lost => ?_
  rw [lostBy, if_neg anywhere, call]
  rw [next_mmap2, call] at lost
  rcases findFreeRegion_cases (pageAlign length) inv.freeOk with ⟨none, -⟩ | ⟨k, r, at_k, fit, cut⟩
  · rw [mmapAnywhere_bump none] at lost
    exact Or.inl (lost_bump room inv lost)
  · have hr := List.mem_of_getElem? at_k
    have start := room.addr_pos inv hr
    have parts := hit_cut r.addr (pageAlign length) (r.len - pageAlign length) x
    rw [Nat.add_sub_cancel' fit] at parts
    have result : (findFreeRegion s.ctx.freeList (pageAlign length)).2 = r.addr := by
      rcases cut with ⟨-, eq⟩ | ⟨-, eq⟩ <;> rw [eq]
    rw [mmapAnywhere_reuse (by omega)] at lost ⊢
    rw [result] at lost ⊢
    obtain ⟨low, high, free, none⟩ := lost
    have outside : hit ⟨r.addr, pageAlign length⟩ x = 0 :=
      hit_eq_zero_iff.2 fun has => free (Or.inr has)
    have notHeld : x ∉ s.owned := fun held => free (Or.inl held)
    dsimp only at none
    rcases cut with ⟨-, eq⟩ | ⟨rest, eq⟩
    · rw [eq] at none
      have taken := weight_set (w := fun s => s.hit x)
        (b := ⟨r.addr + pageAlign length, r.len - pageAlign length⟩) at_k
      refine Or.inl ⟨low, high, notHeld, ?_⟩
      rw [cover_eq_weight] at none ⊢
      dsimp only at none taken ⊢
      change r.hit x = _ at parts
      omega
    · rw [eq] at none
      have taken := weight_swapRemove (w := fun s => s.hit x) at_k
      by_cases has : r.Has x
      · refine Or.inr ⟨r, hr, rfl, rest, has, ?_⟩
        by_contra before
        exact hit_eq_zero_iff.1 outside ⟨has.1, by dsimp only; omega⟩
      · refine Or.inl ⟨low, high, notHeld, ?_⟩
        rw [cover_eq_weight] at none ⊢
        have zero := hit_eq_zero_iff.2 has
        dsimp only at none taken ⊢
        omega

theorem lostInCall_mmap2 (state : RoomyState s) (addr length flags : ℕ) (fd : ℤ) :
    LostInCall s (.mmap2 addr length flags fd) := by
  by_cases anon : fd ≠ -1 ∧ fd ≠ 0xffffffff
  · refine .none fun x lost => Or.inl ?_
    rwa [next_mmap2, yosMmap2, if_pos anon] at lost
  by_cases range : pageAlign length = 0 ∨ s.ctx.memorySize < pageAlign length
  · refine .none fun x lost => Or.inl ?_
    rw [next_mmap2] at lost
    unfold yosMmap2 at lost
    dsimp only at lost
    rwa [if_neg anon, if_pos range] at lost
  by_cases fixed : flags &&& mapFixed ≠ 0 ∧ addr ≠ 0
  · exact lostInCall_fixed state fixed anon range
  · exact lostInCall_anywhere state fixed anon range

theorem yosMunmap_frame (ctx : MemCtx) (addr len : ℕ) :
    (yosMunmap ctx addr len).1.mmapTop = ctx.mmapTop ∧
      (yosMunmap ctx addr len).1.memorySize = ctx.memorySize := by
  unfold yosMunmap
  dsimp only
  split_ifs <;> exact ⟨rfl, rfl⟩

theorem yosMunmap_fails {ctx : MemCtx} {addr len : ℕ} {e : Errno}
    (failed : (yosMunmap ctx addr len).2 = .error e) : (yosMunmap ctx addr len).1 = ctx := by
  unfold yosMunmap at failed ⊢
  dsimp only at failed ⊢
  split_ifs at failed ⊢
  rfl

theorem lostInCall_munmap (state : RoomyState s) (addr len : ℕ) :
    LostInCall s (.munmap addr len) := by
  obtain ⟨inv, room⟩ := state
  obtain ⟨top, size⟩ := yosMunmap_frame s.ctx addr len
  rcases result : (yosMunmap s.ctx addr len).2 with e | ⟨⟩
  · refine .none fun x lost => Or.inl ?_
    rwa [next_munmap, result, yosMunmap_fails result] at lost
  obtain ⟨early, whole⟩ := inv.unmapped result
  by_cases free : ∃ y, Has ⟨addr, pageAlign len⟩ y ∧ 0 < cover s.ctx.freeList y
  · refine .none fun x lost => ?_
    rw [next_munmap, result, early free] at lost
    obtain ⟨low, high, kept, none⟩ := lost
    by_cases held : x ∈ s.owned
    · refine Or.inr ⟨?_, Or.inr free⟩
      by_contra outside
      exact kept ⟨held, outside⟩
    · exact Or.inl ⟨low, high, held, none⟩
  · push Not at free
    obtain ⟨dropped, few, total⟩ := (whole fun x has => by have := free x has; omega).freed
    refine ⟨dropped, few, fun x lost => ?_⟩
    rw [next_munmap, result] at lost
    obtain ⟨low, high, kept, none⟩ := lost
    dsimp only at low high kept none
    rw [size] at low
    rw [top] at high
    have counted := total x
    by_cases held : x ∈ s.owned
    · have has : Has ⟨addr, pageAlign len⟩ x := by
        by_contra outside
        exact kept ⟨held, outside⟩
      by_cases live : cover s.ctx.liveList x = 0
      · exact Or.inr (Or.inl ⟨has, Or.inl live⟩)
      · rw [if_pos has] at counted
        exact Or.inr (Or.inr (by omega))
    · by_cases zero : cover s.ctx.freeList x = 0
      · exact Or.inl ⟨low, high, held, zero⟩
      · exact Or.inr (Or.inr (by omega))

end Lost

/-- The upper half of the memory mapped. -/
def halfMapped : List MmapCall := [.mmap2 0 0x200000 0x22 (-1)]

/-- Three quarters of the upper half, mapped and unmapped again. -/
def unmappedAgain : List MmapCall := [.mmap2 0 0x180000 0x22 (-1), .munmap 0x200000 0x180000]

/-- The last page of the memory. -/
def lastPage : List MmapCall := [.mmap2 0x3ff000 4096 0x32 (-1)]

end Yos
