import Yos.Mem.Layout
import Yos.Proc.Setjmp

/-!
# Runs of `setjmp`, `longjmp`, `fork` and `yos_mmap2`

The asyncify buffers and the mappings share the upper half of the memory, and neither side knows of
the other: `yos_mmap2` hands out pages up to `memory_size`, and a buffer goes to its distance below
the top, whatever is there.  When the memory has grown, a new buffer may also fall on one that was
placed earlier.

In a run where every buffer is placed on a part of the memory that is in no other buffer and in no
mapping, and where the pages `yos_mmap2` takes beyond its tables are in no buffer (`SjOk`), the
buffers stay inside the memory, apart from each other and from the mappings (`reserved_apart`).
-/

namespace Yos

open Word Span Table

/-! ## The system -/

/-- A context and the addresses handed out by `yos_mmap2` and not yet unmapped. -/
structure SjState where
  sj : SjCtx
  owned : Set ℕ

/-- The calls of a run; `grow` is the guest's `memory.grow`. -/
inductive SjCall where
  | grow (pages : ℕ)
  | setjmp (jmpBufPtr : ℕ) (rewinding : Bool) (sp : ℕ)
  | longjmp (jmpBufPtr : ℕ) (val : ℤ)
  | pump
  | fork (rewinding : Bool)
  | mmap2 (addr length flags : ℕ) (fd : ℤ)
  | munmap (addr len : ℕ)

/-- The memory after it grew by a number of pages, if the size is still a 32-bit number. -/
def MemCtx.grow (ctx : MemCtx) (pages : ℕ) : MemCtx :=
  if ctx.memorySize + pages * 65536 < 2 ^ 32 then
    { ctx with memorySize := ctx.memorySize + pages * 65536 }
  else ctx

/-- The state after a call. -/
def SjState.next (s : SjState) : SjCall → SjState
  | .grow pages => ⟨{ s.sj with mem := s.sj.mem.grow pages }, s.owned⟩
  | .setjmp jmpBufPtr rewinding sp => ⟨(s.sj.setjmp jmpBufPtr rewinding sp).1, s.owned⟩
  | .longjmp jmpBufPtr val => ⟨s.sj.longjmp jmpBufPtr val, s.owned⟩
  | .pump => ⟨s.sj.pump, s.owned⟩
  | .fork rewinding => ⟨s.sj.fork rewinding, s.owned⟩
  | .mmap2 addr length flags fd =>
    let (mem, r) := yosMmap2 s.sj.mem addr length flags fd
    ⟨{ s.sj with mem }, ownedMmap s.owned (pageAlign length) r⟩
  | .munmap addr len =>
    let (mem, r) := yosMunmap s.sj.mem addr len
    ⟨{ s.sj with mem }, ownedMunmap s.owned addr (pageAlign len) r⟩

/-- A process that has mapped nothing and saved no stack.  The memory is a number of whole pages. -/
structure SjFresh (s : SjState) : Prop where
  noMappings : NoMappings s.sj.mem
  pages : 65536 ∣ s.sj.mem.memorySize
  noFork : s.sj.asyncifyPtr = 0
  noDiscard : s.sj.sjDiscardPtr = 0
  noSlots : ∀ slot ∈ s.sj.sjSlots, slot.jmpBufPtr = 0
  slotCount : s.sj.sjSlots.length = sjSlotCount
  nothingOwned : s.owned = ∅

/-- The runs of a fresh process. -/
def sjSystem : System SjState SjCall where
  init := SjFresh
  step s c s' := s' = s.next c

/-- The buffers lie inside the memory, apart from each other and from the mappings. -/
def ReservedApart (s : SjState) : Prop :=
  (∀ r ∈ s.sj.reserved, r.fin ≤ s.sj.mem.memorySize) ∧
    s.sj.reserved.Pairwise Span.Disjoint ∧
    ∀ r ∈ s.sj.reserved, ∀ x ∈ s.owned, ¬ r.Has x

/-! ## The calls that keep apart -/

/-- `x` is in a table entry or in a mapping. -/
def Held (ctx : MemCtx) (owned : Set ℕ) (x : ℕ) : Prop := tracked ctx x ≠ 0 ∨ x ∈ owned

/-- There is room for a buffer at distance `k` below the top: the memory is large enough, and the
buffer meets no other buffer and no page that is mapped or free in the tables. -/
def Room (s : SjState) (others : List Span) (k size : ℕ) : Prop :=
  k ≤ s.sj.mem.memorySize ∧
    (∀ b ∈ others, b.Disjoint ⟨s.sj.mem.memorySize - k, size⟩) ∧
    ∀ x, Has ⟨s.sj.mem.memorySize - k, size⟩ x → ¬ Held s.sj.mem s.owned x

/-- The slots among which `m3_setjmp` looks for a free one. -/
def sjKept (slots : List SjSlot) (sp : ℕ) : List SjSlot :=
  if (sjFreeSlot slots).isSome then slots else sjReapDead slots sp

/-- The range `yos_mmap2` takes that is in no table entry: the fixed range, or the one at
`mmap_top`. -/
def mmapFresh (ctx : MemCtx) (addr length flags : ℕ) : Option Span :=
  if flags &&& mapFixed ≠ 0 ∧ addr ≠ 0 then
    if ctx.heapEnd ≤ addr ∧ addr + pageAlign length ≤ ctx.memorySize then
      some ⟨addr, pageAlign length⟩
    else none
  else if (findFreeRegion ctx.freeList (pageAlign length)).2 = 0 ∧
      ctx.heapEnd ≤ mmapAnchor ctx ∧ mmapAnchor ctx + pageAlign length ≤ ctx.memorySize then
    some ⟨mmapAnchor ctx, pageAlign length⟩
  else none

/-- A call that places a buffer finds room for it, and `yos_mmap2` takes no page of a buffer. -/
def SjOk (s : SjState) : SjCall → Prop
  | .grow _ | .pump | .munmap _ _ => True
  | .setjmp jmpBufPtr rewinding sp =>
    s.sj.longjmpPending = false → rewinding = false → jmpBufPtr ≠ 0 →
      sjFindSlot s.sj.sjSlots jmpBufPtr = none →
        ∀ i, sjFreeSlot (sjKept s.sj.sjSlots sp) = some i →
          Room s { s.sj with sjSlots := sjKept s.sj.sjSlots sp }.reserved ((4 + i) * sjBufSize)
            sjBufSize
  | .longjmp jmpBufPtr _ =>
    (sjFindSlot s.sj.sjSlots jmpBufPtr).isSome → s.sj.sjDiscardPtr = 0 →
      Room s s.sj.reserved (3 * sjBufSize) sjBufSize
  | .fork rewinding =>
    rewinding = false → s.sj.mem.memorySize ≠ 0 → s.sj.asyncifyPtr = 0 →
      Room s s.sj.reserved asyncifyBufSize asyncifyBufSize
  | .mmap2 addr length flags _ =>
    ∀ r ∈ mmapFresh s.sj.mem addr length flags, ∀ b ∈ s.sj.reserved, b.Disjoint r

/-! ## How the calls change the buffers -/

/-- The number of buffers that contain `x`. -/
def slotCover (slots : List SjSlot) (x : ℕ) : ℕ := weight (fun slot => cover slot.spans x) slots

theorem cover_flatMap_spans (slots : List SjSlot) (x : ℕ) :
    cover (slots.flatMap SjSlot.spans) x = slotCover slots x := by
  induction slots with
  | nil => rfl
  | cons slot slots ih =>
    rw [List.flatMap_cons, cover_append, ih, slotCover, slotCover, weight_cons]

theorem cover_reserved (s : SjCtx) (x : ℕ) :
    cover s.reserved x = cover (placedSpan s.asyncifyPtr asyncifyBufSize) x +
      cover (placedSpan s.sjDiscardPtr sjBufSize) x + slotCover s.sjSlots x := by
  rw [SjCtx.reserved, cover_append, cover_append, cover_flatMap_spans]

theorem slotCover_modify (slots : List SjSlot) (f : SjSlot → SjSlot) (i x : ℕ)
    (same : ∀ slot, (f slot).spans = slot.spans) :
    slotCover (slots.modify i f) x = slotCover slots x := by
  cases found : slots[i]? with
  | none =>
    rw [List.modify_eq_set_getElem?, found]
    rfl
  | some slot =>
    have := weight_modify (w := fun slot => cover slot.spans x) (f := f) found
    rw [same slot] at this
    rw [slotCover, slotCover]
    omega

theorem slotCover_sjReapDead (slots : List SjSlot) (sp x : ℕ) :
    slotCover (sjReapDead slots sp) x ≤ slotCover slots x := by
  rw [sjReapDead]
  split_ifs with unknown
  · exact Nat.le_refl _
  · induction slots with
    | nil => exact Nat.le_refl _
    | cons slot slots ih =>
      rw [slotCover, slotCover] at *
      rw [List.map_cons, weight_cons, weight_cons]
      refine Nat.add_le_add ?_ ih
      split_ifs
      · exact Nat.zero_le _
      · exact Nat.le_refl _

theorem slotCover_sjKept (slots : List SjSlot) (sp x : ℕ) :
    slotCover (sjKept slots sp) x ≤ slotCover slots x := by
  rw [sjKept]
  split_ifs
  · exact Nat.le_refl _
  · exact slotCover_sjReapDead slots sp x

theorem sjTakeSlot_eq {slots : List SjSlot} {jmpBufPtr : ℕ} (memSize sp : ℕ)
    (new : sjFindSlot slots jmpBufPtr = none) :
    sjTakeSlot slots jmpBufPtr memSize sp = sjAllocSlot (sjKept slots sp) jmpBufPtr memSize := by
  rw [sjTakeSlot, new, sjKept]
  cases free : sjFreeSlot slots with
  | none => simp [sjAllocSlot, free]
  | some i => simp [sjAllocSlot, free]

theorem SjSlot.cover_spans (slot : SjSlot) (x : ℕ) :
    cover slot.spans x = if slot.jmpBufPtr = 0 then 0 else hit ⟨slot.asyncifyBuf, sjBufSize⟩ x := by
  rw [SjSlot.spans]
  split_ifs
  · rfl
  · rw [cover_cons, cover_nil, Nat.add_zero]

/-- A filled slot adds at most its own buffer. -/
theorem slotCover_sjFill {slots : List SjSlot} {i : ℕ} (jmpBufPtr memSize x : ℕ)
    (free : sjFreeSlot slots = some i) :
    slotCover (sjFill slots jmpBufPtr memSize i) x ≤ slotCover slots x +
      if jmpBufPtr = 0 then 0
      else hit ⟨belowTop memSize ((4 + i) * sjBufSize), sjBufSize⟩ x := by
  obtain ⟨lt, -, -⟩ := List.findIdx?_eq_some_iff_getElem.1 free
  have := weight_modify (w := fun slot : SjSlot => cover slot.spans x)
    (f := fun slot : SjSlot =>
      { slot with jmpBufPtr, asyncifyBuf := belowTop memSize ((4 + i) * sjBufSize) })
    (List.getElem?_eq_getElem lt)
  rw [SjSlot.cover_spans ⟨jmpBufPtr, _, _⟩] at this
  exact Nat.le.intro this

theorem len_pos_of_mem_reserved {s : SjCtx} {r : Span} (hr : r ∈ s.reserved) : 0 < r.len := by
  have placed {ptr size : ℕ} (pos : 0 < size) (hr : r ∈ placedSpan ptr size) : 0 < r.len := by
    rw [placedSpan] at hr
    split_ifs at hr
    · simp at hr
    · rw [List.mem_singleton.1 hr]
      exact pos
  rw [SjCtx.reserved, List.mem_append, List.mem_append, List.mem_flatMap] at hr
  rcases hr with (hr | hr) | ⟨slot, -, hr⟩
  · exact placed (by decide) hr
  · exact placed (by decide) hr
  · rw [SjSlot.spans] at hr
    split_ifs at hr
    · simp at hr
    · rw [List.mem_singleton.1 hr]
      exact (by decide : 0 < sjBufSize)

/-! ## How `yos_mmap2` changes the pages in use -/

section Mmap2

variable {ctx : MemCtx} {owned : Set ℕ} {addr length flags x : ℕ} {fd : ℤ}

theorem mmapFresh_fixed (fixed : flags &&& mapFixed ≠ 0 ∧ addr ≠ 0) (brk : ctx.heapEnd ≤ addr)
    (fits : addr + pageAlign length ≤ ctx.memorySize) :
    mmapFresh ctx addr length flags = some ⟨addr, pageAlign length⟩ := by
  rw [mmapFresh, if_pos fixed, if_pos ⟨brk, fits⟩]

theorem mmapFresh_bump (anywhere : ¬ (flags &&& mapFixed ≠ 0 ∧ addr ≠ 0))
    (noFree : (findFreeRegion ctx.freeList (pageAlign length)).2 = 0)
    (brk : ctx.heapEnd ≤ mmapAnchor ctx)
    (fits : mmapAnchor ctx + pageAlign length ≤ ctx.memorySize) :
    mmapFresh ctx addr length flags = some ⟨mmapAnchor ctx, pageAlign length⟩ := by
  rw [mmapFresh, if_neg anywhere, if_pos ⟨noFree, brk, fits⟩]

theorem tracked_yosMmap2 (inv : MmapInv ctx owned)
    (hx : tracked (yosMmap2 ctx addr length flags fd).1 x ≠ 0) :
    tracked ctx x ≠ 0 ∨ ∃ r ∈ mmapFresh ctx addr length flags, r.Has x := by
  rw [yosMmap2] at hx
  dsimp only at hx
  split_ifs at hx with anon range fixed
  · exact Or.inl hx
  · exact Or.inl hx
  · refine (tracked_mmapFixedAt inv (by omega) hx).imp_right fun ⟨brk, fits, has⟩ => ?_
    exact ⟨_, mmapFresh_fixed fixed brk fits, has⟩
  · refine (tracked_mmapAnywhere inv (by omega) hx).imp_right fun ⟨noFree, brk, fits, has⟩ => ?_
    exact ⟨_, mmapFresh_bump fixed noFree brk fits, has⟩

theorem mmapFixedAt_ok {length r : ℕ} (mapped : (mmapFixedAt ctx addr length).2 = .ok r) :
    r = addr ∧ ctx.heapEnd ≤ addr ∧ addr + length ≤ ctx.memorySize := by
  by_cases beyond : ctx.memorySize < addr + length
  · rw [mmapFixedAt, if_pos beyond] at mapped
    cases mapped
  by_cases brk : addr < ctx.heapEnd
  · rw [mmapFixedAt, if_neg beyond, if_pos brk] at mapped
    cases mapped
  rw [mmapFixedAt, if_neg beyond, if_neg brk] at mapped
  cases mapped
  exact ⟨rfl, by omega, by omega⟩

theorem mmapBump_ok {length r : ℕ} (mapped : (mmapBump ctx length).2 = .ok r) :
    r = ctx.mmapTop ∧ ctx.heapEnd ≤ ctx.mmapTop ∧ ctx.mmapTop + length ≤ ctx.memorySize := by
  by_cases brk : ctx.mmapTop < ctx.heapEnd
  · rw [mmapBump, if_pos brk] at mapped
    cases mapped
  by_cases beyond : ctx.memorySize < ctx.mmapTop + length
  · rw [mmapBump, if_neg brk, if_pos beyond] at mapped
    cases mapped
  rw [mmapBump, if_neg brk, if_neg beyond] at mapped
  cases mapped
  exact ⟨rfl, by omega, by omega⟩

/-- A new mapping lies in the tables or in the fresh range. -/
theorem yosMmap2_ok_range (inv : MmapInv ctx owned) {r : ℕ}
    (mapped : (yosMmap2 ctx addr length flags fd).2 = .ok r)
    (has : Has ⟨r, pageAlign length⟩ x) :
    tracked ctx x ≠ 0 ∨ ∃ r ∈ mmapFresh ctx addr length flags, r.Has x := by
  rw [yosMmap2] at mapped
  dsimp only at mapped
  split_ifs at mapped with anon range fixed
  · obtain ⟨rfl, brk, fits⟩ := mmapFixedAt_ok mapped
    exact Or.inr ⟨_, mmapFresh_fixed fixed brk fits, has⟩
  · rw [mmapAnywhere] at mapped
    dsimp only at mapped
    by_cases reuse : (findFreeRegion ctx.freeList (pageAlign length)).2 ≠ 0
    · obtain ⟨-, -, -, taken⟩ := findFreeRegion_spec (pageAlign length) inv.freeOk inv.freeLen
      rw [if_pos reuse] at mapped
      cases mapped
      have := taken reuse x
      rw [hit_eq_one_iff.2 has] at this
      rw [tracked]
      left
      omega
    · rw [if_neg reuse] at mapped
      have place : r = mmapAnchor ctx ∧ ctx.heapEnd ≤ mmapAnchor ctx ∧
          mmapAnchor ctx + pageAlign length ≤ ctx.memorySize := by
        by_cases unset : ctx.mmapTop = 0
        · rw [if_pos unset] at mapped
          rw [mmapAnchor, if_neg (not_not.2 unset)]
          exact mmapBump_ok mapped
        · rw [if_neg unset] at mapped
          rw [mmapAnchor, if_pos unset]
          have place := mmapBump_ok mapped
          exact place
      obtain ⟨rfl, brk, fits⟩ := place
      exact Or.inr ⟨_, mmapFresh_bump fixed (not_not.1 reuse) brk fits, has⟩

theorem held_yosMmap2 (inv : MmapInv ctx owned)
    (held : Held (yosMmap2 ctx addr length flags fd).1
      (ownedMmap owned (pageAlign length) (yosMmap2 ctx addr length flags fd).2) x) :
    Held ctx owned x ∨ ∃ r ∈ mmapFresh ctx addr length flags, r.Has x := by
  rcases held with h | h
  · exact (tracked_yosMmap2 inv h).imp_left Or.inl
  · cases result : (yosMmap2 ctx addr length flags fd).2 with
    | error e =>
      rw [result] at h
      exact Or.inl (Or.inr h)
    | ok r =>
      rw [result] at h
      rcases h with h | h
      · exact Or.inl (Or.inr h)
      · exact (yosMmap2_ok_range inv result h).imp_left Or.inl

theorem ownedMunmap_subset {addr len : ℕ} (r : Except Errno Unit) :
    ownedMunmap owned addr len r ⊆ owned := by
  cases r with
  | ok _ => exact Set.sdiff_subset
  | error _ => exact subset_rfl

end Mmap2

/-! ## The invariant -/

/-- No address is in two buffers, and the buffers lie inside the memory and apart from what
`yos_mmap2` uses. -/
structure ReservedInv (s : SjState) : Prop where
  mmap : MmapInv s.sj.mem s.owned
  once : ∀ x, cover s.sj.reserved x ≤ 1
  inside : ∀ x, cover s.sj.reserved x ≠ 0 → x < s.sj.mem.memorySize
  apart : ∀ x, cover s.sj.reserved x ≠ 0 → ¬ Held s.sj.mem s.owned x

/-- The memory part changed in its contents only. -/
def SameTables (ctx ctx' : MemCtx) : Prop := ∃ memory, ctx' = { ctx with memory }

theorem SameTables.refl (ctx : MemCtx) : SameTables ctx ctx := ⟨_, rfl⟩

namespace ReservedInv

variable {s : SjState} {sj : SjCtx}

/-- A call that takes no new buffer. -/
theorem kept (inv : ReservedInv s) (same : SameTables s.sj.mem sj.mem)
    (le : ∀ x, cover sj.reserved x ≤ cover s.sj.reserved x) : ReservedInv ⟨sj, s.owned⟩ := by
  obtain ⟨memory, mem⟩ := same
  refine ⟨?_, fun x => (le x).trans (inv.once x), fun x hx => ?_, fun x hx => ?_⟩
  · dsimp only
    rw [mem]
    exact { inv.mmap with }
  · dsimp only
    rw [mem]
    exact inv.inside x (by have := le x; dsimp only at hx; omega)
  · dsimp only
    rw [mem]
    exact inv.apart x (by have := le x; dsimp only at hx; omega)

/-- A call that places a buffer where there is room. -/
theorem placed (inv : ReservedInv s) {others : List Span} {k size : ℕ}
    (same : SameTables s.sj.mem sj.mem) (othersLe : ∀ x, cover others x ≤ cover s.sj.reserved x)
    (room : Room s others k size) (sizeLe : size ≤ k)
    (le : ∀ x, cover sj.reserved x ≤
      cover others x + hit ⟨belowTop s.sj.mem.memorySize k, size⟩ x) :
    ReservedInv ⟨sj, s.owned⟩ := by
  obtain ⟨memory, mem⟩ := same
  obtain ⟨fits, clear, unheld⟩ := room
  have word := inv.mmap.word
  have at_top : belowTop s.sj.mem.memorySize k = s.sj.mem.memorySize - k := by
    have split : s.sj.mem.memorySize + 2 ^ 32 - k = s.sj.mem.memorySize - k + 2 ^ 32 := by omega
    rw [belowTop, split, u32, Nat.add_mod_right, Nat.mod_eq_of_lt (by omega)]
  rw [at_top] at le
  have cases (x : ℕ) (hx : cover sj.reserved x ≠ 0) :
      cover s.sj.reserved x ≠ 0 ∨ Has ⟨s.sj.mem.memorySize - k, size⟩ x := by
    by_contra neither
    rw [not_or, not_not, ← hit_eq_zero_iff] at neither
    have := le x
    have := othersLe x
    omega
  refine ⟨?_, fun x => ?_, fun x hx => ?_, fun x hx => ?_⟩
  · dsimp only
    rw [mem]
    exact { inv.mmap with }
  · by_cases has : Has ⟨s.sj.mem.memorySize - k, size⟩ x
    · have none : cover others x = 0 := cover_eq_zero_iff.2 fun b hb h => clear b hb x ⟨h, has⟩
      have := le x
      have := hit_le_one ⟨s.sj.mem.memorySize - k, size⟩ x
      dsimp only
      omega
    · have := le x
      rw [hit_eq_zero_iff.2 has] at this
      have := othersLe x
      have := inv.once x
      dsimp only
      omega
  · dsimp only
    rw [mem]
    rcases cases x hx with old | has
    · exact inv.inside x old
    · have := has.2
      dsimp only at this ⊢
      omega
  · dsimp only
    rw [mem]
    rcases cases x hx with old | has
    · exact inv.apart x old
    · exact unheld x has

/-- A call that changes the mappings, and takes new pages outside the buffers only. -/
theorem mapped (inv : ReservedInv s) {mem : MemCtx} {owned : Set ℕ} (mmap : MmapInv mem owned)
    (size : s.sj.mem.memorySize ≤ mem.memorySize)
    (held : ∀ x, Held mem owned x → cover s.sj.reserved x ≠ 0 → Held s.sj.mem s.owned x) :
    ReservedInv ⟨{ s.sj with mem }, owned⟩ :=
  ⟨mmap, inv.once, fun x hx => lt_of_lt_of_le (inv.inside x hx) size,
    fun x hx h => inv.apart x hx (held x h hx)⟩

theorem setjmp (inv : ReservedInv s) {jmpBufPtr sp : ℕ} {rewinding : Bool}
    (ok : SjOk s (.setjmp jmpBufPtr rewinding sp)) :
    ReservedInv ⟨(s.sj.setjmp jmpBufPtr rewinding sp).1, s.owned⟩ := by
  have unchanged (x : ℕ) : cover s.sj.reserved x ≤ cover s.sj.reserved x := Nat.le_refl _
  have keptLe (x : ℕ) : cover { s.sj with sjSlots := sjKept s.sj.sjSlots sp }.reserved x ≤
      cover s.sj.reserved x := by
    rw [cover_reserved, cover_reserved]
    exact Nat.add_le_add_left (slotCover_sjKept _ _ _) _
  rw [SjCtx.setjmp]
  by_cases pending : s.sj.longjmpPending = true
  · rw [if_pos pending]
    split_ifs
    · exact inv.kept (.refl _) unchanged
    · exact inv.kept (.refl _) unchanged
  rw [if_neg pending]
  by_cases replay : rewinding = true
  · rw [if_pos replay]
    exact inv.kept (.refl _) unchanged
  rw [if_neg replay]
  cases found : sjFindSlot s.sj.sjSlots jmpBufPtr with
  | some i =>
    rw [sjTakeSlot, found]
    exact inv.kept ⟨_, rfl⟩ unchanged
  | none =>
    rw [sjTakeSlot_eq _ _ found, sjAllocSlot]
    cases free : sjFreeSlot (sjKept s.sj.sjSlots sp) with
    | none => exact inv.kept (.refl _) keptLe
    | some i =>
      have filled (x : ℕ) := slotCover_sjFill jmpBufPtr s.sj.mem.memorySize x free
      by_cases null : jmpBufPtr = 0
      · refine inv.kept ⟨_, rfl⟩ fun x => le_trans ?_ (keptLe x)
        have := filled x
        rw [if_pos null] at this
        rw [cover_reserved, cover_reserved]
        exact Nat.add_le_add_left this _
      · have room := ok (by simpa using pending) (by simpa using replay) null found i free
        refine inv.placed ⟨_, rfl⟩ keptLe room ?_ fun x => ?_
        · rw [Nat.add_mul]
          exact le_trans (by decide) (Nat.le_add_right (4 * sjBufSize) _)
        · have := filled x
          rw [if_neg null] at this
          rw [cover_reserved, cover_reserved]
          exact (Nat.add_le_add_left this _).trans (Nat.le_of_eq (Nat.add_assoc _ _ _).symm)

/-- A buffer that is placed once adds at most its own range. -/
theorem cover_placedSpan_le (ptr size x : ℕ) : cover (placedSpan ptr size) x ≤ hit ⟨ptr, size⟩ x := by
  rw [placedSpan]
  split_ifs
  · exact Nat.zero_le _
  · rw [cover_cons, cover_nil, Nat.add_zero]

theorem longjmp (inv : ReservedInv s) {jmpBufPtr : ℕ} {val : ℤ}
    (ok : SjOk s (.longjmp jmpBufPtr val)) : ReservedInv ⟨s.sj.longjmp jmpBufPtr val, s.owned⟩ := by
  rw [SjCtx.longjmp]
  cases found : sjFindSlot s.sj.sjSlots jmpBufPtr with
  | none => exact inv
  | some i =>
    dsimp only
    by_cases unset : s.sj.sjDiscardPtr = 0
    · rw [if_pos unset]
      refine inv.placed ⟨_, rfl⟩ (fun x => Nat.le_refl _) (ok (by rw [found]; rfl) unset) (by decide)
        fun x => ?_
      have := cover_placedSpan_le (belowTop s.sj.mem.memorySize (3 * sjBufSize)) sjBufSize x
      rw [cover_reserved, cover_reserved, SjCtx.initBuf]
      dsimp only
      omega
    · rw [if_neg unset]
      exact inv.kept ⟨_, rfl⟩ fun x => Nat.le_refl _

theorem fork (inv : ReservedInv s) {rewinding : Bool} (ok : SjOk s (.fork rewinding)) :
    ReservedInv ⟨s.sj.fork rewinding, s.owned⟩ := by
  rw [SjCtx.fork]
  by_cases replay : rewinding = true
  · rw [if_pos replay]
    exact inv
  by_cases empty : s.sj.mem.memorySize = 0
  · rw [if_neg replay, if_pos empty]
    exact inv
  rw [if_neg replay, if_neg empty]
  dsimp only
  by_cases unset : s.sj.asyncifyPtr = 0
  · rw [if_pos unset]
    refine inv.placed ⟨_, rfl⟩ (fun x => Nat.le_refl _) (ok (by simpa using replay) empty unset)
      (Nat.le_refl _) fun x => ?_
    have := cover_placedSpan_le (belowTop s.sj.mem.memorySize asyncifyBufSize) asyncifyBufSize x
    rw [cover_reserved, cover_reserved, SjCtx.initBuf]
    dsimp only
    omega
  · rw [if_neg unset]
    exact inv.kept ⟨_, rfl⟩ fun x => Nat.le_refl _

theorem pump (inv : ReservedInv s) : ReservedInv ⟨s.sj.pump, s.owned⟩ := by
  have unchanged (x : ℕ) : cover s.sj.reserved x ≤ cover s.sj.reserved x := Nat.le_refl _
  rw [SjCtx.pump]
  cases pending : s.sj.setjmpPending with
  | some i =>
    refine inv.kept (.refl _) fun x => ?_
    have := slotCover_modify s.sj.sjSlots
      (fun slot => { slot with saveData := some fun x => s.sj.mem.memory (s.sj.bufOf i + x) }) i x
      fun _ => rfl
    rw [cover_reserved, cover_reserved]
    exact Nat.add_le_add_left (Nat.le_of_eq this) _
  | none =>
    dsimp only
    split_ifs
    · split
      · exact inv.kept (.refl _) unchanged
      · split
        · exact inv
        · exact inv.kept ⟨_, rfl⟩ unchanged
    · exact inv

theorem held_resize {ctx : MemCtx} {owned : Set ℕ} {n x : ℕ} :
    Held { ctx with memorySize := n } owned x ↔ Held ctx owned x := Iff.rfl

theorem grow (inv : ReservedInv s) (pages : ℕ) :
    ReservedInv ⟨{ s.sj with mem := s.sj.mem.grow pages }, s.owned⟩ := by
  unfold MemCtx.grow
  split
  · next small =>
    exact inv.mapped (inv.mmap.resize (Nat.le_add_right _ _) small) (Nat.le_add_right _ _)
      fun x h _ => held_resize.1 h
  · exact inv

theorem munmap (inv : ReservedInv s) (addr len : ℕ) :
    ReservedInv (s.next (.munmap addr len)) := by
  refine inv.mapped (inv.mmap.yosMunmap addr len) ?_ fun x held _ => ?_
  · exact Nat.le_of_eq (sameAreas_munmap s.sj.mem addr len).1.1.symm
  · rcases held with h | h
    · exact Or.inl (tracked_yosMunmap inv.mmap h)
    · exact Or.inr (ownedMunmap_subset _ h)

theorem mmap2 (inv : ReservedInv s) {addr length flags : ℕ} {fd : ℤ}
    (ok : SjOk s (.mmap2 addr length flags fd)) :
    ReservedInv (s.next (.mmap2 addr length flags fd)) := by
  refine inv.mapped (inv.mmap.yosMmap2 addr length flags fd) ?_ fun x held reserved => ?_
  · exact Nat.le_of_eq (sameAreas_mmap2 s.sj.mem addr length flags fd).1.symm
  · refine (held_yosMmap2 inv.mmap held).resolve_right ?_
    rintro ⟨r, fresh, has⟩
    obtain ⟨b, hb, inBuffer⟩ := cover_pos_iff.1 (Nat.pos_of_ne_zero reserved)
    exact ok r fresh b hb x ⟨inBuffer, has⟩

theorem next (inv : ReservedInv s) {c : SjCall} (ok : SjOk s c) : ReservedInv (s.next c) := by
  cases c with
  | grow pages => exact inv.grow pages
  | setjmp jmpBufPtr rewinding sp => exact inv.setjmp ok
  | longjmp jmpBufPtr val => exact inv.longjmp ok
  | pump => exact inv.pump
  | fork rewinding => exact inv.fork ok
  | mmap2 addr length flags fd => exact inv.mmap2 ok
  | munmap addr len => exact inv.munmap addr len

theorem reservedApart (inv : ReservedInv s) : ReservedApart s := by
  refine ⟨fun r hr => ?_, disjoint_of_cover_le_one inv.once, fun r hr x hx has => ?_⟩
  · by_contra beyond
    have size := len_pos_of_mem_reserved hr
    have last : r.Has (r.addr + r.len - 1) := by
      rw [Has]
      omega
    have := inv.inside _ (Nat.pos_iff_ne_zero.1 (cover_pos_of_mem hr last))
    rw [fin] at beyond
    omega
  · exact inv.apart x (Nat.pos_iff_ne_zero.1 (cover_pos_of_mem hr has)) (Or.inr hx)

end ReservedInv

theorem reserved_fresh {s : SjState} (fresh : SjFresh s) : s.sj.reserved = [] := by
  rw [SjCtx.reserved, fresh.noFork, fresh.noDiscard]
  refine List.flatMap_eq_nil_iff.2 fun slot hs => ?_
  rw [SjSlot.spans, if_pos (fresh.noSlots slot hs)]

theorem reservedInv_init {s : SjState} (fresh : SjFresh s) : ReservedInv s := by
  have none := reserved_fresh fresh
  refine ⟨?_, fun x => ?_, fun x hx => ?_, fun x hx => ?_⟩
  · rw [fresh.nothingOwned]
    exact mmapInv_init fresh.noMappings
  · rw [none]
    exact Nat.zero_le _
  · rw [none] at hx
    exact absurd rfl hx
  · rw [none] at hx
    exact absurd rfl hx

/-- A process with eight pages of memory. -/
def eightPages : SjState where
  sj :=
    { mem := .blank (8 * 65536) 0x10000
      asyncifyPtr := 0
      sjDiscardPtr := 0
      sjSlots := List.replicate 64 ⟨0, 0, none⟩
      setjmpPending := none
      longjmpPending := false
      longjmpTarget := 0
      longjmpValue := 0 }
  owned := ∅

theorem eightPages_fresh : SjFresh eightPages where
  noMappings := ⟨rfl, rfl, rfl, by decide⟩
  pages := by decide
  noFork := rfl
  noDiscard := rfl
  noSlots := fun slot hs => by rw [List.eq_of_mem_replicate hs]
  slotCount := by decide
  nothingOwned := rfl

end Yos
