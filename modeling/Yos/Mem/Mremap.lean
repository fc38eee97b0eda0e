import Yos.Mem.Complete
import Yos.Mem.Fresh

/-!
# `yos_mremap` (`impl/mem/mem.c`)

A mapping cannot be moved or cut: `yos_mremap` to a smaller length returns the address it was given,
and to a larger one maps a new range and copies the old bytes there, leaving the old mapping where it
is.  The runs of `remapSystem` mix it with the other calls and with stores of the guest;
`mremap_moves` says what a call does in every state they reach.

The copy is taken as if its source and destination could overlap, which is only reached from a source
that is not held.
-/

namespace Yos

open Span

/-- `yos_mremap`; `flags` and `new_addr` are not read.  An address from `2 ^ 31` on is taken for an
error. -/
def yosMremap (ctx : MemCtx) (addr oldLen newLen : ℕ) : MemCtx × Except Errno ℕ :=
  if newLen ≤ oldLen then (ctx, .ok addr)
  else
    match yosMmap2 ctx 0 newLen 0x22 (-1) with
    | (ctx, .error e) => (ctx, .error e)
    | (ctx, .ok r) =>
      if 2 ^ 31 ≤ r then (ctx, .ok r)
      else ({ ctx with memory := ctx.memory.copy r addr oldLen }, .ok r)

section Remap

variable {ctx : MemCtx} {addr oldLen newLen r : ℕ}

theorem yosMremap_shrinks (shrinks : newLen ≤ oldLen) :
    yosMremap ctx addr oldLen newLen = (ctx, .ok addr) := by
  rw [yosMremap, if_pos shrinks]

theorem yosMremap_fails (grows : oldLen < newLen) {e : Errno}
    (failed : (yosMmap2 ctx 0 newLen 0x22 (-1)).2 = .error e) :
    yosMremap ctx addr oldLen newLen = yosMmap2 ctx 0 newLen 0x22 (-1) := by
  rw [yosMremap, if_neg (by omega)]
  generalize yosMmap2 ctx 0 newLen 0x22 (-1) = w at failed ⊢
  obtain ⟨ctx', result⟩ := w
  obtain rfl : result = .error e := failed
  rfl

theorem yosMremap_grows (grows : oldLen < newLen)
    (mapped : (yosMmap2 ctx 0 newLen 0x22 (-1)).2 = .ok r) :
    yosMremap ctx addr oldLen newLen =
      ({ (yosMmap2 ctx 0 newLen 0x22 (-1)).1 with
          memory :=
            if 2 ^ 31 ≤ r then (yosMmap2 ctx 0 newLen 0x22 (-1)).1.memory
            else (yosMmap2 ctx 0 newLen 0x22 (-1)).1.memory.copy r addr oldLen }, .ok r) := by
  rw [yosMremap, if_neg (by omega)]
  generalize yosMmap2 ctx 0 newLen 0x22 (-1) = w at mapped ⊢
  obtain ⟨ctx', result⟩ := w
  obtain rfl : result = .ok r := mapped
  dsimp only
  split_ifs <;> rfl

end Remap

/-! ## The mapping it makes -/

theorem yosMmap2_fresh {ctx : MemCtx} {length : ℕ}
    (range : ¬ (pageAlign length = 0 ∨ ctx.memorySize < pageAlign length)) :
    yosMmap2 ctx 0 length 0x22 (-1) = mmapAnywhere ctx (pageAlign length) :=
  yosMmap2_anywhere (by simp) (by simp) range

theorem yosMmap2_refused {ctx : MemCtx} {length : ℕ}
    (range : pageAlign length = 0 ∨ ctx.memorySize < pageAlign length) :
    yosMmap2 ctx 0 length 0x22 (-1) = (ctx, .error .ENOMEM) := by
  unfold yosMmap2
  dsimp only
  rw [if_neg (by simp), if_pos range]

section Mmap

variable {ctx : MemCtx} {owned : Set ℕ} {length r : ℕ}

theorem mmapBump_unchanged {e : Errno} (failed : (mmapBump ctx length).2 = .error e) :
    (mmapBump ctx length).1 = ctx := by
  by_cases brk : ctx.mmapTop < ctx.heapEnd
  · rw [mmapBump, if_pos brk]
  by_cases beyond : ctx.memorySize < ctx.mmapTop + length
  · rw [mmapBump, if_neg brk, if_pos beyond]
  · rw [mmapBump, if_neg brk, if_neg beyond] at failed
    simp at failed

/-- A failing search changes neither the memory nor the tables. -/
theorem mmapAnywhere_fails (room : RoomInv ctx) (inv : MmapInv ctx owned) {e : Errno}
    (failed : (mmapAnywhere ctx length).2 = .error e) :
    (mmapAnywhere ctx length).1.memory = ctx.memory ∧
      (mmapAnywhere ctx length).1.freeList = ctx.freeList ∧
      (mmapAnywhere ctx length).1.liveList = ctx.liveList := by
  rcases findFreeRegion_cases length inv.freeOk with ⟨none, -⟩ | ⟨k, r, at_k, fit, cut⟩
  · rw [mmapAnywhere_bump none] at failed ⊢
    rw [mmapBump_unchanged failed]
    split_ifs <;> exact ⟨rfl, rfl, rfl⟩
  · have start := room.addr_pos inv (List.mem_of_getElem? at_k)
    have result : (findFreeRegion ctx.freeList length).2 = r.addr := by
      rcases cut with ⟨-, eq⟩ | ⟨-, eq⟩ <;> rw [eq]
    rw [mmapAnywhere_reuse (by omega)] at failed
    simp at failed

/-- A mapping is added to the live table, and no byte outside it changes. -/
theorem mmapAnywhere_maps (mapped : (mmapAnywhere ctx length).2 = .ok r) :
    (mmapAnywhere ctx length).1.liveList = liveAdd ctx.liveList ⟨r, length⟩ ∧
      (mmapAnywhere ctx length).1.memorySize = ctx.memorySize ∧
      ∀ x, ¬ Has ⟨r, length⟩ x → (mmapAnywhere ctx length).1.memory x = ctx.memory x := by
  unfold mmapAnywhere at mapped ⊢
  generalize findFreeRegion ctx.freeList length = found at *
  obtain ⟨free, result⟩ := found
  dsimp only at *
  by_cases reuse : result ≠ 0
  · rw [if_pos reuse] at mapped ⊢
    cases mapped
    exact ⟨rfl, rfl, fun x _ => rfl⟩
  · rw [if_neg reuse] at mapped ⊢
    unfold mmapBump at mapped ⊢
    dsimp only at mapped ⊢
    split_ifs at mapped ⊢ <;> cases mapped <;>
      exact ⟨rfl, rfl, fun x outside => if_neg outside⟩

/-- The live table holds a new mapping unless it is full. -/
theorem liveAdd_tracks (live : List Span) {p : Span} (pos : 0 < p.len) :
    (∀ x, p.Has x → 0 < cover (liveAdd live p) x) ∨ live.length ≥ maxLiveRegions := by
  rcases Nat.lt_or_ge live.length maxLiveRegions with room | full
  · refine Or.inl fun x has => cover_pos_of_mem (s := p) ?_ has
    rw [push_liveAdd.room live p pos room]
    simp
  · exact Or.inr full

/-- No entry of the live table is dropped for a new one. -/
theorem liveAdd_keeps {live : List Span} (p : Span) {x : ℕ} (covered : 0 < cover live x) :
    0 < cover (liveAdd live p) x := by
  unfold liveAdd
  split_ifs with empty full
  · exact covered
  · exact covered
  · rw [cover_append]
    omega

end Mmap

/-! ## The runs -/

/-- The steps of a run: calls, and stores of the guest. -/
inductive RemapStep where
  | call (c : MmapCall)
  | mremap (addr oldLen newLen : ℕ)
  | write (x : ℕ) (v : UInt8)

/-- The state after `yos_mremap`.  What it maps is held besides the old mapping. -/
def MmapState.nextMremap (s : MmapState) (addr oldLen newLen : ℕ) : MmapState :=
  ⟨(yosMremap s.ctx addr oldLen newLen).1,
    if newLen ≤ oldLen then s.owned
    else ownedMmap s.owned (pageAlign newLen) (yosMremap s.ctx addr oldLen newLen).2⟩

/-- The runs of the three calls, in which the guest stores anywhere. -/
def remapSystem : System MmapState RemapStep where
  init s := NoMappings s.ctx ∧ s.owned = ∅
  step s a s' :=
    match a with
    | .call c => s' = s.next c
    | .mremap addr oldLen newLen => s' = s.nextMremap addr oldLen newLen
    | .write x v => s' = { s with ctx := s.ctx.poke x v }

/-- The invariants do not look at the bytes. -/
theorem RoomyState.congr {s s' : MmapState} (state : RoomyState s) (m : Bytes)
    (ctx : s'.ctx = { s.ctx with memory := m }) (owned : s'.owned = s.owned) : RoomyState s' := by
  obtain ⟨inv, room⟩ := state
  unfold RoomyState
  rw [ctx, owned]
  exact ⟨{ inv with }, { room with }⟩

theorem RoomyState.mremap {s : MmapState} (state : RoomyState s) (addr oldLen newLen : ℕ) :
    RoomyState (s.nextMremap addr oldLen newLen) := by
  by_cases shrinks : newLen ≤ oldLen
  · rw [MmapState.nextMremap, yosMremap_shrinks shrinks, if_pos shrinks]
    exact state
  have mapped := state.call (.mmap2 0 newLen 0x22 (-1))
  rw [next_mmap2] at mapped
  rw [MmapState.nextMremap, if_neg shrinks]
  rcases result : (yosMmap2 s.ctx 0 newLen 0x22 (-1)).2 with e | r
  · rw [yosMremap_fails (by omega) result]
    exact mapped
  · rw [yosMremap_grows (by omega) result]
    rw [result] at mapped
    exact mapped.congr _ rfl rfl

theorem RoomyState.of_remap {s : MmapState} (run : remapSystem.Reachable s) : RoomyState s := by
  refine run.invariant (I := RoomyState) (fun s start => ?_) ?_
  · exact .of_run (.start start)
  · intro s a s' state step
    cases a with
    | call c =>
      rw [show s' = s.next c from step]
      exact state.call c
    | mremap addr oldLen newLen =>
      rw [show s' = s.nextMremap addr oldLen newLen from step]
      exact state.mremap addr oldLen newLen
    | write x v =>
      rw [show s' = { s with ctx := s.ctx.poke x v } from step]
      exact state.congr _ rfl rfl

/-! ## What a call does -/

/-- `yos_mremap` to a larger length. -/
structure Moved (s : MmapState) (ctx' : MemCtx) (addr oldLen newLen r : ℕ) : Prop where
  /-- The new range was held by nobody, lies in the memory, and is tracked unless the table is full. -/
  apart : ∀ x ∈ s.owned, ¬ Has ⟨r, pageAlign newLen⟩ x
  inside : newLen ≤ pageAlign newLen ∧ r + pageAlign newLen ≤ s.ctx.memorySize
  live : (∀ x, Has ⟨r, pageAlign newLen⟩ x → 0 < cover ctx'.liveList x) ∨
    maxLiveRegions ≤ s.ctx.liveList.length
  /-- The old mapping stays. -/
  stays : ∀ x, 0 < cover s.ctx.liveList x → 0 < cover ctx'.liveList x
  /-- The source of the copy lies in the memory, and so do the bytes stored. -/
  source : ∀ x, Has ⟨addr, oldLen⟩ x → x < s.ctx.memorySize
  copied : ∀ i < oldLen, ctx'.memory (r + i) = s.ctx.memory (addr + i)
  frame : ∀ x, ¬ Has ⟨r, pageAlign newLen⟩ x → ctx'.memory x = s.ctx.memory x

/-- A call that fails changes neither the memory nor the tables. -/
theorem RoomyState.mremap_fails {s : MmapState} (state : RoomyState s) {addr oldLen newLen : ℕ}
    (grows : oldLen < newLen) {e : Errno} (failed : (yosMremap s.ctx addr oldLen newLen).2 = .error e) :
    (yosMremap s.ctx addr oldLen newLen).1.memory = s.ctx.memory ∧
      (yosMremap s.ctx addr oldLen newLen).1.freeList = s.ctx.freeList ∧
      (yosMremap s.ctx addr oldLen newLen).1.liveList = s.ctx.liveList := by
  obtain ⟨inv, room⟩ := state
  rcases result : (yosMmap2 s.ctx 0 newLen 0x22 (-1)).2 with e' | r
  · rw [yosMremap_fails grows result]
    by_cases range : pageAlign newLen = 0 ∨ s.ctx.memorySize < pageAlign newLen
    · rw [yosMmap2_refused range]
      exact ⟨rfl, rfl, rfl⟩
    · rw [yosMmap2_fresh range] at result ⊢
      exact mmapAnywhere_fails room inv result
  · rw [yosMremap_grows grows result] at failed
    simp at failed

/-- A call that returns an address has mapped a new range and copied a held one there. -/
theorem mremap_moved {s : MmapState} (inv : MmapInv s.ctx s.owned) {addr oldLen newLen r : ℕ}
    (grows : oldLen < newLen) (mapped : (yosMremap s.ctx addr oldLen newLen).2 = .ok r)
    (small : r < 2 ^ 31) (held : ∀ x, Has ⟨addr, oldLen⟩ x → x ∈ s.owned) :
    Moved s (yosMremap s.ctx addr oldLen newLen).1 addr oldLen newLen r := by
  rcases result : (yosMmap2 s.ctx 0 newLen 0x22 (-1)).2 with e | r'
  · rw [yosMremap_fails grows result, result] at mapped
    simp at mapped
  rw [yosMremap_grows grows result] at mapped ⊢
  cases mapped
  rw [if_neg (by omega)]
  have apart := inv.yosMmap2_apart (Or.inr rfl) result
  have after := inv.yosMmap2 0 newLen 0x22 (-1)
  have range : ¬ (pageAlign newLen = 0 ∨ s.ctx.memorySize < pageAlign newLen) := by
    intro range
    rw [yosMmap2_refused range] at result
    simp at result
  rw [result] at after
  rw [yosMmap2_fresh range] at result after ⊢
  obtain ⟨live, size, frame⟩ := mmapAnywhere_maps result
  have long : newLen ≤ pageAlign newLen := by
    rw [pageAlign_eq]
    omega
  have last := after.ownedBelow (r + pageAlign newLen - 1)
    (Or.inr ⟨by dsimp only; omega, by dsimp only; omega⟩)
  have top := after.top
  refine ⟨apart, ⟨long, by omega⟩, ?_, fun x covered => ?_, fun x has => ?_, fun i hi => ?_,
    fun x outside => ?_⟩
  · dsimp only
    rw [live]
    exact liveAdd_tracks s.ctx.liveList (show 0 < pageAlign newLen by omega)
  · dsimp only
    rw [live]
    exact liveAdd_keeps ⟨r, pageAlign newLen⟩ covered
  · exact lt_of_lt_of_le (inv.ownedBelow x (held x has)) inv.top
  · have outside : ¬ Has ⟨r, pageAlign newLen⟩ (addr + i) :=
      apart _ (held _ ⟨Nat.le_add_right _ _, Nat.add_lt_add_left hi addr⟩)
    rw [← frame _ outside]
    exact Bytes.copy_of_lt hi
  · rw [← frame x outside]
    unfold Has at outside
    exact Bytes.copy_of_not_mem (by dsimp only at outside; omega)

/-- In every state a call to a smaller length changes nothing; one to a larger length fails and
changes neither the memory nor the tables, or maps a new range and copies a held one there. -/
theorem mremap_moves {s : MmapState} (run : remapSystem.Reachable s) (addr oldLen newLen : ℕ) :
    (newLen ≤ oldLen → yosMremap s.ctx addr oldLen newLen = (s.ctx, .ok addr)) ∧
    (oldLen < newLen →
      (∀ e, (yosMremap s.ctx addr oldLen newLen).2 = .error e →
        (yosMremap s.ctx addr oldLen newLen).1.memory = s.ctx.memory ∧
        (yosMremap s.ctx addr oldLen newLen).1.freeList = s.ctx.freeList ∧
        (yosMremap s.ctx addr oldLen newLen).1.liveList = s.ctx.liveList) ∧
      ∀ r, (yosMremap s.ctx addr oldLen newLen).2 = .ok r → r < 2 ^ 31 →
        (∀ x, Has ⟨addr, oldLen⟩ x → x ∈ s.owned) →
        Moved s (yosMremap s.ctx addr oldLen newLen).1 addr oldLen newLen r) := by
  have state := RoomyState.of_remap run
  exact ⟨yosMremap_shrinks, fun grows => ⟨fun _ failed => state.mremap_fails grows failed,
    fun _ mapped small held => mremap_moved state.1 grows mapped small held⟩⟩

/-- A process with two pages mapped. -/
def twoPages : MmapState := MmapState.next ⟨.blank (2 ^ 22) 0x50000, ∅⟩ (.mmap2 0 8192 0x22 (-1))

theorem reachable_twoPages : remapSystem.Reachable twoPages := by
  have start : remapSystem.Reachable ⟨.blank (2 ^ 22) 0x50000, ∅⟩ :=
    .start ⟨⟨rfl, rfl, rfl, by decide⟩, rfl⟩
  exact start.next (a := .call (.mmap2 0 8192 0x22 (-1))) (show twoPages = _ from rfl)

theorem mremap_moves_two_pages :
    (yosMremap twoPages.ctx 0x200000 8192 12288).2 = .ok 0x202000 ∧
      Moved twoPages (yosMremap twoPages.ctx 0x200000 8192 12288).1 0x200000 8192 12288 0x202000 := by
  have mapped : (yosMremap twoPages.ctx 0x200000 8192 12288).2 = .ok 0x202000 := by decide
  refine ⟨mapped, ((mremap_moves reachable_twoPages 0x200000 8192 12288).2 (by decide)).2 _ mapped
    (by decide) fun x has => Or.inr has⟩

/-- A call to a smaller length leaves the tail tracked as live, and answers with its address where
nothing is mapped; one to a larger length leaves the old mapping tracked. -/
theorem mremap_moves_fails :
    (∃ s, remapSystem.Reachable s ∧ (yosMremap s.ctx 0x200000 8192 4096).2 = .ok 0x200000 ∧
      ¬ ∀ x, Has ⟨0x201000, 4096⟩ x →
        cover (yosMremap s.ctx 0x200000 8192 4096).1.liveList x = 0) ∧
    (∃ s, remapSystem.Reachable s ∧ (yosMremap s.ctx 0x300000 8192 4096).2 = .ok 0x300000 ∧
      ¬ ∀ x, Has ⟨0x300000, 4096⟩ x →
        0 < cover (yosMremap s.ctx 0x300000 8192 4096).1.liveList x) ∧
    ∃ s, remapSystem.Reachable s ∧ (yosMremap s.ctx 0x200000 8192 12288).2 = .ok 0x202000 ∧
      ¬ ∀ x, Has ⟨0x200000, 8192⟩ x →
        cover (yosMremap s.ctx 0x200000 8192 12288).1.liveList x = 0 := by
  refine ⟨⟨_, reachable_twoPages, by decide, fun gone => ?_⟩,
    ⟨_, reachable_twoPages, by decide, fun live => ?_⟩,
    ⟨_, reachable_twoPages, by decide, fun gone => ?_⟩⟩
  · exact absurd (gone 0x201000 (by decide)) (by decide)
  · exact absurd (live 0x300000 (by decide)) (by decide)
  · exact absurd (gone 0x200000 (by decide)) (by decide)

end Yos
