import Yos.Lib.Orbit
import Yos.Lib.System
import Yos.Mem.FreeList
import Yos.Mem.HeapAccess

/-!
# The guest heap under a hostile guest

All metadata of the heap is in guest memory, so a guest can forge every size and every link; only
`alloc_lo`, `alloc_hi` and `alloc_free_head` are the host's.  `hostileSystem` lets the guest store any
memory between the calls and pass any pointer.

`yos_free` only follows links below the block it frees and tests the end of the block, so its accesses
stay in memory, but its walk has no bound and a cycle of links keeps it going.  `do_alloc` bounds its
walk, but follows links anywhere.  `yos_realloc` copies as many bytes as a forged size says.
`hostile_guest_iff` says exactly when each of them is safe.
-/

namespace Yos

open Word Access

/-! ## The system -/

/-- What a hostile guest does. -/
inductive HostileCall where
  | memory (m : Bytes)
  | malloc (size : ℕ)
  | free (off : ℕ)
  | realloc (off newsize : ℕ)

/-- The steps of a run. -/
inductive HostileStep : MemCtx → HostileCall → MemCtx → Prop where
  | memory (ctx : MemCtx) (m : Bytes) : HostileStep ctx (.memory m) { ctx with memory := m }
  | malloc (ctx : MemCtx) (size : ℕ) (word : size < 2 ^ 32) :
      HostileStep ctx (.malloc size) (yosMalloc ctx size).1
  | free {ctx ctx' : MemCtx} {off fuel : ℕ} (word : off < 2 ^ 32)
      (returns : yosFree fuel ctx off = some ctx') : HostileStep ctx (.free off) ctx'
  | realloc {ctx : MemCtx} {off newsize fuel : ℕ} {result : MemCtx × ℕ}
      (words : off < 2 ^ 32 ∧ newsize < 2 ^ 32)
      (returns : yosRealloc fuel ctx off newsize = some result) :
      HostileStep ctx (.realloc off newsize) result.1

/-- The runs from a context whose heap is not set up. -/
def hostileSystem : System MemCtx HostileCall where
  init ctx := ctx.allocHi = 0 ∧ ctx.heapEnd ≤ ctx.memorySize ∧ ctx.memorySize ≤ 2 ^ 31
  step := HostileStep

/-- What holds of the fields the guest cannot write. -/
structure HostBounds (ctx : MemCtx) : Prop where
  size : ctx.memorySize ≤ 2 ^ 31
  brk : ctx.heapEnd ≤ ctx.memorySize
  heap : ctx.allocHi ≠ 0 → ctx.allocLo + 2 ^ 20 < ctx.allocHi ∧ ctx.allocHi ≤ ctx.memorySize / 2

theorem alignUp_le {x : ℕ} (small : x + 15 < 2 ^ 32) : alignUp x blkAlign ≤ x + 15 := by
  unfold alignUp blkAlign
  refine (bclr_le _ _).trans ?_
  rw [u32_of_lt (by omega)]

namespace HostBounds

variable {ctx ctx' : MemCtx}

theorem setMemory (bounds : HostBounds ctx) (m : Bytes) : HostBounds { ctx with memory := m } :=
  ⟨bounds.size, bounds.brk, bounds.heap⟩

theorem of_same (bounds : HostBounds ctx) (same : SameBounds ctx ctx') :
    HostBounds ctx' ∧ ctx'.memorySize = ctx.memorySize := by
  obtain ⟨m, h, rfl⟩ := same
  exact ⟨⟨bounds.size, bounds.brk, bounds.heap⟩, rfl⟩

/-- Setting the heap up stores its header inside the memory. -/
theorem allocInitLocked (bounds : HostBounds ctx) (init : Yos.allocInitLocked ctx = some ctx') :
    HostBounds ctx' ∧ ctx'.memorySize = ctx.memorySize := by
  have brk := bounds.brk
  have size := bounds.size
  unfold Yos.allocInitLocked at init
  by_cases set : ctx.allocHi ≠ 0
  · rw [if_pos set] at init
    cases init
    exact ⟨bounds, rfl⟩
  · rw [if_neg set] at init
    dsimp only at init
    have hi : bclr (ctx.memorySize / 2) 0xfff ≤ ctx.memorySize / 2 := bclr_le _ _
    have lo : alignUp ctx.heapEnd blkAlign ≤ ctx.heapEnd + 15 := alignUp_le (by omega)
    rw [u32_of_lt (by omega)] at init
    split_ifs at init with room
    cases init
    refine ⟨⟨size, ?_, fun _ => ⟨?_, ?_⟩⟩, rfl⟩
    · simp only [blkSetNext, blkSetSize]
      omega
    · simp only [blkSetNext, blkSetSize]
      omega
    · simp only [blkSetNext, blkSetSize]
      exact hi

end HostBounds

theorem sameBounds_yosFree {ctx ctx' : MemCtx} {fuel off : ℕ} (returns : yosFree fuel ctx off = some ctx') :
    SameBounds ctx ctx' := by
  have merge (ctx : MemCtx) (blkOff sz cur : ℕ) : SameBounds ctx (mergeNext ctx blkOff sz cur) := by
    unfold mergeNext
    split_ifs
    · exact ⟨_, _, rfl⟩
    · exact SameBounds.refl ctx
  have link (ctx : MemCtx) (prev cur blkOff sz : ℕ) :
      SameBounds ctx (linkPrev ctx prev cur blkOff sz).1 := by
    unfold linkPrev
    dsimp only
    split_ifs <;> exact ⟨_, _, rfl⟩
  unfold yosFree at returns
  dsimp only at returns
  split_ifs at returns
  · cases returns
    exact SameBounds.refl ctx
  · cases returns
    exact SameBounds.refl ctx
  · cases returns
    exact SameBounds.refl ctx
  · split at returns
    · cases returns
    · cases returns
      exact SameBounds.refl ctx
    · split_ifs at returns
      · cases returns
        exact SameBounds.refl ctx
      · cases returns
        exact (merge _ _ _ _).trans (link _ _ _ _ _)

theorem HostBounds.yosMalloc {ctx : MemCtx} (bounds : HostBounds ctx) (size : ℕ) :
    HostBounds (Yos.yosMalloc ctx size).1 ∧ (Yos.yosMalloc ctx size).1.memorySize = ctx.memorySize := by
  unfold Yos.yosMalloc
  rcases init : Yos.allocInitLocked ctx with _ | ctx'
  · exact ⟨bounds, rfl⟩
  · obtain ⟨bounds', same⟩ := bounds.allocInitLocked init
    obtain ⟨after, same'⟩ := bounds'.of_same (sameBounds_doAllocLoop ctx' (mallocNeed size) (2 ^ 22) 0 _)
    exact ⟨after, same'.trans same⟩

theorem HostBounds.yosRealloc {ctx : MemCtx} {fuel off newsize : ℕ} {result : MemCtx × ℕ}
    (bounds : HostBounds ctx) (returns : Yos.yosRealloc fuel ctx off newsize = some result) :
    HostBounds result.1 := by
  have freed {ctx : MemCtx} {off p : ℕ} (bounds : HostBounds ctx)
      (returns : (yosFree fuel ctx off).map (fun ctx => (ctx, p)) = some result) : HostBounds result.1 := by
    obtain ⟨ctx', run, rfl⟩ := Option.map_eq_some_iff.mp returns
    exact (bounds.of_same (sameBounds_yosFree run)).1
  unfold Yos.yosRealloc at returns
  dsimp only at returns
  split_ifs at returns
  · cases returns
    exact (bounds.yosMalloc newsize).1
  · exact freed bounds returns
  · cases returns
    exact bounds
  · cases returns
    exact bounds
  · cases returns
    exact bounds
  · cases returns
    exact (bounds.yosMalloc newsize).1
  · exact freed ((bounds.yosMalloc newsize).1.setMemory _) returns

/-- The host's fields stay in order whatever the guest does. -/
theorem HostBounds.of_run {ctx : MemCtx} (run : hostileSystem.Reachable ctx) : HostBounds ctx := by
  refine run.invariant (fun ctx start => ?_) fun ctx c ctx' bounds step => ?_
  · obtain ⟨unset, brk, size⟩ := start
    exact ⟨size, brk, fun set => absurd unset set⟩
  · cases step with
    | memory m => exact bounds.setMemory m
    | malloc size => exact (bounds.yosMalloc size).1
    | free word returns => exact (bounds.of_same (sameBounds_yosFree returns)).1
    | realloc words returns => exact bounds.yosRealloc returns

/-! ## `yos_malloc` -/

/-- The next node of the first-fit walk. -/
def nextNode (ctx : MemCtx) (need n : ℕ) : Option ℕ :=
  if n = 0 ∨ need ≤ blkSize ctx n then none else some (blkNext ctx n)

/-- The header of the node lies in memory, and if the node is split the header of the rest does. -/
def NodeInside (ctx : MemCtx) (need n : ℕ) : Prop :=
  n + hdrSize ≤ ctx.memorySize ∧
    (need ≤ blkSize ctx n → u32 (need + minBlock) ≤ blkSize ctx n → u32 (n + need) + hdrSize ≤ ctx.memorySize)

/-- Every node that the walk of `do_alloc` visits is inside. -/
def WalkInside (ctx : MemCtx) (need : ℕ) : Prop :=
  ∀ k < 2 ^ 22, ∀ n, Orbit.after (nextNode ctx need) ctx.allocFreeHead k = some n → n ≠ 0 →
    NodeInside ctx need n

/-- `yos_malloc` on the heap it finds or sets up visits only nodes inside. -/
def MallocSafe (ctx : MemCtx) (size : ℕ) : Prop :=
  ∀ ctx', allocInitLocked ctx = some ctx' → WalkInside ctx' (mallocNeed size)

section Walk

variable {ctx : MemCtx} {need prev cur g n : ℕ}

theorem nextNode_zero : nextNode ctx need 0 = none := if_pos (Or.inl rfl)

theorem nextNode_of_small (ne : cur ≠ 0) (small : ¬ need ≤ blkSize ctx cur) :
    nextNode ctx need cur = some (blkNext ctx cur) := if_neg (by tauto)

/-- The nodes of a walk that starts one node later. -/
theorem after_nextNode_succ (ne : cur ≠ 0) (small : ¬ need ≤ blkSize ctx cur) (k : ℕ) :
    Orbit.after (nextNode ctx need) cur (k + 1) = Orbit.after (nextNode ctx need) (blkNext ctx cur) k := by
  rw [Orbit.after_succ, nextNode_of_small ne small]
  rfl

/-- A walk that comes to 0 visited every node that `dump_free_list` visits. -/
theorem confined_dump {k : ℕ} (visited : Orbit.after (nextNode ctx need) cur k = some 0)
    (inside : ∀ j < k, ∀ n, Orbit.after (nextNode ctx need) cur j = some n → n ≠ 0 →
      n + hdrSize ≤ ctx.memorySize) (count : ℕ) : Confined ctx.memorySize (dumpAccess ctx count cur) := by
  induction count generalizing cur k with
  | zero => exact confined_nil
  | succ count ih =>
    rw [dumpAccess]
    by_cases zero : cur = 0
    · rw [if_pos zero]
      exact confined_nil
    · rw [if_neg zero]
      cases k with
      | zero => exact absurd (Option.some.inj visited) zero
      | succ k =>
        have here := inside 0 k.succ_pos cur rfl zero
        by_cases small : need ≤ blkSize ctx cur
        · rw [Orbit.after_succ, nextNode, if_pos (Or.inr small)] at visited
          cases visited
        · rw [after_nextNode_succ zero small] at visited
          have rest := ih visited fun j lt n reached =>
            inside (j + 1) (Nat.succ_lt_succ lt) n ((after_nextNode_succ zero small j).trans reached)
          unfold hdrSize at here
          simp only [confined_loadWord_cons]
          exact ⟨by omega, by omega, rest⟩

/-- The accesses of taking a block behind a node inside. -/
theorem confined_takeBlock (before : prev = 0 ∨ prev + hdrSize ≤ ctx.memorySize) (fit : need ≤ blkSize ctx cur)
    (header : cur + hdrSize ≤ ctx.memorySize) :
    Confined ctx.memorySize (takeBlockAccess ctx need prev cur) ↔ NodeInside ctx need cur := by
  unfold takeBlockAccess NodeInside hdrSize at *
  rw [confined_append]
  have link : Confined ctx.memorySize (if prev ≠ 0 then [storeWord (prev + 4)] else []) := by
    split_ifs
    · simp only [confined_storeWord_cons, confined_nil, and_true]
      omega
    · exact confined_nil
  rw [and_iff_left link]
  split_ifs with cut
  · simp only [confined_storeWord_cons, confined_nil, and_true]
    constructor
    · intro inside
      exact ⟨header, fun _ _ => by omega⟩
    · intro inside
      have := inside.2 fit cut
      omega
  · exact iff_of_true confined_nil ⟨header, fun _ wide => absurd wide cut⟩

/-- The accesses of the loop of `do_alloc`, if those of `dump_free_list` are inside. -/
theorem confined_doAlloc (before : prev = 0 ∨ prev + hdrSize ≤ ctx.memorySize)
    (dump : ∀ k ≤ g, Orbit.after (nextNode ctx need) cur k = some 0 →
      (∀ j < k, ∀ n, Orbit.after (nextNode ctx need) cur j = some n → n ≠ 0 → n + hdrSize ≤ ctx.memorySize) →
        Confined ctx.memorySize (dumpAccess ctx 16 ctx.allocFreeHead)) :
    Confined ctx.memorySize (doAllocAccess ctx need g prev cur) ↔
      ∀ k < g, ∀ n, Orbit.after (nextNode ctx need) cur k = some n → n ≠ 0 → NodeInside ctx need n := by
  induction g generalizing prev cur with
  | zero =>
    rw [doAllocAccess]
    refine iff_of_true ?_ fun k lt => absurd lt (Nat.not_lt_zero k)
    split_ifs with zero
    · exact dump 0 le_rfl (congrArg some zero) fun j lt => absurd lt (Nat.not_lt_zero j)
    · exact confined_nil
  | succ g ih =>
    rw [doAllocAccess]
    by_cases zero : cur = 0
    · rw [if_pos zero]
      refine iff_of_true (dump 0 (Nat.zero_le _) (congrArg some zero) fun j lt => absurd lt (Nat.not_lt_zero j)) ?_
      intro k _ n reached ne
      cases k with
      | zero => exact absurd ((Option.some.inj reached).symm.trans zero) ne
      | succ k =>
        rw [Orbit.after_succ, zero, nextNode_zero] at reached
        cases reached
    · rw [if_neg zero]
      simp only [confined_loadWord_cons]
      by_cases fit : need ≤ blkSize ctx cur
      · rw [if_pos fit]
        constructor
        · rintro ⟨low, high, inside⟩ k - n reached -
          cases k with
          | zero =>
            obtain rfl := Option.some.inj reached
            exact (confined_takeBlock before fit (by unfold hdrSize; omega)).mp inside
          | succ k =>
            rw [Orbit.after_succ, nextNode, if_pos (Or.inr fit)] at reached
            cases reached
        · intro inside
          have here := inside 0 g.succ_pos cur rfl zero
          have header := here.1
          unfold hdrSize at header
          exact ⟨by omega, by omega, (confined_takeBlock before fit here.1).mpr here⟩
      · rw [if_neg fit]
        have later := fun k => after_nextNode_succ zero fit k
        -- the rest of the walk, once the header of this node is inside
        have rest (header : cur + hdrSize ≤ ctx.memorySize) :
            Confined ctx.memorySize (doAllocAccess ctx need g cur (blkNext ctx cur)) ↔
              ∀ k < g, ∀ n, Orbit.after (nextNode ctx need) (blkNext ctx cur) k = some n → n ≠ 0 →
                NodeInside ctx need n := by
          refine ih (Or.inr header) fun j le visited nodes => dump (j + 1) (Nat.succ_le_succ le)
            ((later j).trans visited) fun i lt n reached ne => ?_
          cases i with
          | zero =>
            obtain rfl := Option.some.inj reached
            exact header
          | succ i =>
            rw [later] at reached
            exact nodes i (Nat.lt_of_succ_lt_succ lt) n reached ne
        constructor
        · rintro ⟨low, high, inside⟩ k lt n reached ne
          have header : cur + hdrSize ≤ ctx.memorySize := by
            unfold hdrSize
            omega
          cases k with
          | zero =>
            obtain rfl := Option.some.inj reached
            exact ⟨header, fun wide => absurd wide fit⟩
          | succ k =>
            rw [later] at reached
            exact (rest header).mp inside k (Nat.lt_of_succ_lt_succ lt) n reached ne
        · intro inside
          have header := (inside 0 g.succ_pos cur rfl zero).1
          have tail : Confined ctx.memorySize (doAllocAccess ctx need g cur (blkNext ctx cur)) :=
            (rest header).mpr fun k lt n reached ne =>
              inside (k + 1) (Nat.succ_lt_succ lt) n ((later k).trans reached) ne
          unfold hdrSize at header
          exact ⟨by omega, by omega, tail⟩

end Walk

theorem HostBounds.confined_init {ctx : MemCtx} (bounds : HostBounds ctx) :
    Confined ctx.memorySize (initAccess ctx) := by
  have brk := bounds.brk
  have size := bounds.size
  unfold initAccess
  dsimp only
  split_ifs with set room
  · exact confined_nil
  · exact confined_nil
  · have hi : bclr (ctx.memorySize / 2) 0xfff ≤ ctx.memorySize / 2 := bclr_le _ _
    have lo : alignUp ctx.heapEnd blkAlign ≤ ctx.heapEnd + 15 := alignUp_le (by omega)
    rw [u32_of_lt (by omega)] at room
    simp only [confined_storeWord_cons, confined_nil, and_true]
    omega

/-- `yos_malloc` stays in memory exactly when its walk does. -/
theorem HostBounds.confined_malloc {ctx : MemCtx} (bounds : HostBounds ctx) (size : ℕ) :
    Confined ctx.memorySize (mallocAccess ctx size) ↔ MallocSafe ctx size := by
  unfold mallocAccess MallocSafe
  rw [confined_append, and_iff_right bounds.confined_init]
  rcases init : Yos.allocInitLocked ctx with _ | ctx'
  · exact iff_of_true confined_nil fun ctx' none => by cases none
  · obtain ⟨-, same⟩ := bounds.allocInitLocked init
    dsimp only
    rw [← same, confined_doAlloc (Or.inl rfl) fun k _ visited inside => confined_dump visited inside 16]
    constructor
    · rintro inside c made
      obtain rfl := Option.some.inj made
      exact inside
    · exact fun inside => inside ctx' rfl

/-! ## `yos_free` -/

/-- The next node of the walk of `yos_free` for the block at `blkOff`. -/
def nextFree (ctx : MemCtx) (blkOff n : ℕ) : Option ℕ :=
  if n ≠ 0 ∧ n < blkOff then
    if blkOff < u32 (n + blkSize ctx n) then none else some (blkNext ctx n)
  else none

/-- `yos_free` returns before its walk, or the walk comes to no node twice. -/
def FreeSafe (ctx : MemCtx) (off : ℕ) : Prop :=
  let blkOff := sub32 (unshiftUserOff ctx off) hdrSize
  off = 0 ∨ (off < u32 (ctx.allocLo + hdrSize) ∨ ctx.allocHi ≤ off) ∨
    (blkSize ctx blkOff < minBlock ∨ ctx.allocHi < u32 (blkOff + blkSize ctx blkOff)) ∨
      Orbit.NoRepeat (nextFree ctx blkOff) ctx.allocFreeHead

/-- `yos_free` returns, and its accesses lie in memory. -/
def FreeSurvives (ctx : MemCtx) (off : ℕ) : Prop :=
  (∃ fuel ctx', yosFree fuel ctx off = some ctx') ∧ ∀ fuel, Confined ctx.memorySize (freeAccess fuel ctx off)

section Free

variable {ctx : MemCtx} {blkOff prev cur fuel off sz : ℕ}

/-- The walk is over when there is no next node. -/
theorem freeWalk_isSome_iff : (freeWalk ctx blkOff fuel prev cur).isSome ↔
    Orbit.after (nextFree ctx blkOff) cur fuel = none := by
  induction fuel generalizing prev cur with
  | zero => simp [freeWalk, Orbit.after]
  | succ fuel ih =>
    rw [freeWalk, Orbit.after_succ, nextFree]
    split_ifs
    · simp
    · exact ih
    · simp

/-- The walk ends exactly when it comes to no node twice. -/
theorem freeWalk_ends_iff : (∃ fuel, (freeWalk ctx blkOff fuel 0 cur).isSome) ↔
    Orbit.NoRepeat (nextFree ctx blkOff) cur := by
  constructor
  · rintro ⟨fuel, done⟩
    exact .of_ends ⟨fuel, freeWalk_isSome_iff.mp done⟩
  · intro once
    obtain ⟨fuel, none⟩ := once.ends_of_finite (Set.finite_lt_nat (cur + 2 ^ 32)) fun n x reached => by
      -- every node after the first one is a word of the memory
      cases n with
      | zero =>
        obtain rfl := Option.some.inj reached
        exact Nat.lt_add_of_pos_right (by decide)
      | succ n =>
        obtain ⟨y, -, next⟩ := Option.bind_eq_some_iff.mp reached
        unfold nextFree at next
        split_ifs at next
        obtain rfl := Option.some.inj next
        exact Nat.lt_add_left cur (Bytes.read32_lt _ _)
    exact ⟨fuel, freeWalk_isSome_iff.mpr none⟩

theorem yosFree_returns_iff : (∃ fuel ctx', yosFree fuel ctx off = some ctx') ↔ FreeSafe ctx off := by
  unfold FreeSafe
  dsimp only
  rw [← freeWalk_ends_iff]
  unfold yosFree
  dsimp only
  split_ifs with null foreign insane
  · exact iff_of_true ⟨0, _, rfl⟩ (Or.inl null)
  · exact iff_of_true ⟨0, _, rfl⟩ (Or.inr (Or.inl foreign))
  · exact iff_of_true ⟨0, _, rfl⟩ (Or.inr (Or.inr (Or.inl insane)))
  · rw [or_iff_right null, or_iff_right foreign, or_iff_right insane]
    refine exists_congr fun fuel => ?_
    rcases freeWalk ctx (sub32 (unshiftUserOff ctx off) hdrSize) fuel 0 ctx.allocFreeHead with
      _ | _ | ⟨prev, cur⟩
    · simp
    · simp
    · refine iff_of_true ?_ rfl
      dsimp only
      split_ifs
      · exact ⟨_, rfl⟩
      · exact ⟨_, rfl⟩

/-- Where the walk stops. -/
theorem freeWalk_stop_bounds {p c : ℕ} (stop : freeWalk ctx blkOff fuel p c = some (.stop prev cur)) :
    prev = p ∨ prev < blkOff := by
  induction fuel generalizing p c with
  | zero => cases stop
  | succ fuel ih =>
    rw [freeWalk] at stop
    split_ifs at stop with go inside
    · cases stop
    · rcases ih stop with rfl | below
      · exact Or.inr go.2
      · exact Or.inr below
    · cases stop
      exact Or.inl rfl

theorem confined_freeWalk {n : ℕ} (top : blkOff + hdrSize ≤ n) :
    Confined n (freeWalkAccess ctx blkOff fuel cur) := by
  unfold hdrSize at top
  induction fuel generalizing cur with
  | zero => exact confined_nil
  | succ fuel ih =>
    rw [freeWalkAccess]
    split_ifs with go inside
    · simp only [confined_loadWord_cons, confined_nil, and_true]
      omega
    · simp only [confined_loadWord_cons]
      exact ⟨by omega, by omega, ih⟩
    · exact confined_nil

/-- The unshifted pointer lies in the heap, not behind the pointer. -/
theorem unshiftUserOff_bounds (low : u32 (ctx.allocLo + hdrSize) ≤ off) :
    u32 (ctx.allocLo + hdrSize) ≤ unshiftUserOff ctx off ∧ unshiftUserOff ctx off ≤ off := by
  unfold unshiftUserOff
  dsimp only
  split_ifs <;> omega

theorem confined_unshift {n : ℕ} (bounds : hdrSize ≤ u32 (ctx.allocLo + hdrSize))
    (low : u32 (ctx.allocLo + hdrSize) ≤ off) (high : off ≤ n) (small : off < 2 ^ 32) :
    Confined n (unshiftAccess ctx off) := by
  unfold hdrSize at *
  unfold unshiftAccess
  dsimp only
  split_ifs with shifted before range wide
  · exact confined_nil
  · exact confined_nil
  · simp only [confined_loadWord_cons, confined_nil, and_true]
    omega
  · simp only [confined_loadWord_cons, confined_nil, and_true]
    omega
  · simp only [confined_loadWord_cons, confined_nil, and_true]
    unfold sub32 u32 hdrSize at *
    omega

theorem confined_link {n : ℕ} (before : prev = 0 ∨ prev < blkOff) (top : blkOff + hdrSize ≤ n)
    (fits : u32 (blkOff + sz) + hdrSize ≤ n) :
    Confined n (linkPrevAccess ctx prev blkOff ++ mergeNextAccess (linkPrev ctx prev cur blkOff sz).2.1
      (linkPrev ctx prev cur blkOff sz).2.2 cur) := by
  unfold hdrSize at *
  have merge {b z : ℕ} (low : b ≤ blkOff) (same : u32 (b + z) = u32 (blkOff + sz)) :
      Confined n (mergeNextAccess b z cur) := by
    unfold mergeNextAccess
    split_ifs with next
    · simp only [confined_loadWord_cons, confined_storeWord_cons, confined_nil, and_true]
      omega
    · exact confined_nil
  rw [confined_append]
  unfold linkPrevAccess linkPrev
  dsimp only
  split_ifs with some touch
  · have low : prev ≤ blkOff := by omega
    refine ⟨?_, merge low ?_⟩
    · simp only [confined_loadWord_cons, confined_storeWord_cons, confined_nil, and_true]
      omega
    · rw [← touch]
      dsimp only
      unfold u32
      omega
  · refine ⟨?_, merge le_rfl rfl⟩
    simp only [confined_loadWord_cons, confined_storeWord_cons, confined_nil, and_true]
    omega
  · refine ⟨?_, merge le_rfl rfl⟩
    simp only [confined_storeWord_cons, confined_nil, and_true]
    omega

/-- A pointer in range is unshifted, and its header loaded, inside the heap. -/
theorem HostBounds.header (bounds : HostBounds ctx)
    (inRange : ¬ (off < u32 (ctx.allocLo + hdrSize) ∨ ctx.allocHi ≤ off)) :
    sub32 (unshiftUserOff ctx off) hdrSize + hdrSize < ctx.allocHi ∧ ctx.allocHi + hdrSize ≤ ctx.memorySize ∧
      Confined ctx.memorySize (unshiftAccess ctx off) := by
  have size := bounds.size
  have heap := bounds.heap (by omega)
  have lo : u32 (ctx.allocLo + hdrSize) = ctx.allocLo + hdrSize := u32_of_lt (by unfold hdrSize; omega)
  have above : u32 (ctx.allocLo + hdrSize) ≤ off := by omega
  obtain ⟨low, high⟩ := unshiftUserOff_bounds above
  have back : sub32 (unshiftUserOff ctx off) hdrSize = unshiftUserOff ctx off - hdrSize := by
    unfold sub32 u32 hdrSize at *
    omega
  exact ⟨by omega, by unfold hdrSize; omega, confined_unshift (by omega) (by omega) (by omega) (by omega)⟩

/-- The accesses of `yos_free` lie in memory, whatever the guest stored. -/
theorem HostBounds.confined_free (bounds : HostBounds ctx) (fuel off : ℕ) :
    Confined ctx.memorySize (freeAccess fuel ctx off) := by
  unfold freeAccess
  dsimp only
  by_cases null : off = 0
  · rw [if_pos null]
    exact confined_nil
  · by_cases foreign : off < u32 (ctx.allocLo + hdrSize) ∨ ctx.allocHi ≤ off
    · rw [if_neg null, if_pos foreign]
      exact confined_nil
    · obtain ⟨block, top, unshift⟩ := bounds.header foreign
      rw [if_neg null, if_neg foreign, confined_append, confined_loadWord_cons]
      refine ⟨unshift, by unfold hdrSize at *; omega, ?_⟩
      split_ifs with insane
      · exact confined_nil
      · have inside : sub32 (unshiftUserOff ctx off) hdrSize + hdrSize ≤ ctx.memorySize := by omega
        rw [confined_append]
        refine ⟨confined_freeWalk inside, ?_⟩
        split
        · exact confined_nil
        · exact confined_nil
        · next prev cur stop =>
          split_ifs
          · exact confined_nil
          · exact confined_link (freeWalk_stop_bounds stop) inside (by omega)

end Free

/-- `yos_free` survives exactly when its walk comes to no node twice. -/
theorem HostBounds.freeSurvives_iff {ctx : MemCtx} (bounds : HostBounds ctx) (off : ℕ) :
    FreeSurvives ctx off ↔ FreeSafe ctx off := by
  unfold FreeSurvives
  rw [yosFree_returns_iff, and_iff_left fun fuel => bounds.confined_free fuel off]

/-! ## `yos_realloc` -/

/-- The walk of `do_alloc` stops at the node, which is large enough. -/
def FitAt (ctx : MemCtx) (need n : ℕ) : Prop :=
  ∃ k < 2 ^ 22, Orbit.after (nextNode ctx need) ctx.allocFreeHead k = some n ∧ n ≠ 0 ∧ need ≤ blkSize ctx n

/-- `yos_realloc` returns without a block of its own: the pointer lies outside the heap, its header is not
sane, or the request fits in place. -/
def ReturnsEarly (ctx : MemCtx) (off newsize : ℕ) : Prop :=
  let blkOff := sub32 (unshiftUserOff ctx off) hdrSize
  (off < u32 (ctx.allocLo + hdrSize) ∨ ctx.allocHi ≤ off) ∨
    (blkSize ctx blkOff < hdrSize ∨ ctx.allocHi < u32 (blkOff + blkSize ctx blkOff)) ∨
      newsize ≤ blkSize ctx blkOff - hdrSize

/-- The bytes `yos_realloc` copies. -/
def payloadOf (ctx : MemCtx) (off : ℕ) : ℕ :=
  blkSize ctx (sub32 (unshiftUserOff ctx off) hdrSize) - hdrSize

/-- The context with which `yos_realloc` calls `yos_free`. -/
def movedCtx (ctx : MemCtx) (off newsize : ℕ) : MemCtx :=
  { (yosMalloc ctx newsize).1 with
    memory := (yosMalloc ctx newsize).1.memory.copy (yosMalloc ctx newsize).2 (unshiftUserOff ctx off)
      (payloadOf ctx off) }

/-- `yos_realloc` is `yos_malloc` or `yos_free`, or returns early, or its three parts are safe: the walk
of `yos_malloc`, the copy and the walk of `yos_free`. -/
def ReallocSafe (ctx : MemCtx) (off newsize : ℕ) : Prop :=
  if off = 0 then MallocSafe ctx newsize
  else if newsize = 0 then FreeSafe ctx off
  else ReturnsEarly ctx off newsize ∨
    (MallocSafe ctx newsize ∧ ∀ n, FitAt ctx (mallocNeed newsize) n →
      unshiftUserOff ctx off + payloadOf ctx off ≤ ctx.memorySize ∧
        n + hdrSize + payloadOf ctx off ≤ ctx.memorySize ∧
          FreeSafe (movedCtx ctx off newsize) (unshiftUserOff ctx off))

/-- `yos_realloc` returns, and its accesses lie in memory. -/
def ReallocSurvives (ctx : MemCtx) (off newsize : ℕ) : Prop :=
  (∃ fuel result, yosRealloc fuel ctx off newsize = some result) ∧
    ∀ fuel, Confined ctx.memorySize (reallocAccess fuel ctx off newsize)

/-- What `do_alloc` returns, by the node its walk stops at. -/
theorem doAllocLoop_snd (ctx : MemCtx) (need g prev cur : ℕ) :
    (∃ n, (∃ k < g, Orbit.after (nextNode ctx need) cur k = some n ∧ n ≠ 0 ∧ need ≤ blkSize ctx n) ∧
      (doAllocLoop ctx need g prev cur).2 = u32 (n + hdrSize)) ∨
    (¬ ∃ n, ∃ k < g, Orbit.after (nextNode ctx need) cur k = some n ∧ n ≠ 0 ∧ need ≤ blkSize ctx n) ∧
      (doAllocLoop ctx need g prev cur).2 = 0 := by
  induction g generalizing prev cur with
  | zero => exact Or.inr ⟨fun ⟨n, k, lt, _⟩ => absurd lt (Nat.not_lt_zero k), rfl⟩
  | succ g ih =>
    rw [doAllocLoop]
    by_cases zero : cur = 0
    · rw [if_pos zero]
      refine Or.inr ⟨?_, rfl⟩
      rintro ⟨n, k, -, reached, ne, -⟩
      cases k with
      | zero => exact ne ((Option.some.inj reached).symm.trans zero)
      | succ k =>
        rw [Orbit.after_succ, zero, nextNode_zero] at reached
        cases reached
    · rw [if_neg zero]
      by_cases fit : need ≤ blkSize ctx cur
      · rw [if_pos fit]
        exact Or.inl ⟨cur, ⟨0, g.succ_pos, rfl, zero, fit⟩, rfl⟩
      · rw [if_neg fit]
        rcases ih cur (blkNext ctx cur) with ⟨n, ⟨k, lt, reached, rest⟩, eq⟩ | ⟨none, eq⟩
        · exact Or.inl ⟨n, ⟨k + 1, Nat.succ_lt_succ lt, (after_nextNode_succ zero fit k).trans reached, rest⟩, eq⟩
        · refine Or.inr ⟨?_, eq⟩
          rintro ⟨n, k, lt, reached, ne, wide⟩
          cases k with
          | zero =>
            obtain rfl := Option.some.inj reached
            exact fit wide
          | succ k =>
            rw [after_nextNode_succ zero fit] at reached
            exact none ⟨n, k, Nat.lt_of_succ_lt_succ lt, reached, ne, wide⟩

/-- The walk stops at one node only. -/
theorem FitAt.unique {ctx : MemCtx} {need n n' : ℕ} (fit : FitAt ctx need n) (fit' : FitAt ctx need n') :
    n = n' := by
  have stops {n k k' : ℕ} (reached : Orbit.after (nextNode ctx need) ctx.allocFreeHead k = some n)
      (wide : need ≤ blkSize ctx n) (later : k < k') :
      Orbit.after (nextNode ctx need) ctx.allocFreeHead k' = none := by
    refine Orbit.after_none_of_le ?_ later
    rw [Orbit.after, reached]
    exact if_pos (Or.inr wide)
  obtain ⟨k, -, reached, -, wide⟩ := fit
  obtain ⟨k', -, reached', -, wide'⟩ := fit'
  rcases Nat.lt_trichotomy k k' with lt | rfl | gt
  · rw [stops reached wide lt] at reached'
    cases reached'
  · exact Option.some.inj (reached.symm.trans reached')
  · rw [stops reached' wide' gt] at reached
    cases reached

namespace HostBounds

variable {ctx : MemCtx} {off newsize : ℕ}

/-- The pointer of `yos_malloc` is behind the header of the node where its walk stops. -/
theorem yosMalloc_snd (bounds : HostBounds ctx) (set : ctx.allocHi ≠ 0) (safe : MallocSafe ctx newsize) :
    (∃ n, FitAt ctx (mallocNeed newsize) n ∧ (Yos.yosMalloc ctx newsize).2 = n + hdrSize) ∨
      (¬ ∃ n, FitAt ctx (mallocNeed newsize) n) ∧ (Yos.yosMalloc ctx newsize).2 = 0 := by
  have init : Yos.allocInitLocked ctx = some ctx := if_pos set
  have size := bounds.size
  unfold Yos.yosMalloc doAlloc
  rw [init]
  rcases doAllocLoop_snd ctx (mallocNeed newsize) (2 ^ 22) 0 ctx.allocFreeHead with
    ⟨n, fit, eq⟩ | ⟨none, eq⟩
  · obtain ⟨k, lt, reached, ne, wide⟩ := fit
    have inside := (safe ctx init k lt n reached ne).1
    exact Or.inl ⟨n, ⟨k, lt, reached, ne, wide⟩, eq.trans (u32_of_lt (by omega))⟩
  · exact Or.inr ⟨none, eq⟩

theorem yosRealloc_early (bounds : HostBounds ctx) (null : off ≠ 0) (pos : newsize ≠ 0)
    (early : ReturnsEarly ctx off newsize) : ReallocSurvives ctx off newsize := by
  unfold ReallocSurvives Yos.yosRealloc reallocAccess
  simp only [if_neg null, if_neg pos]
  by_cases foreign : off < u32 (ctx.allocLo + hdrSize) ∨ ctx.allocHi ≤ off
  · simp only [if_pos foreign]
    exact ⟨⟨0, _, rfl⟩, fun _ => confined_nil⟩
  · obtain ⟨block, top, unshift⟩ := bounds.header foreign
    unfold hdrSize at block top
    have load : Confined ctx.memorySize
        (unshiftAccess ctx off ++ [loadWord (sub32 (unshiftUserOff ctx off) hdrSize)]) := by
      rw [confined_append, confined_loadWord_cons]
      exact ⟨unshift, by unfold hdrSize; omega, confined_nil⟩
    have rest := early.resolve_left foreign
    simp only [if_neg foreign]
    by_cases insane : blkSize ctx (sub32 (unshiftUserOff ctx off) hdrSize) < hdrSize ∨ ctx.allocHi <
        u32 (sub32 (unshiftUserOff ctx off) hdrSize + blkSize ctx (sub32 (unshiftUserOff ctx off) hdrSize))
    · simp only [if_pos insane]
      exact ⟨⟨0, _, rfl⟩, fun _ => load⟩
    · simp only [if_neg insane, if_pos (rest.resolve_left insane)]
      exact ⟨⟨0, _, rfl⟩, fun _ => load⟩

/-- The result of `yos_realloc` when it moves the block. -/
theorem yosRealloc_moved (null : off ≠ 0) (pos : newsize ≠ 0) (late : ¬ ReturnsEarly ctx off newsize)
    (fuel : ℕ) : Yos.yosRealloc fuel ctx off newsize =
      if (Yos.yosMalloc ctx newsize).2 = 0 then some ((Yos.yosMalloc ctx newsize).1, 0)
      else (yosFree fuel (movedCtx ctx off newsize) (unshiftUserOff ctx off)).map
        fun ctx' => (ctx', (Yos.yosMalloc ctx newsize).2) := by
  obtain ⟨inRange, late⟩ := not_or.mp late
  obtain ⟨sane, large⟩ := not_or.mp late
  unfold Yos.yosRealloc
  rw [if_neg null, if_neg pos, if_neg inRange]
  dsimp only
  rw [if_neg sane, if_neg large]
  rfl

/-- The accesses of `yos_realloc` when it moves the block. -/
theorem confined_moved (bounds : HostBounds ctx) (null : off ≠ 0) (pos : newsize ≠ 0)
    (late : ¬ ReturnsEarly ctx off newsize) (fuel : ℕ) :
    Confined ctx.memorySize (reallocAccess fuel ctx off newsize) ↔ MallocSafe ctx newsize ∧
      ((Yos.yosMalloc ctx newsize).2 ≠ 0 →
        (payloadOf ctx off = 0 ∨ unshiftUserOff ctx off + payloadOf ctx off ≤ ctx.memorySize) ∧
          (payloadOf ctx off = 0 ∨ (Yos.yosMalloc ctx newsize).2 + payloadOf ctx off ≤ ctx.memorySize)) := by
  obtain ⟨inRange, late⟩ := not_or.mp late
  obtain ⟨sane, large⟩ := not_or.mp late
  obtain ⟨block, top, unshift⟩ := bounds.header inRange
  obtain ⟨after, same⟩ := bounds.yosMalloc newsize
  have freed : Confined ctx.memorySize (freeAccess fuel (movedCtx ctx off newsize) (unshiftUserOff ctx off)) := by
    rw [← same]
    exact (after.setMemory _).confined_free fuel _
  unfold reallocAccess
  rw [if_neg null, if_neg pos, if_neg inRange]
  dsimp only
  rw [if_neg sane, if_neg large, confined_append, confined_loadWord_cons, confined_append,
    bounds.confined_malloc, and_iff_right unshift, and_iff_right (by unfold hdrSize at *; omega)]
  refine and_congr_right fun _ => ?_
  split_ifs with none
  · exact iff_of_true confined_nil fun taken => absurd none taken
  · rw [confined_load_cons, confined_store_cons]
    unfold movedCtx payloadOf at freed
    exact ⟨fun inside _ => ⟨inside.1, inside.2.1⟩, fun inside => ⟨(inside none).1, (inside none).2, freed⟩⟩

/-- `yos_realloc` survives exactly when its parts are safe. -/
theorem reallocSurvives_iff (bounds : HostBounds ctx) :
    ReallocSurvives ctx off newsize ↔ ReallocSafe ctx off newsize := by
  unfold ReallocSurvives ReallocSafe
  by_cases null : off = 0
  · rw [if_pos null]
    unfold Yos.yosRealloc reallocAccess
    simp only [if_pos null, bounds.confined_malloc, forall_const, and_iff_right_iff_imp]
    exact fun _ => ⟨0, _, rfl⟩
  · rw [if_neg null]
    by_cases zero : newsize = 0
    · rw [if_pos zero, ← bounds.freeSurvives_iff]
      unfold Yos.yosRealloc reallocAccess FreeSurvives
      simp only [if_neg null, if_pos zero]
      refine and_congr_left fun _ => exists_congr fun fuel => ?_
      simp
    · rw [if_neg zero]
      by_cases early : ReturnsEarly ctx off newsize
      · exact iff_of_true (bounds.yosRealloc_early null zero early) (Or.inl early)
      · have inRange : ¬ (off < u32 (ctx.allocLo + hdrSize) ∨ ctx.allocHi ≤ off) := fun out => early (Or.inl out)
        have set : ctx.allocHi ≠ 0 := by omega
        obtain ⟨block, top, -⟩ := bounds.header inRange
        rw [or_iff_right early]
        simp only [bounds.confined_moved null zero early, forall_const, yosRealloc_moved null zero early]
        have base : unshiftUserOff ctx off ≤ ctx.memorySize := by
          have above : u32 (ctx.allocLo + hdrSize) ≤ off := by omega
          have low := unshiftUserOff_bounds above
          omega
        constructor
        · rintro ⟨returns, safe, copy⟩
          refine ⟨safe, fun n fit => ?_⟩
          rcases bounds.yosMalloc_snd set safe with ⟨n', fit', eq⟩ | ⟨none, -⟩
          · obtain rfl := fit.unique fit'
            have taken : (Yos.yosMalloc ctx newsize).2 ≠ 0 := by
              rw [eq]
              exact Nat.succ_ne_zero _
            obtain ⟨source, target⟩ := copy taken
            obtain ⟨k, lt, reached, ne, -⟩ := fit
            have node := (safe ctx (if_pos set) k lt n reached ne).1
            rw [eq] at target
            refine ⟨by omega, by omega, yosFree_returns_iff.mp ?_⟩
            obtain ⟨fuel, result, run⟩ := returns
            rw [if_neg taken] at run
            obtain ⟨ctx', freed, -⟩ := Option.map_eq_some_iff.mp run
            exact ⟨fuel, ctx', freed⟩
          · exact absurd ⟨n, fit⟩ none
        · rintro ⟨safe, inside⟩
          rcases bounds.yosMalloc_snd set safe with ⟨n, fit, eq⟩ | ⟨-, eq⟩
          · obtain ⟨source, target, walk⟩ := inside n fit
            obtain ⟨fuel, ctx', freed⟩ := yosFree_returns_iff.mpr walk
            refine ⟨⟨fuel, (ctx', (Yos.yosMalloc ctx newsize).2), ?_⟩, safe, fun _ => ⟨Or.inr source, Or.inr ?_⟩⟩
            · rw [if_neg (by rw [eq]; exact Nat.succ_ne_zero _), freed]
              rfl
            · rw [eq]
              exact target
          · exact ⟨⟨0, _, if_pos eq⟩, safe, fun taken => absurd eq taken⟩

end HostBounds

/-! ## Every reachable context -/

/-- Whatever a guest stored in its memory, and whatever pointer it passes: `yos_malloc` stays in memory
exactly when the walk of `do_alloc` does, `yos_free` survives exactly when its walk comes to no node
twice, and `yos_realloc` exactly when its parts are safe. -/
theorem hostile_guest_iff {ctx : MemCtx} (run : hostileSystem.Reachable ctx) :
    (∀ size, Confined ctx.memorySize (mallocAccess ctx size) ↔ MallocSafe ctx size) ∧
    (∀ off, FreeSurvives ctx off ↔ FreeSafe ctx off) ∧
    ∀ off newsize, ReallocSurvives ctx off newsize ↔ ReallocSafe ctx off newsize :=
  have bounds := HostBounds.of_run run
  ⟨bounds.confined_malloc, bounds.freeSurvives_iff, fun _ _ => bounds.reallocSurvives_iff⟩

/-- A heap of 4 MiB after `yos_malloc(24)`, with a memory of the guest's own. -/
def forgedCtx (m : Bytes) : MemCtx := { (yosMalloc (.blank (2 ^ 22) 0x50000) 24).1 with memory := m }

theorem forgedCtx_run (m : Bytes) : hostileSystem.Reachable (forgedCtx m) :=
  .next (.next (.start ⟨rfl, by decide, by decide⟩) (.malloc _ 24 (by decide))) (.memory _ m)

theorem hostile_guest_blank :
    (∀ size, Confined (forgedCtx fun _ => 0).memorySize (mallocAccess (forgedCtx fun _ => 0) size) ↔
      MallocSafe (forgedCtx fun _ => 0) size) ∧
    (∀ off, FreeSurvives (forgedCtx fun _ => 0) off ↔ FreeSafe (forgedCtx fun _ => 0) off) ∧
    ∀ off newsize, ReallocSurvives (forgedCtx fun _ => 0) off newsize ↔
      ReallocSafe (forgedCtx fun _ => 0) off newsize :=
  hostile_guest_iff (forgedCtx_run fun _ => 0)

/-- The free block at `0x50020` with 16 bytes is its own successor, and a block of 32 bytes at `0x50040`
is freed. -/
def selfLink : Bytes :=
  Bytes.write32 (Bytes.write32 (Bytes.write32 (fun _ => 0) 0x50020 16) 0x50024 0x50020) 0x50040 32

/-- The free block at `0x50020` with 0 bytes has a successor at the end of the address space. -/
def farLink : Bytes := Bytes.write32 (fun _ => 0) 0x50024 0xfffffff0

/-- `yos_free` never returns on a list that is a cycle, and `yos_malloc` follows a link out of memory. -/
theorem hostile_guest_fails :
    (¬ ∀ ctx, hostileSystem.Reachable ctx → ∀ off < 2 ^ 32, FreeSurvives ctx off) ∧
    ¬ ∀ ctx, hostileSystem.Reachable ctx → ∀ size < 2 ^ 32, Confined ctx.memorySize (mallocAccess ctx size) := by
  constructor
  · intro claim
    have bounds := HostBounds.of_run (forgedCtx_run selfLink)
    have safe := (bounds.freeSurvives_iff 0x50048).mp (claim _ (forgedCtx_run selfLink) 0x50048 (by decide))
    rcases safe with null | foreign | insane | once
    · revert null
      decide
    · revert foreign
      decide
    · revert insane
      decide
    · exact once 0 1 0x50020 Nat.one_pos rfl (by decide)
  · intro claim
    have bounds := HostBounds.of_run (forgedCtx_run farLink)
    have safe := (bounds.confined_malloc 24).mp (claim _ (forgedCtx_run farLink) 24 (by decide))
    have inside := (safe (forgedCtx farLink) rfl 1 (by decide) 0xfffffff0 (by decide) (by decide)).1
    revert inside
    decide

end Yos
