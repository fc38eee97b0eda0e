import Yos.Mem.EntryInv

/-!
# What holds of the pointers a guest holds

Over the runs of `allocSystem` whose requests do not wrap: `unshift_user_off` finds the start of the
payload of every pointer and `yos_free` gives back exactly its block (`unshift_and_free`); what the
aligned entry points return and what `yos_malloc_usable_size` answers (`aligned_and_usable_iff`); what
`yos_realloc` keeps (`realloc_keeps_iff`).

`unshift_user_off` hides the shift from `yos_free` and `yos_realloc`, but `yos_malloc_usable_size` does
not call it, and `yos_realloc` goes on from the start of the payload and not from the guest's bytes.
-/

namespace Yos

open Word Bytes Span

/-! ## Shifted pointers -/

/-- `yos_free` of the pointer returns, and the free blocks gain exactly the bytes of its block. -/
def FreesBlock (s : GuestHeap) (h : HeldPtr) : Prop :=
  (∃ fuel ctx, yosFree fuel s.ctx h.ptr = some ctx) ∧
    ∀ fuel ctx, yosFree fuel s.ctx h.ptr = some ctx → ∃ free free',
      FreeList s.ctx.memory s.ctx.allocFreeHead free ∧ FreeList ctx.memory ctx.allocFreeHead free' ∧
        ∀ x, cover free' x = cover free x + h.block.hit x

/-- The raw pointer of a pointer from `yos_posix_memalign` is found, other pointers are left as they
are, and `yos_free` gives back the block. -/
def Recognised (s : GuestHeap) (h : HeldPtr) : Prop :=
  (hdrSize < h.alignment → unshiftUserOff s.ctx h.ptr = h.raw) ∧
    (h.alignment ≤ hdrSize → unshiftUserOff s.ctx h.ptr = h.ptr) ∧ FreesBlock s h

theorem Ready.freesBlock {s : GuestHeap} {free : List Span} {h : HeldPtr} (ready : Ready s free)
    (held : h ∈ s.held) : FreesBlock s h := by
  obtain ⟨ctx, free', eq, after, given⟩ := ready.yosFree held (Nat.lt_succ_self _)
  refine ⟨⟨_, ctx, eq⟩, fun fuel ctx' returns => ?_⟩
  obtain rfl := yosFree_unique returns eq
  exact ⟨free, free', ready.heap.list, after.heap.list, given.joins⟩

/-- In every run without requests that wrap, every pointer is recognised. -/
theorem unshift_and_free {s : GuestHeap} (run : allocSystem.ReachableIf RequestFits s) :
    ∀ h ∈ s.held, Recognised s h := by
  intro h held
  obtain ⟨free, ready⟩ := (AllocInv.of_run run).ready held
  refine ⟨fun _ => ready.unshift held, fun plain => ?_, ready.freesBlock held⟩
  rw [ready.unshift held, (ready.held h held).plain plain]

/-- The state after `yos_posix_memalign` with the cell at 16, in a memory of 4 MiB. -/
def firstMemalign (alignment size : ℕ) : GuestHeap :=
  GuestHeap.take ⟨.blank (2 ^ 22) 0x50000, []⟩ (memalignNeed alignment size) size alignment
    (memalignResult (.blank (2 ^ 22) 0x50000) 16 alignment size)

theorem firstMemalign_step {alignment size : ℕ} (words : alignment < 2 ^ 32 ∧ size < 2 ^ 32)
    (lo : 20 ≤ (memalignResult (.blank (2 ^ 22) 0x50000) 16 alignment size).1.allocLo) :
    AllocStep ⟨.blank (2 ^ 22) 0x50000, []⟩ (.posixMemalign 16 alignment size)
      (firstMemalign alignment size) := by
  refine .posixMemalign _ 16 alignment size ⟨by decide, words⟩ (Or.inl fun x _ high => Or.inl ?_)
  exact Nat.lt_of_lt_of_le high lo

theorem firstMemalign_run : allocSystem.ReachableIf RequestFits (firstMemalign 4096 10) := by
  refine .step (.init ⟨freshHeap_blank, rfl⟩) (fun request asked => ?_)
    (firstMemalign_step ⟨by decide, by decide⟩ (by decide))
  obtain rfl : memalignNeed 4096 10 = request := Option.some.inj asked
  decide

theorem unshift_and_free_first :
    Recognised (firstMemalign 4096 10) ⟨⟨0x50000, 4128⟩, 0x51000, 10, 4096⟩ :=
  unshift_and_free firstMemalign_run _ (by decide)

/-- A request that wraps gets a block that the shifted pointer lies behind, and `yos_free` does not find
the block. -/
theorem unshift_fails : ¬ ∀ s, allocSystem.Reachable s → ∀ h ∈ s.held, Recognised s h := by
  intro claim
  have run : allocSystem.Reachable (firstMemalign 4096 (2 ^ 32 - 1 - 4096)) :=
    .next (.start ⟨freshHeap_blank, rfl⟩) (firstMemalign_step ⟨by decide, by decide⟩ (by decide))
  have found := (claim _ run ⟨⟨0x50000, 32⟩, 0x51000, 2 ^ 32 - 1 - 4096, 4096⟩ (by decide)).1 (by decide)
  revert found
  decide

/-! ## Alignment and usable size -/

/-- The pointer, if there is one, is a multiple of the alignment. -/
def MultipleOf (alignment : ℕ) (result : MemCtx × ℕ) : Prop := result.2 ≠ 0 → alignment ∣ result.2

/-- The usable size covers the bytes asked for and stays in the block. -/
def UsableSize (s : GuestHeap) (h : HeldPtr) : Prop :=
  h.size ≤ yosMallocUsableSize s.ctx h.ptr ∧ h.ptr + yosMallocUsableSize s.ctx h.ptr ≤ h.block.fin

/-- The word eight bytes before the pointer, where an unshifted pointer has its header, happens to be a
size that fits. -/
def WordFits (s : GuestHeap) (h : HeldPtr) : Prop :=
  h.size + hdrSize ≤ max hdrSize (s.ctx.memory.read32 (h.ptr - hdrSize)) ∧
    h.ptr + s.ctx.memory.read32 (h.ptr - hdrSize) ≤ h.block.fin + hdrSize

theorem Ready.usableSize_eq {s : GuestHeap} {free : List Span} {h : HeldPtr} (ready : Ready s free)
    (held : h ∈ s.held) :
    yosMallocUsableSize s.ctx h.ptr = s.ctx.memory.read32 (h.ptr - hdrSize) - hdrSize := by
  have low := (ready.held h held).raw_le
  have top := ready.inRange held
  have small := ready.heap.hi_le
  have back : sub32 h.ptr hdrSize = h.ptr - hdrSize := by
    unfold HeldPtr.raw hdrSize at low
    unfold sub32 u32 hdrSize at *
    omega
  unfold yosMallocUsableSize
  rw [if_neg (ready.ne_zero held), if_neg top.1, back, blkSize]
  dsimp only
  split_ifs <;> omega

theorem Ready.usableSize_plain {s : GuestHeap} {free : List Span} {h : HeldPtr} (ready : Ready s free)
    (held : h ∈ s.held) (plain : h.alignment ≤ hdrSize) : UsableSize s h := by
  have place := ready.held h held
  have long := ready.heap.long (List.mem_append_right free (Ready.mem_blocks held))
  have header : s.ctx.memory.read32 (h.ptr - hdrSize) = h.block.len := by
    rw [place.plain plain, HeldPtr.raw, Nat.add_sub_cancel]
    exact ready.heap.header _ (Ready.mem_blocks held)
  have room := place.room
  unfold UsableSize
  rw [ready.usableSize_eq held, header, place.plain plain]
  rw [place.plain plain] at room
  unfold HeldPtr.raw fin hdrSize at *
  omega

theorem Ready.usableSize_iff {s : GuestHeap} {free : List Span} {h : HeldPtr} (ready : Ready s free)
    (held : h ∈ s.held) : UsableSize s h ↔ h.alignment ≤ hdrSize ∨ WordFits s h := by
  by_cases plain : h.alignment ≤ hdrSize
  · exact iff_of_true (ready.usableSize_plain held plain) (Or.inl plain)
  · have high := ((ready.held h held).shifted (Nat.lt_of_not_le plain)).2.2.1
    rw [or_iff_right plain]
    unfold UsableSize WordFits
    rw [ready.usableSize_eq held]
    unfold hdrSize
    omega

/-- The powers of two below 16 divide 8. -/
theorem dvd_eight {alignment : ℕ} (power : alignment &&& (alignment - 1) = 0) (pos : alignment ≠ 0)
    (small : alignment < 16) : alignment ∣ 8 := by
  obtain ⟨k, rfl⟩ := (Nat.and_sub_one_eq_zero_iff_isPowerOfTwo pos).mp power
  have low : k < 4 := (Nat.pow_lt_pow_iff_right (a := 2) (by decide)).mp small
  exact Nat.pow_dvd_pow 2 (show k ≤ 3 by omega)

theorem AllocInv.memalign_multiple {s : GuestHeap} (inv : AllocInv s) {memptr alignment size : ℕ}
    (word : size < 2 ^ 32) (fits : RequestFits s (.posixMemalign memptr alignment size)) :
    MultipleOf alignment (memalignResult s.ctx memptr alignment size) := by
  intro success
  by_cases checks : MemalignChecks s.ctx memptr alignment size
  · rcases inv.yosMalloc (memalignNeed alignment size) with ⟨zero, -⟩ | ⟨ctx', free', t, done⟩
    · rw [memalignResult_of_zero checks zero] at success
      exact absurd rfl success
    · have fit := fits _ (memalign_request checks)
      obtain ⟨cell, valid, small⟩ := checks
      have power : alignment &&& (alignment - 1) = 0 := by tauto
      rw [done.memalignResult cell valid small fit]
      by_cases plain : alignment ≤ hdrSize
      · rw [if_pos plain]
        have shape := (done.heap.shape t (by simp)).1
        exact (dvd_eight power (by omega) (Nat.lt_succ_of_le (Nat.le_trans plain (by decide)))).trans
          (by dsimp only; omega)
      · rw [if_neg plain]
        exact Nat.dvd_of_mod_eq_zero (done.alignedOff (Nat.lt_of_not_le plain) power fit).1
  · rw [memalignResult_of_not_checks checks word] at success
    exact absurd rfl success

/-- `yos_aligned_alloc` returns what `yos_malloc` returns, which is 8 modulo 16. -/
theorem AllocInv.alignedAlloc_multiple {s : GuestHeap} (inv : AllocInv s) {alignment size : ℕ}
    (success : (yosAlignedAlloc s.ctx alignment size).2 ≠ 0) :
    alignment ∣ (yosAlignedAlloc s.ctx alignment size).2 ↔ alignment ≠ 16 := by
  unfold yosAlignedAlloc at success ⊢
  split_ifs at success ⊢ with invalid large
  · exact absurd rfl success
  · exact absurd rfl success
  · rcases inv.yosMalloc size with ⟨zero, -⟩ | ⟨ctx', free', t, done⟩
    · exact absurd zero success
    · have shape := (done.heap.shape t (by simp)).1
      unfold blkAlign at large
      rw [done.eq]
      dsimp only
      constructor
      · rintro divides rfl
        omega
      · intro other
        exact (dvd_eight (by tauto) (by tauto) (by omega)).trans (by omega)

/-- What the aligned entry points return: `yos_posix_memalign` a multiple of the alignment, the others
unless the alignment is 16. -/
structure AlignedResults (s : GuestHeap) : Prop where
  posixMemalign : ∀ memptr alignment size, size < 2 ^ 32 → RequestFits s (.posixMemalign memptr alignment size) →
    MultipleOf alignment (memalignResult s.ctx memptr alignment size)
  alignedAlloc : ∀ alignment size, (yosAlignedAlloc s.ctx alignment size).2 ≠ 0 →
    (alignment ∣ (yosAlignedAlloc s.ctx alignment size).2 ↔ alignment ≠ 16)
  memalign : ∀ alignment size, (yosMemalign s.ctx alignment size).2 ≠ 0 →
    (alignment ∣ (yosMemalign s.ctx alignment size).2 ↔ alignment ≠ 16)

/-- In every run without requests that wrap, the aligned entry points return multiples of the alignment
unless `yos_aligned_alloc` or `yos_memalign` is asked for 16, and the usable size of a pointer is right if
the pointer is not shifted, or if the word before it fits. -/
theorem aligned_and_usable_iff {s : GuestHeap} (run : allocSystem.ReachableIf RequestFits s) :
    AlignedResults s ∧ ∀ h ∈ s.held, UsableSize s h ↔ h.alignment ≤ hdrSize ∨ WordFits s h := by
  have inv := AllocInv.of_run run
  refine ⟨⟨fun _ _ _ word fits => inv.memalign_multiple word fits, fun _ _ => inv.alignedAlloc_multiple,
    fun _ _ => inv.alignedAlloc_multiple⟩, fun h held => ?_⟩
  obtain ⟨free, ready⟩ := inv.ready held
  exact ready.usableSize_iff held

theorem aligned_and_usable_first : AlignedResults (firstMemalign 4096 10) ∧
    ∀ h ∈ (firstMemalign 4096 10).held,
      UsableSize (firstMemalign 4096 10) h ↔ h.alignment ≤ hdrSize ∨ WordFits (firstMemalign 4096 10) h :=
  aligned_and_usable_iff firstMemalign_run

/-- `yos_aligned_alloc` with alignment 16 returns a pointer that is 8 modulo 16, and the usable size of a
fresh shifted pointer is 0. -/
theorem aligned_and_usable_fails :
    (¬ ∀ s, allocSystem.Reachable s → ∀ alignment size,
      MultipleOf alignment (yosAlignedAlloc s.ctx alignment size)) ∧
    ¬ ∀ s, allocSystem.Reachable s → ∀ h ∈ s.held, UsableSize s h := by
  constructor
  · intro claim
    have aligned := claim ⟨.blank (2 ^ 22) 0x50000, []⟩ (.start ⟨freshHeap_blank, rfl⟩) 16 1 (by decide)
    revert aligned
    decide
  · intro claim
    have usable := claim _ firstMemalign_run.reachable ⟨⟨0x50000, 4128⟩, 0x51000, 10, 4096⟩ (by decide)
    exact absurd usable.1 (by decide)

/-! ## `yos_realloc` -/

/-- The result of `yos_realloc` starts with the bytes the guest had at the pointer. -/
def KeepsBytes (s : GuestHeap) (h : HeldPtr) (newsize : ℕ) (result : MemCtx × ℕ) : Prop :=
  ∀ i < min h.size newsize, result.1.memory (result.2 + i) = s.ctx.memory (h.ptr + i)

/-- The start of the payload holds the same bytes as the pointer, as it does when they are one. -/
def RawBytes (s : GuestHeap) (h : HeldPtr) (newsize : ℕ) : Prop :=
  ∀ i < min h.size newsize, s.ctx.memory (h.raw + i) = s.ctx.memory (h.ptr + i)

/-- The blocks of the other pointers keep their contents. -/
def OthersKept (s : GuestHeap) (h : HeldPtr) (ctx : MemCtx) : Prop :=
  ∀ k ∈ s.held.erase h, ∀ x, k.block.Has x → ctx.memory x = s.ctx.memory x

theorem Ready.rawBytes_iff {s : GuestHeap} {free : List Span} {h : HeldPtr} {newsize : ℕ}
    (ready : Ready s free) (held : h ∈ s.held) :
    (h.alignment ≤ hdrSize ∨ RawBytes s h newsize) ↔ RawBytes s h newsize := by
  refine or_iff_right_of_imp fun plain i _ => ?_
  rw [(ready.held h held).plain plain]

/-- What `yos_realloc` does to the contents of the heap. -/
theorem Ready.yosRealloc_keeps {s : GuestHeap} {free : List Span} {h : HeldPtr} {newsize fuel : ℕ}
    {result : MemCtx × ℕ} (ready : Ready s free) (held : h ∈ s.held) (pos : newsize ≠ 0)
    (fits : Fits newsize) (returns : yosRealloc fuel s.ctx h.ptr newsize = some result) :
    (result.2 = 0 → result.1 = s.ctx) ∧ (result.2 ≠ 0 → OthersKept s h result.1 ∧
      (KeepsBytes s h newsize result ↔ h.alignment ≤ hdrSize ∨ RawBytes s h newsize)) := by
  rw [ready.rawBytes_iff held]
  by_cases fit : newsize + hdrSize ≤ h.block.len
  · rw [ready.yosRealloc_eq held pos, if_pos fit] at returns
    cases returns
    exact ⟨fun _ => rfl, fun _ => ⟨fun _ _ _ _ => rfl, Iff.rfl⟩⟩
  · rcases ready.yosMalloc newsize with eq | ⟨ctx', free', t, done, -⟩
    · rw [ready.yosRealloc_eq held pos, if_neg fit, eq] at returns
      cases returns
      exact ⟨fun _ => rfl, fun success => absurd rfl success⟩
    · obtain ⟨ctx'', free'', eq, -, copied, others⟩ :=
        ready.yosRealloc_moves held fits (Nat.lt_of_not_le fit) done (Nat.lt_succ_self _)
      rw [yosRealloc_unique returns eq]
      refine ⟨fun zero => absurd zero (Nat.succ_ne_zero _), fun _ => ⟨others, ?_⟩⟩
      -- the bytes asked for lie in the payload that is copied
      have payload : h.size ≤ h.block.len - hdrSize := by
        have low := (ready.held h held).raw_le
        have room := (ready.held h held).room
        unfold HeldPtr.raw at low
        unfold fin at room
        omega
      unfold KeepsBytes RawBytes
      refine forall₂_congr fun i lt => ?_
      rw [copied i (by omega)]

/-- `yos_realloc` returns. -/
theorem Ready.yosRealloc_returns {s : GuestHeap} {free : List Span} {h : HeldPtr} {newsize : ℕ}
    (ready : Ready s free) (held : h ∈ s.held) (pos : newsize ≠ 0) (fits : Fits newsize) :
    ∃ fuel result, yosRealloc fuel s.ctx h.ptr newsize = some result := by
  by_cases fit : newsize + hdrSize ≤ h.block.len
  · exact ⟨0, _, (ready.yosRealloc_eq held pos).trans (if_pos fit)⟩
  · rcases ready.yosMalloc newsize with eq | ⟨ctx', free', t, done, -⟩
    · refine ⟨0, (s.ctx, 0), ?_⟩
      rw [ready.yosRealloc_eq held pos, if_neg fit, eq]
      rfl
    · obtain ⟨ctx'', free'', eq, -⟩ :=
        ready.yosRealloc_moves held fits (Nat.lt_of_not_le fit) done (Nat.lt_succ_self _)
      exact ⟨_, _, eq⟩

/-- In every run without requests that wrap, `yos_realloc` of a pointer returns; if it fails nothing
changes, and else the other pointers keep their contents and the result starts with the guest's bytes
exactly when the pointer is not shifted or the start of the payload holds the same bytes. -/
theorem realloc_keeps_iff {s : GuestHeap} (run : allocSystem.ReachableIf RequestFits s) :
    ∀ h ∈ s.held, ∀ newsize, newsize ≠ 0 → Fits newsize →
      (∃ fuel result, yosRealloc fuel s.ctx h.ptr newsize = some result) ∧
      ∀ fuel result, yosRealloc fuel s.ctx h.ptr newsize = some result →
        (result.2 = 0 → result.1 = s.ctx) ∧ (result.2 ≠ 0 → OthersKept s h result.1 ∧
          (KeepsBytes s h newsize result ↔ h.alignment ≤ hdrSize ∨ RawBytes s h newsize)) := by
  intro h held newsize pos fits
  obtain ⟨free, ready⟩ := (AllocInv.of_run run).ready held
  exact ⟨ready.yosRealloc_returns held pos fits, fun _ _ => ready.yosRealloc_keeps held pos fits⟩

theorem realloc_keeps_first :
    ∃ fuel result, yosRealloc fuel (firstMemalign 4096 10).ctx 0x51000 20 = some result :=
  (realloc_keeps_iff firstMemalign_run ⟨⟨0x50000, 4128⟩, 0x51000, 10, 4096⟩ (by decide) 20
    (by decide) (by decide)).1

/-- The byte 7 at a shifted pointer, and `yos_realloc` to a size that fits: the result is the start of the
payload, where there is a 0. -/
theorem realloc_loses : ¬ ∀ s, allocSystem.Reachable s → ∀ h ∈ s.held, ∀ newsize, newsize ≠ 0 →
    ∀ fuel result, yosRealloc fuel s.ctx h.ptr newsize = some result → result.2 ≠ 0 →
      KeepsBytes s h newsize result := by
  intro claim
  have owns : OwnCell (firstMemalign 4096 10) (firstMemalign 4096 10).ctx 0x51000 1 := by
    refine Or.inr ⟨⟨⟨0x50000, 4128⟩, 0x51000, 10, 4096⟩, by decide, fun x low high => ⟨low, ?_⟩⟩
    unfold fin
    dsimp only
    omega
  let written : MemCtx :=
    { (firstMemalign 4096 10).ctx with memory := (firstMemalign 4096 10).ctx.memory.fill 0x51000 1 7 }
  have kept := claim _ (firstMemalign_run.reachable.next (.write (v := 7) owns))
    ⟨⟨0x50000, 4128⟩, 0x51000, 10, 4096⟩ (by decide) 8 (by decide) 0
    ((yosRealloc 0 written 0x51000 8).get (by decide)) (Option.some_get _).symm (by decide) 0 (by decide)
  revert kept
  decide

end Yos
