import Yos.Mem.Capacity
import Yos.Mem.FirstFit
import Yos.Mem.Hostile

/-!
# The guest heap as its callers see it

What a bridge that calls `yos_malloc`, `yos_realloc` and `yos_free` needs to know of them, from any heap in
order: the result of the call, that the heap stays in order, and that the bytes outside the heap and behind
the pointers held before and after keep their values (`HeapMove`).  A block that is allocated and not freed
shows in the heap: what is held is determined by it (`AllocInv.held_unique`).
-/

namespace Yos

open Word Bytes Span

/-- `yos_free`; `none` if its walk goes round for ever, since it visits offsets below `2 ^ 32`. -/
def freeCall (ctx : MemCtx) (off : ℕ) : Option MemCtx := yosFree (2 ^ 32) ctx off

/-- `yos_realloc`; `none` if the walk of `yos_free` goes round for ever. -/
def reallocCall (ctx : MemCtx) (off newsize : ℕ) : Option (MemCtx × ℕ) := yosRealloc (2 ^ 32) ctx off newsize

/-- The address lies outside the heap, or where none will be set up. -/
def MemCtx.Outside (ctx : MemCtx) (x : ℕ) : Prop := x < ctx.setUp.allocLo ∨ ctx.setUp.allocHi ≤ x

/-- The address lies outside the heap or behind a pointer that is held. -/
def GuestHeap.Mine (s : GuestHeap) (x : ℕ) : Prop := s.ctx.Outside x ∨ ∃ h ∈ s.held, h.Owns x

/-- The state with another memory. -/
def GuestHeap.store (s : GuestHeap) (m : Bytes) : GuestHeap := ⟨{ s.ctx with memory := m }, s.held⟩

/-- The heap of `s'` is in order and where that of `s` is. -/
structure HeapStays (s s' : GuestHeap) : Prop where
  inv : AllocInv s'
  lo : s'.ctx.setUp.allocLo = s.ctx.setUp.allocLo
  hi : s'.ctx.setUp.allocHi = s.ctx.setUp.allocHi
  size : s'.ctx.memorySize = s.ctx.memorySize

/-- The heap stays in order, and the bytes that are the guest's before and after keep their values. -/
structure HeapMove (s s' : GuestHeap) : Prop extends HeapStays s s' where
  frame : ∀ x, s.Mine x → s'.Mine x → s'.ctx.memory x = s.ctx.memory x

/-- `yos_malloc` returned the pointer `new`. -/
structure Allocated (s : GuestHeap) (size : ℕ) (ctx' : MemCtx) (new : HeldPtr) : Prop where
  eq : yosMalloc s.ctx size = (ctx', new.ptr)
  block : new.block = mallocBlock s.ctx size
  asked : new.size = size
  plain : new.alignment = hdrSize
  move : HeapMove s ⟨ctx', new :: s.held⟩
  apart : ∀ x, new.Owns x → ¬ s.Mine x

/-- `yos_realloc` of the pointer `h` returned the pointer `new`, in place or elsewhere. -/
structure Resized (s : GuestHeap) (h : HeldPtr) (newsize : ℕ) (ctx' : MemCtx) (new : HeldPtr) : Prop where
  eq : reallocCall s.ctx h.ptr newsize = some (ctx', new.ptr)
  block : new.block = resizedBlock s.ctx h newsize
  room : newsize + hdrSize ≤ h.block.len ∨ (yosMalloc s.ctx newsize).2 ≠ 0
  asked : new.size = newsize
  plain : new.alignment = hdrSize
  move : HeapMove s ⟨ctx', new :: s.held.erase h⟩
  kept : ∀ i < h.size, i < newsize → ctx'.memory (new.ptr + i) = s.ctx.memory (h.ptr + i)
  placed : (new.block = h.block ∧ new.ptr = h.ptr ∧ ctx' = s.ctx) ∨ ∀ x, new.Owns x → ¬ s.Mine x

/-! ## What is the guest's -/

section Mine

variable {s s' s'' : GuestHeap} {free : List Span} {h : HeldPtr}

theorem Ready.setUp_eq (ready : Ready s free) : s.ctx.setUp = s.ctx := by
  unfold MemCtx.setUp
  rw [ready.heap.allocInitLocked]
  rfl

theorem Ready.outside_iff (ready : Ready s free) (x : ℕ) :
    s.ctx.Outside x ↔ x < s.ctx.allocLo ∨ s.ctx.allocHi ≤ x := by
  unfold MemCtx.Outside
  rw [ready.setUp_eq]

/-- The guest's bytes are in no free block. -/
theorem Ready.cover_mine (ready : Ready s free) {x : ℕ} (mine : s.Mine x) : cover free x = 0 := by
  rcases mine with out | ⟨k, held, owns⟩
  · have tiles := ready.heap.tiles x
    rw [ready.outside_iff] at out
    have low := ready.heap.lo_lt
    rw [cover_append, hit, if_neg (by dsimp only; omega)] at tiles
    omega
  · obtain ⟨start, stop⟩ := ready.payload_of_owns held owns
    exact ready.heap.cover_free (Ready.mem_blocks held) ⟨by omega, stop⟩

theorem setUp_store (ctx : MemCtx) (m : Bytes) :
    ({ ctx with memory := m } : MemCtx).setUp.allocLo = ctx.setUp.allocLo ∧
      ({ ctx with memory := m } : MemCtx).setUp.allocHi = ctx.setUp.allocHi := by
  unfold MemCtx.setUp allocInitLocked blkSetNext blkSetSize
  dsimp only
  split_ifs <;> exact ⟨rfl, rfl⟩

theorem GuestHeap.mine_store (s : GuestHeap) (m : Bytes) (x : ℕ) : (s.store m).Mine x ↔ s.Mine x := by
  unfold Mine MemCtx.Outside store
  rw [(setUp_store s.ctx m).1, (setUp_store s.ctx m).2]

/-- Stores to the guest's bytes keep the heap in order. -/
theorem AllocInv.store {m : Bytes} (inv : AllocInv s) (own : ∀ x, m x ≠ s.ctx.memory x → s.Mine x) :
    AllocInv (s.store m) := by
  rcases inv with ⟨⟨unset, pos, brk, size⟩, none⟩ | ⟨free, ready⟩
  · exact Or.inl ⟨⟨unset, pos, brk, size⟩, none⟩
  · refine Or.inr ⟨free, ready.setMemory fun x changed => (own x changed).imp ?_ id⟩
    exact (ready.outside_iff x).mp

/-- The order in which pointers were taken does not matter. -/
theorem AllocInv.perm {ctx : MemCtx} {held held' : List HeldPtr} (inv : AllocInv ⟨ctx, held⟩)
    (same : held.Perm held') : AllocInv ⟨ctx, held'⟩ := by
  rcases inv with ⟨fresh, none⟩ | ⟨free, ready⟩
  · dsimp only at none
    rw [none] at same
    exact Or.inl ⟨fresh, List.nil_perm.mp same⟩
  · exact Or.inr ⟨free, ready.perm same⟩

theorem HeapMove.refl (inv : AllocInv s) : HeapMove s s := ⟨⟨inv, rfl, rfl, rfl⟩, fun _ _ _ => rfl⟩

theorem HeapStays.outside_iff (move : HeapStays s s') (x : ℕ) : s'.ctx.Outside x ↔ s.ctx.Outside x := by
  unfold MemCtx.Outside
  rw [move.lo, move.hi]

theorem HeapStays.trans (first : HeapStays s s') (second : HeapStays s' s'') : HeapStays s s'' :=
  ⟨second.inv, second.lo.trans first.lo, second.hi.trans first.hi, second.size.trans first.size⟩

/-- Stores to the guest's bytes leave the heap where it is. -/
theorem HeapStays.store {m : Bytes} (stays : HeapStays s s') (own : ∀ x, m x ≠ s'.ctx.memory x → s'.Mine x) :
    HeapStays s (s'.store m) :=
  stays.trans ⟨stays.inv.store own, (setUp_store s'.ctx m).1, (setUp_store s'.ctx m).2, rfl⟩

theorem HeapMove.trans (first : HeapMove s s') (second : HeapMove s' s'')
    (between : ∀ x, s.Mine x → s''.Mine x → s'.Mine x) : HeapMove s s'' where
  inv := second.inv
  lo := second.lo.trans first.lo
  hi := second.hi.trans first.hi
  size := second.size.trans first.size
  frame x start stop :=
    (second.frame x (between x start stop) stop).trans (first.frame x start (between x start stop))

/-- Stores to bytes that are the guest's now and were not before. -/
theorem HeapMove.store {m : Bytes} (move : HeapMove s s')
    (own : ∀ x, m x ≠ s'.ctx.memory x → s'.Mine x ∧ ¬ s.Mine x) : HeapMove s (s'.store m) where
  toHeapStays := move.toHeapStays.store fun x changed => (own x changed).1
  frame x mine after := by
    refine Eq.trans ?_ (move.frame x mine ((GuestHeap.mine_store s' m x).mp after))
    by_contra changed
    exact (own x changed).2 mine

/-- What is held longer stays the guest's. -/
theorem HeapStays.mine_of_subset (move : HeapStays s s') (more : ∀ h ∈ s.held, h ∈ s'.held) {x : ℕ}
    (mine : s.Mine x) : s'.Mine x :=
  mine.imp (move.outside_iff x).mpr fun ⟨h, held, owns⟩ => ⟨h, more h held, owns⟩

/-- A pointer that is held lies in the lower half of the address space. -/
theorem AllocInv.bounds (inv : AllocInv s) (held : h ∈ s.held) : 24 ≤ h.ptr ∧ h.ptr + h.size ≤ 2 ^ 31 := by
  obtain ⟨free, ready⟩ := inv.ready held
  have place := ready.held h held
  have room := place.room
  have low := place.raw_le
  have aligned := (ready.heap.shape h.block (List.mem_append_right _ (Ready.mem_blocks held))).1
  obtain ⟨lo, hi⟩ := ready.inside held
  have small := ready.heap.hi_le
  have pos := ready.heap.lo_pos
  unfold HeldPtr.raw hdrSize at low
  exact ⟨by omega, by omega⟩

theorem AllocInv.plain (inv : AllocInv s) (held : h ∈ s.held) (plain : h.alignment = hdrSize) :
    h.ptr = h.raw := by
  obtain ⟨free, ready⟩ := inv.ready held
  exact (ready.held h held).plain (Nat.le_of_eq plain)

theorem AllocInv.owns (inv : AllocInv s) (held : h ∈ s.held) {i : ℕ} (lt : i < h.size) : h.Owns (h.ptr + i) := by
  obtain ⟨free, ready⟩ := inv.ready held
  have room := (ready.held h held).room
  exact ⟨by omega, by omega⟩

/-- An address behind one pointer is behind no other and not outside the heap. -/
theorem AllocInv.eq_of_owns {k : HeldPtr} {x : ℕ} (inv : AllocInv s) (held : h ∈ s.held) (held' : k ∈ s.held)
    (owns : h.Owns x) (owns' : k.Owns x) : h = k := by
  obtain ⟨free, ready⟩ := inv.ready held
  obtain ⟨start, stop⟩ := ready.payload_of_owns held owns
  obtain ⟨start', stop'⟩ := ready.payload_of_owns held' owns'
  exact ready.eq_of_has held held' ⟨by omega, stop⟩ ⟨by omega, stop'⟩

theorem AllocInv.not_outside {x : ℕ} (inv : AllocInv s) (held : h ∈ s.held) (owns : h.Owns x) :
    ¬ s.ctx.Outside x := by
  obtain ⟨free, ready⟩ := inv.ready held
  obtain ⟨start, stop⟩ := ready.payload_of_owns held owns
  obtain ⟨lo, hi⟩ := ready.inside held
  rw [ready.outside_iff]
  omega

/-- A pointer that is held before and after keeps its contents. -/
theorem HeapMove.keeps (move : HeapMove s s') (inv : AllocInv s) (held : h ∈ s.held) (held' : h ∈ s'.held) {i : ℕ}
    (lt : i < h.size) : s'.ctx.memory (h.ptr + i) = s.ctx.memory (h.ptr + i) :=
  move.frame _ (Or.inr ⟨h, held, inv.owns held lt⟩) (Or.inr ⟨h, held', inv.owns held lt⟩)

/-- The heap lies in the memory. -/
theorem HeapStays.hi_le (stays : HeapStays s s') (bounds : HostBounds s.ctx) (ready : Ready s' free) :
    s'.ctx.allocHi ≤ s'.ctx.memorySize ∧ s'.ctx.memorySize ≤ 2 ^ 31 := by
  have set := ready.heap.lo_lt
  have hi := stays.hi
  have after : HostBounds s.ctx.setUp ∧ s.ctx.setUp.memorySize = s.ctx.memorySize := by
    unfold MemCtx.setUp
    rcases init : allocInitLocked s.ctx with _ | ctx
    · exact ⟨bounds, rfl⟩
    · exact bounds.allocInitLocked init
  have half := (after.1.heap (by rw [← hi, ready.setUp_eq]; omega)).2
  have small := bounds.size
  rw [ready.setUp_eq] at hi
  rw [stays.size]
  omega

/-- A pointer that is held lies in the memory. -/
theorem HeapStays.in_memory (stays : HeapStays s s') (bounds : HostBounds s.ctx) (held : h ∈ s'.held) :
    h.ptr + h.size ≤ s'.ctx.memorySize ∧ s'.ctx.memorySize ≤ 2 ^ 31 := by
  obtain ⟨free, ready⟩ := stays.inv.ready held
  have room := (ready.held h held).room
  have top := (ready.inside held).2
  have whole := stays.hi_le bounds ready
  omega

/-- The addresses behind a pointer that was not held before were not the guest's. -/
theorem HeapStays.not_mine {e : List HeldPtr} {ctx : MemCtx} {x : ℕ} (stays : HeapStays s ⟨ctx, e ++ s.held⟩)
    (mem : h ∈ e) (owns : h.Owns x) : ¬ s.Mine x := by
  have held : h ∈ e ++ s.held := List.mem_append_left _ mem
  rintro (out | ⟨k, held', owns'⟩)
  · exact stays.inv.not_outside held owns ((stays.outside_iff x).mpr out)
  · obtain ⟨free, ready⟩ := stays.inv.ready held
    have same := stays.inv.eq_of_owns held (List.mem_append_right e held') owns owns'
    exact (List.nodup_append.mp ready.nodup).2.2 h mem k held' same

/-- Stores to what was allocated since. -/
theorem HeapMove.fillNew {e : List HeldPtr} {ctx : MemCtx} {m : Bytes} (move : HeapMove s ⟨ctx, e ++ s.held⟩)
    (own : ∀ x, m x ≠ ctx.memory x → ∃ h ∈ e, h.Owns x) :
    HeapMove s ⟨{ ctx with memory := m }, e ++ s.held⟩ := by
  refine move.store (m := m) fun x changed => ?_
  obtain ⟨h, mem, owns⟩ := own x changed
  exact ⟨Or.inr ⟨h, List.mem_append_left _ mem, owns⟩, move.not_mine mem owns⟩

/-- Another allocation. -/
theorem Allocated.after {e : List HeldPtr} {ctx ctx' : MemCtx} {new : HeldPtr} {size : ℕ}
    (done : Allocated ⟨ctx, e ++ s.held⟩ size ctx' new) (move : HeapMove s ⟨ctx, e ++ s.held⟩) :
    HeapMove s ⟨ctx', (new :: e) ++ s.held⟩ :=
  move.trans done.move fun _ mine _ => move.mine_of_subset (fun _ => List.mem_append_right e) mine

end Mine

/-! ## `yos_malloc` -/

section Malloc

variable {s : GuestHeap} {size : ℕ}

/-- `alloc_init_locked` stores a header at `alloc_lo`. -/
theorem allocInitLocked_keeps {ctx ctx' : MemCtx} (init : allocInitLocked ctx = some ctx')
    (wide : ctx'.allocLo + 8 ≤ ctx'.allocHi) : ctx'.memorySize = ctx.memorySize ∧
      (ctx.allocHi = 0 → ∀ x, x < ctx'.allocLo ∨ ctx'.allocHi ≤ x → ctx'.memory x = ctx.memory x) := by
  unfold allocInitLocked blkSetNext blkSetSize at init
  dsimp only at init
  split_ifs at init with set room
  · cases init
    exact ⟨rfl, fun unset => absurd unset set⟩
  · cases init
    dsimp only at wide ⊢
    refine ⟨rfl, fun _ x out => ?_⟩
    rw [write32_apply_of_disjoint (by omega), write32_apply_of_disjoint (by omega)]

/-- The first request sets the heap up, if there is room for one. -/
theorem AllocInv.setUp_move (inv : AllocInv s) : HeapMove s ⟨s.ctx.setUp, s.held⟩ := by
  rcases inv with ⟨fresh, none⟩ | ⟨free, ready⟩
  · rcases init : allocInitLocked s.ctx with _ | ctx
    · have same : s.ctx.setUp = s.ctx := by
        unfold MemCtx.setUp
        rw [init]
        rfl
      rw [same]
      exact .refl (Or.inl ⟨fresh, none⟩)
    · have made : s.ctx.setUp = ctx := by
        unfold MemCtx.setUp
        rw [init]
        rfl
      have ready := (fresh.setUp none init).1
      have again : ctx.setUp = ctx := ready.setUp_eq
      have long := ready.heap.long (b := ⟨ctx.allocLo, ctx.allocHi - ctx.allocLo⟩) (by simp)
      dsimp only at long
      obtain ⟨size, keeps⟩ := allocInitLocked_keeps init (by omega)
      rw [made]
      refine ⟨⟨Or.inr ⟨_, ready⟩, by rw [again, made], by rw [again, made], size⟩, fun x mine _ => ?_⟩
      rcases mine with out | ⟨h, held, -⟩
      · unfold MemCtx.Outside at out
        rw [made] at out
        exact keeps fresh.unset x out
      · rw [none] at held
        cases held
  · rw [ready.setUp_eq]
    exact .refl (Or.inr ⟨free, ready⟩)

theorem Ready.malloc_cases {free : List Span} (ready : Ready s free) (fits : Fits size) :
    Yos.yosMalloc s.ctx size = (s.ctx, 0) ∨ ∃ ctx' new, Allocated s size ctx' new := by
  rcases ready.yosMalloc size with eq | ⟨ctx', free', t, done, taken⟩
  · exact Or.inl eq
  · have room := done.room fits
    have after := done.ready (n := size) room
    obtain ⟨m, head, rfl⟩ := taken.bounds
    refine Or.inr ⟨_, ⟨t, t.addr + 8, size, hdrSize⟩, done.eq, done.block.symm, rfl, rfl,
      ⟨⟨Or.inr ⟨free', after⟩, ?_, ?_, rfl⟩, fun x mine _ => taken.frame x (ready.cover_mine mine)⟩,
      fun x owns mine => ?_⟩
    · rw [after.setUp_eq, ready.setUp_eq]
    · rw [after.setUp_eq, ready.setUp_eq]
    · have free := ready.cover_mine mine
      have parts := taken.parts x
      have has : t.Has x := ⟨(Nat.le_add_right _ _).trans owns.1, owns.2⟩
      rw [free, hit_eq_one_iff.mpr has] at parts
      omega

/-- The first request sets the heap up, or it has no room for one and every request fails. -/
theorem AllocInv.setUp_cases (inv : AllocInv s) :
    (s.ctx.setUp.allocHi = 0 ∧ ∀ size, Yos.yosMalloc s.ctx size = (s.ctx, 0)) ∨
      (∃ free, Ready ⟨s.ctx.setUp, s.held⟩ free) ∧
        ∀ size, Yos.yosMalloc s.ctx size = Yos.yosMalloc s.ctx.setUp size := by
  rcases inv with ⟨fresh, none⟩ | ⟨free, ready⟩
  · unfold MemCtx.setUp
    rcases init : allocInitLocked s.ctx with _ | ctx
    · refine Or.inl ⟨fresh.unset, fun size => ?_⟩
      unfold Yos.yosMalloc
      rw [init]
    · obtain ⟨ready, same⟩ := fresh.setUp none init
      exact Or.inr ⟨⟨_, ready⟩, same⟩
  · rw [ready.setUp_eq]
    exact Or.inr ⟨⟨free, ready⟩, fun _ => rfl⟩

/-- `yos_malloc` fails, or hands out a pointer to bytes that were not the guest's. -/
theorem AllocInv.malloc_cases (inv : AllocInv s) (fits : Fits size) :
    (∃ ctx', Yos.yosMalloc s.ctx size = (ctx', 0) ∧ HeapMove s ⟨ctx', s.held⟩) ∨
      ∃ ctx' new, Allocated s size ctx' new := by
  have setUp := inv.setUp_move
  rcases inv.setUp_cases with ⟨-, fails⟩ | ⟨⟨free, ready⟩, same⟩
  · exact Or.inl ⟨_, fails size, .refl inv⟩
  · rcases ready.malloc_cases fits with eq | ⟨ctx', new, done⟩
    · exact Or.inl ⟨_, (same size).trans eq, setUp⟩
    · have mine (x : ℕ) (at_start : s.Mine x) : (⟨s.ctx.setUp, s.held⟩ : GuestHeap).Mine x :=
        setUp.mine_of_subset (fun _ => id) at_start
      have block : mallocBlock s.ctx size = mallocBlock s.ctx.setUp size := by
        unfold mallocBlock
        rw [same]
      refine Or.inr ⟨ctx', new, (same size).trans done.eq, done.block.trans block.symm, done.asked, done.plain,
        setUp.trans done.move fun x start _ => mine x start, fun x owns start => ?_⟩
      exact done.apart x owns (mine x start)

theorem Allocated.ptr_ne {ctx' : MemCtx} {new : HeldPtr} (done : Allocated s size ctx' new) : new.ptr ≠ 0 := by
  have low := (done.move.inv.bounds List.mem_cons_self).1
  omega

end Malloc

/-! ## `yos_free` and `yos_realloc` -/

section Free

variable {s : GuestHeap} {h : HeldPtr} {newsize : ℕ}

/-- `yos_free` of a pointer that is held returns. -/
theorem AllocInv.free_move (inv : AllocInv s) (held : h ∈ s.held) :
    ∃ ctx', freeCall s.ctx h.ptr = some ctx' ∧ HeapMove s ⟨ctx', s.held.erase h⟩ := by
  obtain ⟨free, ready⟩ := inv.ready held
  have enough : free.length < 2 ^ 32 := by
    have count := ready.heap.length_lt
    have small := ready.heap.hi_le
    omega
  obtain ⟨ctx', free', eq, after, given⟩ := ready.yosFree held enough
  obtain ⟨m, head, rfl⟩ := given.bounds
  refine ⟨_, eq, ⟨Or.inr ⟨free', after⟩, ?_, ?_, rfl⟩, fun x before mine => ?_⟩
  · rw [after.setUp_eq, ready.setUp_eq]
  · rw [after.setUp_eq, ready.setUp_eq]
  · refine given.frame x (ready.cover_mine before) fun has => ?_
    have none := after.cover_mine mine
    have joins := given.joins x
    rw [hit_eq_one_iff.mpr has] at joins
    omega

theorem freeCall_zero (ctx : MemCtx) : freeCall ctx 0 = some ctx := by
  unfold freeCall yosFree
  rw [if_pos rfl]

/-- `yos_realloc` fails, or hands out a pointer to a block that starts with the old contents. -/
theorem AllocInv.realloc_cases (inv : AllocInv s) (held : h ∈ s.held) (plain : h.alignment = hdrSize)
    (pos : newsize ≠ 0) (fits : Fits newsize) :
    (reallocCall s.ctx h.ptr newsize = some (s.ctx, 0) ∧ h.block.len < newsize + hdrSize ∧
        (Yos.yosMalloc s.ctx newsize).2 = 0) ∨
      ∃ ctx' new, Resized s h newsize ctx' new := by
  obtain ⟨free, ready⟩ := inv.ready held
  have start : h.ptr = h.raw := (ready.held h held).plain (Nat.le_of_eq plain)
  unfold reallocCall
  by_cases fit : newsize + hdrSize ≤ h.block.len
  · have shrunk := ready.shrink held fit
    refine Or.inr ⟨s.ctx, ⟨h.block, h.raw, newsize, hdrSize⟩, ?_, (if_pos fit).symm, Or.inl fit, rfl, rfl,
      ⟨⟨Or.inr ⟨free, shrunk⟩, rfl, rfl, rfl⟩, fun _ _ _ => rfl⟩, fun i _ _ => ?_, Or.inl ⟨rfl, start.symm, rfl⟩⟩
    · unfold reallocCall
      rw [ready.yosRealloc_eq held pos, if_pos fit]
    · dsimp only
      rw [start]
  · rcases ready.malloc_cases fits with eq | ⟨ctx₁, new, done⟩
    · left
      refine ⟨?_, Nat.lt_of_not_le fit, by rw [eq]⟩
      rw [ready.yosRealloc_eq held pos, if_neg fit, eq]
      rfl
    · have differ : new ≠ h := by
        rintro rfl
        have long := ready.heap.long (List.mem_append_right free (Ready.mem_blocks held))
        have owns : new.Owns new.ptr := ⟨le_rfl, by rw [start]; unfold HeldPtr.raw fin hdrSize; omega⟩
        exact done.apart _ owns (Or.inr ⟨_, held, owns⟩)
      have payload : h.size ≤ h.block.len - hdrSize := by
        have room := (ready.held h held).room
        rw [start] at room
        unfold HeldPtr.raw fin at room
        omega
      -- the payload of the old block is copied to the new one, which it is smaller than
      let copied := ctx₁.memory.copy new.ptr h.raw (h.block.len - hdrSize)
      have inv₂ : AllocInv (GuestHeap.store ⟨ctx₁, new :: s.held⟩ copied) := by
        refine done.move.inv.store fun x changed => Or.inr ⟨new, List.mem_cons_self, ?_⟩
        have inside : new.ptr ≤ x ∧ x < new.ptr + (h.block.len - hdrSize) := by
          by_contra out
          exact changed (copy_of_not_mem out)
        have owns := done.move.inv.owns (h := new) List.mem_cons_self (i := x - new.ptr) (by rw [done.asked]; omega)
        rwa [Nat.add_sub_cancel' inside.1] at owns
      obtain ⟨ctx', freed, move⟩ := inv₂.free_move (h := h) (List.mem_cons_of_mem new held)
      have left : (new :: s.held).erase h = new :: s.held.erase h := List.erase_cons_tail (by simpa using differ)
      unfold GuestHeap.store at freed move
      dsimp only at freed move
      rw [left] at move
      have bounds := setUp_store ctx₁ copied
      refine Or.inr ⟨ctx', new, ?_, done.block.trans (if_neg fit).symm,
        Or.inr (by rw [done.eq]; exact done.ptr_ne), done.asked, done.plain,
        ⟨⟨move.inv, move.lo.trans (bounds.1.trans done.move.lo),
        move.hi.trans (bounds.2.trans done.move.hi), move.size.trans done.move.size⟩, fun x before after => ?_⟩,
        fun i here lt => ?_, Or.inr done.apart⟩
      · have ne := done.ptr_ne
        unfold reallocCall
        unfold freeCall at freed
        rw [ready.yosRealloc_eq held pos, if_neg fit, done.eq]
        dsimp only
        rw [if_neg ne, ← start]
        rw [start] at freed ⊢
        rw [freed]
        rfl
      · have later : (⟨ctx₁, new :: s.held⟩ : GuestHeap).Mine x :=
          done.move.mine_of_subset (fun _ => List.mem_cons_of_mem new) before
        rw [move.frame x ((GuestHeap.mine_store ⟨ctx₁, new :: s.held⟩ copied x).mpr later) after]
        refine Eq.trans (copy_of_not_mem fun inside => ?_) (done.move.frame x before later)
        have owns := done.move.inv.owns (h := new) List.mem_cons_self (i := x - new.ptr) (by rw [done.asked]; omega)
        rw [Nat.add_sub_cancel' inside.1] at owns
        exact done.apart x owns before
      · have own := done.move.inv.owns (h := new) List.mem_cons_self (i := i) (by rw [done.asked]; exact lt)
        have old : s.Mine (h.ptr + i) := Or.inr ⟨h, held, inv.owns held here⟩
        rw [move.frame _ (Or.inr ⟨new, List.mem_cons_self, own⟩) (Or.inr ⟨new, List.mem_cons_self, own⟩)]
        refine Eq.trans (copy_of_lt (by omega)) ?_
        rw [← start]
        exact done.move.frame _ old (done.move.mine_of_subset (fun _ => List.mem_cons_of_mem new) old)

end Free

/-! ## The blocks are determined by the heap -/

section Unique

variable {ctx ctx₁ ctx₂ : MemCtx} {held held' extra : List HeldPtr} {free free₁ free₂ : List Span}

/-- A free block and a block that is held start with their length. -/
theorem HeapInv.header_of_mem {live : List Span} {b : Span} (inv : HeapInv ctx free live)
    (mem : b ∈ free ++ live) : ctx.memory.read32 b.addr = b.len := by
  rcases List.mem_append.1 mem with mem | mem
  · obtain ⟨pre, post, rfl⟩ := List.append_of_mem mem
    obtain ⟨_, -, -, -, size, -⟩ := FreeSeg.append.1 inv.list
    exact size
  · exact inv.header b mem

/-- Two tilings of the heap have the same blocks: walking up from `alloc_lo`, each header says where the next
block starts. -/
theorem HeapInv.mem_unique {live live' : List Span} {b : Span} (inv : HeapInv ctx free live)
    (inv' : HeapInv ctx free live') (mem : b ∈ free ++ live) : b ∈ free ++ live' := by
  have general : ∀ n, ∀ {l l' : List Span}, HeapInv ctx free l → HeapInv ctx free l' → ∀ b ∈ free ++ l,
      b.addr = n → b ∈ free ++ l' := by
    intro n
    induction n using Nat.strong_induction_on with
    | _ n ih =>
      intro l l' inv inv' b mem at_n
      have long := inv.long mem
      obtain ⟨c, mem', has⟩ := (inv'.has_iff b.addr).2 ((inv.has_iff b.addr).1 ⟨b, mem, le_rfl, by omega⟩)
      have start : c.addr ≤ b.addr := has.1
      rcases Nat.lt_or_eq_of_le start with below | same
      · have both := ih c.addr (by omega) inv' inv c mem' rfl
        have other : c ≠ b := fun eq => absurd below (by rw [eq]; exact Nat.lt_irrefl _)
        exact absurd ⟨has, le_rfl, by omega⟩ (inv.pairwise.forall both mem other b.addr)
      · have len := inv.header_of_mem mem
        rw [← same, inv'.header_of_mem mem'] at len
        have eq : c = b := by
          cases b
          cases c
          simp_all
        rw [← eq]
        exact mem'
  exact general b.addr inv inv' b mem rfl

/-- The blocks that are held are determined by the heap. -/
theorem AllocInv.block_unique {h : HeldPtr} (inv : AllocInv ⟨ctx, held⟩) (inv' : AllocInv ⟨ctx, held'⟩)
    (mem : h ∈ held) : ∃ k ∈ held', k.block = h.block := by
  obtain ⟨free, ready⟩ := inv.ready mem
  rcases inv' with ⟨fresh, -⟩ | ⟨free', ready'⟩
  · have set := ready.heap.lo_lt
    rw [fresh.unset] at set
    cases set
  · obtain rfl := ready.heap.list.unique ready'.heap.list
    have block : h.block ∈ free ++ GuestHeap.blocks ⟨ctx, held⟩ := List.mem_append_right _ (Ready.mem_blocks mem)
    rcases List.mem_append.1 (ready.heap.mem_unique ready'.heap block) with free | live
    · have long := ready.heap.long block
      have none := ready.heap.cover_free (Ready.mem_blocks mem) (x := h.block.addr) ⟨le_rfl, by omega⟩
      exact absurd (cover_pos_of_mem free ⟨le_rfl, by omega⟩) (by omega)
    · exact List.mem_map.mp live

/-- Pointers that are not given back are missing from the heap. -/
theorem AllocInv.held_unique (inv : AllocInv ⟨ctx, extra ++ held⟩) (inv' : AllocInv ⟨ctx, held⟩) : extra = [] := by
  cases extra with
  | nil => rfl
  | cons h extra =>
    obtain ⟨free, ready⟩ := inv.ready (h := h) (by simp)
    obtain ⟨k, mem, same⟩ := inv.block_unique inv' (h := h) (by simp)
    have long := ready.heap.long (List.mem_append_right free (Ready.mem_blocks (h := h) (by simp)))
    have first : k = h := by
      refine ready.eq_of_has (x := h.block.addr) (by simp [mem]) (by simp) ?_ ⟨le_rfl, by omega⟩
      rw [same]
      exact ⟨le_rfl, by omega⟩
    have nodup := ready.nodup
    rw [first] at mem
    simp [mem] at nodup

/-- What is held determines the free blocks. -/
theorem Ready.free_unique (ready : Ready ⟨ctx₁, held⟩ free₁) (ready' : Ready ⟨ctx₂, held⟩ free₂)
    (lo : ctx₁.allocLo = ctx₂.allocLo) (hi : ctx₁.allocHi = ctx₂.allocHi) : free₁ = free₂ := by
  refine ready.heap.free_eq ready'.heap.gaps (fun f mem => ?_) fun x => ?_
  · have := ready'.heap.long (b := f) (List.mem_append_left _ mem)
    omega
  · have tiles := ready.heap.tiles x
    have tiles' := ready'.heap.tiles x
    dsimp only at tiles tiles'
    rw [lo, hi, ← tiles', cover_append, cover_append] at tiles
    exact Nat.add_right_cancel tiles

/-- Heaps with the same blocks answer a request alike, whatever the blocks hold. -/
theorem Ready.malloc_congr (ready : Ready ⟨ctx₁, held⟩ free₁) (ready' : Ready ⟨ctx₂, held⟩ free₂)
    (lo : ctx₁.allocLo = ctx₂.allocLo) (hi : ctx₁.allocHi = ctx₂.allocHi) (size : ℕ) :
    (Yos.yosMalloc ctx₁ size).2 = (Yos.yosMalloc ctx₂ size).2 ∧
      ((Yos.yosMalloc ctx₁ size).2 ≠ 0 → mallocBlock ctx₁ size = mallocBlock ctx₂ size) := by
  obtain rfl := ready.free_unique ready' lo hi
  obtain ⟨aligned, large⟩ := mallocNeed_shape size
  have unfolded {c : MemCtx} (init : allocInitLocked c = some c) :
      Yos.yosMalloc c size = Yos.doAlloc c (mallocNeed size) := by
    unfold Yos.yosMalloc
    rw [init]
  have eq₁ := unfolded ready.heap.allocInitLocked
  have eq₂ := unfolded ready'.heap.allocInitLocked
  rcases found : firstFit (mallocNeed size) (2 ^ 22) free₁ with _ | ⟨skip, b, post⟩
  · rw [eq₁, eq₂, ready.heap.doAlloc_of_none found, ready'.heap.doAlloc_of_none found]
    exact ⟨rfl, fun none => absurd rfl none⟩
  · obtain ⟨c₁, taken₁, heap₁, -⟩ := ready.heap.doAlloc_of_fit aligned large found
    obtain ⟨c₂, taken₂, heap₂, -⟩ := ready'.heap.doAlloc_of_fit aligned large found
    rw [← carveTaken_addr (mallocNeed size) b] at taken₁ taken₂
    dsimp only at eq₁ eq₂ taken₁ taken₂
    refine ⟨by rw [eq₁, eq₂, taken₁, taken₂], fun _ => ?_⟩
    rw [mallocBlock_of_eq (eq₁.trans taken₁) heap₁, mallocBlock_of_eq (eq₂.trans taken₂) heap₂]

/-- A pointer of `yos_malloc` is determined by its block and the bytes asked for. -/
theorem HeldPtr.eq_of_block {h k : HeldPtr} (raw : h.ptr = h.raw) (raw' : k.ptr = k.raw)
    (block : h.block = k.block) (size : h.size = k.size) (alignment : h.alignment = k.alignment) : h = k := by
  cases h
  cases k
  unfold HeldPtr.raw at raw raw'
  simp_all

/-- Heaps with the same blocks answer a request with the same pointer. -/
theorem AllocInv.malloc_congr {size : ℕ} (inv : AllocInv ⟨ctx₁, held⟩) (inv' : AllocInv ⟨ctx₂, held⟩)
    (lo : ctx₁.setUp.allocLo = ctx₂.setUp.allocLo) (hi : ctx₁.setUp.allocHi = ctx₂.setUp.allocHi)
    (fits : Fits size) :
    ((Yos.yosMalloc ctx₁ size).2 = 0 ∧ (Yos.yosMalloc ctx₂ size).2 = 0) ∨
      ∃ ctx₁' ctx₂' new, Allocated ⟨ctx₁, held⟩ size ctx₁' new ∧ Allocated ⟨ctx₂, held⟩ size ctx₂' new := by
  have setUp : ((Yos.yosMalloc ctx₁ size).2 = 0 ∧ (Yos.yosMalloc ctx₂ size).2 = 0) ∨
      (Yos.yosMalloc ctx₁ size).2 = (Yos.yosMalloc ctx₂ size).2 ∧
        ((Yos.yosMalloc ctx₁ size).2 ≠ 0 → mallocBlock ctx₁ size = mallocBlock ctx₂ size) := by
    rcases inv.setUp_cases with ⟨unset, fails⟩ | ⟨⟨free₁, ready⟩, same⟩ <;>
      rcases inv'.setUp_cases with ⟨unset', fails'⟩ | ⟨⟨free₂, ready'⟩, same'⟩ <;> dsimp only at *
    · rw [fails, fails']
      exact Or.inl ⟨rfl, rfl⟩
    · have set := ready'.heap.lo_lt
      dsimp only at set
      omega
    · have set := ready.heap.lo_lt
      dsimp only at set
      omega
    · right
      unfold mallocBlock
      rw [same, same']
      exact ready.malloc_congr ready' lo hi size
  rcases setUp with fails | ⟨ptr, block⟩
  · exact Or.inl fails
  · rcases inv.malloc_cases fits with ⟨_, none, -⟩ | ⟨ctx₁', new, done⟩
    · dsimp only at none
      rw [none] at ptr ⊢
      exact Or.inl ⟨rfl, ptr.symm⟩
    · have ne : (Yos.yosMalloc ctx₁ size).2 ≠ 0 := by
        have eq := done.eq
        dsimp only at eq
        rw [eq]
        exact done.ptr_ne
      rcases inv'.malloc_cases fits with ⟨_, none, -⟩ | ⟨ctx₂', new', done'⟩
      · dsimp only at none
        rw [none] at ptr
        exact absurd ptr ne
      · have same : new = new' :=
          HeldPtr.eq_of_block (done.move.inv.plain List.mem_cons_self done.plain)
            (done'.move.inv.plain List.mem_cons_self done'.plain)
            (done.block.trans ((block ne).trans done'.block.symm)) (done.asked.trans done'.asked.symm)
            (done.plain.trans done'.plain.symm)
        rw [← same] at done'
        exact Or.inr ⟨ctx₁', ctx₂', new, done, done'⟩

/-- Heaps with the same blocks answer `yos_realloc` alike, whatever the blocks hold. -/
theorem AllocInv.realloc_congr {h : HeldPtr} {newsize : ℕ} (inv : AllocInv ⟨ctx₁, held⟩)
    (inv' : AllocInv ⟨ctx₂, held⟩) (lo : ctx₁.setUp.allocLo = ctx₂.setUp.allocLo)
    (hi : ctx₁.setUp.allocHi = ctx₂.setUp.allocHi) (mem : h ∈ held) (plain : h.alignment = hdrSize)
    (pos : newsize ≠ 0) (fits : Fits newsize) :
    (reallocCall ctx₁ h.ptr newsize = some (ctx₁, 0) ∧ reallocCall ctx₂ h.ptr newsize = some (ctx₂, 0)) ∨
      ∃ ctx₁' ctx₂' new, Resized ⟨ctx₁, held⟩ h newsize ctx₁' new ∧ Resized ⟨ctx₂, held⟩ h newsize ctx₂' new := by
  obtain ⟨free₁, ready⟩ := inv.ready mem
  obtain ⟨free₂, ready'⟩ := inv'.ready mem
  have set := ready.setUp_eq
  have set' := ready'.setUp_eq
  dsimp only at set set'
  rw [set, set'] at lo hi
  obtain ⟨ptr, block⟩ := ready.malloc_congr ready' lo hi newsize
  rcases inv.realloc_cases mem plain pos fits with ⟨fails, larger, none⟩ | ⟨ctx₁', new, done⟩
  · rcases inv'.realloc_cases mem plain pos fits with ⟨fails', -⟩ | ⟨ctx₂', new', done'⟩
    · exact Or.inl ⟨fails, fails'⟩
    · refine absurd none ?_
      dsimp only
      rw [ptr]
      exact done'.room.resolve_left (Nat.not_le.mpr larger)
  · rcases inv'.realloc_cases mem plain pos fits with ⟨-, larger, none⟩ | ⟨ctx₂', new', done'⟩
    · refine absurd none ?_
      dsimp only
      rw [← ptr]
      exact done.room.resolve_left (Nat.not_le.mpr larger)
    · right
      have blocks : new.block = new'.block := by
        rw [done.block, done'.block]
        unfold resizedBlock
        split_ifs with fit
        · rfl
        · exact block (done.room.resolve_left fit)
      have same : new = new' :=
        HeldPtr.eq_of_block (done.move.inv.plain List.mem_cons_self done.plain)
          (done'.move.inv.plain List.mem_cons_self done'.plain) blocks (done.asked.trans done'.asked.symm)
          (done.plain.trans done'.plain.symm)
      rw [← same] at done'
      exact ⟨ctx₁', ctx₂', new, done, done'⟩

/-- How many of the requests are served before the first that fails. -/
def servedCount (ctx : MemCtx) : List ℕ → ℕ
  | [] => 0
  | size :: rest => if (Yos.yosMalloc ctx size).2 = 0 then 0 else servedCount (Yos.yosMalloc ctx size).1 rest + 1

theorem servedCount_of_zero {size : ℕ} {rest : List ℕ} (zero : (Yos.yosMalloc ctx size).2 = 0) :
    servedCount ctx (size :: rest) = 0 := if_pos zero

theorem servedCount_of_allocated {s : GuestHeap} {size : ℕ} (rest : List ℕ) {ctx' : MemCtx} {new : HeldPtr}
    (done : Allocated s size ctx' new) : servedCount s.ctx (size :: rest) = servedCount ctx' rest + 1 := by
  rw [servedCount, done.eq]
  exact if_neg done.ptr_ne

/-- Heaps with the same blocks serve the same requests, whatever the blocks hold. -/
theorem AllocInv.servedCount_congr {sizes : List ℕ} (inv : AllocInv ⟨ctx₁, held⟩) (inv' : AllocInv ⟨ctx₂, held⟩)
    (lo : ctx₁.setUp.allocLo = ctx₂.setUp.allocLo) (hi : ctx₁.setUp.allocHi = ctx₂.setUp.allocHi)
    (fits : ∀ size ∈ sizes, Fits size) : servedCount ctx₁ sizes = servedCount ctx₂ sizes := by
  induction sizes generalizing ctx₁ ctx₂ held with
  | nil => rfl
  | cons size rest ih =>
    obtain ⟨fit, fits⟩ := List.forall_mem_cons.mp fits
    rcases inv.malloc_congr inv' lo hi fit with ⟨zero, zero'⟩ | ⟨ctx₁', ctx₂', new, done, done'⟩
    · rw [servedCount_of_zero zero, servedCount_of_zero zero']
    · have count := servedCount_of_allocated rest done
      have count' := servedCount_of_allocated rest done'
      dsimp only at count count'
      rw [count, count', ih done.move.inv done'.move.inv (done.move.lo.trans (lo.trans done'.move.lo.symm))
        (done.move.hi.trans (hi.trans done'.move.hi.symm)) fits]

end Unique

end Yos
