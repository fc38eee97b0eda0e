import Yos.Mem.Unmap

/-!
# Fresh mappings

A guest calls `yos_mmap2` and `yos_munmap` and writes in between to what it was handed out or what is
tracked as live (`guestSystem`).  The free table holds zeroed bytes only (`FreeZero`): what is freed
was zeroed by `yos_munmap`, nothing else adds a free byte, and the guest writes to no free one.  So a
range that is reused needs no clearing (`mmap_returns_zero`).
-/

namespace Yos

open Word Span

/-- Every free byte is zero. -/
def FreeZero (ctx : MemCtx) : Prop := ∀ x, 0 < cover ctx.freeList x → ctx.memory x = 0

section FreeZero

variable {ctx : MemCtx}

/-- Less free bytes, and bytes that stay or are zeroed. -/
theorem FreeZero.mono (zero : FreeZero ctx) {ctx' : MemCtx}
    (less : ∀ x, cover ctx'.freeList x ≤ cover ctx.freeList x)
    (bytes : ∀ x, ctx'.memory x = ctx.memory x ∨ ctx'.memory x = 0) : FreeZero ctx' := by
  intro x free
  rcases bytes x with same | cleared
  · rw [same]
    exact zero x (lt_of_lt_of_le free (less x))
  · exact cleared

variable {owned : Set ℕ}

theorem FreeZero.mmapFixedAt (zero : FreeZero ctx) (inv : MmapInv ctx owned) (addr length : ℕ) :
    FreeZero (mmapFixedAt ctx addr length).1 ∧
      ∀ r, (Yos.mmapFixedAt ctx addr length).2 = .ok r →
        ∀ x, Has ⟨r, length⟩ x → (Yos.mmapFixedAt ctx addr length).1.memory x = 0 := by
  by_cases beyond : ctx.memorySize < addr + length
  · rw [Yos.mmapFixedAt, if_pos beyond]
    exact ⟨zero, by simp⟩
  by_cases brk : addr < ctx.heapEnd
  · rw [Yos.mmapFixedAt, if_neg beyond, if_pos brk]
    exact ⟨zero, by simp⟩
  rw [Yos.mmapFixedAt, if_neg beyond, if_neg brk]
  obtain ⟨-, -, less, -⟩ := carveFreeRange_spec addr length inv.freeOk inv.freeLen
  refine ⟨zero.mono less fun x => Bytes.fill_eq_or _ _ _ 0 x, fun r mapped x inside => ?_⟩
  cases mapped
  exact Bytes.fill_of_mem inside

theorem FreeZero.mmapBump (zero : FreeZero ctx) (length : ℕ) :
    FreeZero (mmapBump ctx length).1 ∧
      ∀ r, (Yos.mmapBump ctx length).2 = .ok r →
        ∀ x, Has ⟨r, length⟩ x → (Yos.mmapBump ctx length).1.memory x = 0 := by
  unfold Yos.mmapBump
  dsimp only
  split_ifs with brk beyond
  · exact ⟨zero, by simp⟩
  · exact ⟨zero, by simp⟩
  · refine ⟨zero.mono (fun x => Nat.le_refl _) fun x => Bytes.fill_eq_or _ _ _ 0 x,
      fun r mapped x inside => ?_⟩
    cases mapped
    exact Bytes.fill_of_mem inside

/-- A reused range was free, and so it is zero already. -/
theorem FreeZero.mmapAnywhere (zero : FreeZero ctx) (inv : MmapInv ctx owned) (length : ℕ) :
    FreeZero (mmapAnywhere ctx length).1 ∧
      ∀ r, (Yos.mmapAnywhere ctx length).2 = .ok r →
        ∀ x, Has ⟨r, length⟩ x → (Yos.mmapAnywhere ctx length).1.memory x = 0 := by
  obtain ⟨-, -, less, taken⟩ := findFreeRegion_spec length inv.freeOk inv.freeLen
  unfold Yos.mmapAnywhere
  generalize findFreeRegion ctx.freeList length = found at *
  obtain ⟨free, result⟩ := found
  dsimp only at *
  by_cases reuse : result ≠ 0
  · rw [if_pos reuse]
    refine ⟨zero.mono less fun x => Or.inl rfl, fun r mapped x inside => zero x ?_⟩
    cases mapped
    have was_free := taken reuse x
    rw [hit_eq_one_iff.2 inside] at was_free
    omega
  · rw [if_neg reuse]
    refine FreeZero.mmapBump ?_ length
    split_ifs
    · exact zero.mono less fun x => Or.inl rfl
    · exact zero.mono less fun x => Or.inl rfl

theorem FreeZero.yosMmap2 (zero : FreeZero ctx) (inv : MmapInv ctx owned) (addr length flags : ℕ)
    (fd : ℤ) :
    FreeZero (yosMmap2 ctx addr length flags fd).1 ∧
      ∀ r, (Yos.yosMmap2 ctx addr length flags fd).2 = .ok r →
        ∀ x, Has ⟨r, pageAlign length⟩ x →
          (Yos.yosMmap2 ctx addr length flags fd).1.memory x = 0 := by
  unfold Yos.yosMmap2
  dsimp only
  split_ifs with anon range fixed
  · exact ⟨zero, by simp⟩
  · exact ⟨zero, by simp⟩
  · exact zero.mmapFixedAt inv addr (pageAlign length)
  · exact zero.mmapAnywhere inv (pageAlign length)

/-- What `yos_munmap` frees it has zeroed. -/
theorem FreeZero.yosMunmap (zero : FreeZero ctx) (inv : MmapInv ctx owned) (addr len : ℕ) :
    FreeZero (yosMunmap ctx addr len).1 := by
  rw [Yos.yosMunmap]
  split_ifs with range overlap
  · exact zero
  · exact zero
  obtain ⟨memory', -, -⟩ := munmapLoop_frees ctx.memory false
    (show addr < addr + pageAlign len by omega) inv.liveOk inv.freeOk inv.freeLen
  obtain ⟨-, -, freed, -⟩ := munmapLoop_spec addr (addr + pageAlign len) ctx.memory false
    inv.liveOk inv.freeOk inv.freeLen
  generalize munmapLoop addr (addr + pageAlign len) ctx.liveList ctx.memory ctx.freeList false =
    loop at *
  obtain ⟨memory, free, any⟩ := loop
  dsimp only at *
  intro x isFree
  dsimp only at isFree ⊢
  rw [memory' x]
  have source := freed x
  split_ifs at source ⊢ with both inside
  · rfl
  · rfl
  · exact zero x (by omega)
  · exact zero x (by omega)

end FreeZero

/-! ## The runs -/

/-- What a guest does: a call, or a write of one byte. -/
inductive GuestStep where
  | call (c : MmapCall)
  | write (x : ℕ) (v : UInt8)

/-- The guest owns what it was handed out and did not unmap, and what is tracked as live. -/
def MmapState.Owns (s : MmapState) (x : ℕ) : Prop := x ∈ s.owned ∨ 0 < cover s.ctx.liveList x

/-- The context after the write of a byte. -/
def MemCtx.poke (ctx : MemCtx) (x : ℕ) (v : UInt8) : MemCtx :=
  { ctx with memory := Function.update ctx.memory x v }

/-- The runs of `yos_mmap2`, `yos_munmap` and writes of the guest to what it owns. -/
def guestSystem : System MmapState GuestStep where
  init s := NoMappings s.ctx ∧ s.owned = ∅
  step s a s' :=
    match a with
    | .call c => s' = s.next c
    | .write x v => s.Owns x ∧ s' = { s with ctx := s.ctx.poke x v }

/-- The invariant of the runs with writes. -/
def FreshInv (s : MmapState) : Prop := MmapInv s.ctx s.owned ∧ FreeZero s.ctx

theorem FreshInv.call {s : MmapState} (inv : FreshInv s) (c : MmapCall) : FreshInv (s.next c) := by
  refine ⟨inv.1.next c, ?_⟩
  cases c with
  | mmap2 addr length flags fd => exact (inv.2.yosMmap2 inv.1 addr length flags fd).1
  | munmap addr len => exact inv.2.yosMunmap inv.1 addr len

/-- What the guest owns is not free. -/
theorem FreshInv.write {s : MmapState} (inv : FreshInv s) {x : ℕ} (owns : s.Owns x) (v : UInt8) :
    FreshInv { s with ctx := s.ctx.poke x v } := by
  refine ⟨{ inv.1 with }, fun y free => ?_⟩
  have other : y ≠ x := by
    rintro rfl
    have once := inv.1.once y
    rcases owns with owned | live
    · have := inv.1.notFree y owned
      exact absurd free (by unfold MemCtx.poke; dsimp only; omega)
    · exact absurd free (by unfold MemCtx.poke; dsimp only; omega)
  exact (Function.update_of_ne other v s.ctx.memory).trans (inv.2 y free)

theorem FreshInv.of_run {s : MmapState} (run : guestSystem.Reachable s) : FreshInv s := by
  refine run.invariant (I := FreshInv) (fun s start => ⟨?_, fun x free => ?_⟩) ?_
  · rw [start.2]
    exact mmapInv_init start.1
  · rw [start.1.1] at free
    exact absurd free (Nat.lt_irrefl 0)
  · intro s a s' inv step
    cases a with
    | call c =>
      rw [show s' = s.next c from step]
      exact inv.call c
    | write x v =>
      rw [step.2]
      exact inv.write step.1 v

/-- A mapping is all zero when it is handed out, whether its range is cleared or reused. -/
theorem mmap_returns_zero {s : MmapState} (run : guestSystem.Reachable s) {addr length flags r : ℕ}
    {fd : ℤ} (mapped : (yosMmap2 s.ctx addr length flags fd).2 = .ok r) :
    ∀ x, Has ⟨r, pageAlign length⟩ x → (yosMmap2 s.ctx addr length flags fd).1.memory x = 0 := by
  have inv := FreshInv.of_run run
  exact (inv.2.yosMmap2 inv.1 addr length flags fd).2 r mapped

/-- A page that was written to and unmapped. -/
def usedPage : MmapState :=
  MmapState.next { onePage with ctx := onePage.ctx.poke 0x200000 7 } (.munmap 0x200000 4096)

theorem mmap_returns_zero_used_page :
    usedPage.ctx.freeList = [⟨0x200000, 4096⟩] ∧
      (yosMmap2 usedPage.ctx 0 4096 0x22 (-1)).2 = .ok 0x200000 ∧
      ∀ x, Has ⟨0x200000, pageAlign 4096⟩ x →
        (yosMmap2 usedPage.ctx 0 4096 0x22 (-1)).1.memory x = 0 := by
  have mapped : (yosMmap2 usedPage.ctx 0 4096 0x22 (-1)).2 = .ok 0x200000 := by decide
  have start : guestSystem.Reachable ⟨.blank (2 ^ 22) 0x50000, ∅⟩ :=
    .start ⟨⟨rfl, rfl, rfl, by decide⟩, rfl⟩
  have page : guestSystem.Reachable onePage :=
    start.next (a := .call (.mmap2 0 4096 0x22 (-1))) rfl
  have written : guestSystem.Reachable { onePage with ctx := onePage.ctx.poke 0x200000 7 } :=
    page.next (a := .write 0x200000 7) ⟨Or.inr (by decide), rfl⟩
  exact ⟨by decide, mapped, mmap_returns_zero
    (written.next (a := .call (.munmap 0x200000 4096)) rfl) mapped⟩

end Yos
