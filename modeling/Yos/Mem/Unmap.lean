import Yos.Mem.MmapRun

/-!
# What `yos_munmap` unmaps

A range without free bytes is unmapped whole (`Unmapped`): no live entry meets it afterwards, and
the bytes of it that were live are zero and free.  The two tables are bounded, and what they lose is
counted: `Loses on l k count` says that the entries of `l` and at most `k` other spans contain every
address of `on` as often as `count` says.  The free table loses a region for each piece it has no
slot for; the live table loses the second remainder of an entry that is split while it is full.
A range with a free byte in it is left alone (`munmap_unmaps`).
-/

namespace Yos

open Word Table Span

/-! ## Losses -/

/-- The entries and at most `k` lost spans contain the addresses of `on` as `count` says. -/
def Loses (on : ℕ → Prop) (l : List Span) (k : ℕ) (count : ℕ → ℕ) : Prop :=
  ∃ lost : List Span, lost.length ≤ k ∧ ∀ x, on x → cover l x + cover lost x = count x

section Loses

variable {on : ℕ → Prop} {l l' : List Span} {k k' : ℕ} {count count' : ℕ → ℕ}

theorem Loses.none (same : ∀ x, on x → cover l x = count x) : Loses on l k count :=
  ⟨[], Nat.zero_le k, fun x hx => same x hx⟩

theorem Loses.exact (lost : Loses on l 0 count) {x : ℕ} (hx : on x) : cover l x = count x := by
  obtain ⟨spans, few, total⟩ := lost
  have all := total x hx
  rw [List.length_eq_zero_iff.1 (Nat.le_zero.1 few)] at all
  exact all

theorem Loses.mono (lost : Loses on l k count) (le : k ≤ k')
    (same : ∀ x, on x → count x = count' x) : Loses on l k' count' := by
  obtain ⟨spans, few, total⟩ := lost
  exact ⟨spans, few.trans le, fun x hx => (total x hx).trans (same x hx)⟩

/-- A loss after a loss. -/
theorem Loses.trans {m : ℕ → ℕ} (first : Loses on l k count)
    (second : Loses on l' k' fun x => cover l x + m x) :
    Loses on l' (k + k') fun x => count x + m x := by
  obtain ⟨lost, few, total⟩ := first
  obtain ⟨lost', few', total'⟩ := second
  refine ⟨lost ++ lost', ?_, fun x hx => ?_⟩
  · rw [List.length_append]
    omega
  · have h₁ := total x hx
    have h₂ := total' x hx
    rw [cover_append]
    dsimp only at h₂ ⊢
    omega

end Loses

section Push

variable {cap : ℕ} {push : List Span → Span → List Span} {l : List Span} {r : Span} {on : ℕ → Prop}

/-- A table loses an entry, the new one or an old one, only when it is full. -/
theorem Push.loses (ok : Push cap push) (some : 0 < cap) (pos : 0 < r.len) (len : l.length ≤ cap) :
    Loses on (push l r) (l.length + 1 - cap) fun x => cover l x + r.hit x := by
  rcases Nat.lt_or_ge l.length cap with room | full
  · rw [ok.room l r pos room]
    exact .none fun x _ => by simp
  · rcases ok.full l r pos (by omega) with refused | dropped
    · rw [refused]
      refine ⟨[r], ?_, fun x _ => by simp⟩
      rw [List.length_singleton]
      omega
    · rw [dropped]
      have first : l[0]? = Option.some (l.get ⟨0, by omega⟩) := List.getElem?_eq_getElem _
      refine ⟨[l.get ⟨0, by omega⟩], ?_, fun x _ => ?_⟩
      · rw [List.length_singleton]
        omega
      · have taken := weight_swapRemove (w := fun s => s.hit x) first
        simp only [cover_eq_weight, weight_append, weight_cons, weight_nil] at taken ⊢
        omega

theorem Push.length_eq (ok : Push cap push) (some : 0 < cap) (pos : 0 < r.len)
    (full : l.length = cap) : (push l r).length = cap := by
  rcases ok.full l r pos full with eq | eq
  · rw [eq, full]
  · rw [eq, List.length_append, length_swapRemove, List.length_singleton]
    omega

theorem Push.foldl_loses (ok : Push cap push) (some : 0 < cap) {pieces : List Span}
    (pos : ∀ p ∈ pieces, 0 < p.len) (len : l.length ≤ cap) :
    Loses on (pieces.foldl push l) (l.length + pieces.length - cap)
      fun x => cover l x + cover pieces x := by
  induction pieces generalizing l with
  | nil => exact .none fun x _ => by simp
  | cons p pieces ih =>
    have hp := pos p (by simp)
    have rest := ih (l := push l p) (fun q hq => pos q (by simp [hq])) (ok.length_le hp len some).1
    refine ((ok.loses some hp len).trans rest).mono ?_ fun x _ => ?_
    · rw [List.length_cons]
      rcases Nat.lt_or_ge l.length cap with room | full
      · rw [ok.room l p hp room, List.length_append, List.length_singleton]
        omega
      · rw [ok.length_eq some hp (by omega)]
        omega
    · rw [cover_cons]
      omega

end Push

/-! ## The live table -/

/-- One if the entry sticks out of `[addr, stop)` on both sides. -/
def splits (addr stop : ℕ) (r : Span) : ℕ := if r.addr < addr ∧ stop < r.addr + r.len then 1 else 0

theorem length_remainders_le (addr stop : ℕ) (r : Span) :
    (remainders addr stop r).length ≤ 1 + splits addr stop r := by
  unfold remainders splits
  by_cases left : r.addr < addr <;> by_cases right : stop < r.addr + r.len <;> simp [left, right]

/-- What is left of an entry covers what it covered outside the range. -/
theorem cover_remainders_outside {addr stop x : ℕ} {r : Span} (order : addr ≤ stop)
    (hit : ¬ Misses addr stop r) (outside : ¬ (addr ≤ x ∧ x < stop)) :
    cover (remainders addr stop r) x = r.hit x := by
  unfold Misses at hit
  unfold remainders
  split_ifs <;> simp only [List.append_nil, List.nil_append, List.singleton_append, cover_cons,
    cover_nil, Span.hit] <;> split_ifs <;> omega

theorem splits_of_misses {addr stop : ℕ} {r : Span} (order : addr ≤ stop)
    (miss : Misses addr stop r) : splits addr stop r = 0 := by
  unfold Misses at miss
  exact if_neg (by omega)

/-- Taking a range out of a table loses an entry only where one is split while the table is full. -/
theorem carveLoop_loses {cap : ℕ} {push : List Span → Span → List Span} {l : List Span}
    {addr stop i fuel : ℕ} (ok : Push cap push) (some : 0 < cap) (order : addr ≤ stop)
    (regions : RegionsOk l) (len : l.length ≤ cap) :
    Loses (fun x => ¬ (addr ≤ x ∧ x < stop)) (carveLoop push addr stop fuel i l)
      (l.length + weight (splits addr stop) l - cap) (cover l) := by
  induction fuel generalizing i l with
  | zero => exact .none fun x _ => rfl
  | succ fuel ih =>
    rcases found : l[i]? with _ | r
    · rw [carveLoop_none found]
      exact .none fun x _ => rfl
    · have hr := regions r (List.mem_of_getElem? found)
      by_cases miss : Misses addr stop r
      · rw [carveLoop_skip found miss]
        exact ih regions len
      · rw [carveLoop_drop found miss hr.2]
        have pieces : RegionsOk (remainders addr stop r) := fun p hp => by
          obtain ⟨h₁, h₂, -⟩ := mem_remainders hp
          unfold Misses at miss
          unfold fin at *
          omega
        have removed := length_swapRemove l i
        have some_left := (List.getElem?_eq_some_iff.1 found).1
        obtain ⟨h₁, h₂, h₃, -, h₅⟩ := ok.foldl (i := 0) (P := fun _ => True) some pieces
          (fun _ _ => trivial) (regions.swapRemove i) (by omega) (by simp) (Or.inl (by omega))
        have pushed : Loses (fun x => ¬ (addr ≤ x ∧ x < stop)) _ _ _ :=
          ok.foldl_loses some (fun p hp => (pieces p hp).1) (l := swapRemove l i) (by omega)
        have rest := ih (i := i) h₃ h₁
        have fewer := h₅ (splits addr stop)
        have clear : weight (splits addr stop) (remainders addr stop r) = 0 :=
          weight_eq_zero_iff.2 fun p hp => splits_of_misses order (mem_remainders hp).2.2
        have taken := weight_swapRemove (w := splits addr stop) found
        have short := length_remainders_le addr stop r
        have joined := pushed.trans (m := fun _ => 0) rest
        refine joined.mono (by omega) fun x outside => ?_
        have h₇ := weight_swapRemove (w := fun s => s.hit x) found
        rw [Nat.add_zero, cover_remainders_outside order miss outside]
        exact h₇

/-! ## The free table -/

/-- `add_free_region` loses a region only when the table is full. -/
theorem addFreeRegion_loses {free : List Span} {r : Span} (regions : RegionsOk free)
    (bound : free.length ≤ maxFreeRegions) (pos : 0 < r.len) (small : r.fin < 2 ^ 32) :
    Loses (fun _ => True) (addFreeRegion free r) (free.length + 1 - maxFreeRegions)
      fun x => cover free x + r.hit x := by
  rw [addFreeRegion, if_neg (by omega)]
  obtain ⟨h₁, -, h₃, -, h₅⟩ := mergeLoop_spec free.length regions pos small
  exact (push_freeListPushRaw.loses (by decide) h₃ (h₁.trans bound)).mono (by omega)
    fun x _ => h₅ x

/-- `add_free_region` takes at most one more slot, and none when the table is full. -/
theorem length_addFreeRegion_le {free : List Span} {r : Span} (regions : RegionsOk free)
    (bound : free.length ≤ maxFreeRegions) (pos : 0 < r.len) (small : r.fin < 2 ^ 32) :
    (addFreeRegion free r).length ≤ maxFreeRegions ∧
      (addFreeRegion free r).length ≤ free.length + 1 := by
  rw [addFreeRegion, if_neg (by omega)]
  obtain ⟨h₁, -, h₃, -⟩ := mergeLoop_spec free.length regions pos small
  obtain ⟨k₁, k₂⟩ := push_freeListPushRaw.length_le h₃ (h₁.trans bound) (by decide)
  exact ⟨k₁, k₂.trans (by omega)⟩

/-- The part of an entry that the loop of `yos_munmap` frees. -/
theorem overlap_hit {addr stop : ℕ} {r : Span} {lo hi : ℕ}
    (hlo : (if addr < r.addr then r.addr else addr) = lo)
    (hhi : (if r.addr + r.len < stop then r.addr + r.len else stop) = hi) (x : ℕ) :
    hit ⟨lo, hi - lo⟩ x = if addr ≤ x ∧ x < stop then r.hit x else 0 := by
  subst hlo hhi
  unfold Span.hit
  split_ifs <;> simp_all <;> omega

/-- The loop of `yos_munmap` zeroes the live bytes of the range, frees them, and loses a region only
for a piece that finds no slot. -/
theorem munmapLoop_frees {live free : List Span} {addr stop : ℕ} (memory : Bytes) (any : Bool)
    (order : addr < stop) (regionsL : RegionsOk live) (regions : RegionsOk free)
    (bound : free.length ≤ maxFreeRegions) :
    (∀ x, (munmapLoop addr stop live memory free any).1 x =
        if (addr ≤ x ∧ x < stop) ∧ 0 < cover live x then 0 else memory x) ∧
      (Loses (fun _ => True) (munmapLoop addr stop live memory free any).2.1
        (free.length + weight (meets addr stop) live - maxFreeRegions)
        fun x => cover free x + if addr ≤ x ∧ x < stop then cover live x else 0) ∧
      ((munmapLoop addr stop live memory free any).2.2 = false →
        ∀ r ∈ live, Misses addr stop r) := by
  induction live generalizing free memory any with
  | nil => exact ⟨fun x => by simp [munmapLoop], .none fun x _ => by simp [munmapLoop], by simp⟩
  | cons r live ih =>
    have regionsL' : RegionsOk live := fun f hf => regionsL f (by simp [hf])
    obtain ⟨pos, small⟩ := regionsL r (by simp)
    unfold fin at small
    rw [munmapLoop]
    generalize hlo : (if addr < r.addr then r.addr else addr) = lo
    generalize hhi : (if r.addr + r.len < stop then r.addr + r.len else stop) = hi
    have part := overlap_hit hlo hhi
    have missing : hi ≤ lo ↔ Misses addr stop r := by
      unfold Misses
      split_ifs at hlo hhi <;> omega
    have inside : hi ≤ r.addr + r.len := by split_ifs at hhi <;> omega
    dsimp only
    by_cases empty : hi ≤ lo
    · rw [if_pos empty]
      have miss := missing.1 empty
      obtain ⟨h₁, h₂, h₃⟩ := ih memory any regionsL' regions bound
      have none (x : ℕ) (range : addr ≤ x ∧ x < stop) : r.hit x = 0 := by
        have := part x
        rw [if_pos range, Nat.sub_eq_zero_of_le empty] at this
        rw [← this]
        unfold Span.hit
        exact if_neg (by dsimp only; omega)
      refine ⟨fun x => ?_, h₂.mono (by rw [weight_cons]; omega) fun x _ => ?_, fun done => ?_⟩
      · rw [h₁ x, cover_cons]
        by_cases range : addr ≤ x ∧ x < stop
        · rw [none x range, Nat.zero_add]
        · simp [range]
      · rw [cover_cons]
        by_cases range : addr ≤ x ∧ x < stop
        · rw [none x range, Nat.zero_add]
        · simp [range]
      · intro f hf
        rcases List.mem_cons.1 hf with rfl | hf
        · exact miss
        · exact h₃ done f hf
    · rw [if_neg empty, u32_of_lt (by omega)]
      have posP : 0 < (Span.mk lo (hi - lo)).len := by dsimp only; omega
      have smallP : (Span.mk lo (hi - lo)).fin < 2 ^ 32 := by unfold fin; dsimp only; omega
      obtain ⟨-, k₂, -⟩ := addFreeRegion_spec regions bound posP smallP
      obtain ⟨k₁, k₃⟩ := length_addFreeRegion_le regions bound posP smallP
      have first := addFreeRegion_loses regions bound posP smallP
      obtain ⟨h₁, h₂, -⟩ := ih (memory.fill lo (hi - lo) 0) true regionsL' k₂ k₁
      refine ⟨fun x => ?_, (first.trans h₂).mono ?_ fun x _ => ?_, fun done => ?_⟩
      · have here := part x
        rw [h₁ x, cover_cons]
        unfold Bytes.fill
        unfold Span.hit at here ⊢
        dsimp only at here
        split_ifs at here ⊢ <;> first | rfl | omega
      · have met : meets addr stop r = 1 := if_neg fun miss => empty (missing.2 miss)
        rw [weight_cons, met]
        omega
      · rw [part x, cover_cons]
        split_ifs <;> omega
      · rw [munmapLoop_true] at done
        simp at done

/-! ## The call -/

/-- What `yos_munmap` of `range` leaves of the tables and of the memory. -/
structure Unmapped (ctx ctx' : MemCtx) (range : Span) : Prop where
  live : ∀ r ∈ ctx'.liveList, r.Disjoint range
  memory : ∀ x, ctx'.memory x =
    if range.Has x ∧ 0 < cover ctx.liveList x then 0 else ctx.memory x
  /-- The regions the free table had no slot for. -/
  freed : ∃ dropped : List Span,
    dropped.length ≤ ctx.freeList.length + weight (meets range.addr range.fin) ctx.liveList -
      maxFreeRegions ∧
    ∀ x, cover ctx'.freeList x + cover dropped x =
      cover ctx.freeList x + if range.Has x then cover ctx.liveList x else 0
  /-- The remainder the live table had no slot for. -/
  kept : ∃ refused : List Span, refused.length ≤ 1 ∧
    (refused ≠ [] → ctx.liveList.length = maxLiveRegions ∧
      ∃ r ∈ ctx.liveList, r.addr < range.addr ∧ range.fin < r.fin) ∧
    ∀ x, ¬ range.Has x → cover ctx'.liveList x + cover refused x = cover ctx.liveList x

/-- A range has a free byte if an entry of the free table overlaps it. -/
theorem rangeOverlapsFree_iff {free : List Span} {addr len : ℕ} (regions : RegionsOk free)
    (pos : 0 < len) :
    rangeOverlapsFree free addr len = true ↔ ∃ x, Has ⟨addr, len⟩ x ∧ 0 < cover free x := by
  simp only [rangeOverlapsFree, List.any_eq_true, decide_eq_true_eq]
  constructor
  · rintro ⟨r, hr, before, after⟩
    have posR := (regions r hr).1
    refine ⟨max r.addr addr, ?_, cover_pos_of_mem hr ?_⟩
    · unfold Has
      dsimp only
      omega
    · unfold Has
      omega
  · rintro ⟨x, inside, covered⟩
    obtain ⟨r, hr, has⟩ := cover_pos_iff.1 covered
    unfold Has at inside has
    dsimp only at inside
    exact ⟨r, hr, by omega, by omega⟩

/-- Of disjoint entries at most one sticks out on both sides. -/
theorem weight_splits_le_one {l : List Span} {addr stop : ℕ} (order : addr ≤ stop)
    (once : ∀ x, cover l x ≤ 1) : weight (splits addr stop) l ≤ 1 := by
  refine le_trans ?_ (once addr)
  clear once
  induction l with
  | nil => simp
  | cons r l ih =>
    have one : splits addr stop r ≤ r.hit addr := by
      unfold splits Span.hit
      split_ifs <;> omega
    rw [weight_cons, cover_cons]
    omega

theorem exists_of_splits {l : List Span} {addr stop : ℕ} (some : 0 < weight (splits addr stop) l) :
    ∃ r ∈ l, r.addr < addr ∧ stop < r.fin := by
  by_contra none
  push Not at none
  have zero : weight (splits addr stop) l = 0 := weight_eq_zero_iff.2 fun r hr =>
    if_neg fun both => absurd both.2 (Nat.not_lt.2 (none r hr both.1))
  omega

/-- `live_remove` of a nonempty range. -/
theorem liveRemove_unmaps {live : List Span} (addr : ℕ) {len : ℕ} (pos : 0 < len)
    (regions : RegionsOk live) (bound : live.length ≤ maxLiveRegions) (once : ∀ x, cover live x ≤ 1) :
    (∀ r ∈ liveRemove live addr len, r.Disjoint ⟨addr, len⟩) ∧
      ∃ refused : List Span, refused.length ≤ 1 ∧
        (refused ≠ [] → live.length = maxLiveRegions ∧
          ∃ r ∈ live, r.addr < addr ∧ addr + len < r.fin) ∧
        ∀ x, ¬ Has ⟨addr, len⟩ x →
          cover (liveRemove live addr len) x + cover refused x = cover live x := by
  obtain ⟨-, -, -, clear⟩ := liveRemove_spec addr len regions bound
  obtain ⟨refused, few, total⟩ : Loses _ (liveRemove live addr len) _ _ :=
    carveLoop_loses push_liveAdd (by decide) (Nat.le_add_right addr len) regions bound
  have single := weight_splits_le_one (Nat.le_add_right addr len) once
  refine ⟨fun r hr x hx => ?_, refused, by omega, fun lost => ?_, total⟩
  · exact cover_eq_zero_iff.1 (clear x hx.2.1 hx.2.2) r hr hx.1
  · have one := List.length_pos_iff.2 lost
    exact ⟨by omega, exists_of_splits (by omega)⟩

/-- What a successful `yos_munmap` does where the tables are in order. -/
theorem MmapInv.unmapped {ctx : MemCtx} {owned : Set ℕ} (inv : MmapInv ctx owned) {addr len : ℕ}
    (done : (Yos.yosMunmap ctx addr len).2 = .ok ()) :
    ((∃ x, Has ⟨addr, pageAlign len⟩ x ∧ 0 < cover ctx.freeList x) →
      (Yos.yosMunmap ctx addr len).1 = ctx) ∧
    ((∀ x, Has ⟨addr, pageAlign len⟩ x → cover ctx.freeList x = 0) →
      Unmapped ctx (Yos.yosMunmap ctx addr len).1 ⟨addr, pageAlign len⟩) := by
  rw [Yos.yosMunmap] at done ⊢
  by_cases range : pageAlign len = 0 ∨ ctx.memorySize < pageAlign len ∨
      ctx.memorySize < addr + pageAlign len
  · rw [if_pos range] at done
    simp at done
  rw [if_neg range]
  have pos : 0 < pageAlign len := by omega
  have overlap : rangeOverlapsFree ctx.freeList addr (pageAlign len) = true ↔ _ :=
    rangeOverlapsFree_iff inv.freeOk pos
  refine ⟨fun free => by rw [if_pos (overlap.2 free)], fun noFree => ?_⟩
  rw [if_neg fun free => ?_]
  swap
  · obtain ⟨x, inside, covered⟩ := overlap.1 free
    have := noFree x inside
    omega
  obtain ⟨memory', freed, misses⟩ := munmapLoop_frees ctx.memory false
    (show addr < addr + pageAlign len by omega) inv.liveOk inv.freeOk inv.freeLen
  have once (x : ℕ) : cover ctx.liveList x ≤ 1 := by
    have := inv.once x
    omega
  generalize munmapLoop addr (addr + pageAlign len) ctx.liveList ctx.memory ctx.freeList
    false = loop at *
  obtain ⟨memory, free, any⟩ := loop
  obtain ⟨dropped, few, total⟩ := freed
  dsimp only at *
  cases any with
  | false =>
    refine ⟨fun r hr x hx => ?_, memory', ⟨dropped, few, fun x => total x trivial⟩, [],
      by simp, by simp, fun x _ => by simp⟩
    have miss := misses rfl r hr
    unfold Misses at miss
    unfold Has at hx
    dsimp only at hx
    omega
  | true =>
    rw [if_pos rfl]
    obtain ⟨apart, refused, few', full, total'⟩ := liveRemove_unmaps addr pos inv.liveOk
      inv.liveLen once
    exact ⟨apart, memory', ⟨dropped, few, fun x => total x trivial⟩, refused, few', full, total'⟩

/-- A range with a free byte is left alone; another one is unmapped. -/
theorem munmap_unmaps {s : MmapState} (run : mmapSystem.Reachable s) (addr len : ℕ)
    (done : (yosMunmap s.ctx addr len).2 = .ok ()) :
    ((∃ x, Has ⟨addr, pageAlign len⟩ x ∧ 0 < cover s.ctx.freeList x) →
      (yosMunmap s.ctx addr len).1 = s.ctx) ∧
    ((∀ x, Has ⟨addr, pageAlign len⟩ x → cover s.ctx.freeList x = 0) →
      Unmapped s.ctx (yosMunmap s.ctx addr len).1 ⟨addr, pageAlign len⟩) :=
  (MmapInv.of_run run).unmapped done

theorem munmap_unmaps_one_page :
    (yosMunmap onePage.ctx 0x200000 4096).2 = .ok () ∧
      Unmapped onePage.ctx (yosMunmap onePage.ctx 0x200000 4096).1 ⟨0x200000, 4096⟩ := by
  have done : (yosMunmap onePage.ctx 0x200000 4096).2 = .ok () := by decide
  have start : mmapSystem.Reachable ⟨.blank (2 ^ 22) 0x50000, ∅⟩ :=
    .start ⟨⟨rfl, rfl, rfl, by decide⟩, rfl⟩
  have run : mmapSystem.Reachable onePage := start.next (a := .mmap2 0 4096 0x22 (-1)) rfl
  exact ⟨done, (munmap_unmaps run 0x200000 4096 done).2 fun x _ => rfl⟩

/-- The state after some calls of a process that starts with nothing mapped. -/
def afterCalls (calls : List MmapCall) : MmapState :=
  calls.foldl MmapState.next ⟨.blank (2 ^ 22) 0x50000, ∅⟩

theorem reachable_afterCalls (calls : List MmapCall) : mmapSystem.Reachable (afterCalls calls) :=
  reachable_foldl_next (.start ⟨⟨rfl, rfl, rfl, by decide⟩, rfl⟩) calls

/-- Two pages of which the first is unmapped. -/
def halfUnmapped : List MmapCall := [.mmap2 0 8192 0x22 (-1), .munmap 0x200000 4096]

/-- Three pages in one entry, and an entry in every other slot of the live table. -/
def liveTableFull : List MmapCall :=
  .mmap2 0 12288 0x22 (-1) :: List.replicate 127 (.mmap2 0 4096 0x22 (-1))

/-- 65 pages, every other one. -/
def everyOtherPage : List MmapCall :=
  (List.range 65).map fun i => .mmap2 (0x200000 + 8192 * i) 4096 0x32 (-1)

theorem unmap_liveTableFull :
    (yosMunmap (afterCalls liveTableFull).ctx 0x201000 4096).2 = .ok () ∧
      0 < cover (afterCalls liveTableFull).ctx.liveList 0x202000 ∧
      cover (yosMunmap (afterCalls liveTableFull).ctx 0x201000 4096).1.liveList 0x202000 = 0 := by
  decide +kernel

theorem unmap_everyOtherPage :
    (yosMunmap (afterCalls everyOtherPage).ctx 0x200000 (65 * 8192)).2 = .ok () ∧
      0 < cover (afterCalls everyOtherPage).ctx.liveList 0x200000 ∧
      cover (yosMunmap (afterCalls everyOtherPage).ctx 0x200000 (65 * 8192)).1.freeList 0x200000 = 0 := by
  decide +kernel

/-- A range that is partly free keeps its live page; a page behind the range is not tracked any more
when the live table is full; a page of the range is not free when the free table is. -/
theorem munmap_unmaps_fails :
    (∃ s, mmapSystem.Reachable s ∧ (yosMunmap s.ctx 0x200000 8192).2 = .ok () ∧
      ¬ ∀ r ∈ (yosMunmap s.ctx 0x200000 8192).1.liveList, r.Disjoint ⟨0x200000, 8192⟩) ∧
    (∃ s, mmapSystem.Reachable s ∧ (yosMunmap s.ctx 0x201000 4096).2 = .ok () ∧
      ¬ ∀ x, ¬ Has ⟨0x201000, 4096⟩ x →
        (0 < cover (yosMunmap s.ctx 0x201000 4096).1.liveList x ↔ 0 < cover s.ctx.liveList x)) ∧
    ∃ s, mmapSystem.Reachable s ∧ (yosMunmap s.ctx 0x200000 (65 * 8192)).2 = .ok () ∧
      ¬ ∀ x, Has ⟨0x200000, 65 * 8192⟩ x → 0 < cover s.ctx.liveList x →
        0 < cover (yosMunmap s.ctx 0x200000 (65 * 8192)).1.freeList x := by
  obtain ⟨done, tracked, gone⟩ := unmap_liveTableFull
  obtain ⟨done', live, lost⟩ := unmap_everyOtherPage
  refine ⟨⟨_, reachable_afterCalls halfUnmapped, by decide, fun apart => ?_⟩,
    ⟨_, reachable_afterCalls liveTableFull, done, fun same => ?_⟩,
    ⟨_, reachable_afterCalls everyOtherPage, done', fun freed => ?_⟩⟩
  · exact apart ⟨0x201000, 4096⟩ (by decide) 0x201000 (by decide)
  · have kept := (same 0x202000 (by decide)).2 tracked
    rw [gone] at kept
    cases kept
  · have kept := freed 0x200000 (by decide) live
    rw [lost] at kept
    cases kept

end Yos
