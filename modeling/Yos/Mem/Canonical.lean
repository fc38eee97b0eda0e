import Mathlib.Computability.StateTransition
import Yos.Mem.Complete

/-!
# The free table in canonical form

`add_free_region` joins a range with its neighbours before it pushes it, so while the table has room it
holds the maximal ranges of what was added, in whatever order that was (`Canonical.addRegions`).
`carve_free_range` takes an entry out, pushes what is left of it and looks at the same slot again: what it
pushes misses the range, and of disjoint entries it splits at most one, so no push meets a full table
(`cover_carveFreeRange`).  One pass of either loop is `mergeStep` or `carveStep`; the passes come to an
end (`mergeLoop_eval`, `carveLoop_eval`).
-/

namespace Yos

open Word Table Span StateTransition

/-! ## Adding ranges -/

/-- The ranges are handed to `add_free_region` one after the other. -/
def addRegions (free rs : List Span) : List Span := rs.foldl addFreeRegion free

/-- There are fewer than 64 entries before, between and after the calls. -/
def StaysBelow (free : List Span) : List Span → Prop
  | [] => free.length < maxFreeRegions
  | r :: rs => free.length < maxFreeRegions ∧ StaysBelow (addFreeRegion free r) rs

/-- The entries are disjoint and do not touch. -/
structure Canonical (free : List Span) : Prop where
  regions : RegionsOk free
  once : ∀ x, cover free x ≤ 1
  coalesced : Coalesced free

theorem canonical_nil : Canonical [] := by
  refine ⟨?_, fun x => Nat.zero_le 1, ?_⟩
  · simp [RegionsOk]
  · simp [Coalesced]

section Add

variable {free rs : List Span} {r : Span}

/-- With room in the table nothing is dropped. -/
theorem cover_addFreeRegion (regions : RegionsOk free) (room : free.length < maxFreeRegions)
    (small : r.fin < 2 ^ 32) (x : ℕ) : cover (addFreeRegion free r) x = cover free x + r.hit x := by
  by_cases empty : r.len = 0
  · have none : r.hit x = 0 := hit_eq_zero_iff.2 fun has => by
      unfold Has at has
      omega
    rw [addFreeRegion, if_pos empty, none, Nat.add_zero]
  · have lost := addFreeRegion_loses regions (Nat.le_of_lt room) (by omega) small
    rw [Nat.sub_eq_zero_of_le room] at lost
    exact lost.exact trivial

theorem Canonical.add (canonical : Canonical free) (room : free.length < maxFreeRegions)
    (small : r.fin < 2 ^ 32) (apart : ∀ x, cover free x + r.hit x ≤ 1) :
    Canonical (addFreeRegion free r) := by
  by_cases empty : r.len = 0
  · rw [addFreeRegion, if_pos empty]
    exact canonical
  · have bound := Nat.le_of_lt room
    obtain ⟨-, regions, -⟩ := addFreeRegion_spec canonical.regions bound (by omega) small
    refine ⟨regions, fun x => ?_,
      addFreeRegion_coalesced canonical.regions bound (by omega) small canonical.coalesced⟩
    rw [cover_addFreeRegion canonical.regions room small]
    exact apart x

/-- The table stays canonical and covers what was added. -/
theorem Canonical.addRegions (canonical : Canonical free) (below : StaysBelow free rs)
    (small : ∀ r ∈ rs, r.fin < 2 ^ 32) (apart : ∀ x, cover free x + cover rs x ≤ 1) :
    Canonical (addRegions free rs) ∧ (addRegions free rs).length < maxFreeRegions ∧
      ∀ x, cover (addRegions free rs) x = cover free x + cover rs x := by
  induction rs generalizing free with
  | nil => exact ⟨canonical, below, fun x => rfl⟩
  | cons r rs ih =>
    obtain ⟨room, below⟩ := below
    have first := small r List.mem_cons_self
    have added := cover_addFreeRegion canonical.regions room first
    have total (x : ℕ) : cover free x + r.hit x + cover rs x ≤ 1 := by
      have both := apart x
      rw [cover_cons] at both
      omega
    have next := canonical.add room first fun x => by
      have both := total x
      omega
    obtain ⟨last, bound, covers⟩ := ih next below (fun s mem => small s (List.mem_cons_of_mem r mem))
      fun x => by
        rw [added]
        exact total x
    refine ⟨last, bound, fun x => ?_⟩
    have eq := covers x
    rw [added] at eq
    rw [cover_cons, ← Nat.add_assoc]
    exact eq

/-- The entries are the maximal ranges of what was added. -/
theorem mem_addRegions (below : StaysBelow [] rs) (small : ∀ r ∈ rs, r.fin < 2 ^ 32)
    (disjoint : rs.Pairwise Disjoint) : ∀ s, s ∈ addRegions [] rs ↔ MaximalIn (union rs) s := by
  intro s
  obtain ⟨canonical, -, covers⟩ := canonical_nil.addRegions below small fun x => by
    rw [cover_nil, Nat.zero_add]
    exact cover_le_one_of_disjoint disjoint x
  have same : union (addRegions [] rs) = union rs := by
    ext x
    rw [mem_union_iff, mem_union_iff, covers x, cover_nil, Nat.zero_add]
  rw [← same]
  exact mem_iff_maximalIn canonical.once canonical.coalesced fun r mem => (canonical.regions r mem).1

end Add

/-! ## Taking a range out -/

/-- `carve_free_range` takes out the range and nothing else. -/
theorem cover_carveFreeRange {free : List Span} (canonical : Canonical free)
    (room : free.length < maxFreeRegions) (addr len x : ℕ) :
    cover (carveFreeRange free addr len) x = if addr ≤ x ∧ x < addr + len then 0 else cover free x := by
  by_cases inside : addr ≤ x ∧ x < addr + len
  · obtain ⟨-, -, -, clear⟩ := carveFreeRange_spec addr len canonical.regions (Nat.le_of_lt room)
    rw [if_pos inside]
    exact clear x inside.1 inside.2
  · -- at most one entry is split, and there is room for one more
    have one := weight_splits_le_one (Nat.le_add_right addr len) canonical.once
    have kept : Loses (fun x => ¬ (addr ≤ x ∧ x < addr + len)) (carveFreeRange free addr len) 0 (cover free) :=
      (carveLoop_loses push_freeListPushRaw (by decide) (Nat.le_add_right addr len) canonical.regions
        (Nat.le_of_lt room)).mono (by omega) fun x _ => rfl
    rw [if_neg inside]
    exact kept.exact inside

/-! ## The passes end -/

/-- One pass of the outer loop of `add_free_region`, unless it ends. -/
def mergeStep : List Span × Span → Option (List Span × Span)
  | (free, r) => (findTouching r.addr r.len free 0).map fun (i, joined) => (swapRemove free i, joined)

/-- One pass of the loop of `carve_free_range`, unless it ends. -/
def carveStep (addr stop : ℕ) : ℕ × List Span → Option (ℕ × List Span)
  | (i, l) => l[i]?.map fun r =>
    let regionEnd := r.addr + r.len
    if regionEnd ≤ addr ∨ stop ≤ r.addr then (i + 1, l)
    else
      let l := swapRemove l i
      let l := if r.addr < addr then freeListPushRaw l ⟨r.addr, addr - r.addr⟩ else l
      let l := if stop < regionEnd then freeListPushRaw l ⟨u32 stop, u32 (regionEnd - stop)⟩ else l
      (i, l)

section Ends

variable {free l : List Span} {r : Span} {addr stop i fuel : ℕ}

theorem mergeLoop_succ :
    mergeLoop (fuel + 1) free r = (mergeStep (free, r)).elim (free, r) fun s => mergeLoop fuel s.1 s.2 := by
  rw [mergeLoop, mergeStep]
  cases findTouching r.addr r.len free 0 <;> rfl

/-- Every merge takes an entry out, so the loop of `add_free_region` ends with what the model says. -/
theorem mergeLoop_eval (free : List Span) (r : Span) :
    mergeLoop free.length free r ∈ eval mergeStep (free, r) := by
  refine mem_eval.2 ⟨?_, ?_⟩
  · generalize free.length = fuel
    induction fuel generalizing free r with
    | zero => exact .refl
    | succ fuel ih =>
      rw [mergeLoop_succ]
      rcases step : mergeStep (free, r) with _ | s
      · exact .refl
      · exact .head step (ih s.1 s.2)
  · rw [mergeStep, mergeLoop_done]
    rfl

theorem carveStep_skip (found : l[i]? = some r) (miss : Misses addr stop r) :
    carveStep addr stop (i, l) = some (i + 1, l) := by
  rw [carveStep, found]
  exact congrArg some (if_pos miss)

theorem carveStep_drop (found : l[i]? = some r) (hit : ¬ Misses addr stop r) (small : r.fin < 2 ^ 32) :
    carveStep addr stop (i, l) =
      some (i, (remainders addr stop r).foldl freeListPushRaw (swapRemove l i)) := by
  unfold fin at small
  unfold Misses at hit
  rw [carveStep, found, Option.map_some]
  dsimp only
  rw [if_neg hit, remainders]
  by_cases right : stop < r.addr + r.len
  · rw [if_pos right, if_pos right, u32_of_lt (by omega), u32_of_lt (by omega)]
    split_ifs <;> rfl
  · rw [if_neg right, if_neg right]
    split_ifs <;> rfl

/-- Every pass leaves fewer to make, so the loop of `carve_free_range` ends with what the model says. -/
theorem carveLoop_eval (order : addr ≤ stop) (regions : RegionsOk l) (len : l.length ≤ maxFreeRegions)
    (slots : ∀ f ∈ l.take i, Misses addr stop f) (enough : passesLeft addr stop i l ≤ fuel) :
    ∃ j, (j, carveLoop freeListPushRaw addr stop fuel i l) ∈ eval (carveStep addr stop) (i, l) := by
  induction fuel generalizing i l with
  | zero =>
    have last : l[i]? = none := by
      unfold passesLeft at enough
      exact List.getElem?_eq_none_iff.2 (by omega)
    refine ⟨i, mem_eval.2 ⟨.refl, ?_⟩⟩
    rw [carveLoop, carveStep, last]
    rfl
  | succ fuel ih =>
    rcases found : l[i]? with _ | r
    · rw [carveLoop_none found]
      refine ⟨i, mem_eval.2 ⟨.refl, ?_⟩⟩
      rw [carveStep, found]
      rfl
    by_cases miss : Misses addr stop r
    · rw [carveLoop_skip found miss]
      have hi := (List.getElem?_eq_some_iff.1 found).1
      obtain ⟨j, ends⟩ := ih regions len (carve_skipped slots found miss) (by unfold passesLeft at *; omega)
      refine ⟨j, ?_⟩
      rwa [reaches_eval (.single (carveStep_skip found miss))]
    · have small := (regions r (List.mem_of_getElem? found)).2
      rw [carveLoop_drop found miss small]
      obtain ⟨h₁, h₂, h₃, h₄, -⟩ :=
        carve_dropped push_freeListPushRaw (by decide) order regions len slots found miss rfl
      obtain ⟨j, ends⟩ := ih h₂ h₁ h₃ (by omega)
      refine ⟨j, ?_⟩
      rwa [reaches_eval (.single (carveStep_drop found miss small))]

end Ends

/-- The free table holds the maximal ranges of what was added to it, in whatever order; carving takes out
exactly the range; and the loops of both end. -/
theorem free_regions_canonical {memorySize : ℕ} (word : memorySize < 2 ^ 32) {rs : List Span}
    (inMemory : ∀ r ∈ rs, r.fin ≤ memorySize) (disjoint : rs.Pairwise Disjoint)
    (below : StaysBelow [] rs) :
    (∀ s, s ∈ addRegions [] rs ↔ MaximalIn (union rs) s) ∧ (addRegions [] rs).Nodup ∧
      (∀ rs', rs'.Perm rs → StaysBelow [] rs' → (addRegions [] rs').Perm (addRegions [] rs)) ∧
      (∀ addr len, union (carveFreeRange (addRegions [] rs) addr len) =
          union rs \ {x | addr ≤ x ∧ x < addr + len} ∧
        (carveFreeRange (addRegions [] rs) addr len).Pairwise Disjoint ∧
        ∃ i, (i, carveFreeRange (addRegions [] rs) addr len) ∈
          eval (carveStep addr (addr + len)) (0, addRegions [] rs)) ∧
      ∀ free r, mergeLoop free.length free r ∈ eval mergeStep (free, r) := by
  have small : ∀ r ∈ rs, r.fin < 2 ^ 32 := fun r mem => Nat.lt_of_le_of_lt (inMemory r mem) word
  have maximal := mem_addRegions below small disjoint
  obtain ⟨canonical, room, covers⟩ := canonical_nil.addRegions below small fun x => by
    rw [cover_nil, Nat.zero_add]
    exact cover_le_one_of_disjoint disjoint x
  have nodup := nodup_of_once canonical.once fun r mem => (canonical.regions r mem).1
  refine ⟨maximal, nodup, fun rs' perm below' => ?_, fun addr len => ⟨?_, ?_, ?_⟩, mergeLoop_eval⟩
  · have small' : ∀ r ∈ rs', r.fin < 2 ^ 32 := fun r mem => small r (perm.subset mem)
    have disjoint' : rs'.Pairwise Disjoint := perm.symm.pairwise disjoint fun h => h.symm
    obtain ⟨canonical', -, -⟩ := canonical_nil.addRegions below' small' fun x => by
      rw [cover_nil, Nat.zero_add]
      exact cover_le_one_of_disjoint disjoint' x
    have same : union rs' = union rs := by
      ext x
      rw [mem_union_iff, mem_union_iff, cover_perm perm]
    apply (List.perm_ext_iff_of_nodup
      (nodup_of_once canonical'.once fun r mem => (canonical'.regions r mem).1) nodup).2
    intro s
    rw [maximal, mem_addRegions below' small' disjoint', same]
  · ext x
    have left := cover_carveFreeRange canonical room addr len x
    rw [Set.mem_sdiff, mem_union_iff, mem_union_iff, left, covers x, cover_nil, Nat.zero_add,
      Set.mem_ofPred_eq]
    split_ifs with inside
    · simp [inside]
    · simp [inside]
  · refine disjoint_of_cover_le_one fun x => ?_
    have single := canonical.once x
    rw [cover_carveFreeRange canonical room]
    split_ifs <;> omega
  · exact carveLoop_eval (Nat.le_add_right addr len) canonical.regions (Nat.le_of_lt room) (by simp)
      (passesLeft_le addr (addr + len) _)

/-- Three neighbouring pages, the middle one last, and a page apart. -/
def threePages : List Span := [⟨0x1000, 4096⟩, ⟨0x3000, 4096⟩, ⟨0x8000, 4096⟩, ⟨0x2000, 4096⟩]

theorem free_regions_canonical_pages :
    (0x10000 < 2 ^ 32 ∧ (∀ r ∈ threePages, r.fin ≤ 0x10000) ∧ threePages.Pairwise Disjoint ∧
      StaysBelow [] threePages) ∧ MaximalIn (union threePages) ⟨0x1000, 0x3000⟩ := by
  have inMemory : ∀ r ∈ threePages, r.fin ≤ 0x10000 := by decide
  have disjoint : threePages.Pairwise Disjoint := disjoint_of_cover_le_one fun x => by
    simp only [threePages, cover_cons, cover_nil, Span.hit]
    split_ifs <;> omega
  have below : StaysBelow [] threePages := by
    refine ⟨?_, ?_, ?_, ?_, (show List.length _ < maxFreeRegions from ?_)⟩
    all_goals decide
  refine ⟨⟨by decide, inMemory, disjoint, below⟩, ?_⟩
  obtain ⟨maximal, -⟩ := @free_regions_canonical 0x10000 (by decide) threePages inMemory disjoint below
  exact (maximal _).1 (by decide)

end Yos
