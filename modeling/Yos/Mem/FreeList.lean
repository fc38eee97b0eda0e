import Yos.Mem.Alloc

/-!
# The free list as a list of blocks

`FreeSeg m h l e` says that following the `next` links of the memory `m` from `h` visits the blocks
`l` and ends at `e`; the free list of a context is the segment from `alloc_free_head` to 0.  The
loops of `do_alloc` and `yos_free` are then functions of that list (`doAllocLoop_eq`,
`freeWalk_append`), and the header updates edit it (`takeBlock_spec`, `linkPrev_spec`): the taken
block is cut off the first one that fits, a freed block is put in its place and joined with the
neighbours it touches.  Every byte outside the free blocks (and the freed one) is untouched.
-/

namespace Yos

open Word Bytes Span

/-- The links of `m` lead from `h` through the blocks `l` to `e`. -/
def FreeSeg (m : Bytes) : ℕ → List Span → ℕ → Prop
  | h, [], e => h = e
  | h, b :: l, e => h = b.addr ∧ b.addr ≠ 0 ∧ m.read32 b.addr = b.len ∧
      FreeSeg m (m.read32 (b.addr + 4)) l e

/-- The free list reached from `h`. -/
def FreeList (m : Bytes) (h : ℕ) (l : List Span) : Prop := FreeSeg m h l 0

/-- The offset of the first block, 0 if there is none. -/
def headAddr : List Span → ℕ
  | [] => 0
  | b :: _ => b.addr

/-- The offset of the last block, `prev` if there is none. -/
def lastAddr (prev : ℕ) : List Span → ℕ
  | [] => prev
  | b :: l => lastAddr b.addr l

@[simp] theorem lastAddr_concat (prev : ℕ) (l : List Span) (b : Span) :
    lastAddr prev (l ++ [b]) = b.addr := by
  induction l generalizing prev with
  | nil => rfl
  | cons a l ih => exact ih a.addr

theorem FreeSeg.append {m : Bytes} {h e : ℕ} {l₁ l₂ : List Span} :
    FreeSeg m h (l₁ ++ l₂) e ↔ ∃ k, FreeSeg m h l₁ k ∧ FreeSeg m k l₂ e := by
  induction l₁ generalizing h with
  | nil => simp [FreeSeg]
  | cons b l ih => simp [FreeSeg, ih, and_assoc]

theorem FreeSeg.ne_zero {m : Bytes} {h e : ℕ} {l : List Span} (seg : FreeSeg m h l e) :
    ∀ b ∈ l, b.addr ≠ 0 := by
  induction l generalizing h with
  | nil => simp
  | cons a l ih =>
    obtain ⟨-, ha, -, rest⟩ := seg
    simpa [ha] using ih rest

theorem FreeList.head {m : Bytes} {h : ℕ} {l : List Span} (list : FreeList m h l) :
    h = headAddr l := by
  cases l with
  | nil => exact list
  | cons b l => exact list.1

/-- A segment reads the headers of its blocks only. -/
theorem FreeSeg.frame {m m' : Bytes} {h e : ℕ} {l : List Span} (seg : FreeSeg m h l e)
    (same : ∀ b ∈ l, ∀ x, b.addr ≤ x → x < b.addr + 8 → m' x = m x) : FreeSeg m' h l e := by
  induction l generalizing h with
  | nil => exact seg
  | cons b l ih =>
    obtain ⟨hh, hz, hs, rest⟩ := seg
    have size : m'.read32 b.addr = m.read32 b.addr :=
      read32_congr fun x h₁ h₂ => same b (by simp) x h₁ (by omega)
    have next : m'.read32 (b.addr + 4) = m.read32 (b.addr + 4) :=
      read32_congr fun x h₁ h₂ => same b (by simp) x (by omega) (by omega)
    refine ⟨hh, hz, size.trans hs, ?_⟩
    rw [next]
    exact ih rest fun c hc => same c (by simp [hc])

/-- Writing a word that meets no header of the segment keeps it. -/
theorem FreeSeg.write {m : Bytes} {h e a v : ℕ} {l : List Span} (seg : FreeSeg m h l e)
    (apart : ∀ b ∈ l, b.addr + 8 ≤ a ∨ a + 4 ≤ b.addr) : FreeSeg (m.write32 a v) h l e :=
  seg.frame fun b hb x h₁ h₂ => write32_apply_of_disjoint (by have := apart b hb; omega)

/-- `setLink` redirects the end of the segment. -/
theorem FreeSeg.setLink {ctx : MemCtx} {l : List Span} {e n : ℕ}
    (seg : FreeSeg ctx.memory ctx.allocFreeHead l e)
    (sorted : l.Pairwise fun a b => a.fin ≤ b.addr) (long : ∀ b ∈ l, 8 ≤ b.len) (hn : n < 2 ^ 32) :
    FreeSeg (setLink ctx (lastAddr 0 l) n).memory (setLink ctx (lastAddr 0 l) n).allocFreeHead
      l n := by
  rcases List.eq_nil_or_concat l with rfl | ⟨pre, p, rfl⟩
  · simp [Yos.setLink, lastAddr, FreeSeg]
  · simp only [List.concat_eq_append] at *
    have hz : p.addr ≠ 0 := seg.ne_zero p (by simp)
    rw [lastAddr_concat, Yos.setLink, if_pos hz]
    simp only [blkSetNext]
    obtain ⟨k, first, hk, -, size, -⟩ := FreeSeg.append.1 seg
    rw [List.pairwise_append] at sorted
    refine FreeSeg.append.2 ⟨k, first.write fun b hb => ?_, hk, hz, ?_, ?_⟩
    · have h₁ := sorted.2.2 b hb p (by simp)
      have h₂ := long b (by simp [hb])
      unfold fin at h₁
      omega
    · rw [read32_write32_disjoint (by omega), size]
    · exact read32_write32_self hn

/-! ## Allocation -/

/-- The first of the first `g` blocks of `l` with at least `need` bytes, with the blocks before and
after it. -/
def firstFit (need : ℕ) : ℕ → List Span → Option (List Span × Span × List Span)
  | 0, _ => none
  | _ + 1, [] => none
  | g + 1, b :: l =>
    if need ≤ b.len then some ([], b, l)
    else (firstFit need g l).map fun r => (b :: r.1, r.2)

theorem firstFit_some {need g : ℕ} {l skip post : List Span} {b : Span}
    (found : firstFit need g l = some (skip, b, post)) : l = skip ++ b :: post ∧ need ≤ b.len := by
  induction l generalizing g skip with
  | nil => cases g <;> simp [firstFit] at found
  | cons a l ih =>
    cases g with
    | zero => simp [firstFit] at found
    | succ g =>
      rw [firstFit] at found
      split_ifs at found with hfit
      · simp only [Option.some.injEq, Prod.mk.injEq] at found
        obtain ⟨rfl, rfl, rfl⟩ := found
        exact ⟨rfl, hfit⟩
      · simp only [Option.map_eq_some_iff, Prod.mk.injEq, Prod.exists] at found
        obtain ⟨skip', b', post', found', rfl, rfl, rfl⟩ := found
        obtain ⟨rfl, hb⟩ := ih found'
        exact ⟨rfl, hb⟩

/-- The loop of `do_alloc` is first fit on the free list. -/
theorem doAllocLoop_eq {ctx : MemCtx} {need g prev cur : ℕ} {l : List Span}
    (list : FreeList ctx.memory cur l) :
    doAllocLoop ctx need g prev cur =
      match firstFit need g l with
      | none => (ctx, 0)
      | some (skip, b, _) => takeBlock ctx need (lastAddr prev skip) b.addr := by
  induction g generalizing prev cur l with
  | zero => rfl
  | succ g ih =>
    rw [doAllocLoop]
    cases l with
    | nil => rw [if_pos (show cur = 0 from list)]; rfl
    | cons b l =>
      obtain ⟨rfl, hz, hs, rest⟩ := list
      rw [if_neg hz, blkSize, hs, firstFit]
      split_ifs with hfit
      · rfl
      · rw [blkNext, ih rest]
        rcases firstFit need g l with _ | ⟨skip, c, post⟩ <;> rfl

/-- What `do_alloc` takes from the block `b`. -/
def carveTaken (need : ℕ) (b : Span) : Span :=
  if need + minBlock ≤ b.len then ⟨b.addr, need⟩ else b

/-- What `do_alloc` leaves free of the block `b`. -/
def carveRest (need : ℕ) (b : Span) : List Span :=
  if need + minBlock ≤ b.len then [⟨b.addr + need, b.len - need⟩] else []

section Take

variable {ctx : MemCtx} {need prev : ℕ} {skip post : List Span} {b : Span}

/-- The headers `do_alloc` writes when it cuts `need` bytes off the block `b`. -/
def splitHeaders (ctx : MemCtx) (need : ℕ) (b : Span) : MemCtx :=
  blkSetSize (blkSetNext (blkSetSize ctx (b.addr + need) (b.len - need)) (b.addr + need)
    (blkNext ctx b.addr)) b.addr need

theorem takeBlock_split (size : ctx.memory.read32 b.addr = b.len) (small : b.fin ≤ 2 ^ 31)
    (cut : need + minBlock ≤ b.len) :
    takeBlock ctx need prev b.addr =
      (setLink (splitHeaders ctx need b) prev (b.addr + need), b.addr + 8) := by
  unfold fin at small
  unfold minBlock at cut
  have h₁ : u32 (need + minBlock) ≤ b.len := by unfold u32 minBlock; omega
  have h₂ : u32 (b.addr + need) = b.addr + need := u32_of_lt (by omega)
  have h₃ : sub32 b.len need = b.len - need := by unfold sub32 u32; omega
  have h₄ : u32 (b.addr + hdrSize) = b.addr + 8 := u32_of_lt (by unfold hdrSize; omega)
  simp only [takeBlock, blkSize, size, if_pos h₁, h₂, h₃, h₄, splitHeaders]

theorem takeBlock_whole (size : ctx.memory.read32 b.addr = b.len) (small : b.fin ≤ 2 ^ 31)
    (fit : need ≤ b.len) (whole : ¬ need + minBlock ≤ b.len) :
    takeBlock ctx need prev b.addr = (setLink ctx prev (blkNext ctx b.addr), b.addr + 8) := by
  unfold fin at small
  unfold minBlock at whole
  have h₁ : ¬ u32 (need + minBlock) ≤ b.len := by unfold u32 minBlock; omega
  have h₂ : u32 (b.addr + hdrSize) = b.addr + 8 := u32_of_lt (by unfold hdrSize; omega)
  simp only [takeBlock, blkSize, size, if_neg h₁, h₂]

/-- `setLink` writes only the link word of the block before. -/
theorem setLink_frame {n x : ℕ} (seg : ∀ f ∈ skip, 8 ≤ f.len)
    (outside : ∀ f ∈ skip, ¬ f.Has x) : (setLink ctx (lastAddr 0 skip) n).memory x = ctx.memory x := by
  rcases List.eq_nil_or_concat skip with rfl | ⟨pre, p, rfl⟩
  · simp [setLink, lastAddr]
  · simp only [List.concat_eq_append] at *
    rw [lastAddr_concat, setLink]
    split_ifs
    · have h₁ := seg p (by simp)
      have h₂ := outside p (by simp)
      unfold Has at h₂
      exact write32_apply_of_disjoint (by omega)
    · rfl

theorem setLink_above {n x : ℕ} (long : ∀ f ∈ skip, 8 ≤ f.len) (above : ∀ f ∈ skip, f.fin ≤ x) :
    (setLink ctx (lastAddr 0 skip) n).memory x = ctx.memory x := by
  refine setLink_frame long fun f hf hx => ?_
  have h := above f hf
  unfold Has at hx
  unfold fin at h
  omega

/-- `setLink` keeps the segments after the block it redirects. -/
theorem FreeSeg.setLink_tail {h e n : ℕ} {l : List Span} (seg : FreeSeg ctx.memory h l e)
    (long : ∀ f ∈ skip, 8 ≤ f.len) (after : ∀ f ∈ skip, ∀ c ∈ l, f.fin ≤ c.addr) :
    FreeSeg (Yos.setLink ctx (lastAddr 0 skip) n).memory h l e := by
  exact seg.frame fun c hc x h₁ _ => setLink_above long fun f hf => (after f hf c hc).trans h₁

/-- The fields other than the memory and the head of the free list. -/
def SameBounds (ctx ctx' : MemCtx) : Prop :=
  ∃ m h, ctx' = { ctx with memory := m, allocFreeHead := h }

theorem SameBounds.trans {c₁ c₂ c₃ : MemCtx} (h : SameBounds c₂ c₃) (h' : SameBounds c₁ c₂) :
    SameBounds c₁ c₃ := by
  obtain ⟨m, hd, rfl⟩ := h
  obtain ⟨m', hd', rfl⟩ := h'
  exact ⟨m, hd, rfl⟩

theorem sameBounds_setLink (ctx : MemCtx) (prev n : ℕ) : SameBounds ctx (setLink ctx prev n) := by
  unfold setLink
  split_ifs
  · exact ⟨_, _, rfl⟩
  · exact ⟨_, _, rfl⟩

/-! The headers of a split are inside `b`. -/

theorem splitHeaders_frame {x : ℕ} (cut : need + minBlock ≤ b.len) (outside : ¬ b.Has x) :
    (splitHeaders ctx need b).memory x = ctx.memory x := by
  unfold Has at outside
  unfold minBlock at cut
  simp only [splitHeaders, blkSetSize, blkSetNext]
  rw [write32_apply_of_disjoint (by omega), write32_apply_of_disjoint (by omega),
    write32_apply_of_disjoint (by omega)]

theorem FreeSeg.splitHeaders {h e : ℕ} {l : List Span} (seg : FreeSeg ctx.memory h l e)
    (cut : need + minBlock ≤ b.len) (apart : ∀ f ∈ l, f.addr + 8 ≤ b.addr ∨ b.fin ≤ f.addr) :
    FreeSeg (Yos.splitHeaders ctx need b).memory h l e := by
  refine seg.frame fun f hf x h₁ h₂ => splitHeaders_frame cut ?_
  have h₃ := apart f hf
  unfold Has
  unfold fin at h₃
  omega

/-- The rest of `b` heads the blocks after it. -/
theorem freeSeg_split (rest : FreeSeg ctx.memory (blkNext ctx b.addr) post 0)
    (after : ∀ c ∈ post, b.fin ≤ c.addr) (small : b.fin ≤ 2 ^ 31) (need8 : 8 ≤ need)
    (cut : need + minBlock ≤ b.len) :
    FreeSeg (splitHeaders ctx need b).memory (b.addr + need)
      (⟨b.addr + need, b.len - need⟩ :: post) 0 := by
  have kept := rest.splitHeaders cut fun c hc => .inr (after c hc)
  unfold fin at small
  unfold minBlock at cut
  refine ⟨rfl, by simp; omega, ?_, ?_⟩
  · simp only [splitHeaders, blkSetSize, blkSetNext]
    rw [read32_write32_disjoint (by omega), read32_write32_disjoint (by omega),
      read32_write32_self (by omega)]
  · have link : (splitHeaders ctx need b).memory.read32 (b.addr + need + 4) = blkNext ctx b.addr := by
      simp only [splitHeaders, blkSetSize, blkSetNext]
      rw [read32_write32_disjoint (by omega)]
      exact read32_write32_self (read32_lt _ _)
    rw [link]
    exact kept

/-- Allocation from the block `b` leaves the rest of `b` in its place. -/
theorem takeBlock_spec (list : FreeList ctx.memory ctx.allocFreeHead (skip ++ b :: post))
    (sorted : (skip ++ b :: post).Pairwise fun a c => a.fin ≤ c.addr)
    (long : ∀ f ∈ skip ++ b :: post, 8 ≤ f.len) (small : b.fin ≤ 2 ^ 31)
    (need8 : 8 ≤ need) (fit : need ≤ b.len) :
    ∃ ctx', takeBlock ctx need (lastAddr 0 skip) b.addr = (ctx', b.addr + 8) ∧
      SameBounds ctx ctx' ∧
      FreeList ctx'.memory ctx'.allocFreeHead (skip ++ (carveRest need b ++ post)) ∧
      ctx'.memory.read32 b.addr = (carveTaken need b).len ∧
      ∀ x, cover (skip ++ b :: post) x = 0 → ctx'.memory x = ctx.memory x := by
  obtain ⟨k, first, rfl, hz, size, rest⟩ := FreeSeg.append.1 list
  obtain ⟨sortedSkip, sortedTail, cross⟩ := List.pairwise_append.1 sorted
  have before : ∀ f ∈ skip, f.fin ≤ b.addr := fun f hf => cross f hf b (by simp)
  have after : ∀ c ∈ post, b.fin ≤ c.addr := (List.pairwise_cons.1 sortedTail).1
  have longSkip : ∀ f ∈ skip, 8 ≤ f.len := fun f hf => long f (by simp [hf])
  have sizeKept {c : MemCtx} {n : ℕ} :
      (setLink c (lastAddr 0 skip) n).memory.read32 b.addr = c.memory.read32 b.addr :=
    read32_congr fun x hx _ => setLink_above longSkip fun f hf => (before f hf).trans hx
  by_cases cut : need + minBlock ≤ b.len
  · rw [takeBlock_split size small cut]
    have skipKept := first.splitHeaders cut fun f hf => .inl (by
      have h₁ := before f hf
      have h₂ := longSkip f hf
      unfold fin at h₁
      omega)
    have restKept := freeSeg_split rest after small need8 cut
    have room : need + 32 ≤ b.len := cut
    unfold fin at small
    refine ⟨_, rfl, (sameBounds_setLink _ _ _).trans ⟨_, _, rfl⟩, ?_, ?_, fun x hx => ?_⟩
    · rw [carveRest, if_pos cut]
      refine FreeSeg.append.2 ⟨_, skipKept.setLink sortedSkip longSkip (by omega),
        restKept.setLink_tail longSkip fun f hf d hd => (before f hf).trans ?_⟩
      rcases List.mem_cons.1 hd with rfl | hd
      · exact Nat.le_add_right _ _
      · exact (Nat.le_add_right _ _).trans (after d hd)
    · rw [carveTaken, if_pos cut, sizeKept]
      exact read32_write32_self (by omega)
    · rw [cover_append, cover_cons] at hx
      rw [setLink_frame longSkip (cover_eq_zero_iff.1 (by omega)),
        splitHeaders_frame cut (hit_eq_zero_iff.1 (by omega))]
  · rw [takeBlock_whole size small fit cut]
    refine ⟨_, rfl, sameBounds_setLink _ _ _, ?_, ?_, fun x hx => ?_⟩
    · rw [carveRest, if_neg cut, List.nil_append]
      exact FreeSeg.append.2 ⟨_, first.setLink sortedSkip longSkip (read32_lt _ _),
        rest.setLink_tail longSkip fun f hf c hc =>
          (before f hf).trans ((Nat.le_add_right _ _).trans (after c hc))⟩
    · rw [carveTaken, if_neg cut, sizeKept, size]
    · rw [cover_append] at hx
      exact setLink_frame longSkip (cover_eq_zero_iff.1 (by omega))

end Take

theorem SameBounds.refl (ctx : MemCtx) : SameBounds ctx ctx := ⟨_, _, rfl⟩

theorem sameBounds_takeBlock (ctx : MemCtx) (need prev cur : ℕ) :
    SameBounds ctx (takeBlock ctx need prev cur).1 := by
  unfold takeBlock
  dsimp only
  split_ifs
  · exact (sameBounds_setLink _ _ _).trans ⟨_, _, rfl⟩
  · exact sameBounds_setLink _ _ _

theorem sameBounds_doAllocLoop (ctx : MemCtx) (need guard prev cur : ℕ) :
    SameBounds ctx (doAllocLoop ctx need guard prev cur).1 := by
  induction guard generalizing prev cur with
  | zero => exact SameBounds.refl ctx
  | succ guard ih =>
    rw [doAllocLoop]
    split_ifs
    · exact SameBounds.refl ctx
    · exact sameBounds_takeBlock _ _ _ _
    · exact ih _ _

/-! ## Freeing -/

section Walk

variable {ctx : MemCtx} {blk prev cur : ℕ} {mid post : List Span}

/-- The walk of `yos_free` passes the blocks that end at or before `blk`. -/
theorem freeWalk_append {fuel : ℕ} (list : FreeList ctx.memory cur (mid ++ post))
    (before : ∀ f ∈ mid, f.addr < blk ∧ f.fin ≤ blk) (small : blk < 2 ^ 32) :
    freeWalk ctx blk (mid.length + fuel) prev cur =
      freeWalk ctx blk fuel (lastAddr prev mid) (headAddr post) := by
  induction mid generalizing prev cur with
  | nil => rw [list.head]; simp [lastAddr]
  | cons f mid ih =>
    obtain ⟨rfl, hz, size, rest⟩ := list
    obtain ⟨h₁, h₂⟩ := before f (by simp)
    have hfin : u32 (f.addr + f.len) = f.fin := u32_of_lt (by unfold fin at h₂; omega)
    rw [List.length_cons, Nat.add_right_comm, freeWalk, if_pos ⟨hz, h₁⟩, blkSize, size, hfin,
      if_neg (by omega), blkNext]
    exact ih rest fun g hg => before g (by simp [hg])

theorem freeWalk_stop {fuel : ℕ} (list : FreeList ctx.memory cur (mid ++ post))
    (before : ∀ f ∈ mid, f.addr < blk ∧ f.fin ≤ blk) (after : ∀ f ∈ post, blk ≤ f.addr)
    (small : blk < 2 ^ 32) :
    freeWalk ctx blk (mid.length + (fuel + 1)) prev cur =
      some (.stop (lastAddr prev mid) (headAddr post)) := by
  rw [freeWalk_append list before small, freeWalk, if_neg]
  rintro ⟨h₁, h₂⟩
  cases post with
  | nil => exact h₁ rfl
  | cons f post => exact absurd (after f (by simp)) (by simpa [headAddr] using h₂)

theorem freeWalk_doubleFree {fuel : ℕ} {f : Span} (list : FreeList ctx.memory cur (mid ++ f :: post))
    (before : ∀ g ∈ mid, g.addr < blk ∧ g.fin ≤ blk) (inside : f.addr < blk ∧ blk < f.fin)
    (small : f.fin < 2 ^ 32) :
    freeWalk ctx blk (mid.length + (fuel + 1)) prev cur = some .doubleFree := by
  rw [freeWalk_append list before (by omega), headAddr, freeWalk]
  obtain ⟨k, -, -, hz, size, -⟩ := FreeSeg.append.1 list
  rw [if_pos ⟨hz, inside.1⟩, blkSize, size, if_pos]
  unfold fin at inside small
  rw [u32_of_lt small]
  exact inside.2

/-- The number of iterations allowed does not change the outcome of the walk. -/
theorem freeWalk_unique {fuel fuel' : ℕ} {w w' : FreeWalk}
    (h : freeWalk ctx blk fuel prev cur = some w) (h' : freeWalk ctx blk fuel' prev cur = some w') :
    w = w' := by
  induction fuel generalizing fuel' prev cur with
  | zero => simp [freeWalk] at h
  | succ fuel ih =>
    cases fuel' with
    | zero => simp [freeWalk] at h'
    | succ fuel' =>
      rw [freeWalk] at h h'
      split_ifs at h h'
      · simp_all
      · exact ih h h'
      · simp_all

end Walk

/-- Join `b` with the block before it, if they touch: the blocks before the result, and the
result. -/
def joinPrev (pre : List Span) (b : Span) : List Span × Span :=
  match pre.getLast? with
  | none => (pre, b)
  | some p => if p.fin = b.addr then (pre.dropLast, ⟨p.addr, p.len + b.len⟩) else (pre, b)

/-- Join `b` with the block after it, if they touch. -/
def joinNext (b : Span) : List Span → List Span
  | [] => [b]
  | c :: l => if b.fin = c.addr then ⟨b.addr, b.len + c.len⟩ :: l else b :: c :: l

/-- Put `b` between the free blocks `pre` and `post`. -/
def insertFree (pre : List Span) (b : Span) (post : List Span) : List Span :=
  (joinPrev pre b).1 ++ joinNext (joinPrev pre b).2 post

@[simp] theorem joinPrev_nil (b : Span) : joinPrev [] b = ([], b) := rfl

@[simp] theorem joinPrev_concat (pre : List Span) (p b : Span) :
    joinPrev (pre ++ [p]) b =
      if p.fin = b.addr then (pre, ⟨p.addr, p.len + b.len⟩) else (pre ++ [p], b) := by
  simp [joinPrev]

section Insert

variable {ctx : MemCtx} {pre post : List Span} {b : Span}

/-- Consecutive blocks of a sorted list are at least a header apart. -/
theorem apart_of_sorted (sorted : (pre ++ b :: post).Pairwise fun a c => a.fin ≤ c.addr)
    (long : ∀ f ∈ pre ++ b :: post, 8 ≤ f.len) :
    (∀ f ∈ pre, f.addr + 8 ≤ b.addr) ∧ (∀ c ∈ post, b.fin ≤ c.addr) ∧ 8 ≤ b.len := by
  obtain ⟨-, sortedTail, cross⟩ := List.pairwise_append.1 sorted
  refine ⟨fun f hf => ?_, (List.pairwise_cons.1 sortedTail).1, long b (by simp)⟩
  have h₁ := cross f hf b (by simp)
  have h₂ := long f (by simp [hf])
  unfold fin at h₁
  omega

theorem mergeNext_spec (list : FreeList ctx.memory ctx.allocFreeHead (pre ++ b :: post))
    (sorted : (pre ++ b :: post).Pairwise fun a c => a.fin ≤ c.addr)
    (long : ∀ f ∈ pre ++ b :: post, 8 ≤ f.len) (small : ∀ f ∈ pre ++ b :: post, f.fin ≤ 2 ^ 31) :
    SameBounds ctx (mergeNext ctx b.addr b.len (headAddr post)) ∧
      FreeList (mergeNext ctx b.addr b.len (headAddr post)).memory
        (mergeNext ctx b.addr b.len (headAddr post)).allocFreeHead (pre ++ joinNext b post) ∧
      ∀ x, ¬ b.Has x → (mergeNext ctx b.addr b.len (headAddr post)).memory x = ctx.memory x := by
  obtain ⟨before, after, long8⟩ := apart_of_sorted sorted long
  cases post with
  | nil => exact ⟨⟨_, _, rfl⟩, list, fun _ _ => rfl⟩
  | cons c l =>
    obtain ⟨_, first, rfl, hb, -, -, hc, sizeC, rest⟩ := FreeSeg.append.1 list
    have hfin : u32 (b.addr + b.len) = b.fin := u32_of_lt (by
      have := small b (by simp)
      unfold fin at this
      omega)
    have smallC := small c (by simp)
    have hsucc := after c (by simp)
    unfold fin at hsucc smallC
    by_cases touch : b.fin = c.addr
    · have hsum : u32 (b.len + c.len) = b.len + c.len := u32_of_lt (by omega)
      rw [mergeNext, headAddr, if_pos ⟨hc, hfin.trans touch⟩, joinNext, if_pos touch]
      simp only [blkSize, sizeC, hsum]
      refine ⟨⟨_, _, rfl⟩, FreeSeg.append.2 ⟨_, (first.write fun f hf => ?_).write fun f hf => ?_,
        rfl, hb, ?_, ?_⟩, fun x hx => ?_⟩
      · exact Or.inl (before f hf)
      · have := before f hf
        omega
      · simp only [blkSetSize, blkSetNext]
        rw [read32_write32_disjoint (by omega), read32_write32_self (by omega)]
      · simp only [blkSetSize, blkSetNext, blkNext]
        rw [read32_write32_self (read32_lt _ _)]
        refine (rest.write fun f hf => ?_).write fun f hf => ?_
        all_goals
          have := after f (by simp [hf])
          unfold fin at this
          omega
      · unfold Has at hx
        simp only [blkSetSize, blkSetNext]
        rw [write32_apply_of_disjoint (by omega), write32_apply_of_disjoint (by omega)]
    · rw [mergeNext, headAddr, if_neg (fun h => touch (hfin.symm.trans h.2)), joinNext, if_neg touch]
      exact ⟨⟨_, _, rfl⟩, list, fun _ _ => rfl⟩

/-- Linking a block that does not touch the one before it. -/
theorem setLink_insert (list : FreeList ctx.memory ctx.allocFreeHead (pre ++ post))
    (header : ctx.memory.read32 b.addr = b.len) (hz : b.addr ≠ 0)
    (sorted : (pre ++ b :: post).Pairwise fun a c => a.fin ≤ c.addr)
    (long : ∀ f ∈ pre ++ b :: post, 8 ≤ f.len) (small : ∀ f ∈ pre ++ b :: post, f.fin ≤ 2 ^ 31) :
    FreeList (blkSetNext (setLink ctx (lastAddr 0 pre) b.addr) b.addr (headAddr post)).memory
        (blkSetNext (setLink ctx (lastAddr 0 pre) b.addr) b.addr (headAddr post)).allocFreeHead
        (pre ++ b :: post) ∧
      ∀ x, cover (pre ++ b :: post) x = 0 →
        (blkSetNext (setLink ctx (lastAddr 0 pre) b.addr) b.addr (headAddr post)).memory x =
          ctx.memory x := by
  obtain ⟨before, after, long8⟩ := apart_of_sorted sorted long
  obtain ⟨sortedPre, -, cross⟩ := List.pairwise_append.1 sorted
  have longPre : ∀ f ∈ pre, 8 ≤ f.len := fun f hf => long f (by simp [hf])
  obtain ⟨k, first, rest⟩ := FreeSeg.append.1 list
  have hk : k = headAddr post := FreeList.head rest
  have hpost : headAddr post < 2 ^ 32 := by
    cases post with
    | nil => simp [headAddr]
    | cons c l =>
      have := small c (by simp)
      unfold fin at this
      rw [headAddr]
      omega
  have hb : b.addr < 2 ^ 32 := by
    have := small b (by simp)
    unfold fin at this
    omega
  simp only [blkSetNext]
  refine ⟨FreeSeg.append.2 ⟨_, (first.setLink sortedPre longPre hb).write fun f hf => ?_,
    rfl, hz, ?_, ?_⟩, fun x hx => ?_⟩
  · have := before f hf
    omega
  · rw [read32_write32_disjoint (by omega), ← header]
    exact read32_congr fun x hx _ => setLink_above longPre fun f hf => (cross f hf b (by simp)).trans hx
  · rw [read32_write32_self hpost, ← hk]
    refine (rest.setLink_tail longPre fun f hf c hc => cross f hf c (by simp [hc])).write
      fun f hf => ?_
    have := after f hf
    unfold fin at this
    omega
  · rw [cover_append, cover_cons] at hx
    have out : ¬ b.Has x := hit_eq_zero_iff.1 (by omega)
    unfold Has at out
    rw [write32_apply_of_disjoint (by omega), setLink_frame longPre (cover_eq_zero_iff.1 (by omega))]

/-- Linking a freed block after `pre`, or merging it into the last block of `pre`. -/
theorem linkPrev_spec (list : FreeList ctx.memory ctx.allocFreeHead (pre ++ post))
    (header : ctx.memory.read32 b.addr = b.len) (hz : b.addr ≠ 0)
    (sorted : (pre ++ b :: post).Pairwise fun a c => a.fin ≤ c.addr)
    (long : ∀ f ∈ pre ++ b :: post, 8 ≤ f.len) (small : ∀ f ∈ pre ++ b :: post, f.fin ≤ 2 ^ 31) :
    ∃ ctx', linkPrev ctx (lastAddr 0 pre) (headAddr post) b.addr b.len =
        (ctx', (joinPrev pre b).2.addr, (joinPrev pre b).2.len) ∧ SameBounds ctx ctx' ∧
      FreeList ctx'.memory ctx'.allocFreeHead
        ((joinPrev pre b).1 ++ (joinPrev pre b).2 :: post) ∧
      ∀ x, cover (pre ++ b :: post) x = 0 → ctx'.memory x = ctx.memory x := by
  have plain := setLink_insert list header hz sorted long small
  rcases List.eq_nil_or_concat pre with rfl | ⟨pre, p, rfl⟩
  · exact ⟨_, rfl, ⟨_, _, rfl⟩, plain⟩
  · simp only [List.concat_eq_append] at *
    obtain ⟨-, after, long8⟩ := apart_of_sorted sorted long
    obtain ⟨k, segPre, rest⟩ := FreeSeg.append.1 list
    obtain ⟨_, first, rfl, hp, sizeP, rfl⟩ := FreeSeg.append.1 segPre
    have smallB := small b (by simp)
    have smallP := small p (by simp)
    unfold fin at smallB smallP
    have hfin : u32 (p.addr + p.len) = p.fin := u32_of_lt (by omega)
    rw [lastAddr_concat, joinPrev_concat, linkPrev, if_pos hp, blkSize, sizeP]
    dsimp only
    rw [hfin]
    by_cases touch : p.fin = b.addr
    · have touch' : p.addr + p.len = b.addr := touch
      have hsum : u32 (p.len + b.len) = p.len + b.len := u32_of_lt (by omega)
      rw [if_pos touch, if_pos touch, hsum]
      have sorted' : (pre ++ p :: (b :: post)).Pairwise fun a c => a.fin ≤ c.addr := by
        simpa using sorted
      obtain ⟨before, -, -⟩ := apart_of_sorted sorted' (by simpa using long)
      have longP := long p (by simp)
      refine ⟨_, rfl, ⟨_, _, rfl⟩, FreeSeg.append.2 ⟨_, first.write fun f hf => ?_, rfl, hp, ?_, ?_⟩,
        fun x hx => ?_⟩
      · have := before f hf
        omega
      · exact read32_write32_self (by omega)
      · simp only [blkSetSize]
        rw [read32_write32_disjoint (by omega)]
        refine rest.write fun f hf => ?_
        have := after f hf
        unfold fin at this
        omega
      · simp only [cover_append, cover_cons, cover_nil] at hx
        have out : ¬ p.Has x := hit_eq_zero_iff.1 (by omega)
        unfold Has at out
        exact write32_apply_of_disjoint (by omega)
    · rw [if_neg touch, if_neg touch]
      rw [lastAddr_concat, setLink, if_pos hp] at plain
      exact ⟨_, rfl, ⟨_, _, rfl⟩, plain⟩

end Insert

end Yos
