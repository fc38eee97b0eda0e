import Yos.Mem.FreeList
import Mathlib.Logic.Relation

/-!
# The free blocks and the live blocks tile the heap

`HeapInv ctx free live` is the invariant of the allocator: the free list in memory is `free`, which
is sorted with a gap after every block; the blocks are 16-aligned multiples of 16 bytes, at least
32 long; live blocks keep their header; and every offset of `[alloc_lo, alloc_hi)` lies in exactly
one block.  `doAlloc`, `yosFree` and guest writes to live payloads keep it, so it holds along
every run (`heap_tiling`).
-/

namespace Yos

open Word Bytes Span

/-! ## Cutting and joining blocks -/

/-- A block is 16-aligned, and its size is a multiple of 16 that is at least `MIN_BLOCK`. -/
def BlockShape (b : Span) : Prop := b.addr % 16 = 0 ∧ b.len % 16 = 0 ∧ minBlock ≤ b.len

/-- There is at least one byte between the two blocks. -/
def Gap (a b : Span) : Prop := a.fin < b.addr

theorem hit_join {p b : Span} (touch : p.fin = b.addr) (x : ℕ) :
    hit ⟨p.addr, p.len + b.len⟩ x = p.hit x + b.hit x := by
  rw [hit_cut]
  unfold fin at touch
  rw [touch]

theorem hit_carve (need : ℕ) (b : Span) (x : ℕ) :
    (carveTaken need b).hit x + cover (carveRest need b) x = b.hit x := by
  unfold carveTaken carveRest
  split_ifs with cut
  · rw [cover_cons, cover_nil, Nat.add_zero, ← hit_cut, Nat.add_sub_cancel' (by omega)]
  · rw [cover_nil, Nat.add_zero]

theorem cover_joinPrev (pre : List Span) (b : Span) (x : ℕ) :
    cover (joinPrev pre b).1 x + (joinPrev pre b).2.hit x = cover pre x + b.hit x := by
  rcases List.eq_nil_or_concat pre with rfl | ⟨pre, p, rfl⟩
  · rfl
  · rw [List.concat_eq_append, joinPrev_concat]
    split_ifs with touch
    · simp only [hit_join touch, cover_append, cover_cons, cover_nil]
      omega
    · rfl

theorem cover_joinNext (b : Span) (post : List Span) (x : ℕ) :
    cover (joinNext b post) x = b.hit x + cover post x := by
  cases post with
  | nil => rfl
  | cons c l =>
    rw [joinNext]
    split_ifs with touch
    · rw [cover_cons, cover_cons, hit_join touch, Nat.add_assoc]
    · rfl

theorem cover_insertFree (pre : List Span) (b : Span) (post : List Span) (x : ℕ) :
    cover (insertFree pre b post) x = cover pre x + b.hit x + cover post x := by
  rw [insertFree, cover_append, cover_joinNext, ← cover_joinPrev, Nat.add_assoc]

theorem BlockShape.join {p b : Span} (hp : BlockShape p) (hb : BlockShape b) :
    BlockShape ⟨p.addr, p.len + b.len⟩ := by
  unfold BlockShape minBlock at *
  dsimp only
  omega

theorem shape_joinPrev {pre : List Span} {b : Span} (hpre : ∀ f ∈ pre, BlockShape f)
    (hb : BlockShape b) :
    (∀ f ∈ (joinPrev pre b).1, BlockShape f) ∧ BlockShape (joinPrev pre b).2 := by
  rcases List.eq_nil_or_concat pre with rfl | ⟨pre, p, rfl⟩
  · exact ⟨hpre, hb⟩
  · rw [List.concat_eq_append] at *
    rw [joinPrev_concat]
    split_ifs
    · exact ⟨fun f hf => hpre f (by simp [hf]), (hpre p (by simp)).join hb⟩
    · exact ⟨hpre, hb⟩

theorem shape_joinNext {post : List Span} {b : Span} (hb : BlockShape b)
    (hpost : ∀ f ∈ post, BlockShape f) : ∀ f ∈ joinNext b post, BlockShape f := by
  cases post with
  | nil => simpa [joinNext] using hb
  | cons c l =>
    rw [joinNext]
    split_ifs
    · intro f hf
      rcases List.mem_cons.1 hf with rfl | hf
      · exact hb.join (hpost c (by simp))
      · exact hpost f (by simp [hf])
    · intro f hf
      rcases List.mem_cons.1 hf with rfl | hf
      · exact hb
      · exact hpost f hf

theorem shape_insertFree {pre post : List Span} {b : Span}
    (shape : ∀ f ∈ pre ++ b :: post, BlockShape f) : ∀ f ∈ insertFree pre b post, BlockShape f := by
  have hpre : ∀ f ∈ pre, BlockShape f := fun f hf => shape f (by simp [hf])
  obtain ⟨h₁, h₂⟩ := shape_joinPrev hpre (shape b (by simp))
  intro f hf
  rcases List.mem_append.1 hf with hf | hf
  · exact h₁ f hf
  · exact shape_joinNext h₂ (fun c hc => shape c (by simp [hc])) f hf

theorem gap_joinPrev {pre : List Span} {b : Span} (gaps : pre.Pairwise Gap)
    (long : ∀ f ∈ pre, 0 < f.len) (before : ∀ f ∈ pre, f.fin ≤ b.addr) :
    (joinPrev pre b).1.Pairwise Gap ∧ (∀ f ∈ (joinPrev pre b).1, Gap f (joinPrev pre b).2) ∧
      (joinPrev pre b).2.fin = b.fin := by
  rcases List.eq_nil_or_concat pre with rfl | ⟨pre, p, rfl⟩
  · simp
  · rw [List.concat_eq_append] at *
    rw [joinPrev_concat]
    obtain ⟨gapsPre, -, cross⟩ := List.pairwise_append.1 gaps
    have hp := before p (by simp)
    have lp := long p (by simp)
    split_ifs with touch
    · refine ⟨gapsPre, fun f hf => cross f hf p (by simp), ?_⟩
      unfold fin at *
      dsimp only
      omega
    · refine ⟨gaps, fun f hf => ?_, rfl⟩
      dsimp only at hf ⊢
      rcases List.mem_append.1 hf with hf | hf
      · have := cross f hf p (by simp)
        unfold Gap fin at *
        omega
      · rw [List.mem_singleton.1 hf]
        unfold Gap
        omega

theorem gap_joinNext {post : List Span} {b : Span} (gaps : post.Pairwise Gap)
    (after : ∀ c ∈ post, b.fin ≤ c.addr) :
    (joinNext b post).Pairwise Gap ∧ ∀ c ∈ joinNext b post, b.addr ≤ c.addr := by
  cases post with
  | nil => simp [joinNext]
  | cons c l =>
    obtain ⟨first, gapsL⟩ := List.pairwise_cons.1 gaps
    have hc := after c (by simp)
    rw [joinNext]
    split_ifs with touch
    · refine ⟨List.pairwise_cons.2 ⟨fun d hd => ?_, gapsL⟩, fun d hd => ?_⟩
      · have := first d hd
        unfold Gap fin at *
        dsimp only
        omega
      · rcases List.mem_cons.1 hd with rfl | hd
        · exact le_rfl
        · have := after d (by simp [hd])
          unfold fin at this
          omega
    · have strict : ∀ d ∈ c :: l, Gap b d := fun d hd => by
        rcases List.mem_cons.1 hd with rfl | hd
        · unfold Gap
          omega
        · have := first d hd
          unfold Gap fin at *
          omega
      refine ⟨List.pairwise_cons.2 ⟨strict, gaps⟩, fun d hd => ?_⟩
      rcases List.mem_cons.1 hd with rfl | hd
      · exact le_rfl
      · have := strict d hd
        unfold Gap fin at this
        omega

theorem gap_insertFree {pre post : List Span} {b : Span} (gaps : (pre ++ post).Pairwise Gap)
    (long : ∀ f ∈ pre, 0 < f.len) (before : ∀ f ∈ pre, f.fin ≤ b.addr)
    (after : ∀ c ∈ post, b.fin ≤ c.addr) : (insertFree pre b post).Pairwise Gap := by
  obtain ⟨gapsPre, gapsPost, -⟩ := List.pairwise_append.1 gaps
  obtain ⟨h₁, h₂, hfin⟩ := gap_joinPrev gapsPre long before
  obtain ⟨h₃, h₄⟩ := gap_joinNext (b := (joinPrev pre b).2) gapsPost (by rwa [hfin])
  refine List.pairwise_append.2 ⟨h₁, h₃, fun f hf c hc => ?_⟩
  exact lt_of_lt_of_le (h₂ f hf) (h₄ c hc)

theorem mem_joinPrev {pre : List Span} {b f : Span} (hf : f ∈ (joinPrev pre b).1) : f ∈ pre := by
  rcases List.eq_nil_or_concat pre with rfl | ⟨pre, p, rfl⟩
  · exact hf
  · rw [List.concat_eq_append] at *
    rw [joinPrev_concat] at hf
    split_ifs at hf
    · exact List.mem_append_left _ hf
    · exact hf

theorem sorted_of_gap {l : List Span} (gaps : l.Pairwise Gap) :
    l.Pairwise fun a c => a.fin ≤ c.addr :=
  gaps.imp fun h => Nat.le_of_lt h

theorem gap_carve {skip post : List Span} {b : Span} {need : ℕ}
    (gaps : (skip ++ b :: post).Pairwise Gap) :
    (skip ++ (carveRest need b ++ post)).Pairwise Gap := by
  obtain ⟨gapsSkip, gapsTail, cross⟩ := List.pairwise_append.1 gaps
  obtain ⟨after, gapsPost⟩ := List.pairwise_cons.1 gapsTail
  unfold carveRest
  split_ifs with cut
  · refine List.pairwise_append.2 ⟨gapsSkip, List.pairwise_cons.2 ⟨fun c hc => ?_, gapsPost⟩,
      fun f hf c hc => ?_⟩
    · have := after c hc
      unfold Gap fin at *
      dsimp only
      omega
    · rcases List.mem_cons.1 hc with rfl | hc
      · have := cross f hf b (by simp)
        unfold Gap at *
        dsimp only
        omega
      · exact cross f hf c (List.mem_cons_of_mem _ hc)
  · exact List.pairwise_append.2 ⟨gapsSkip, gapsPost, fun f hf c hc =>
      cross f hf c (List.mem_cons_of_mem _ hc)⟩

theorem shape_carve {b : Span} {need : ℕ} (shape : BlockShape b) (aligned : need % 16 = 0)
    (large : 32 ≤ need) :
    BlockShape (carveTaken need b) ∧ ∀ r ∈ carveRest need b, BlockShape r := by
  unfold carveTaken carveRest
  unfold BlockShape minBlock at *
  split_ifs with cut
  · simp only [List.mem_singleton, forall_eq]
    omega
  · exact ⟨shape, by simp⟩

/-! ## The invariant -/

/-- The free list in memory is `free`, and `free` and `live` tile `[alloc_lo, alloc_hi)`. -/
structure HeapInv (ctx : MemCtx) (free live : List Span) : Prop where
  list : FreeList ctx.memory ctx.allocFreeHead free
  gaps : free.Pairwise Gap
  shape : ∀ b ∈ free ++ live, BlockShape b
  header : ∀ b ∈ live, ctx.memory.read32 b.addr = b.len
  tiles : ∀ x, cover (free ++ live) x = hit ⟨ctx.allocLo, ctx.allocHi - ctx.allocLo⟩ x
  lo_pos : 0 < ctx.allocLo
  lo_lt : ctx.allocLo < ctx.allocHi
  hi_le : ctx.allocHi ≤ 2 ^ 31

namespace HeapInv

variable {ctx : MemCtx} {free live : List Span}

theorem has_iff (inv : HeapInv ctx free live) (x : ℕ) :
    (∃ b ∈ free ++ live, b.Has x) ↔ ctx.allocLo ≤ x ∧ x < ctx.allocHi := by
  rw [← cover_pos_iff, inv.tiles, hit]
  have := inv.lo_lt
  dsimp only
  split_ifs <;> simp <;> omega

theorem bounds (inv : HeapInv ctx free live) {b : Span} (hb : b ∈ free ++ live) :
    ctx.allocLo ≤ b.addr ∧ b.fin ≤ ctx.allocHi := by
  have hs := (inv.shape b hb).2.2
  unfold minBlock at hs
  have h₁ := (inv.has_iff b.addr).1 ⟨b, hb, by unfold Has; omega⟩
  have h₂ := (inv.has_iff (b.addr + b.len - 1)).1 ⟨b, hb, by unfold Has; omega⟩
  unfold fin
  omega

theorem pairwise (inv : HeapInv ctx free live) : (free ++ live).Pairwise Span.Disjoint :=
  disjoint_of_cover_le_one fun x => by rw [inv.tiles]; exact hit_le_one _ _

theorem long (inv : HeapInv ctx free live) {b : Span} (hb : b ∈ free ++ live) : 32 ≤ b.len :=
  (inv.shape b hb).2.2

theorem small (inv : HeapInv ctx free live) {b : Span} (hb : b ∈ free ++ live) :
    b.fin ≤ 2 ^ 31 :=
  (inv.bounds hb).2.trans inv.hi_le

theorem long8 (inv : HeapInv ctx free live) {b : Span} (hb : b ∈ free ++ live) : 8 ≤ b.len :=
  le_trans (by norm_num) (inv.long hb)

/-- No free block meets a live one. -/
theorem cover_free (inv : HeapInv ctx free live) {b : Span} {x : ℕ} (hb : b ∈ live)
    (hx : b.Has x) : cover free x = 0 := by
  have h₁ := cover_pos_of_mem hb hx
  have h₂ := hit_le_one ⟨ctx.allocLo, ctx.allocHi - ctx.allocLo⟩ x
  rw [← inv.tiles, cover_append] at h₂
  omega

/-- No header lies in the payload of a live block. -/
theorem payload_misses (inv : HeapInv ctx free live) {b c : Span} {x : ℕ} (hb : b ∈ live)
    (payload : b.addr + 8 ≤ x ∧ x < b.fin) (hc : c ∈ free ++ live) :
    ¬ (c.addr ≤ x ∧ x < c.addr + 8) := by
  rintro ⟨start, stop⟩
  have lc := inv.long hc
  unfold fin at payload
  have inB : b.Has x := ⟨by omega, payload.2⟩
  have inC : c.Has x := ⟨start, by omega⟩
  by_cases same : c = b
  · subst same
    omega
  · exact inv.pairwise.forall hc (List.mem_append_right _ hb) same x ⟨inC, inB⟩

/-- No header lies outside the heap. -/
theorem outside_misses (inv : HeapInv ctx free live) {c : Span} {x : ℕ}
    (outside : x < ctx.allocLo ∨ ctx.allocHi ≤ x) (hc : c ∈ free ++ live) :
    ¬ (c.addr ≤ x ∧ x < c.addr + 8) := by
  rintro ⟨start, stop⟩
  obtain ⟨lo, hi⟩ := inv.bounds hc
  have lc := inv.long hc
  unfold fin at hi
  omega

/-- A memory with the same headers is in order too. -/
theorem setMemory (inv : HeapInv ctx free live) {m : Bytes}
    (same : ∀ c ∈ free ++ live, ∀ x, c.addr ≤ x → x < c.addr + 8 → m x = ctx.memory x) :
    HeapInv { ctx with memory := m } free live := by
  refine { inv with
    list := inv.list.frame fun c hc => same c (List.mem_append_left _ hc)
    header := fun c hc => ?_ }
  rw [← inv.header c hc]
  exact read32_congr fun x h₁ h₂ => same c (List.mem_append_right _ hc) x h₁ (by omega)

/-- The order of the live blocks does not matter. -/
theorem perm (inv : HeapInv ctx free live) {live' : List Span} (same : live.Perm live') :
    HeapInv ctx free live' := by
  have mem : ∀ b ∈ free ++ live', b ∈ free ++ live := by
    intro b hb
    rw [List.mem_append] at hb ⊢
    exact hb.imp id same.mem_iff.mpr
  refine { inv with
    shape := fun b hb => inv.shape b (mem b hb)
    header := fun b hb => inv.header b (same.mem_iff.mpr hb)
    tiles := fun x => ?_ }
  rw [← inv.tiles, cover_append, cover_append, cover_perm same]

/-- A memory that differs only in free blocks keeps the headers of the live ones. -/
theorem header_congr (inv : HeapInv ctx free live) {m : Bytes} {b : Span} (hb : b ∈ live)
    (frame : ∀ x, cover free x = 0 → m x = ctx.memory x) : m.read32 b.addr = b.len := by
  rw [← inv.header b hb]
  refine read32_congr fun x h₁ h₂ => frame x (inv.cover_free hb ⟨h₁, ?_⟩)
  have := inv.long (List.mem_append_right _ hb)
  omega

/-- The free list of a heap is the only one with gaps that covers its free bytes. -/
theorem free_eq {l : List Span} (inv : HeapInv ctx free live) (gaps : l.Pairwise Gap)
    (pos : ∀ f ∈ l, 0 < f.len) (same : ∀ x, cover free x = cover l x) : free = l :=
  eq_of_cover_eq inv.gaps gaps (fun f mem => by
    have := inv.long (b := f) (List.mem_append_left _ mem)
    omega) pos same

/-- A heap in order is set up. -/
theorem allocInitLocked (inv : HeapInv ctx free live) : Yos.allocInitLocked ctx = some ctx := by
  rw [Yos.allocInitLocked, if_pos]
  have := inv.lo_lt
  omega

end HeapInv

theorem alignUp_eq {x : ℕ} (h : x < 2 ^ 32 - 15) : alignUp x blkAlign = (x + 15) / 16 * 16 := by
  have := bclr_two_pow (u32 (x + 15)) 4
  rw [u32_of_lt (by omega)] at this
  simpa [alignUp, blkAlign, u32_of_lt (show x + 15 < 2 ^ 32 by omega)] using this

theorem alignUp_mod (x : ℕ) : alignUp x blkAlign % 16 = 0 := by
  have := bclr_two_pow (u32 (x + 15)) 4
  unfold alignUp blkAlign
  norm_num at this ⊢
  rw [this]
  omega

theorem mallocNeed_shape (size : ℕ) : mallocNeed size % 16 = 0 ∧ 32 ≤ mallocNeed size := by
  unfold mallocNeed
  dsimp only
  split_ifs with hs hn hn
  · simp [minBlock]
  · exact ⟨alignUp_mod _, by unfold minBlock at hn; omega⟩
  · simp [minBlock]
  · exact ⟨alignUp_mod _, by unfold minBlock at hn; omega⟩

/-! ## Allocation keeps the invariant -/

/-- `do_alloc` took the block `t` of at least `need` bytes from the free blocks: it cut it off, or took
it whole, and wrote to free blocks only. -/
structure TakenFrom (ctx ctx' : MemCtx) (free free' : List Span) (need : ℕ) (t : Span) : Prop where
  bounds : SameBounds ctx ctx'
  large : need ≤ t.len
  parts : ∀ x, t.hit x + cover free' x = cover free x
  frame : ∀ x, cover free x = 0 → ctx'.memory x = ctx.memory x

theorem carveTaken_addr (need : ℕ) (b : Span) : (carveTaken need b).addr = b.addr := by
  unfold carveTaken
  split_ifs <;> rfl

/-- Allocation takes the first free block that is large enough. -/
theorem HeapInv.doAlloc_of_fit {ctx : MemCtx} {free live skip post : List Span} {b : Span} {need : ℕ}
    (inv : HeapInv ctx free live) (aligned : need % 16 = 0) (large : 32 ≤ need)
    (found : firstFit need (2 ^ 22) free = some (skip, b, post)) :
    ∃ ctx', Yos.doAlloc ctx need = (ctx', b.addr + 8) ∧
      HeapInv ctx' (skip ++ (carveRest need b ++ post)) (carveTaken need b :: live) ∧
      TakenFrom ctx ctx' free (skip ++ (carveRest need b ++ post)) need (carveTaken need b) := by
  rw [Yos.doAlloc, doAllocLoop_eq inv.list, found]
  obtain ⟨rfl, fit⟩ := firstFit_some found
  have hb : b ∈ (skip ++ b :: post) ++ live := by simp
  have hfree : ∀ f ∈ skip ++ b :: post, f ∈ (skip ++ b :: post) ++ live :=
    fun f hf => List.mem_append_left _ hf
  obtain ⟨ctx', eq, ⟨m, h, rfl⟩, list, header, frame⟩ := takeBlock_spec inv.list
    (sorted_of_gap inv.gaps) (fun f hf => inv.long8 (hfree f hf)) (inv.small hb) (by omega) fit
  obtain ⟨shapeTaken, shapeRest⟩ := shape_carve (inv.shape b hb) aligned large
  have taken := carveTaken_addr need b
  have cut (x : ℕ) : (carveTaken need b).hit x + cover (skip ++ (carveRest need b ++ post)) x =
      cover (skip ++ b :: post) x := by
    have h := hit_carve need b x
    simp only [cover_append, cover_cons]
    omega
  refine ⟨_, eq, ⟨list, gap_carve inv.gaps, fun c hc => ?_, fun c hc => ?_, fun x => ?_, inv.lo_pos,
    inv.lo_lt, inv.hi_le⟩, ⟨m, h, rfl⟩, ?_, cut, frame⟩
  · simp only [List.mem_append, List.mem_cons] at hc
    rcases hc with (hc | hc | hc) | rfl | hc
    · exact inv.shape c (by simp [hc])
    · exact shapeRest c hc
    · exact inv.shape c (by simp [hc])
    · exact shapeTaken
    · exact inv.shape c (by simp [hc])
  · rcases List.mem_cons.1 hc with rfl | hc
    · rw [taken]
      exact header
    · exact inv.header_congr hc frame
  · have h₁ := inv.tiles x
    have h₂ := cut x
    simp only [cover_append, cover_cons] at h₁ h₂ ⊢
    omega
  · unfold carveTaken
    split_ifs
    · exact le_rfl
    · exact fit

/-- Allocation fails when none of the free blocks it looks at is large enough. -/
theorem HeapInv.doAlloc_of_none {ctx : MemCtx} {free live : List Span} {need : ℕ}
    (inv : HeapInv ctx free live) (none : firstFit need (2 ^ 22) free = none) :
    Yos.doAlloc ctx need = (ctx, 0) := by
  rw [Yos.doAlloc, doAllocLoop_eq inv.list, none]

theorem HeapInv.doAlloc {ctx : MemCtx} {free live : List Span} {need : ℕ}
    (inv : HeapInv ctx free live) (aligned : need % 16 = 0) (large : 32 ≤ need) :
    doAlloc ctx need = (ctx, 0) ∨
      ∃ ctx' t free', doAlloc ctx need = (ctx', t.addr + 8) ∧ HeapInv ctx' free' (t :: live) := by
  rcases found : firstFit need (2 ^ 22) free with _ | ⟨skip, b, post⟩
  · exact Or.inl (inv.doAlloc_of_none found)
  · obtain ⟨ctx', eq, inv', -⟩ := inv.doAlloc_of_fit aligned large found
    rw [← carveTaken_addr need b] at eq
    exact Or.inr ⟨_, _, _, eq, inv'⟩

/-! ## Freeing keeps the invariant -/

/-- Split a sorted list at an address. -/
theorem exists_split_at {l : List Span} (gaps : l.Pairwise Gap) (a : ℕ) :
    ∃ pre post, l = pre ++ post ∧ (∀ f ∈ pre, f.addr < a) ∧ ∀ f ∈ post, a ≤ f.addr := by
  induction l with
  | nil => exact ⟨[], [], rfl, by simp, by simp⟩
  | cons f l ih =>
    obtain ⟨first, gapsL⟩ := List.pairwise_cons.1 gaps
    by_cases hf : f.addr < a
    · obtain ⟨pre, post, rfl, h₁, h₂⟩ := ih gapsL
      refine ⟨f :: pre, post, rfl, fun g hg => ?_, h₂⟩
      rcases List.mem_cons.1 hg with rfl | hg
      · exact hf
      · exact h₁ g hg
    · refine ⟨[], f :: l, rfl, by simp, fun g hg => ?_⟩
      rcases List.mem_cons.1 hg with rfl | hg
      · omega
      · have := first g hg
        unfold Gap fin at this
        omega

theorem unshiftUserOff_of_mod {ctx : MemCtx} {off : ℕ} (h : off % 16 = 8) :
    unshiftUserOff ctx off = off := by
  have := Nat.and_two_pow_sub_one_eq_mod off 4
  norm_num at this
  rw [unshiftUserOff, if_pos (by omega)]

/-- `yos_free` of a pointer into the heap that `yos_malloc` returned. -/
theorem yosFree_eq {ctx : MemCtx} {blk fuel : ℕ} (lo : ctx.allocLo ≤ blk)
    (hi : blk + 8 < ctx.allocHi) (hi' : ctx.allocHi ≤ 2 ^ 31) (aligned : blk % 16 = 0) :
    yosFree fuel ctx (blk + hdrSize) =
      if blkSize ctx blk < minBlock ∨ ctx.allocHi < u32 (blk + blkSize ctx blk) then some ctx
      else
        match freeWalk ctx blk fuel 0 ctx.allocFreeHead with
        | none => none
        | some .doubleFree => some ctx
        | some (.stop prev cur) =>
          if cur = blk then some ctx
          else
            some (mergeNext (linkPrev ctx prev cur blk (blkSize ctx blk)).1
              (linkPrev ctx prev cur blk (blkSize ctx blk)).2.1
              (linkPrev ctx prev cur blk (blkSize ctx blk)).2.2 cur) := by
  have h₁ : u32 (ctx.allocLo + hdrSize) = ctx.allocLo + 8 := u32_of_lt (by unfold hdrSize; omega)
  have h₂ : sub32 (blk + hdrSize) hdrSize = blk := by unfold sub32 u32 hdrSize; omega
  have unfolded := yosFree.eq_def fuel ctx (blk + hdrSize)
  rw [if_neg (by unfold hdrSize; omega), if_neg (by rw [h₁]; unfold hdrSize; omega),
    unshiftUserOff_of_mod (by unfold hdrSize; omega), h₂] at unfolded
  exact unfolded

/-- The free blocks before and after a live block. -/
theorem HeapInv.split {ctx : MemCtx} {free live : List Span} {b : Span}
    (inv : HeapInv ctx free live) (hb : b ∈ live) :
    ∃ pre post, free = pre ++ post ∧ (∀ f ∈ pre, f.fin ≤ b.addr) ∧ ∀ f ∈ post, b.fin ≤ f.addr := by
  obtain ⟨pre, post, rfl, h₁, h₂⟩ := exists_split_at inv.gaps b.addr
  have apart : ∀ f ∈ pre ++ post, f.fin ≤ b.addr ∨ b.fin ≤ f.addr := fun f hf => by
    have lf := inv.long (List.mem_append_left _ hf)
    have lb := inv.long (List.mem_append_right _ hb)
    exact ((List.pairwise_append.1 inv.pairwise).2.2 f hf b hb).le_or_le (by omega) (by omega)
  refine ⟨pre, post, rfl, fun f hf => ?_, fun f hf => ?_⟩
  · rcases apart f (by simp [hf]) with h | h
    · exact h
    · have := h₁ f hf
      unfold fin at h
      omega
  · rcases apart f (by simp [hf]) with h | h
    · have := h₂ f hf
      have := inv.long (b := f) (by simp [hf])
      unfold fin at h
      omega
    · exact h

/-- Inserting the block `b` with header into the free list between `pre` and `post`. -/
theorem insertBlock_spec {ctx : MemCtx} {pre post : List Span} {b : Span}
    (list : FreeList ctx.memory ctx.allocFreeHead (pre ++ post))
    (header : ctx.memory.read32 b.addr = b.len) (hz : b.addr ≠ 0)
    (gaps : (pre ++ post).Pairwise Gap) (shape : ∀ f ∈ pre ++ b :: post, BlockShape f)
    (small : ∀ f ∈ pre ++ b :: post, f.fin ≤ 2 ^ 31) (before : ∀ f ∈ pre, f.fin ≤ b.addr)
    (after : ∀ f ∈ post, b.fin ≤ f.addr) :
    ∃ ctx', mergeNext (linkPrev ctx (lastAddr 0 pre) (headAddr post) b.addr b.len).1
        (linkPrev ctx (lastAddr 0 pre) (headAddr post) b.addr b.len).2.1
        (linkPrev ctx (lastAddr 0 pre) (headAddr post) b.addr b.len).2.2 (headAddr post) = ctx' ∧
      SameBounds ctx ctx' ∧ FreeList ctx'.memory ctx'.allocFreeHead (insertFree pre b post) ∧
      ∀ x, cover (pre ++ b :: post) x = 0 → ctx'.memory x = ctx.memory x := by
  obtain ⟨gapsPre, gapsPost, cross⟩ := List.pairwise_append.1 gaps
  have long : ∀ f, BlockShape f → 8 ≤ f.len := fun f hf => le_trans (by norm_num [minBlock]) hf.2.2
  have sorted : (pre ++ b :: post).Pairwise fun a c => a.fin ≤ c.addr := by
    refine List.pairwise_append.2 ⟨sorted_of_gap gapsPre,
      List.pairwise_cons.2 ⟨after, sorted_of_gap gapsPost⟩, fun f hf c hc => ?_⟩
    rcases List.mem_cons.1 hc with rfl | hc
    · exact before f hf
    · exact Nat.le_of_lt (cross f hf c hc)
  obtain ⟨ctx₁, eq, bounds₁, list₁, frame₁⟩ := linkPrev_spec list header hz sorted
    (fun f hf => long f (shape f hf)) small
  have hpre : ∀ f ∈ pre, BlockShape f := fun f hf => shape f (by simp [hf])
  obtain ⟨shapePre, shapeB⟩ := shape_joinPrev hpre (shape b (by simp))
  obtain ⟨gaps₁, gapB, finB⟩ := gap_joinPrev gapsPre
    (fun f hf => lt_of_lt_of_le (by norm_num) (long f (shape f (by simp [hf])))) before
  have sorted₁ : ((joinPrev pre b).1 ++ (joinPrev pre b).2 :: post).Pairwise
      fun a c => a.fin ≤ c.addr := by
    refine List.pairwise_append.2 ⟨sorted_of_gap gaps₁,
      List.pairwise_cons.2 ⟨by rwa [finB], sorted_of_gap gapsPost⟩, fun f hf c hc => ?_⟩
    rcases List.mem_cons.1 hc with rfl | hc
    · exact Nat.le_of_lt (gapB f hf)
    · exact Nat.le_of_lt (cross f (mem_joinPrev hf) c hc)
  have each {P : Span → Prop} (h₁ : ∀ f ∈ (joinPrev pre b).1, P f) (h₂ : P (joinPrev pre b).2)
      (h₃ : ∀ f ∈ post, P f) : ∀ f ∈ (joinPrev pre b).1 ++ (joinPrev pre b).2 :: post, P f := by
    intro f hf
    rcases List.mem_append.1 hf with hf | hf
    · exact h₁ f hf
    · rcases List.mem_cons.1 hf with rfl | hf
      · exact h₂
      · exact h₃ f hf
  rw [eq]
  obtain ⟨bounds₂, list₂, frame₂⟩ := mergeNext_spec list₁ sorted₁
    (each (fun f hf => long f (shapePre f hf)) (long _ shapeB) fun f hf => long f (shape f (by simp [hf])))
    (each (fun f hf => small f (by simp [mem_joinPrev hf])) (by rw [finB]; exact small b (by simp))
      fun f hf => small f (by simp [hf]))
  refine ⟨_, rfl, bounds₂.trans bounds₁, list₂, fun x hx => ?_⟩
  rw [frame₂ x, frame₁ x hx]
  have := cover_joinPrev pre b x
  rw [cover_append, cover_cons] at hx
  exact hit_eq_zero_iff.1 (by omega)

/-- `yos_free` gave the block `b` back: the free blocks gain its bytes, and it wrote to free blocks and
to `b` only. -/
structure GivenBack (ctx ctx' : MemCtx) (free free' : List Span) (b : Span) : Prop where
  bounds : SameBounds ctx ctx'
  joins : ∀ x, cover free' x = cover free x + b.hit x
  frame : ∀ x, cover free x = 0 → ¬ b.Has x → ctx'.memory x = ctx.memory x

/-- Freeing a live block returns, keeps the invariant and makes exactly its bytes free. -/
theorem HeapInv.yosFree_givesBack {ctx : MemCtx} {free live : List Span} {b : Span} {fuel : ℕ}
    (inv : HeapInv ctx free live) (hb : b ∈ live) (enough : free.length < fuel) :
    ∃ ctx' free', yosFree fuel ctx (b.addr + hdrSize) = some ctx' ∧
      HeapInv ctx' free' (live.erase b) ∧ GivenBack ctx ctx' free free' b := by
  have mem : b ∈ free ++ live := List.mem_append_right _ hb
  obtain ⟨lo, hi⟩ := inv.bounds mem
  have hiLe := inv.hi_le
  have loPos := inv.lo_pos
  have lb := inv.long mem
  obtain ⟨aligned, -, -⟩ := inv.shape b mem
  have size : blkSize ctx b.addr = b.len := inv.header b hb
  have live' := List.perm_cons_erase hb
  obtain ⟨pre, post, rfl, before, after⟩ := inv.split hb
  unfold fin at hi
  rw [yosFree_eq lo (by omega) inv.hi_le aligned, size,
    if_neg (by rw [u32_of_lt (by omega)]; unfold minBlock; omega)]
  obtain ⟨extra, rfl⟩ : ∃ extra, fuel = pre.length + (extra + 1) :=
    ⟨fuel - pre.length - 1, by rw [List.length_append] at enough; omega⟩
  rw [freeWalk_stop inv.list (fun f hf => ?_) (fun f hf => ?_) (by omega)]
  rotate_left
  · have := before f hf
    have := inv.long (b := f) (by simp [hf])
    unfold fin at *
    omega
  · have := after f hf
    unfold fin at this
    omega
  have other : headAddr post ≠ b.addr := by
    cases post with
    | nil => exact fun h => by simp [headAddr] at h; omega
    | cons c l =>
      have := after c (by simp)
      unfold fin at this
      simp only [headAddr]
      omega
  have sub : ∀ f ∈ pre ++ b :: post, f ∈ (pre ++ post) ++ live := by
    intro f hf
    simp only [List.mem_append, List.mem_cons] at hf ⊢
    rcases hf with hf | rfl | hf
    · exact Or.inl (Or.inl hf)
    · exact Or.inr hb
    · exact Or.inl (Or.inr hf)
  obtain ⟨_, eq, ⟨m, h, rfl⟩, list, frame⟩ := insertBlock_spec inv.list (inv.header b hb) (by omega)
    inv.gaps (fun f hf => inv.shape f (sub f hf)) (fun f hf => inv.small (sub f hf)) before after
  dsimp only
  rw [if_neg other, eq]
  have liveCover (x : ℕ) : cover live x = b.hit x + cover (live.erase b) x := by
    rw [cover_perm live' x, cover_cons]
  refine ⟨_, insertFree pre b post, rfl, ⟨list, ?_, fun c hc => ?_, fun c hc => ?_, fun x => ?_,
    inv.lo_pos, inv.lo_lt, inv.hi_le⟩, ⟨m, h, rfl⟩, fun x => ?_, fun x hx out => frame x ?_⟩
  · exact gap_insertFree inv.gaps (fun f hf => by
      have := inv.long (b := f) (by simp [hf])
      omega) before after
  · rcases List.mem_append.1 hc with hc | hc
    · exact shape_insertFree (fun f hf => inv.shape f (sub f hf)) c hc
    · exact inv.shape c (List.mem_append_right _ (List.mem_of_mem_erase hc))
  · have hc' := List.mem_of_mem_erase hc
    have lc := inv.long (List.mem_append_right _ hc')
    rw [← inv.header c hc']
    refine read32_congr fun x h₁ h₂ => frame x ?_
    have h₃ := cover_pos_of_mem hc (show c.Has x from ⟨h₁, by omega⟩)
    have h₄ := hit_le_one ⟨ctx.allocLo, ctx.allocHi - ctx.allocLo⟩ x
    rw [← inv.tiles, cover_append, liveCover] at h₄
    simp only [cover_append, cover_cons] at h₄ ⊢
    omega
  · have h₁ := inv.tiles x
    rw [cover_append, liveCover] at h₁
    rw [cover_append, cover_insertFree]
    simp only [cover_append] at h₁ ⊢
    omega
  · rw [cover_insertFree, cover_append]
    omega
  · have miss := hit_eq_zero_iff.2 out
    simp only [cover_append, cover_cons] at hx ⊢
    omega

theorem HeapInv.yosFree {ctx : MemCtx} {free live : List Span} {b : Span} {fuel : ℕ}
    (inv : HeapInv ctx free live) (hb : b ∈ live) (enough : free.length < fuel) :
    ∃ ctx' free', yosFree fuel ctx (b.addr + hdrSize) = some ctx' ∧
      HeapInv ctx' free' (live.erase b) := by
  obtain ⟨ctx', free', eq, inv', -⟩ := inv.yosFree_givesBack hb enough
  exact ⟨ctx', free', eq, inv'⟩

/-- Freeing a block that lies inside a free block changes nothing. -/
theorem HeapInv.yosFree_inside {ctx : MemCtx} {free live : List Span} {f : Span} {blk fuel : ℕ}
    (inv : HeapInv ctx free live) (hf : f ∈ free) (inside : f.Has blk) (aligned : blk % 16 = 0)
    (enough : free.length < fuel) : Yos.yosFree fuel ctx (blk + hdrSize) = some ctx := by
  have mem : f ∈ free ++ live := List.mem_append_left _ hf
  obtain ⟨lo, hi⟩ := inv.bounds mem
  obtain ⟨alignedF, lenF, -⟩ := inv.shape f mem
  have hiLe := inv.hi_le
  have small := inv.small mem
  obtain ⟨start, stop⟩ := inside
  unfold fin at hi small
  rw [yosFree_eq (by omega) (by omega) inv.hi_le aligned]
  split_ifs with sane
  · rfl
  · obtain ⟨pre, post, rfl⟩ := List.append_of_mem hf
    obtain ⟨-, gapsTail, cross⟩ := List.pairwise_append.1 inv.gaps
    have before : ∀ g ∈ pre, g.addr < blk ∧ g.fin ≤ blk := fun g hg => by
      have h₁ := cross g hg f (by simp)
      unfold Gap fin at *
      omega
    obtain ⟨extra, rfl⟩ : ∃ extra, fuel = pre.length + (extra + 1) :=
      ⟨fuel - pre.length - 1, by rw [List.length_append] at enough; omega⟩
    by_cases atStart : f.addr = blk
    · rw [freeWalk_stop inv.list before (fun g hg => ?_) (by omega)]
      · exact if_pos atStart
      · rcases List.mem_cons.1 hg with rfl | hg
        · exact Nat.le_of_eq atStart.symm
        · have := (List.pairwise_cons.1 gapsTail).1 g hg
          unfold Gap fin at this
          omega
    · rw [freeWalk_doubleFree inv.list before ⟨by omega, stop⟩ (by unfold fin; omega)]

end Yos
