import Yos.Mem.Mmap

/-!
# The region tables

What the table operations of `impl/mem/mem.c` do to the number of entries that contain an address.
Inserting a range adds at most its own bytes (`addFreeRegion_spec`, `liveAdd_spec`), also when a
full table drops an entry; taking a range out leaves none of its bytes and adds no other
(`carve_spec`); a range that is found is no longer free (`findFreeRegion_spec`).
-/

namespace Yos

open Word Table Span

theorem cover_eq_weight (l : List Span) (x : ℕ) : cover l x = weight (fun s => s.hit x) l := rfl

/-- The entries are not empty and lie below `2 ^ 32`. -/
def RegionsOk (l : List Span) : Prop := ∀ r ∈ l, 0 < r.len ∧ r.fin < 2 ^ 32

theorem RegionsOk.swapRemove {l : List Span} (ok : RegionsOk l) (i : ℕ) :
    RegionsOk (swapRemove l i) :=
  fun r hr => ok r (mem_swapRemove hr)

/-! ## Pushing -/

/-- How a bounded table takes a new entry: it appends it while there is room; when it is full, it
either refuses it or drops the entry in slot 0. -/
structure Push (cap : ℕ) (push : List Span → Span → List Span) : Prop where
  room : ∀ l r, 0 < r.len → l.length < cap → push l r = l ++ [r]
  full : ∀ l r, 0 < r.len → l.length = cap → push l r = l ∨ push l r = swapRemove l 0 ++ [r]

theorem push_freeListPushRaw : Push maxFreeRegions freeListPushRaw where
  room l r pos room := by
    rw [freeListPushRaw, if_neg (by omega), if_neg (by omega)]
  full l r pos full := by
    right
    rw [freeListPushRaw, if_neg (by omega), if_pos (by omega)]

theorem push_liveAdd : Push maxLiveRegions liveAdd where
  room l r pos room := by
    rw [liveAdd, if_neg (by omega), if_neg (by omega)]
  full l r pos full := by
    left
    rw [liveAdd, if_neg (by omega), if_pos (by omega)]

section Push

variable {cap : ℕ} {push : List Span → Span → List Span} {l : List Span} {r : Span}

theorem Push.weight_le (ok : Push cap push) (w : Span → ℕ) (pos : 0 < r.len)
    (len : l.length ≤ cap) : weight w (push l r) ≤ weight w l + w r := by
  rcases Nat.lt_or_ge l.length cap with room | full
  · rw [ok.room l r pos room, weight_append, weight_cons, weight_nil, Nat.add_zero]
  · rcases ok.full l r pos (by omega) with eq | eq
    · rw [eq]
      omega
    · have dropped : weight w (swapRemove l 0) ≤ weight w l := by
        cases l with
        | nil => simp
        | cons a l =>
          rw [← weight_swapRemove (l := a :: l) (i := 0) rfl]
          omega
      rw [eq, weight_append, weight_cons, weight_nil]
      omega

theorem Push.mem (ok : Push cap push) (pos : 0 < r.len) (len : l.length ≤ cap) {f : Span}
    (hf : f ∈ push l r) : f ∈ l ∨ f = r := by
  rcases Nat.lt_or_ge l.length cap with room | full
  · rw [ok.room l r pos room] at hf
    simpa using hf
  · rcases ok.full l r pos (by omega) with eq | eq
    · exact Or.inl (eq ▸ hf)
    · rw [eq, List.mem_append, List.mem_singleton] at hf
      exact hf.imp_left mem_swapRemove

theorem Push.length_le (ok : Push cap push) (pos : 0 < r.len) (len : l.length ≤ cap)
    (some : 0 < cap) : (push l r).length ≤ cap ∧ (push l r).length ≤ l.length + 1 := by
  rcases Nat.lt_or_ge l.length cap with room | full
  · rw [ok.room l r pos room, List.length_append, List.length_singleton]
    omega
  · rcases ok.full l r pos (by omega) with eq | eq
    · rw [eq]
      omega
    · rw [eq, List.length_append, List.length_singleton, length_swapRemove]
      omega

/-- The first slots keep a property if the pushed entry has it and, when the table is full, so does
the last entry. -/
theorem Push.slots (ok : Push cap push) (pos : 0 < r.len) (len : l.length ≤ cap) {P : Span → Prop}
    {i : ℕ} (slots : ∀ f ∈ l.take i, P f) (hr : P r)
    (last : l.length < cap ∨ ∀ z, l.getLast? = some z → P z) : ∀ f ∈ (push l r).take i, P f := by
  intro f hf
  rcases Nat.lt_or_ge l.length cap with room | full
  · rw [ok.room l r pos room, List.take_append] at hf
    rcases List.mem_append.1 hf with hf | hf
    · exact slots f hf
    · rw [List.mem_singleton.1 (List.mem_of_mem_take hf)]
      exact hr
  · rcases ok.full l r pos (by omega) with eq | eq
    · rw [eq] at hf
      exact slots f hf
    · rw [eq, List.take_append] at hf
      rcases List.mem_append.1 hf with hf | hf
      · rcases mem_take_swapRemove hf with hf | hf
        · exact slots f hf
        · exact last.resolve_left (by omega) f hf
      · rw [List.mem_singleton.1 (List.mem_of_mem_take hf)]
        exact hr

theorem Push.last (ok : Push cap push) (pos : 0 < r.len) (len : l.length ≤ cap) {P : Span → Prop}
    (hr : P r) (last : l.length < cap ∨ ∀ z, l.getLast? = some z → P z) :
    ∀ z, (push l r).getLast? = some z → P z := by
  intro z hz
  rcases Nat.lt_or_ge l.length cap with room | full
  · rw [ok.room l r pos room, List.getLast?_concat] at hz
    rwa [← Option.some.inj hz]
  · rcases ok.full l r pos (by omega) with eq | eq
    · rw [eq] at hz
      exact last.resolve_left (by omega) z hz
    · rw [eq, List.getLast?_concat] at hz
      rwa [← Option.some.inj hz]

/-- Pushing several entries one after the other. -/
theorem Push.foldl (ok : Push cap push) (some : 0 < cap) {P : Span → Prop} {i : ℕ}
    {pieces : List Span} (regionsP : RegionsOk pieces) (hP : ∀ p ∈ pieces, P p)
    (regions : RegionsOk l) (len : l.length ≤ cap) (slots : ∀ f ∈ l.take i, P f)
    (last : l.length < cap ∨ ∀ z, l.getLast? = Option.some z → P z) :
    (pieces.foldl push l).length ≤ cap ∧ (pieces.foldl push l).length ≤ l.length + pieces.length ∧
      RegionsOk (pieces.foldl push l) ∧ (∀ f ∈ (pieces.foldl push l).take i, P f) ∧
      ∀ w, weight w (pieces.foldl push l) ≤ weight w l + weight w pieces := by
  induction pieces generalizing l with
  | nil => exact ⟨len, Nat.le_refl _, regions, slots, fun w => by simp⟩
  | cons p pieces ih =>
    have pos := (regionsP p (by simp)).1
    have hp := hP p (by simp)
    obtain ⟨len₁, len₂⟩ := ok.length_le pos len some
    have regions' : RegionsOk (push l p) := fun f hf => by
      rcases ok.mem pos len hf with hf | rfl
      · exact regions f hf
      · exact regionsP f (by simp)
    obtain ⟨h₁, h₂, h₃, h₄, h₅⟩ := ih (fun f hf => regionsP f (by simp [hf]))
      (fun f hf => hP f (by simp [hf])) regions' len₁ (ok.slots pos len slots hp last)
      (Or.inr (ok.last pos len hp last))
    rw [List.foldl_cons, List.length_cons]
    refine ⟨h₁, by omega, h₃, h₄, fun w => ?_⟩
    have h₆ := h₅ w
    have h₇ := ok.weight_le w pos len
    rw [weight_cons]
    omega

end Push

/-! ## Taking a range out of a table -/

/-- The entry does not meet `[addr, stop)`. -/
def Misses (addr stop : ℕ) (r : Span) : Prop := r.addr + r.len ≤ addr ∨ stop ≤ r.addr

instance (addr stop : ℕ) (r : Span) : Decidable (Misses addr stop r) :=
  inferInstanceAs (Decidable (_ ∨ _))

/-- One if the entry meets `[addr, stop)`. -/
def meets (addr stop : ℕ) (r : Span) : ℕ := if Misses addr stop r then 0 else 1

/-- What is left of an entry on either side of `[addr, stop)`. -/
def remainders (addr stop : ℕ) (r : Span) : List Span :=
  (if r.addr < addr then [⟨r.addr, addr - r.addr⟩] else []) ++
    if stop < r.addr + r.len then [⟨stop, r.addr + r.len - stop⟩] else []

theorem mem_remainders {addr stop : ℕ} {r p : Span} (hp : p ∈ remainders addr stop r) :
    0 < p.len ∧ (p.fin = addr ∨ p.fin = r.fin) ∧ Misses addr stop p := by
  unfold remainders at hp
  unfold Misses fin
  rcases List.mem_append.1 hp with hp | hp
  · split_ifs at hp with left
    · rw [List.mem_singleton.1 hp]
      dsimp only
      omega
    · simp at hp
  · split_ifs at hp with right
    · rw [List.mem_singleton.1 hp]
      dsimp only
      omega
    · simp at hp

theorem length_remainders (addr stop : ℕ) (r : Span) : (remainders addr stop r).length ≤ 2 := by
  unfold remainders
  split_ifs <;> simp

theorem cover_remainders {addr stop : ℕ} {r : Span} (order : addr ≤ stop)
    (hit : ¬ Misses addr stop r) (x : ℕ) : cover (remainders addr stop r) x ≤ r.hit x := by
  unfold Misses at hit
  unfold remainders
  split_ifs <;> simp only [List.append_nil, List.nil_append, List.singleton_append, cover_cons,
    cover_nil, Span.hit] <;> split_ifs <;> omega

section Carve

variable {cap : ℕ} {push : List Span → Span → List Span} {l : List Span} {r : Span}
  {addr stop i fuel : ℕ}

theorem carveLoop_none (done : l[i]? = none) : carveLoop push addr stop fuel i l = l := by
  cases fuel with
  | zero => rfl
  | succ fuel => simp [carveLoop, done]

theorem carveLoop_skip (found : l[i]? = some r) (miss : Misses addr stop r) :
    carveLoop push addr stop (fuel + 1) i l = carveLoop push addr stop fuel (i + 1) l := by
  rw [carveLoop, found]
  exact if_pos miss

theorem carveLoop_drop (found : l[i]? = some r) (hit : ¬ Misses addr stop r)
    (small : r.fin < 2 ^ 32) :
    carveLoop push addr stop (fuel + 1) i l =
      carveLoop push addr stop fuel i ((remainders addr stop r).foldl push (swapRemove l i)) := by
  rw [carveLoop, found]
  dsimp only
  unfold fin at small
  unfold Misses at hit
  rw [if_neg hit, remainders]
  by_cases right : stop < r.addr + r.len
  · rw [if_pos right, if_pos right, u32_of_lt (by omega), u32_of_lt (by omega)]
    split_ifs <;> rfl
  · rw [if_neg right, if_neg right]
    split_ifs <;> rfl

/-- How many passes the loop can still make. -/
def passesLeft (addr stop i : ℕ) (l : List Span) : ℕ := 2 * weight (meets addr stop) l + (l.length - i)

/-- What the loop does with an entry that meets the range. -/
theorem carve_dropped (ok : Push cap push) (some : 0 < cap) (order : addr ≤ stop) (regions : RegionsOk l)
    (len : l.length ≤ cap) (slots : ∀ f ∈ l.take i, Misses addr stop f) (found : l[i]? = Option.some r)
    (hit : ¬ Misses addr stop r) {l' : List Span}
    (dropped : l' = (remainders addr stop r).foldl push (swapRemove l i)) :
    l'.length ≤ cap ∧ RegionsOk l' ∧ (∀ f ∈ l'.take i, Misses addr stop f) ∧
      passesLeft addr stop i l' < passesLeft addr stop i l ∧ ∀ x, cover l' x ≤ cover l x := by
  subst dropped
  obtain ⟨hi, at_i⟩ := List.getElem?_eq_some_iff.1 found
  have hr := regions r (List.mem_of_getElem? found)
  have pieces : RegionsOk (remainders addr stop r) := fun p hp => by
    obtain ⟨h₁, h₂, -⟩ := mem_remainders hp
    unfold Misses at hit
    unfold fin at *
    omega
  have removed := length_swapRemove l i
  have two := length_remainders addr stop r
  obtain ⟨h₁, h₂, h₃, h₄, h₅⟩ := ok.foldl some pieces (fun p hp => (mem_remainders hp).2.2)
    (regions.swapRemove i) (by omega) (by rwa [take_swapRemove hi]) (Or.inl (by omega))
  have fewer := h₅ (meets addr stop)
  have clear : weight (meets addr stop) (remainders addr stop r) = 0 :=
    weight_eq_zero_iff.2 fun p hp => if_pos (mem_remainders hp).2.2
  have taken := weight_swapRemove (w := meets addr stop) found
  rw [meets, if_neg hit] at taken
  refine ⟨h₁, h₃, h₄, by unfold passesLeft; omega, fun x => ?_⟩
  have h₆ := h₅ fun s => s.hit x
  have h₇ := weight_swapRemove (w := fun s => s.hit x) found
  have h₈ := cover_remainders order hit x
  simp only [cover_eq_weight] at h₈ ⊢
  omega

/-- An entry that misses the range joins those the loop is done with. -/
theorem carve_skipped (slots : ∀ f ∈ l.take i, Misses addr stop f) (found : l[i]? = some r)
    (miss : Misses addr stop r) : ∀ f ∈ l.take (i + 1), Misses addr stop f := by
  intro f hf
  rw [List.take_add_one, found, List.mem_append] at hf
  rcases hf with hf | hf
  · exact slots f hf
  · rw [List.mem_singleton.1 hf]
    exact miss

/-- The loop clears the range and adds nothing elsewhere. -/
theorem carveLoop_spec (ok : Push cap push) (some : 0 < cap) (order : addr ≤ stop)
    (regions : RegionsOk l) (len : l.length ≤ cap) (slots : ∀ f ∈ l.take i, Misses addr stop f)
    (enough : passesLeft addr stop i l ≤ fuel) :
    (carveLoop push addr stop fuel i l).length ≤ cap ∧
      RegionsOk (carveLoop push addr stop fuel i l) ∧
      (∀ f ∈ carveLoop push addr stop fuel i l, Misses addr stop f) ∧
      ∀ x, cover (carveLoop push addr stop fuel i l) x ≤ cover l x := by
  induction fuel generalizing i l with
  | zero =>
    unfold passesLeft at enough
    rw [List.take_of_length_le (by omega)] at slots
    exact ⟨len, regions, slots, fun x => Nat.le_refl _⟩
  | succ fuel ih =>
    rcases found : l[i]? with _ | r
    · rw [carveLoop_none found]
      rw [List.take_of_length_le (List.getElem?_eq_none_iff.1 found)] at slots
      exact ⟨len, regions, slots, fun x => Nat.le_refl _⟩
    · have hi := (List.getElem?_eq_some_iff.1 found).1
      by_cases miss : Misses addr stop r
      · rw [carveLoop_skip found miss]
        exact ih regions len (carve_skipped slots found miss) (by unfold passesLeft at *; omega)
      · rw [carveLoop_drop found miss (regions r (List.mem_of_getElem? found)).2]
        obtain ⟨h₁, h₂, h₃, h₄, h₅⟩ := carve_dropped ok some order regions len slots found miss rfl
        obtain ⟨k₁, k₂, k₃, k₄⟩ := ih h₂ h₁ h₃ (by omega)
        exact ⟨k₁, k₂, k₃, fun x => (k₄ x).trans (h₅ x)⟩

theorem passesLeft_le (addr stop : ℕ) (l : List Span) : passesLeft addr stop 0 l ≤ 3 * l.length := by
  have bound : weight (meets addr stop) l ≤ l.length := weight_le_length fun r => by
    unfold meets
    split_ifs <;> simp
  unfold passesLeft
  omega

theorem carve_spec (ok : Push cap push) (some : 0 < cap) (order : addr ≤ stop)
    (regions : RegionsOk l) (len : l.length ≤ cap) :
    (carveLoop push addr stop (3 * l.length) 0 l).length ≤ cap ∧
      RegionsOk (carveLoop push addr stop (3 * l.length) 0 l) ∧
      (∀ x, cover (carveLoop push addr stop (3 * l.length) 0 l) x ≤ cover l x) ∧
      ∀ x, addr ≤ x → x < stop → cover (carveLoop push addr stop (3 * l.length) 0 l) x = 0 := by
  obtain ⟨h₁, h₂, h₃, h₄⟩ := carveLoop_spec (i := 0) ok some order regions len (by simp)
    (passesLeft_le addr stop l)
  refine ⟨h₁, h₂, h₄, fun x lo hi => cover_eq_zero_iff.2 fun f hf hx => ?_⟩
  have := h₃ f hf
  unfold Misses at this
  unfold Has at hx
  omega

end Carve

theorem carveFreeRange_spec {free : List Span} (addr len : ℕ) (regions : RegionsOk free)
    (bound : free.length ≤ maxFreeRegions) :
    (carveFreeRange free addr len).length ≤ maxFreeRegions ∧
      RegionsOk (carveFreeRange free addr len) ∧
      (∀ x, cover (carveFreeRange free addr len) x ≤ cover free x) ∧
      ∀ x, addr ≤ x → x < addr + len → cover (carveFreeRange free addr len) x = 0 :=
  carve_spec push_freeListPushRaw (by decide) (Nat.le_add_right _ _) regions bound

theorem liveRemove_spec {live : List Span} (addr len : ℕ) (regions : RegionsOk live)
    (bound : live.length ≤ maxLiveRegions) :
    (liveRemove live addr len).length ≤ maxLiveRegions ∧
      RegionsOk (liveRemove live addr len) ∧
      (∀ x, cover (liveRemove live addr len) x ≤ cover live x) ∧
      ∀ x, addr ≤ x → x < addr + len → cover (liveRemove live addr len) x = 0 :=
  carve_spec push_liveAdd (by decide) (Nat.le_add_right _ _) regions bound

/-! ## Adding a range -/

/-- Pushing one range on a table. -/
theorem Push.spec {cap : ℕ} {push : List Span → Span → List Span} {l : List Span} {r : Span}
    (ok : Push cap push) (some : 0 < cap) (regions : RegionsOk l) (bound : l.length ≤ cap)
    (pos : 0 < r.len) (small : r.fin < 2 ^ 32) :
    (push l r).length ≤ cap ∧ RegionsOk (push l r) ∧
      ∀ x, cover (push l r) x ≤ cover l x + r.hit x := by
  refine ⟨(ok.length_le pos bound some).1, fun f hf => ?_, fun x => ok.weight_le _ pos bound⟩
  rcases ok.mem pos bound hf with hf | rfl
  · exact regions f hf
  · exact ⟨pos, small⟩

theorem findTouching_spec {r r' : Span} {l : List Span} {i k : ℕ} (regions : RegionsOk l)
    (small : r.fin < 2 ^ 32) (found : findTouching r.addr r.len l i = some (k, r')) :
    ∃ f, i ≤ k ∧ l[k - i]? = some f ∧ r'.fin < 2 ^ 32 ∧ r.len ≤ r'.len ∧
      ∀ x, r'.hit x = f.hit x + r.hit x := by
  induction l generalizing i with
  | nil => simp [findTouching] at found
  | cons f l ih =>
    have hf := (regions f (by simp)).2
    have finF : u32 (f.addr + f.len) = f.addr + f.len := u32_of_lt hf
    have finR : u32 (r.addr + r.len) = r.addr + r.len := u32_of_lt small
    unfold fin at hf small
    rw [findTouching, finF, finR] at found
    split_ifs at found with before after
    · cases found
      rw [u32_of_lt (by omega)]
      refine ⟨f, Nat.le_refl _, by simp, by unfold fin; dsimp only; omega, by dsimp only; omega,
        fun x => ?_⟩
      rw [Nat.add_comm r.len, hit_cut, before]
    · cases found
      rw [u32_of_lt (by omega)]
      refine ⟨f, Nat.le_refl _, by simp, by unfold fin; dsimp only; omega, by dsimp only; omega,
        fun x => ?_⟩
      rw [hit_cut, after, Nat.add_comm]
    · obtain ⟨g, h₁, h₂, h₃⟩ := ih (fun g hg => regions g (by simp [hg])) found
      refine ⟨g, by omega, ?_, h₃⟩
      rw [show k - i = (k - (i + 1)) + 1 by omega, List.getElem?_cons_succ]
      exact h₂

theorem mergeLoop_spec (fuel : ℕ) {free : List Span} {r : Span} (regions : RegionsOk free)
    (pos : 0 < r.len) (small : r.fin < 2 ^ 32) :
    (mergeLoop fuel free r).1.length ≤ free.length ∧ RegionsOk (mergeLoop fuel free r).1 ∧
      0 < (mergeLoop fuel free r).2.len ∧ (mergeLoop fuel free r).2.fin < 2 ^ 32 ∧
      ∀ x, cover (mergeLoop fuel free r).1 x + (mergeLoop fuel free r).2.hit x =
        cover free x + r.hit x := by
  induction fuel generalizing free r with
  | zero => exact ⟨Nat.le_refl _, regions, pos, small, fun x => rfl⟩
  | succ fuel ih =>
    rw [mergeLoop]
    rcases found : findTouching r.addr r.len free 0 with _ | ⟨k, r'⟩
    · exact ⟨Nat.le_refl _, regions, pos, small, fun x => rfl⟩
    · obtain ⟨f, -, at_k, small', longer, joined⟩ := findTouching_spec regions small found
      obtain ⟨h₁, h₂, h₃, h₄, h₅⟩ := ih (regions.swapRemove k) (by omega) small'
      rw [length_swapRemove] at h₁
      refine ⟨by dsimp only; omega, h₂, h₃, h₄, fun x => ?_⟩
      have h₆ := weight_swapRemove (w := fun s => s.hit x) at_k
      rw [h₅ x, joined x]
      simp only [Nat.sub_zero, cover_eq_weight] at h₆ ⊢
      omega

/-- `add_free_region` adds the range and nothing else. -/
theorem addFreeRegion_spec {free : List Span} {r : Span} (regions : RegionsOk free)
    (bound : free.length ≤ maxFreeRegions) (pos : 0 < r.len) (small : r.fin < 2 ^ 32) :
    (addFreeRegion free r).length ≤ maxFreeRegions ∧ RegionsOk (addFreeRegion free r) ∧
      ∀ x, cover (addFreeRegion free r) x ≤ cover free x + r.hit x := by
  rw [addFreeRegion, if_neg (by omega)]
  obtain ⟨h₁, h₂, h₃, h₄, h₅⟩ := mergeLoop_spec free.length regions pos small
  obtain ⟨k₁, k₂, k₃⟩ := push_freeListPushRaw.spec (by decide) h₂ (h₁.trans bound) h₃ h₄
  exact ⟨k₁, k₂, fun x => (k₃ x).trans (Nat.le_of_eq (h₅ x))⟩

/-- No entry of the table is left to merge when the loop of `add_free_region` ends. -/
theorem mergeLoop_done {free : List Span} {r : Span} :
    findTouching (mergeLoop free.length free r).2.addr (mergeLoop free.length free r).2.len
      (mergeLoop free.length free r).1 0 = none := by
  generalize len : free.length = n
  induction n generalizing free r with
  | zero =>
    rw [List.length_eq_zero_iff.1 len]
    rfl
  | succ n ih =>
    rw [mergeLoop]
    rcases found : findTouching r.addr r.len free 0 with _ | ⟨k, r'⟩
    · exact found
    · exact ih (by rw [length_swapRemove, len]; rfl)

/-! ## Handing a free range out -/

theorem bestFit_spec {len size i k : ℕ} {best : Option ℕ} {l : List Span}
    (found : bestFit len l i best size = some k) :
    best = some k ∨ ∃ r, i ≤ k ∧ l[k - i]? = some r ∧ len ≤ r.len := by
  induction l generalizing i best size with
  | nil => exact Or.inl found
  | cons r l ih =>
    have shift : ∀ f, i + 1 ≤ k → l[k - (i + 1)]? = some f → (r :: l)[k - i]? = some f := by
      intro f h₁ h₂
      rw [show k - i = (k - (i + 1)) + 1 by omega, List.getElem?_cons_succ]
      exact h₂
    rw [bestFit] at found
    split_ifs at found with fit
    · rcases ih found with h | ⟨f, h₁, h₂, h₃⟩
      · cases h
        exact Or.inr ⟨r, Nat.le_refl _, by simp, fit.1⟩
      · exact Or.inr ⟨f, by omega, shift f h₁ h₂, h₃⟩
    · rcases ih found with h | ⟨f, h₁, h₂, h₃⟩
      · exact Or.inl h
      · exact Or.inr ⟨f, by omega, shift f h₁ h₂, h₃⟩

theorem bestFit_none {len size i : ℕ} {best : Option ℕ} {l : List Span}
    (none : bestFit len l i best size = none) :
    best = Option.none ∧ ∀ r ∈ l, len ≤ r.len → size ≤ r.len := by
  induction l generalizing i best size with
  | nil => exact ⟨none, by simp⟩
  | cons r l ih =>
    rw [bestFit] at none
    split_ifs at none with fit
    · simpa using (ih none).1
    · obtain ⟨unset, rest⟩ := ih none
      refine ⟨unset, fun f hf => ?_⟩
      rcases List.mem_cons.1 hf with rfl | hf
      · intro long
        by_contra small
        exact fit ⟨long, by omega⟩
      · exact rest f hf

/-- No entry is long enough, or one is cut down, or one is removed. -/
theorem findFreeRegion_cases {free : List Span} (len : ℕ) (regions : RegionsOk free) :
    (findFreeRegion free len = (free, 0) ∧ ∀ r ∈ free, len ≤ r.len → 2 ^ 32 - 1 ≤ r.len) ∨
      ∃ k r, free[k]? = some r ∧ len ≤ r.len ∧
        (4096 ≤ r.len - len ∧
            findFreeRegion free len = (free.set k ⟨r.addr + len, r.len - len⟩, r.addr) ∨
          r.len - len < 4096 ∧ findFreeRegion free len = (swapRemove free k, r.addr)) := by
  unfold findFreeRegion
  rcases found : bestFit len free 0 none (2 ^ 32 - 1) with _ | k
  · exact Or.inl ⟨rfl, (bestFit_none found).2⟩
  · obtain ⟨r, -, at_k, fit⟩ := (bestFit_spec found).resolve_left (by simp)
    rw [Nat.sub_zero] at at_k
    have small := (regions r (List.mem_of_getElem? at_k)).2
    unfold fin at small
    have getD : free.getD k ⟨0, 0⟩ = r := by
      rw [List.getD_eq_getElem?_getD, at_k]
      rfl
    refine Or.inr ⟨k, r, at_k, fit, ?_⟩
    dsimp only
    rw [getD, u32_of_lt (by omega)]
    by_cases split : 4096 ≤ r.len - len
    · rw [if_pos split]
      exact Or.inl ⟨split, rfl⟩
    · rw [if_neg split]
      exact Or.inr ⟨by omega, rfl⟩

/-- The range found is taken out of the free table. -/
theorem findFreeRegion_spec {free : List Span} (len : ℕ) (regions : RegionsOk free)
    (bound : free.length ≤ maxFreeRegions) :
    (findFreeRegion free len).1.length ≤ maxFreeRegions ∧ RegionsOk (findFreeRegion free len).1 ∧
      (∀ x, cover (findFreeRegion free len).1 x ≤ cover free x) ∧
      ((findFreeRegion free len).2 ≠ 0 → ∀ x,
        cover (findFreeRegion free len).1 x + hit ⟨(findFreeRegion free len).2, len⟩ x ≤
          cover free x) := by
  have cut {r : Span} (fit : len ≤ r.len) (x : ℕ) :
      r.hit x = hit ⟨r.addr, len⟩ x + hit ⟨r.addr + len, r.len - len⟩ x := by
    rw [← hit_cut, Nat.add_sub_cancel' fit]
  rcases findFreeRegion_cases len regions with
    ⟨none, -⟩ | ⟨k, r, at_k, fit, ⟨split, eq⟩ | ⟨-, eq⟩⟩
  · rw [none]
    exact ⟨bound, regions, fun x => Nat.le_refl _, fun h => absurd rfl h⟩
  · have hr := regions r (List.mem_of_getElem? at_k)
    have taken (x : ℕ) : cover (free.set k ⟨r.addr + len, r.len - len⟩) x +
        hit ⟨r.addr, len⟩ x = cover free x := by
      have h₁ := weight_set (w := fun s => s.hit x) (b := ⟨r.addr + len, r.len - len⟩) at_k
      have h₂ := cut fit x
      rw [cover_eq_weight, cover_eq_weight]
      omega
    rw [eq]
    refine ⟨by simpa using bound, fun f hf => ?_, fun x => ?_, fun _ x => Nat.le_of_eq (taken x)⟩
    · rcases List.mem_or_eq_of_mem_set hf with hf | rfl
      · exact regions f hf
      · unfold fin at hr ⊢
        dsimp only
        omega
    · have := taken x
      dsimp only
      omega
  · have taken (x : ℕ) : cover (swapRemove free k) x + r.hit x = cover free x :=
      weight_swapRemove at_k
    rw [eq]
    refine ⟨?_, regions.swapRemove k, fun x => ?_, fun _ x => ?_⟩
    · have := length_swapRemove free k
      dsimp only
      omega
    · have := taken x
      dsimp only
      omega
    · have h₁ := taken x
      have h₂ := cut fit x
      dsimp only
      omega

/-! ## The unmapping loop -/

theorem munmapLoop_true {addr stop : ℕ} {live free : List Span} {memory : Bytes} :
    (munmapLoop addr stop live memory free true).2.2 = true := by
  induction live generalizing free memory with
  | nil => rfl
  | cons r live ih =>
    rw [munmapLoop]
    dsimp only
    split_ifs <;> exact ih

/-- What is freed lies in the range and was live. -/
theorem munmapLoop_spec {live free : List Span} (addr stop : ℕ) (memory : Bytes) (any : Bool)
    (regionsL : RegionsOk live) (regions : RegionsOk free) (bound : free.length ≤ maxFreeRegions) :
    (munmapLoop addr stop live memory free any).2.1.length ≤ maxFreeRegions ∧
      RegionsOk (munmapLoop addr stop live memory free any).2.1 ∧
      (∀ x, cover (munmapLoop addr stop live memory free any).2.1 x ≤
        cover free x + if addr ≤ x ∧ x < stop then cover live x else 0) ∧
      ((munmapLoop addr stop live memory free any).2.2 = false →
        (munmapLoop addr stop live memory free any).2.1 = free) := by
  induction live generalizing free memory any with
  | nil => exact ⟨bound, regions, fun x => by simp [munmapLoop], fun _ => rfl⟩
  | cons r live ih =>
    have regionsL' : RegionsOk live := fun f hf => regionsL f (by simp [hf])
    have hr := (regionsL r (by simp)).2
    unfold fin at hr
    rw [munmapLoop]
    generalize hlo : (if addr < r.addr then r.addr else addr) = lo
    generalize hhi : (if r.addr + r.len < stop then r.addr + r.len else stop) = hi
    have bounds : r.addr ≤ lo ∧ addr ≤ lo ∧ hi ≤ r.addr + r.len ∧ hi ≤ stop := by
      split_ifs at hlo hhi <;> omega
    dsimp only
    split_ifs with empty
    · obtain ⟨h₁, h₂, h₃, h₄⟩ := ih memory any regionsL' regions bound
      refine ⟨h₁, h₂, fun x => (h₃ x).trans ?_, h₄⟩
      rw [cover_cons]
      split_ifs <;> omega
    · rw [u32_of_lt (by omega)]
      obtain ⟨k₁, k₂, k₃⟩ := addFreeRegion_spec (r := ⟨lo, hi - lo⟩) regions bound
        (by dsimp only; omega) (by unfold fin; dsimp only; omega)
      obtain ⟨h₁, h₂, h₃, -⟩ := ih (memory.fill lo (hi - lo) 0) true regionsL' k₂ k₁
      refine ⟨h₁, h₂, fun x => (h₃ x).trans ?_, fun h => absurd h (by rw [munmapLoop_true]; simp)⟩
      have h₅ := k₃ x
      have clipped : hit ⟨lo, hi - lo⟩ x ≤ if addr ≤ x ∧ x < stop then r.hit x else 0 := by
        unfold Span.hit
        dsimp only
        split_ifs <;> omega
      rw [cover_cons]
      split_ifs at clipped ⊢ <;> omega

end Yos
