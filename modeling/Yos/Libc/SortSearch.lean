import Yos.Lib.Bytes
import Yos.Lib.Comparator

/-!
# Sorting and searching (`impl/libc/callback.c`)

`qsort`, `mergesort` and `heapsort` share one insertion sort over the guest's array, with the guest's
comparator called on addresses.  The element to insert is kept on the host and put back into the array
before each comparison.  Its place on the host has 512 bytes: an array of larger elements is left as
it is, and the functions that report success report it then too (`sort_search_met_iff`).
-/

namespace Yos

open Comparator

/-! ## Elements -/

/-- An element of `size` bytes. -/
abbrev Elem (size : ℕ) := Fin size → UInt8

/-- The element at an address. -/
def readElem (m : Bytes) (size a : ℕ) : Elem size := fun k => m (a + k)

/-- `memcpy` of an element to an address. -/
def storeElem {size : ℕ} (m : Bytes) (a : ℕ) (x : Elem size) : Bytes := fun addr =>
  if h : a ≤ addr ∧ addr < a + size then x ⟨addr - a, by omega⟩ else m addr

/-- The elements of an array. -/
def elems (m : Bytes) (size base n : ℕ) : List (Elem size) :=
  (List.range n).map fun i => readElem m size (base + i * size)

/-! ## The bridges -/

/-- A comparator of the guest: its value in a memory, for two addresses. -/
abbrev GuestCmp := Bytes → ℕ → ℕ → ℤ

/-- An address for the guest, in 32 bits. -/
def slotPtr (base size j : ℕ) : ℕ := (base + j * size % 2 ^ 32) % 2 ^ 32

/-- An index into the guest's memory, with the product in 32 bits. -/
def slotOff (base size j : ℕ) : ℕ := base + j * size % 2 ^ 32

/-- The inner loop of `yos_sort_inplace`. -/
def insertLoop {size : ℕ} (cmp : GuestCmp) (base : ℕ) (scratch : Elem size) : ℕ → Bytes → Bytes
  | 0, m => storeElem m (slotOff base size 0) scratch
  | j + 1, m =>
    let lifted := storeElem m (slotOff base size (j + 1)) scratch
    if cmp lifted (slotPtr base size j) (slotPtr base size (j + 1)) ≤ 0 then
      storeElem lifted (slotOff base size (j + 1)) scratch
    else
      insertLoop cmp base scratch j
        (lifted.copy (slotOff base size (j + 1)) (slotOff base size j) size)

/-- The size of `scratch`. -/
def scratchSize : ℕ := 512

/-- One round of the outer loop of `yos_sort_inplace`. -/
def sortRound (cmp : GuestCmp) (base size : ℕ) (m : Bytes) (i : ℕ) : Bytes :=
  insertLoop cmp base (readElem m size (slotOff base size i)) i m

/-- `yos_sort_inplace`, with the comparator that `lookup_fn` finds. -/
def yosSortInplace (lookup : Option GuestCmp) (memSize : ℕ) (m : Bytes) (base n size : ℕ) : Bytes :=
  if size = 0 ∨ n < 2 ∨ memSize ≤ base ∨ memSize < base + n * size then m
  else
    match lookup with
    | none => m
    | some cmp =>
      if scratchSize < size then m else (List.range' 1 (n - 1)).foldl (sortRound cmp base size) m

/-- `m3_yos_qsort`. -/
def m3YosQsort := yosSortInplace

/-- `m3_yos_bsdsort`: `mergesort` and `heapsort`. -/
def m3YosBsdsort (lookup : Option GuestCmp) (memSize : ℕ) (m : Bytes) (base n size : ℕ) : Bytes × ℤ :=
  (yosSortInplace lookup memSize m base n size, 0)

/-- The loop of `m3_yos_bsearch`, of at most `fuel` rounds. -/
def bsearchLoop (cmp : GuestCmp) (m : Bytes) (key base size : ℕ) : (fuel lo hi : ℕ) → Option ℕ
  | 0, _, _ => none
  | fuel + 1, lo, hi =>
    if lo < hi then
      let mid := (lo + hi) % 2 ^ 32 / 2
      let c := cmp m key (slotPtr base size mid)
      if c = 0 then some (slotPtr base size mid)
      else if c < 0 then bsearchLoop cmp m key base size fuel lo mid
      else bsearchLoop cmp m key base size fuel ((mid + 1) % 2 ^ 32) hi
    else some 0

/-- `m3_yos_bsearch`. -/
def m3YosBsearch (lookup : Option GuestCmp) (fuel memSize : ℕ) (m : Bytes) (key base n size : ℕ) :
    Option ℕ :=
  if size = 0 ∨ n = 0 ∨ memSize ≤ base ∨ memSize ≤ key ∨ memSize < base + n * size ∨
      memSize < key + size then some 0
  else
    match lookup with
    | none => some 0
    | some cmp => bsearchLoop cmp m key base size fuel 0 n

/-! ## Elements in memory -/

section Elements

variable {size : ℕ} {m m' : Bytes} {a b base n j : ℕ} {x : Elem size}

theorem readElem_congr (same : ∀ k < size, m' (b + k) = m (a + k)) :
    readElem m' size b = readElem m size a :=
  funext fun k => same k k.isLt

theorem readElem_storeElem_self : readElem (storeElem m a x) size a = x := by
  funext k
  unfold readElem storeElem
  rw [dif_pos ⟨Nat.le_add_right _ _, by omega⟩]
  exact congrArg x (Fin.ext (Nat.add_sub_cancel_left a k))

theorem storeElem_of_not_mem {addr : ℕ} (out : addr < a ∨ a + size ≤ addr) :
    storeElem m a x addr = m addr :=
  dif_neg (by omega)

theorem elems_zero : elems m size base 0 = [] := rfl

theorem elems_succ : elems m size base (n + 1) = elems m size base n ++ [readElem m size (base + n * size)] := by
  rw [elems, List.range_succ, List.map_append]
  rfl

theorem length_elems : (elems m size base n).length = n := by rw [elems, List.length_map, List.length_range]

theorem getElem_elems {i : ℕ} (lt : i < (elems m size base n).length) :
    (elems m size base n)[i] = readElem m size (base + i * size) := by
  simp [elems]

theorem slot_lt (size : ℕ) {i : ℕ} (lt : i < n) : i * size + size ≤ n * size := by
  rw [← Nat.succ_mul]
  exact Nat.mul_le_mul_right size lt

theorem elems_congr (same : ∀ addr, base ≤ addr → addr < base + n * size → m' addr = m addr) :
    elems m' size base n = elems m size base n := by
  refine List.map_congr_left fun i mem => readElem_congr fun k lt => same _ (by omega) ?_
  have below := slot_lt size (List.mem_range.1 mem)
  omega

end Elements

/-! ## The sort -/

/-- The array is in the memory, which has at most `d_m3MaxLinearMemoryPages` pages. -/
structure ArrayFits (memSize base n size : ℕ) : Prop where
  small : memSize ≤ 2 ^ 31
  pos : 0 < size
  inside : base + n * size ≤ memSize

/-- The guest's comparator compares the contents of the elements. -/
def GuestCmp.Compares {size : ℕ} (cmp : GuestCmp) (memSize : ℕ) (c : Elem size → Elem size → ℤ) : Prop :=
  ∀ m a b, a + size ≤ memSize → b + size ≤ memSize →
    cmp m a b = c (readElem m size a) (readElem m size b)

section Sorting

variable {size memSize base n j : ℕ} {cmp : GuestCmp} {c : Elem size → Elem size → ℤ} {m : Bytes}

theorem ArrayFits.slotOff_eq (fits : ArrayFits memSize base n size) (le : j ≤ n) :
    slotOff base size j = base + j * size := by
  have inside := fits.inside
  have small := fits.small
  have below : j * size ≤ n * size := Nat.mul_le_mul_right size le
  rw [slotOff, Nat.mod_eq_of_lt (by omega)]

theorem ArrayFits.slotPtr_eq (fits : ArrayFits memSize base n size) (le : j ≤ n) :
    slotPtr base size j = base + j * size := by
  have inside := fits.inside
  have small := fits.small
  have below : j * size ≤ n * size := Nat.mul_le_mul_right size le
  rw [slotPtr, Nat.mod_eq_of_lt (show j * size < 2 ^ 32 by omega), Nat.mod_eq_of_lt (by omega)]

theorem ArrayFits.slot_inside (fits : ArrayFits memSize base n size) (lt : j < n) :
    base + j * size + size ≤ memSize := by
  have inside := fits.inside
  have below := slot_lt size lt
  omega

theorem ArrayFits.cmp_eq (fits : ArrayFits memSize base n size) (compares : cmp.Compares memSize c)
    {i : ℕ} (lti : i < n) (ltj : j < n) :
    cmp m (slotPtr base size i) (slotPtr base size j) =
      c (readElem m size (base + i * size)) (readElem m size (base + j * size)) := by
  rw [fits.slotPtr_eq lti.le, fits.slotPtr_eq ltj.le,
    compares m _ _ (fits.slot_inside lti) (fits.slot_inside ltj)]

/-- The inner loop inserts the lifted element from the right and leaves the other bytes alone. -/
theorem insertLoop_spec (fits : ArrayFits memSize base n size) (compares : cmp.Compares memSize c)
    (x : Elem size) (lt : j < n) :
    elems (insertLoop cmp base x j m) size base (j + 1) = insertRight c (elems m size base j) x ∧
      ∀ addr, addr < base ∨ base + (j + 1) * size ≤ addr → insertLoop cmp base x j m addr = m addr := by
  induction j generalizing m with
  | zero =>
    rw [insertLoop, fits.slotOff_eq (Nat.zero_le n), elems_succ, elems_zero, elems_zero, insertRight_nil,
      readElem_storeElem_self]
    exact ⟨rfl, fun addr out => storeElem_of_not_mem (by omega)⟩
  | succ j ih =>
    have step : (j + 1) * size = j * size + size := Nat.succ_mul j size
    have step' : (j + 1 + 1) * size = j * size + size + size := by rw [Nat.succ_mul, step]
    rw [insertLoop, fits.slotOff_eq lt.le, fits.slotOff_eq (Nat.lt_of_succ_lt lt).le]
    generalize eq : storeElem m (base + (j + 1) * size) x = lifted
    have below : ∀ addr, addr < base + (j + 1) * size → lifted addr = m addr :=
      fun addr h => eq ▸ storeElem_of_not_mem (Or.inl h)
    have kept : elems lifted size base (j + 1) = elems m size base (j + 1) :=
      elems_congr fun addr _ h => below addr h
    have here : readElem lifted size (base + (j + 1) * size) = x := eq ▸ readElem_storeElem_self
    rw [fits.cmp_eq compares (Nat.lt_of_succ_lt lt) lt, here]
    split_ifs with le
    · -- the element stays behind one that is not larger
      have again : storeElem lifted (base + (j + 1) * size) x = lifted := by
        rw [← eq]
        funext addr
        unfold storeElem
        split_ifs <;> rfl
      rw [again, elems_succ, here, kept]
      refine ⟨?_, fun addr out => eq ▸ storeElem_of_not_mem (by omega)⟩
      rw [readElem_congr fun k lt => below _ (by omega)] at le
      rw [elems_succ, insertRight_append_of_le le]
    · generalize eq' : lifted.copy (base + (j + 1) * size) (base + j * size) size = moved
      have still : ∀ addr, addr < base + (j + 1) * size → moved addr = m addr := fun addr h => by
        rw [← eq', Bytes.copy_of_not_mem (by omega), below addr h]
      have up : readElem moved size (base + (j + 1) * size) = readElem m size (base + j * size) :=
        readElem_congr fun k lt => by rw [← eq', Bytes.copy_of_lt lt, below _ (by omega)]
      rw [readElem_congr fun k lt => below _ (by omega)] at le
      obtain ⟨sorted, frame⟩ := ih (m := moved) (Nat.lt_of_succ_lt lt)
      constructor
      · have last : readElem (insertLoop cmp base x j moved) size (base + (j + 1) * size) =
            readElem m size (base + j * size) :=
          up ▸ readElem_congr fun k _ => frame _ (by omega)
        rw [elems_succ, sorted, last, elems_succ, insertRight_append_of_lt (not_le.1 le),
          elems_congr fun addr _ h => still addr (by omega)]
      · intro addr out
        have outside : addr < base ∨ base + (j + 1 + 1) * size ≤ addr := out
        rw [frame addr (by omega), ← eq', Bytes.copy_of_not_mem (by omega), ← eq,
          storeElem_of_not_mem (by omega)]

/-- The rounds sort the elements they reach. -/
theorem sortRounds_spec (fits : ArrayFits memSize base n size) (compares : cmp.Compares memSize c)
    {k : ℕ} (lt : k < n) :
    elems ((List.range' 1 k).foldl (sortRound cmp base size) m) size base (k + 1) =
        sortRight c (elems m size base (k + 1)) ∧
      ∀ addr, addr < base ∨ base + (k + 1) * size ≤ addr →
        (List.range' 1 k).foldl (sortRound cmp base size) m addr = m addr := by
  induction k with
  | zero => exact ⟨rfl, fun _ _ => rfl⟩
  | succ k ih =>
    have step : (k + 1 + 1) * size = (k + 1) * size + size := Nat.succ_mul (k + 1) size
    obtain ⟨sorted, frame⟩ := ih (Nat.lt_of_succ_lt lt)
    rw [List.range'_concat, List.foldl_concat, Nat.one_mul, Nat.add_comm 1 k]
    generalize (List.range' 1 k).foldl (sortRound cmp base size) m = m' at sorted frame ⊢
    have lifted : readElem m' size (base + (k + 1) * size) = readElem m size (base + (k + 1) * size) :=
      readElem_congr fun i _ => frame _ (by omega)
    rw [sortRound, fits.slotOff_eq lt.le, lifted]
    obtain ⟨inserted, frame'⟩ := insertLoop_spec (m := m') fits compares
      (readElem m size (base + (k + 1) * size)) lt
    refine ⟨?_, fun addr out => ?_⟩
    · rw [inserted, sorted, ← sortRight_concat, ← elems_succ]
    · rw [frame' addr out, frame addr (by omega)]

/-- The array is sorted stably, and no other byte has changed. -/
structure SortedArray (c : Elem size → Elem size → ℤ) (base n : ℕ) (m m' : Bytes) : Prop where
  stableSort : StableSort c (elems m size base n) (elems m' size base n)
  frame : ∀ addr, addr < base ∨ base + n * size ≤ addr → m' addr = m addr

/-- The array is sorted already. -/
def Presorted (c : Elem size → Elem size → ℤ) (base n : ℕ) (m : Bytes) : Prop :=
  (elems m size base n).Pairwise fun x y => c x y ≤ 0

theorem presorted_of_lt_two (few : n < 2) : Presorted c base n m := by
  match n, few with
  | 0, _ => exact List.Pairwise.nil
  | 1, _ => exact List.pairwise_singleton ..

/-- The sort sorts exactly the arrays of elements that its scratch holds, and those that need no
sorting. -/
theorem yosSortInplace_sorts_iff (fits : ArrayFits memSize base n size) (preorder : IsPreorder c)
    (compares : cmp.Compares memSize c) :
    SortedArray c base n m (yosSortInplace (some cmp) memSize m base n size) ↔
      size ≤ scratchSize ∨ Presorted c base n m := by
  have unchanged (sorted : Presorted c base n m) : SortedArray c base n m m :=
    ⟨stableSort_refl sorted, fun _ _ => rfl⟩
  have inside := fits.inside
  have pos := fits.pos
  rw [yosSortInplace]
  by_cases few : n < 2
  · have sorted : Presorted c base n m := presorted_of_lt_two few
    rw [if_pos (Or.inr (Or.inl few))]
    exact iff_of_true (unchanged sorted) (Or.inr sorted)
  · have some : 1 * size ≤ n * size := Nat.mul_le_mul_right size (by omega)
    rw [if_neg (by omega)]
    by_cases large : scratchSize < size
    · rw [if_pos large]
      refine ⟨fun sorts => Or.inr sorts.stableSort.sorted, fun h => ?_⟩
      exact unchanged (h.resolve_left (not_le.2 large))
    · rw [if_neg large]
      obtain ⟨k, rfl⟩ := Nat.exists_eq_add_of_le (show 1 ≤ n by omega)
      rw [Nat.add_sub_cancel_left]
      obtain ⟨sorted, frame⟩ := sortRounds_spec (m := m) (k := k) fits compares (by omega)
      rw [Nat.add_comm k 1] at sorted frame
      exact iff_of_true ⟨sorted ▸ stableSort_sortRight preorder _, frame⟩ (Or.inl (not_lt.1 large))

end Sorting

/-! ## The search -/

section Searching

variable {size memSize base n key lo hi fuel : ℕ} {cmp : GuestCmp} {c : Elem size → Elem size → ℤ}
  {m : Bytes}

/-- The address of an element that is equal to the key, or none if there is no such element. -/
def Finds (c : Elem size → Elem size → ℤ) (m : Bytes) (key base n ret : ℕ) : Prop :=
  ((∃ i < n, c (readElem m size key) (readElem m size (base + i * size)) = 0) →
    ∃ i < n, ret = base + i * size ∧ c (readElem m size key) (readElem m size (base + i * size)) = 0) ∧
  ((∀ i < n, c (readElem m size key) (readElem m size (base + i * size)) ≠ 0) → ret = 0)

/-- What lies left of `lo` is smaller than the key, and what lies right of `hi` is larger. -/
structure Between (c : Elem size → Elem size → ℤ) (m : Bytes) (key base n lo hi : ℕ) : Prop where
  le : lo ≤ hi
  bound : hi ≤ n
  below : ∀ i < lo, 0 < c (readElem m size key) (readElem m size (base + i * size))
  above : ∀ i < n, hi ≤ i → c (readElem m size key) (readElem m size (base + i * size)) < 0

theorem Presorted.le (sorted : Presorted c base n m) {i j : ℕ} (lt : i < j) (ltn : j < n) :
    c (readElem m size (base + i * size)) (readElem m size (base + j * size)) ≤ 0 := by
  have h := List.pairwise_iff_getElem.1 sorted i j (by rw [length_elems]; omega)
    (by rw [length_elems]; omega) lt
  rwa [getElem_elems, getElem_elems] at h

theorem Between.finds_zero (between : Between c m key base n lo hi) (empty : hi ≤ lo) :
    Finds c m key base n 0 := by
  have none : ∀ i < n, c (readElem m size key) (readElem m size (base + i * size)) ≠ 0 := fun i lt => by
    rcases Nat.lt_or_ge i lo with left | right
    · exact (between.below i left).ne'
    · exact (between.above i lt (empty.trans right)).ne
  exact ⟨fun ⟨i, lt, eq⟩ => absurd eq (none i lt), fun _ => rfl⟩

/-- With more rounds than elements left, the loop ends and finds the key. -/
theorem bsearchLoop_finds (fits : ArrayFits memSize base n size) (preorder : IsPreorder c)
    (compares : cmp.Compares memSize c) (keyFits : key + size ≤ memSize)
    (sorted : Presorted c base n m) (between : Between c m key base n lo hi) (enough : hi - lo < fuel) :
    ∃ ret, bsearchLoop cmp m key base size fuel lo hi = some ret ∧ Finds c m key base n ret := by
  induction fuel generalizing lo hi with
  | zero => omega
  | succ fuel ih =>
    have ordered := between.le
    have bound := between.bound
    have many : n ≤ n * size := Nat.le_mul_of_pos_right n fits.pos
    have inside := fits.inside
    have small := fits.small
    rw [bsearchLoop]
    by_cases lt : lo < hi
    · rw [if_pos lt]
      have mid_eq : (lo + hi) % 2 ^ 32 / 2 = (lo + hi) / 2 := by rw [Nat.mod_eq_of_lt (by omega)]
      rw [mid_eq]
      generalize eq : (lo + hi) / 2 = mid
      have ltn : mid < n := by omega
      have value : cmp m key (slotPtr base size mid) =
          c (readElem m size key) (readElem m size (base + mid * size)) := by
        rw [fits.slotPtr_eq ltn.le, compares m _ _ keyFits (fits.slot_inside ltn)]
      simp only [value]
      split_ifs with hit less
      · refine ⟨_, rfl, fun _ => ⟨mid, ltn, fits.slotPtr_eq ltn.le, hit⟩, fun none => ?_⟩
        exact absurd hit (none mid ltn)
      · refine ih ⟨by omega, ltn.le, between.below, fun i lti le => ?_⟩ (by omega)
        rcases Nat.eq_or_lt_of_le le with rfl | right
        · exact less
        · exact preorder.lt_of_lt_of_le less (sorted.le right lti)
      · have more : 0 < c (readElem m size key) (readElem m size (base + mid * size)) := by omega
        rw [Nat.mod_eq_of_lt (by omega)]
        refine ih ⟨by omega, bound, fun i left => ?_, between.above⟩ (by omega)
        rcases Nat.eq_or_lt_of_le (Nat.le_of_lt_succ left) with rfl | left
        · exact more
        · have lower := (preorder.swap _ _).2 more
          exact (preorder.swap _ _).1 (preorder.lt_of_le_of_lt (sorted.le left ltn) lower)
    · rw [if_neg lt]
      exact ⟨0, rfl, between.finds_zero (not_lt.1 lt)⟩

theorem m3YosBsearch_finds (fits : ArrayFits memSize base n size) (preorder : IsPreorder c)
    (compares : cmp.Compares memSize c) (keyFits : key + size ≤ memSize)
    (sorted : Presorted c base n m) (enough : n < fuel) :
    ∃ ret, m3YosBsearch (some cmp) fuel memSize m key base n size = some ret ∧
      Finds c m key base n ret := by
  have pos := fits.pos
  have inside := fits.inside
  have whole : Between c m key base n 0 n :=
    ⟨Nat.zero_le n, le_rfl, fun i lt => absurd lt (Nat.not_lt_zero i), fun i lt le => by omega⟩
  rw [m3YosBsearch]
  by_cases empty : n = 0
  · rw [if_pos (Or.inr (Or.inl empty))]
    exact ⟨0, rfl, whole.finds_zero (by omega)⟩
  · have one : 1 * size ≤ n * size := Nat.mul_le_mul_right size (by omega)
    rw [if_neg (by omega)]
    exact bsearchLoop_finds fits preorder compares keyFits sorted whole (by omega)

end Searching

/-! ## Both -/

/-- A function that returns 0 has sorted the array, and one that returns -1 has left it alone. -/
def SortReport {size : ℕ} (c : Elem size → Elem size → ℤ) (base n : ℕ) (m : Bytes) (r : Bytes × ℤ) :
    Prop :=
  r.2 = 0 ∧ SortedArray c base n m r.1 ∨ r.2 = -1 ∧ r.1 = m

/-- `qsort`, `mergesort` and `heapsort` do what they should exactly for elements of at most 512 bytes
and for arrays that are sorted already; `bsearch` always does. -/
theorem sort_search_met_iff {size memSize base n : ℕ} {cmp : GuestCmp} {c : Elem size → Elem size → ℤ}
    (fits : ArrayFits memSize base n size) (preorder : IsPreorder c) (compares : cmp.Compares memSize c)
    (m : Bytes) :
    (SortedArray c base n m (m3YosQsort (some cmp) memSize m base n size) ↔
      size ≤ scratchSize ∨ Presorted c base n m) ∧
    (SortReport c base n m (m3YosBsdsort (some cmp) memSize m base n size) ↔
      size ≤ scratchSize ∨ Presorted c base n m) ∧
    ∀ key, key + size ≤ memSize → Presorted c base n m → ∀ fuel > n, ∃ ret,
      m3YosBsearch (some cmp) fuel memSize m key base n size = some ret ∧ Finds c m key base n ret := by
  have sorts := yosSortInplace_sorts_iff (m := m) fits preorder compares
  refine ⟨sorts, ?_, fun key keyFits sorted fuel enough =>
    m3YosBsearch_finds fits preorder compares keyFits sorted enough⟩
  rw [← sorts, SortReport]
  have zero : (m3YosBsdsort (some cmp) memSize m base n size).2 ≠ -1 := show (0 : ℤ) ≠ -1 by decide
  exact ⟨fun h => (h.resolve_right fun failed => zero failed.1).2, fun h => Or.inl ⟨rfl, h⟩⟩

/-- Compare by the first byte. -/
def firstByteCmp : GuestCmp := fun m a b => (m a).toNat - (m b).toNat

/-- The comparator on the contents. -/
def firstByteOrder (size : ℕ) [NeZero size] (x y : Elem size) : ℤ := (x 0).toNat - (y 0).toNat

theorem firstByteOrder_preorder (size : ℕ) [NeZero size] : IsPreorder (firstByteOrder size) where
  swap x y := by unfold firstByteOrder; omega
  trans x y z := by unfold firstByteOrder; omega

theorem firstByteCmp_compares (size memSize : ℕ) [NeZero size] :
    firstByteCmp.Compares memSize (firstByteOrder size) := fun m a b _ _ => by
  rfl

/-- A memory whose bytes are zero but for the one at 16. -/
def oneAt16 : Bytes := fun addr => if addr = 16 then 1 else 0

/-- Three bytes are sorted. -/
theorem sort_search_met_bytes :
    SortedArray (firstByteOrder 1) 16 3 oneAt16 (m3YosQsort (some firstByteCmp) 65536 oneAt16 16 3 1) :=
  (sort_search_met_iff ⟨by decide, by decide, by decide⟩ (firstByteOrder_preorder 1)
    (firstByteCmp_compares 1 65536) oneAt16).1.2 (Or.inl (by decide))

/-- Two elements of 513 bytes in the wrong order stay so, and `mergesort` reports success. -/
theorem bsdsort_leaves_large :
    ArrayFits 65536 16 2 513 ∧ IsPreorder (firstByteOrder 513) ∧
    firstByteCmp.Compares 65536 (firstByteOrder 513) ∧
    ¬ SortReport (firstByteOrder 513) 16 2 oneAt16 (m3YosBsdsort (some firstByteCmp) 65536 oneAt16 16 2 513) := by
  have fits : ArrayFits 65536 16 2 513 := ⟨by decide, by decide, by decide⟩
  refine ⟨fits, firstByteOrder_preorder 513, firstByteCmp_compares 513 65536, ?_⟩
  rintro (⟨-, sorted⟩ | ⟨failed, -⟩)
  · have large := (yosSortInplace_sorts_iff fits (firstByteOrder_preorder 513)
      (firstByteCmp_compares 513 65536)).1 sorted
    have order := (large.resolve_left (by decide)).le (show 0 < 1 by decide) (by decide)
    exact absurd order (by decide)
  · exact absurd failed (by decide)

end Yos
