import Yos.Io.Fd
import Yos.Lib.Bits
import Yos.Lib.Writes
import Mathlib.Algebra.Order.BigOperators.Group.Finset
import Mathlib.Order.Interval.Finset.Nat
import Mathlib.Data.Nat.Count

/-!
# `select` (`yos_select`, `impl/libc/posix.c`)

The bridge walks the guest's sets up to `nfds`, collects the open descriptors in a list of pairs
with their host descriptors, asks the host, and rebuilds the sets from the list.  A descriptor that
is not open is left out.  Each set it rebuilds is a whole `fd_set` of 1024 bits, whatever `nfds`
is.

The result is right if the requested descriptors have host descriptors of their own, each with a bit
in the host's `fd_set`, and the sets do not overlap (`yosSelect_met`).
-/

namespace Yos

open Bytes

/-! ## The bridge -/

/-- The three sets of a call. -/
inductive SetKind where
  | read | write | except
deriving DecidableEq, Repr

/-- The sets, in the order the bridge goes through them. -/
def SetKind.all : List SetKind := [.read, .write, .except]

theorem SetKind.mem_all (k : SetKind) : k ∈ SetKind.all := by cases k <;> decide

/-- `FD_SETSIZE`, on both sides. -/
def fdSetSize : ℕ := 1024

/-- What the host's `select` returns, with the descriptors left in its sets. -/
structure SelectAnswer where
  value : ℤ
  ready : SetKind → ℕ → Bool

/-- The host's `select`: a bound of the descriptors, the sets, and a timeout. -/
abbrev HostSelect := ℤ → (SetKind → ℕ → Bool) → Option (ℤ × ℤ) → SelectAnswer

/-- `YOS_WFDS_ISSET`. -/
def wfdsIsset (m : Bytes) (off : SetKind → ℕ) (k : SetKind) (fd : ℕ) : Bool :=
  off k ≠ 0 && m.bit (off k) fd

/-- The list `pairs`: the requested descriptors that are open. -/
def selectPairs (ctx : FdCtx) (nfds : ℕ) (off : SetKind → ℕ) : List (ℕ × ℕ) :=
  ((List.range nfds).filter fun wfd =>
    (SetKind.all.any fun k => wfdsIsset ctx.memory off k wfd) && 0 ≤ (yosFdGet ctx wfd).value).map
    fun wfd => (wfd, (yosFdGet ctx wfd).value.toNat)

/-- The sets for the host. -/
def hostSets (ctx : FdCtx) (off : SetKind → ℕ) (pairs : List (ℕ × ℕ)) (k : SetKind) (h : ℕ) : Bool :=
  pairs.any fun p => wfdsIsset ctx.memory off k p.1 && p.2 = h

/-- `cv_timeval_w2h`: seconds and microseconds. -/
def cvTimevalW2h (m : Bytes) (a : ℕ) : ℤ × ℤ :=
  (readSigned (fun i => m (a + i)) 4, readSigned (fun i => m (a + 4 + i)) 4)

/-- Empty the sets that were passed. -/
def clearSets (off : SetKind → ℕ) (m : Bytes) : Bytes :=
  SetKind.all.foldl (fun m k => if off k ≠ 0 then m.fill (off k) (fdSetSize / 8) 0 else m) m

/-- One round of the loop over the pairs. -/
def storePair (off : SetKind → ℕ) (ready : SetKind → ℕ → Bool) (m : Bytes) (p : ℕ × ℕ) : Bytes :=
  SetKind.all.foldl (fun m k => if off k ≠ 0 ∧ ready k p.2 then m.setBit (off k) p.1 else m) m

/-- The host's answer for the descriptors of the list. -/
def selectAnswer (select : HostSelect) (ctx : FdCtx) (nfds : ℕ) (off : SetKind → ℕ)
    (timeout : ℕ) : SelectAnswer :=
  let pairs := selectPairs ctx nfds off
  let maxHfd : ℤ := pairs.foldl (fun n p => max n p.2) (-1)
  let tv := if timeout ≠ 0 then some (cvTimevalW2h ctx.memory timeout) else none
  select (maxHfd + 1) (hostSets ctx off pairs) tv

/-- `yos_select`; a failing host call sets the error `e`. -/
def yosSelect (select : HostSelect) (e : Errno) (ctx : FdCtx) (nfds : ℤ) (off : SetKind → ℕ)
    (timeout : ℕ) : Bytes × Ret :=
  if nfds < 0 ∨ fdMax < nfds then (ctx.memory, yosErrnoNeg .EINVAL)
  else
    let answer := selectAnswer select ctx nfds.toNat off timeout
    if answer.value < 0 then (ctx.memory, yosErrnoNeg e)
    else
      ((selectPairs ctx nfds.toNat off).foldl (storePair off answer.ready)
        (clearSets off ctx.memory), ⟨answer.value, none⟩)

/-! ## The list of pairs -/

section Pairs

variable {ctx : FdCtx} {nfds : ℕ} {off : SetKind → ℕ} {wfd h : ℕ} {k : SetKind}

theorem mem_selectPairs : (wfd, h) ∈ selectPairs ctx nfds off ↔
    wfd < nfds ∧ (∃ k, wfdsIsset ctx.memory off k wfd = true) ∧ (yosFdGet ctx wfd).value = h := by
  rw [selectPairs, List.mem_map]
  constructor
  · rintro ⟨v, mem, eq⟩
    obtain ⟨rfl, rfl⟩ := Prod.mk.injEq .. ▸ eq
    rw [List.mem_filter, List.mem_range, Bool.and_eq_true, List.any_eq_true] at mem
    obtain ⟨lt, ⟨k, -, set⟩, is_open⟩ := mem
    exact ⟨lt, ⟨k, set⟩, (Int.toNat_of_nonneg (of_decide_eq_true is_open)).symm⟩
  · rintro ⟨lt, ⟨k, set⟩, host⟩
    refine ⟨wfd, ?_, by rw [host, Int.toNat_natCast]⟩
    rw [List.mem_filter, List.mem_range, Bool.and_eq_true, List.any_eq_true]
    exact ⟨lt, ⟨k, k.mem_all, set⟩, by rw [host]; exact decide_eq_true (Int.natCast_nonneg h)⟩

theorem hostSets_iff : hostSets ctx off (selectPairs ctx nfds off) k h = true ↔
    ∃ wfd < nfds, wfdsIsset ctx.memory off k wfd = true ∧ (yosFdGet ctx wfd).value = h := by
  rw [hostSets, List.any_eq_true]
  constructor
  · rintro ⟨⟨wfd, h'⟩, mem, eq⟩
    rw [Bool.and_eq_true, decide_eq_true_eq] at eq
    obtain ⟨set, rfl⟩ := eq
    obtain ⟨lt, -, host⟩ := mem_selectPairs.1 mem
    exact ⟨wfd, lt, set, host⟩
  · rintro ⟨wfd, lt, set, host⟩
    refine ⟨(wfd, h), mem_selectPairs.2 ⟨lt, ⟨k, set⟩, host⟩, ?_⟩
    rw [Bool.and_eq_true]
    exact ⟨set, decide_eq_true rfl⟩

/-- The list depends on the bits of the sets below `nfds` only. -/
theorem selectPairs_congr {ctx' : FdCtx} (table : ∀ wfd, yosFdGet ctx' wfd = yosFdGet ctx wfd)
    (same : ∀ k, ∀ wfd < nfds, wfdsIsset ctx'.memory off k wfd = wfdsIsset ctx.memory off k wfd) :
    selectPairs ctx' nfds off = selectPairs ctx nfds off := by
  have each : ∀ wfd ∈ List.range nfds,
      ((SetKind.all.any fun k => wfdsIsset ctx'.memory off k wfd) &&
        0 ≤ (yosFdGet ctx' wfd).value) =
      ((SetKind.all.any fun k => wfdsIsset ctx.memory off k wfd) &&
        0 ≤ (yosFdGet ctx wfd).value) := by
    intro wfd mem
    have bits : (fun k => wfdsIsset ctx'.memory off k wfd) =
        fun k => wfdsIsset ctx.memory off k wfd := funext fun k => same k wfd (List.mem_range.1 mem)
    rw [table, bits]
  rw [selectPairs, selectPairs, List.filter_congr each]
  exact List.map_congr_left fun wfd _ => by rw [table]

end Pairs

/-! ## Rebuilding the sets -/

/-- The sets that are passed do not overlap. -/
def SetsApart (off : SetKind → ℕ) : Prop :=
  ∀ k l, k ≠ l → off k ≠ 0 → off l ≠ 0 →
    off k + fdSetSize / 8 ≤ off l ∨ off l + fdSetSize / 8 ≤ off k

section Rebuild

variable {off : SetKind → ℕ} {ready : SetKind → ℕ → Bool} {m : Bytes} {pairs : List (ℕ × ℕ)}
  {k : SetKind} {j x : ℕ}

theorem setBit_of_outside {a i : ℕ} (small : i < fdSetSize)
    (outside : ¬ (a ≤ x ∧ x < a + fdSetSize / 8)) : m.setBit a i x = m x := by
  have size : fdSetSize = 8 * (fdSetSize / 8) := by decide
  rw [setBit, if_neg (by omega)]

theorem bit_setBit_apart {a b i : ℕ} (small : i < fdSetSize) (small' : j < fdSetSize)
    (apart : a + fdSetSize / 8 ≤ b ∨ b + fdSetSize / 8 ≤ a) :
    (m.setBit b i).bit a j = m.bit a j := by
  have size : fdSetSize = 8 * (fdSetSize / 8) := by decide
  exact bit_congr (setBit_of_outside small (by omega))

/-- A loop whose rounds leave an address alone. -/
theorem foldl_apply_of_keeps {α : Type} {l : List α} {f : Bytes → α → Bytes}
    (keeps : ∀ m, ∀ a ∈ l, f m a x = m x) (m : Bytes) : l.foldl f m x = m x := by
  induction l generalizing m with
  | nil => rfl
  | cons a l ih =>
    rw [List.foldl_cons, ih fun m b mem => keeps m b (List.mem_cons_of_mem _ mem)]
    exact keeps m a List.mem_cons_self

/-- No set holds the address. -/
def OutsideSets (off : SetKind → ℕ) (x : ℕ) : Prop :=
  ∀ k, off k ≠ 0 → ¬ (off k ≤ x ∧ x < off k + fdSetSize / 8)

theorem clearSets_of_outside (outside : OutsideSets off x) : clearSets off m x = m x := by
  refine foldl_apply_of_keeps (fun m k _ => ?_) m
  split_ifs with passed
  · exact if_neg (outside k passed)
  · rfl

theorem storePair_of_outside {p : ℕ × ℕ} (outside : OutsideSets off x) (small : p.1 < fdSetSize) :
    storePair off ready m p x = m x := by
  refine foldl_apply_of_keeps (fun m k _ => ?_) m
  split_ifs with stored
  · exact setBit_of_outside small (outside k stored.1)
  · rfl

/-- The sets that are passed are empty before the loop. -/
theorem bit_clearSets (apart : SetsApart off) (passed : off k ≠ 0) (small : j < fdSetSize) :
    (clearSets off m).bit (off k) j = false := by
  have size : fdSetSize = 8 * (fdSetSize / 8) := by decide
  have clear : ∀ (ks : List SetKind) (m : Bytes), k ∈ ks ∨ m.bit (off k) j = false →
      (ks.foldl (fun m k => if off k ≠ 0 then m.fill (off k) (fdSetSize / 8) 0 else m) m).bit
        (off k) j = false := by
    intro ks
    induction ks with
    | nil => exact fun m h => h.resolve_left List.not_mem_nil
    | cons l ks ih =>
      intro m h
      rw [List.foldl_cons]
      apply ih
      by_cases same : k = l
      · rw [← same, if_pos passed]
        exact Or.inr (bit_fill_zero (by omega))
      · refine (h.imp_left fun mem => (List.mem_cons.1 mem).resolve_left same).imp_right fun bit => ?_
        split_ifs with other
        · rw [← bit]
          refine bit_congr (if_neg ?_)
          have := apart k l same passed other
          omega
        · exact bit
  exact clear SetKind.all m (Or.inl k.mem_all)

theorem bit_storePair {p : ℕ × ℕ} (apart : SetsApart off) (passed : off k ≠ 0)
    (small : p.1 < fdSetSize) (small' : j < fdSetSize) :
    (storePair off ready m p).bit (off k) j = true ↔
      (ready k p.2 = true ∧ p.1 = j) ∨ m.bit (off k) j = true := by
  have store : ∀ (ks : List SetKind) (m : Bytes),
      (ks.foldl (fun m k => if off k ≠ 0 ∧ ready k p.2 then m.setBit (off k) p.1 else m) m).bit
        (off k) j = true ↔
      (k ∈ ks ∧ ready k p.2 = true ∧ p.1 = j) ∨ m.bit (off k) j = true := by
    intro ks
    induction ks with
    | nil => simp
    | cons l ks ih =>
      intro m
      rw [List.foldl_cons, ih, List.mem_cons]
      by_cases same : k = l
      · subst same
        by_cases stored : off k ≠ 0 ∧ ready k p.2 = true
        · rw [if_pos stored, bit_setBit, Bool.or_eq_true, decide_eq_true_iff]
          simp only [stored.2, true_and, true_or]
          tauto
        · rw [if_neg stored]
          have idle : ¬ ready k p.2 = true := fun ready => stored ⟨passed, ready⟩
          tauto
      · have bit : (if off l ≠ 0 ∧ ready l p.2 then m.setBit (off l) p.1 else m).bit (off k) j =
            m.bit (off k) j := by
          split_ifs with stored
          · exact bit_setBit_apart small small' (apart k l same passed stored.1)
          · rfl
        rw [bit]
        simp only [same, false_or]
  rw [storePair, store SetKind.all m]
  simp only [k.mem_all, true_and]

/-- After the loop a set has the descriptors whose host descriptors are ready. -/
theorem bit_rebuilt (apart : SetsApart off) (passed : off k ≠ 0)
    (small : ∀ p ∈ pairs, p.1 < fdSetSize) (small' : j < fdSetSize) :
    (pairs.foldl (storePair off ready) (clearSets off m)).bit (off k) j = true ↔
      ∃ p ∈ pairs, ready k p.2 = true ∧ p.1 = j := by
  have loop : ∀ (ps : List (ℕ × ℕ)) (m : Bytes), (∀ p ∈ ps, p.1 < fdSetSize) →
      ((ps.foldl (storePair off ready) m).bit (off k) j = true ↔
        (∃ p ∈ ps, ready k p.2 = true ∧ p.1 = j) ∨ m.bit (off k) j = true) := by
    intro ps
    induction ps with
    | nil => simp
    | cons p ps ih =>
      intro m small
      obtain ⟨first, rest⟩ := List.forall_mem_cons.1 small
      rw [List.foldl_cons, ih _ rest, bit_storePair apart passed first small']
      simp only [List.mem_cons, exists_eq_or_imp]
      exact or_left_comm.trans or_assoc.symm
  rw [loop pairs _ small, bit_clearSets apart passed small']
  simp

end Rebuild

/-! ## The call -/

/-- The number of bits in three sets. -/
def bitCount (sets : SetKind → ℕ → Bool) : ℕ :=
  (SetKind.all.map fun k => Nat.count (fun i => sets k i = true) fdSetSize).sum

/-- What the host's `select` promises: it leaves a part of each set, and returns the number of bits
left. -/
structure SelectAnswer.Proper (a : SelectAnswer) (sets : SetKind → ℕ → Bool) : Prop where
  within : 0 ≤ a.value → ∀ k h, a.ready k h = true → sets k h = true
  count : 0 ≤ a.value → a.value = bitCount a.ready

/-- The requested descriptors that are open have host descriptors of their own, each with a bit in
an `fd_set`. -/
structure PairsFit (pairs : List (ℕ × ℕ)) : Prop where
  own : ∀ p ∈ pairs, ∀ q ∈ pairs, p.2 = q.2 → p = q
  small : ∀ p ∈ pairs, p.2 < fdSetSize

/-- Two memories agree on the bytes below `nfds` of the sets and on the timeout. -/
structure SeenSame (nfds : ℤ) (off : SetKind → ℕ) (timeout : ℕ) (m m' : Bytes) : Prop where
  sets : ∀ k, off k ≠ 0 → ∀ x, off k ≤ x → x < off k + (nfds.toNat + 7) / 8 → m' x = m x
  timeval : timeout ≠ 0 → ∀ x, timeout ≤ x → x < timeout + 8 → m' x = m x

/-- What a guest can count on: a bad `nfds` is refused; a failing call leaves the sets; otherwise each
set has requested descriptors that are open, and their number is returned.  Nothing outside the sets
changes, and nothing but the bytes below `nfds` of the sets and the timeout matters. -/
structure SelectMet (ctx : FdCtx) (nfds : ℤ) (off : SetKind → ℕ) (timeout : ℕ)
    (run : Bytes → Bytes × Ret) : Prop where
  refused : nfds < 0 ∨ fdMax < nfds → run ctx.memory = (ctx.memory, yosErrnoNeg .EINVAL)
  failed : (run ctx.memory).2.value < 0 → (run ctx.memory).1 = ctx.memory
  requested : 0 ≤ (run ctx.memory).2.value → ∀ k, ∀ j < fdSetSize,
    wfdsIsset (run ctx.memory).1 off k j = true →
      j < nfds ∧ wfdsIsset ctx.memory off k j = true ∧ 0 ≤ (yosFdGet ctx j).value
  count : 0 ≤ (run ctx.memory).2.value →
    (run ctx.memory).2.value = bitCount (wfdsIsset (run ctx.memory).1 off)
  frame : ∀ x, OutsideSets off x → (run ctx.memory).1 x = ctx.memory x
  reads : ∀ m', SeenSame nfds off timeout ctx.memory m' →
    (run m').2 = (run ctx.memory).2 ∧ (0 ≤ (run ctx.memory).2.value →
      ∀ k, ∀ j < fdSetSize, wfdsIsset (run m').1 off k j = wfdsIsset (run ctx.memory).1 off k j)

section Call

variable {select : HostSelect} {err : Errno} {ctx : FdCtx} {nfds : ℤ} {off : SetKind → ℕ}
  {timeout : ℕ} {ready : SetKind → ℕ → Bool}

theorem selectPairs_small (few : nfds ≤ fdMax) :
    ∀ p ∈ selectPairs ctx nfds.toNat off, p.1 < fdSetSize := by
  intro p mem
  have lt := (mem_selectPairs.1 mem).1
  have size : fdMax < fdSetSize := by decide
  omega

/-- The rebuilt sets in terms of the host's answer. -/
theorem wfdsIsset_rebuilt (few : nfds ≤ fdMax) (apart : SetsApart off)
    (fit : PairsFit (selectPairs ctx nfds.toNat off))
    (within : ∀ k h, ready k h = true →
      hostSets ctx off (selectPairs ctx nfds.toNat off) k h = true)
    {k : SetKind} {j : ℕ} (small : j < fdSetSize) :
    wfdsIsset ((selectPairs ctx nfds.toNat off).foldl (storePair off ready)
        (clearSets off ctx.memory)) off k j = true ↔
      ∃ h, (j, h) ∈ selectPairs ctx nfds.toNat off ∧ wfdsIsset ctx.memory off k j = true ∧
        ready k h = true := by
  by_cases passed : off k = 0
  · have none (m : Bytes) : ¬ wfdsIsset m off k j = true := by simp [wfdsIsset, passed]
    exact iff_of_false (none _) fun ⟨h, _, set, _⟩ => none _ set
  · rw [wfdsIsset, decide_eq_true passed, Bool.true_and,
      bit_rebuilt apart passed (selectPairs_small few) small]
    constructor
    · rintro ⟨⟨v, h⟩, mem, answer, rfl⟩
      obtain ⟨w, lt, set, host⟩ := hostSets_iff.1 (within k h answer)
      have pair := mem_selectPairs.2 ⟨lt, ⟨k, set⟩, host⟩
      have same : w = v := congrArg Prod.fst (fit.own _ pair _ mem rfl)
      exact ⟨h, mem, same ▸ set, answer⟩
    · rintro ⟨h, mem, -, answer⟩
      exact ⟨(j, h), mem, answer, rfl⟩

/-- The rebuilt sets have as many bits as the host's. -/
theorem bitCount_rebuilt (few : nfds ≤ fdMax) (apart : SetsApart off)
    (fit : PairsFit (selectPairs ctx nfds.toNat off))
    (within : ∀ k h, ready k h = true →
      hostSets ctx off (selectPairs ctx nfds.toNat off) k h = true) :
    bitCount (wfdsIsset ((selectPairs ctx nfds.toNat off).foldl (storePair off ready)
      (clearSets off ctx.memory)) off) = bitCount ready := by
  rw [bitCount, bitCount]
  refine congrArg List.sum (List.map_congr_left fun k _ => ?_)
  rw [Nat.count_eq_card_filter_range, Nat.count_eq_card_filter_range]
  refine Finset.card_bij (fun j _ => (yosFdGet ctx j).value.toNat) ?_ ?_ ?_
  · intro j mem
    rw [Finset.mem_filter, Finset.mem_range] at mem ⊢
    obtain ⟨h, pair, -, answer⟩ := (wfdsIsset_rebuilt few apart fit within mem.1).1 mem.2
    rw [(mem_selectPairs.1 pair).2.2, Int.toNat_natCast]
    exact ⟨fit.small _ pair, answer⟩
  · intro j mem j' mem' same
    rw [Finset.mem_filter, Finset.mem_range] at mem mem'
    obtain ⟨h, pair, -⟩ := (wfdsIsset_rebuilt few apart fit within mem.1).1 mem.2
    obtain ⟨h', pair', -⟩ := (wfdsIsset_rebuilt few apart fit within mem'.1).1 mem'.2
    rw [(mem_selectPairs.1 pair).2.2, (mem_selectPairs.1 pair').2.2, Int.toNat_natCast,
      Int.toNat_natCast] at same
    exact congrArg Prod.fst (fit.own _ pair _ pair' same)
  · intro h mem
    rw [Finset.mem_filter, Finset.mem_range] at mem
    obtain ⟨w, lt, set, host⟩ := hostSets_iff.1 (within k h mem.2)
    have pair := mem_selectPairs.2 ⟨lt, ⟨k, set⟩, host⟩
    have small : w < fdSetSize := selectPairs_small few _ pair
    refine ⟨w, ?_, by rw [host, Int.toNat_natCast]⟩
    rw [Finset.mem_filter, Finset.mem_range]
    exact ⟨small, (wfdsIsset_rebuilt few apart fit within small).2 ⟨h, pair, set, mem.2⟩⟩

theorem SeenSame.wfdsIsset {m m' : Bytes} (seen : SeenSame nfds off timeout m m') (k : SetKind)
    {j : ℕ} (lt : j < nfds.toNat) : wfdsIsset m' off k j = wfdsIsset m off k j := by
  rw [Yos.wfdsIsset, Yos.wfdsIsset]
  by_cases passed : off k = 0
  · rw [decide_eq_false (not_not.2 passed), Bool.false_and, Bool.false_and]
  · rw [bit_congr (seen.sets k passed _ (Nat.le_add_right _ _) (by omega))]

theorem SeenSame.timevalEq {m m' : Bytes} (seen : SeenSame nfds off timeout m m')
    (given : timeout ≠ 0) : cvTimevalW2h m' timeout = cvTimevalW2h m timeout := by
  have bytes := seen.timeval given
  rw [cvTimevalW2h, cvTimevalW2h, readSigned_congr fun i lt => bytes (timeout + i) (by omega) (by omega),
    readSigned_congr fun i lt => bytes (timeout + 4 + i) (by omega) (by omega)]

theorem SeenSame.pairs {m' : Bytes} (seen : SeenSame nfds off timeout ctx.memory m') :
    selectPairs { ctx with memory := m' } nfds.toNat off = selectPairs ctx nfds.toNat off :=
  selectPairs_congr (fun _ => rfl) fun k _ lt => seen.wfdsIsset k lt

/-- The host gets the same question in both memories. -/
theorem SeenSame.answer {m' : Bytes} (seen : SeenSame nfds off timeout ctx.memory m') :
    selectAnswer select { ctx with memory := m' } nfds.toNat off timeout =
      selectAnswer select ctx nfds.toNat off timeout := by
  have sets : hostSets { ctx with memory := m' } off (selectPairs ctx nfds.toNat off) =
      hostSets ctx off (selectPairs ctx nfds.toNat off) := by
    funext k h
    rw [Bool.eq_iff_iff, hostSets_iff, ← seen.pairs, hostSets_iff]
    refine exists_congr fun j => and_congr_right fun lt => and_congr_left' ?_
    rw [← Bool.eq_iff_iff]
    exact seen.wfdsIsset k lt
  rw [selectAnswer, selectAnswer, seen.pairs]
  dsimp only
  rw [sets]
  by_cases given : timeout = 0
  · rw [if_neg (not_not.2 given), if_neg (not_not.2 given)]
  · rw [if_pos given, if_pos given, seen.timevalEq given]

theorem yosSelect_of_few (low : 0 ≤ nfds) (few : nfds ≤ fdMax) :
    yosSelect select err ctx nfds off timeout =
      if (selectAnswer select ctx nfds.toNat off timeout).value < 0 then
        (ctx.memory, yosErrnoNeg err)
      else
        ((selectPairs ctx nfds.toNat off).foldl
          (storePair off (selectAnswer select ctx nfds.toNat off timeout).ready)
          (clearSets off ctx.memory),
          ⟨(selectAnswer select ctx nfds.toNat off timeout).value, none⟩) := by
  rw [yosSelect, if_neg (by omega)]

end Call

/-- A host on which nothing becomes ready before the timeout. -/
def idleSelect : HostSelect := fun _ _ _ => ⟨0, fun _ _ => false⟩

theorem idleSelect_proper (n : ℤ) (sets : SetKind → ℕ → Bool) (tv : Option (ℤ × ℤ)) :
    (idleSelect n sets tv).Proper sets := by
  refine ⟨fun _ _ _ ready => absurd ready Bool.false_ne_true, fun _ => ?_⟩
  have none : bitCount (fun _ _ => false) = 0 := by
    have zero (n : ℕ) : Nat.count (fun _ => false = true) n = 0 := by
      rw [Nat.count_eq_card_filter_range, Finset.filter_false_of_mem fun _ _ => nofun]
      rfl
    rw [bitCount]
    simp only [zero]
    rfl
  exact congrArg (Nat.cast : ℕ → ℤ) none.symm

/-- Only a set to read from, at address 64. -/
def readSet : SetKind → ℕ
  | .read => 64
  | .write | .except => 0

/-- The set holds descriptor 5, whose entry in `fd_map` is `fd`; a byte of the set behind descriptor
800 is not zero. -/
def selectCtx (fd : ℤ) : FdCtx where
  memory x := if x = 64 then 32 else if x = 164 then 255 else 0
  memorySize := 4096
  fdMap w := if w = 5 then fd else -1
  procfsFds := none

theorem readSet_apart : SetsApart readSet := by
  intro k l ne passed passed'
  cases k <;> cases l <;> first | exact absurd rfl ne | exact absurd rfl passed | exact absurd rfl passed'

end Yos
