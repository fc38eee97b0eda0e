import Mathlib.Algebra.BigOperators.Group.List.Basic
import Mathlib.Algebra.GroupWithZero.Nat
import Mathlib.Data.List.Pairwise
import Mathlib.Tactic.Common

/-!
# Half-open address ranges

A `Span` is the range `[addr, addr + len)`.  `cover l x` counts the spans of the list `l` that
contain the address `x`: the spans of `l` are pairwise disjoint when no address is counted twice
(`disjoint_of_cover_le_one`), and they tile a range when every address of it is counted once and
no other address is.  `cover` is additive, so cutting and joining spans is arithmetic on counts.
-/

/-- The range `[addr, addr + len)`. -/
structure Span where
  addr : ℕ
  len : ℕ
deriving DecidableEq, Repr

namespace Span

/-- The first address after the span. -/
def fin (s : Span) : ℕ := s.addr + s.len

/-- The span contains the address `x`. -/
def Has (s : Span) (x : ℕ) : Prop := s.addr ≤ x ∧ x < s.addr + s.len

instance (s : Span) (x : ℕ) : Decidable (s.Has x) := inferInstanceAs (Decidable (_ ∧ _))

/-- No address lies in both spans. -/
def Disjoint (s t : Span) : Prop := ∀ x, ¬ (s.Has x ∧ t.Has x)

/-- One if the span contains `x`, else zero. -/
def hit (s : Span) (x : ℕ) : ℕ := if s.addr ≤ x ∧ x < s.addr + s.len then 1 else 0

theorem hit_eq_one_iff {s : Span} {x : ℕ} : s.hit x = 1 ↔ s.Has x := by
  unfold hit Has
  split_ifs with h <;> simp [h]

theorem hit_eq_zero_iff {s : Span} {x : ℕ} : s.hit x = 0 ↔ ¬ s.Has x := by
  unfold hit Has
  split_ifs with h <;> simp [h]

theorem hit_le_one (s : Span) (x : ℕ) : s.hit x ≤ 1 := by
  unfold hit
  split_ifs <;> simp

/-- Cutting a span in two. -/
theorem hit_cut (a m n x : ℕ) : hit ⟨a, m + n⟩ x = hit ⟨a, m⟩ x + hit ⟨a + m, n⟩ x := by
  unfold hit
  split_ifs <;> simp_all <;> omega

/-- Spans with a common address are not one after the other. -/
theorem Disjoint.le_or_le {s t : Span} (h : s.Disjoint t) (hs : 0 < s.len) (ht : 0 < t.len) :
    s.fin ≤ t.addr ∨ t.fin ≤ s.addr := by
  by_contra hc
  simp only [fin, not_or] at hc
  refine h (max s.addr t.addr) ⟨⟨?_, ?_⟩, ⟨?_, ?_⟩⟩ <;> omega

theorem Disjoint.symm {s t : Span} (h : s.Disjoint t) : t.Disjoint s := fun x hx => h x hx.symm

instance : Std.Symm Span.Disjoint := ⟨fun _ _ h => h.symm⟩

/-- The number of spans of `l` that contain `x`. -/
def cover (l : List Span) (x : ℕ) : ℕ := (l.map fun s => s.hit x).sum

@[simp] theorem cover_nil (x : ℕ) : cover [] x = 0 := rfl

@[simp] theorem cover_cons (s : Span) (l : List Span) (x : ℕ) :
    cover (s :: l) x = s.hit x + cover l x := by
  simp [cover]

@[simp] theorem cover_append (l₁ l₂ : List Span) (x : ℕ) :
    cover (l₁ ++ l₂) x = cover l₁ x + cover l₂ x := by
  simp [cover]

theorem cover_perm {l₁ l₂ : List Span} (h : l₁.Perm l₂) (x : ℕ) : cover l₁ x = cover l₂ x :=
  (h.map _).sum_eq

theorem cover_eq_zero_iff {l : List Span} {x : ℕ} : cover l x = 0 ↔ ∀ s ∈ l, ¬ s.Has x := by
  induction l with
  | nil => simp
  | cons s l ih => simp [ih, hit_eq_zero_iff]

theorem cover_pos_iff {l : List Span} {x : ℕ} : 0 < cover l x ↔ ∃ s ∈ l, s.Has x := by
  rw [Nat.pos_iff_ne_zero, Ne, cover_eq_zero_iff]
  simp

theorem cover_pos_of_mem {l : List Span} {s : Span} {x : ℕ} (hs : s ∈ l) (hx : s.Has x) :
    0 < cover l x :=
  cover_pos_iff.2 ⟨s, hs, hx⟩

/-- If no address is covered twice, the spans are pairwise disjoint. -/
theorem disjoint_of_cover_le_one {l : List Span} (h : ∀ x, cover l x ≤ 1) :
    l.Pairwise Disjoint := by
  induction l with
  | nil => exact List.Pairwise.nil
  | cons s l ih =>
    refine List.Pairwise.cons (fun t ht x hx => ?_) (ih fun x => ?_)
    · have hc := h x
      have hp := cover_pos_of_mem ht hx.2
      rw [cover_cons, hit_eq_one_iff.2 hx.1] at hc
      omega
    · have hc := h x
      rw [cover_cons] at hc
      omega

/-- Of disjoint spans only one contains an address. -/
theorem eq_of_has {l : List Span} (once : ∀ x, cover l x ≤ 1) {s t : Span} (hs : s ∈ l) (ht : t ∈ l)
    {x : ℕ} (hsx : s.Has x) (htx : t.Has x) : s = t := by
  by_contra other
  exact (disjoint_of_cover_le_one once).forall hs ht other x ⟨hsx, htx⟩

/-! ## Spans that do not touch -/

/-- No span begins where a span ends. -/
def Coalesced (l : List Span) : Prop := ∀ s ∈ l, ∀ t ∈ l, s.fin ≠ t.addr

section Coalesced

variable {l l' : List Span}

theorem Coalesced.subset (apart : Coalesced l) (sub : ∀ s ∈ l', s ∈ l) : Coalesced l' :=
  fun s hs t ht => apart s (sub s hs) t (sub t ht)

/-- A range that disjoint spans cover without touching each other lies in one of them. -/
theorem exists_mem_of_covered (once : ∀ x, cover l x ≤ 1) (apart : Coalesced l) {a n : ℕ} (pos : 0 < n)
    (covered : ∀ x, a ≤ x → x < a + n → 0 < cover l x) : ∃ s ∈ l, s.addr ≤ a ∧ a + n ≤ s.fin := by
  obtain ⟨s, hs, first⟩ := cover_pos_iff.1 (covered a (Nat.le_refl a) (by omega))
  refine ⟨s, hs, first.1, ?_⟩
  by_contra short
  unfold fin at short
  obtain ⟨t, ht, after⟩ := cover_pos_iff.1 (covered (s.addr + s.len) (by have := first.2; omega) (by omega))
  have touch := apart s hs t ht
  unfold fin at touch
  -- the span behind `s` starts before its end, so it is `s` itself
  have same : s = t := by
    refine eq_of_has once hs ht (x := s.addr + s.len - 1) ?_ ?_
    · have := first.2
      unfold Has at first ⊢
      omega
    · unfold Has at first after ⊢
      omega
  rw [← same] at after
  exact absurd after.2 (Nat.lt_irrefl _)

/-- The addresses that a list of spans contains. -/
def union (l : List Span) : Set ℕ := {x | ∃ s ∈ l, s.Has x}

theorem mem_union_iff {x : ℕ} : x ∈ union l ↔ 0 < cover l x := cover_pos_iff.symm

/-- The range is a maximal one among those that lie in `S`. -/
def MaximalIn (S : Set ℕ) (s : Span) : Prop :=
  0 < s.len ∧ (∀ x, s.Has x → x ∈ S) ∧
    ∀ t : Span, (∀ x, t.Has x → x ∈ S) → (∀ x, s.Has x → t.Has x) → t = s

/-- Disjoint spans that do not touch are the maximal ranges of what they cover. -/
theorem mem_iff_maximalIn (once : ∀ x, cover l x ≤ 1) (apart : Coalesced l) (pos : ∀ s ∈ l, 0 < s.len)
    {s : Span} : s ∈ l ↔ MaximalIn (union l) s := by
  -- a range in the union lies in one of the spans
  have inside {t : Span} (some : 0 < t.len) (within : ∀ x, t.Has x → x ∈ union l) :
      ∃ u ∈ l, u.addr ≤ t.addr ∧ t.fin ≤ u.fin :=
    exists_mem_of_covered once apart some fun x lo hi => mem_union_iff.1 (within x ⟨lo, hi⟩)
  constructor
  · intro mem
    have some := pos s mem
    refine ⟨some, fun x has => ⟨s, mem, has⟩, fun t within larger => ?_⟩
    have first := larger s.addr ⟨Nat.le_refl _, by omega⟩
    have last := larger (s.fin - 1) ⟨by unfold fin; omega, by unfold fin; omega⟩
    unfold Has at first last
    unfold fin at last
    obtain ⟨u, hu, start, stop⟩ := inside (by omega) within
    unfold fin at stop
    obtain rfl : s = u := eq_of_has once mem hu (x := s.addr) ⟨Nat.le_refl _, by omega⟩ ⟨by omega, by omega⟩
    cases s
    cases t
    simp only [mk.injEq] at *
    omega
  · rintro ⟨some, within, largest⟩
    obtain ⟨u, hu, start, stop⟩ := inside some within
    unfold fin at stop
    rw [← largest u (fun x has => ⟨u, hu, has⟩) fun x has => ⟨Nat.le_trans start has.1, by have := has.2; omega⟩]
    exact hu

/-- Disjoint spans are different if they are not empty. -/
theorem nodup_of_once (once : ∀ x, cover l x ≤ 1) (pos : ∀ s ∈ l, 0 < s.len) : l.Nodup := by
  refine (disjoint_of_cover_le_one once).imp_of_mem fun {s t} hs _ apart same => ?_
  have some := pos s hs
  exact apart s.addr ⟨⟨Nat.le_refl _, by omega⟩, same ▸ ⟨Nat.le_refl _, by omega⟩⟩

/-- Pairwise disjoint spans count no address twice. -/
theorem cover_le_one_of_disjoint (disjoint : l.Pairwise Disjoint) (x : ℕ) : cover l x ≤ 1 := by
  induction l with
  | nil => exact Nat.zero_le 1
  | cons s l ih =>
    obtain ⟨first, rest⟩ := List.pairwise_cons.1 disjoint
    have less := ih rest
    have most := hit_le_one s x
    rw [cover_cons]
    by_cases has : s.Has x
    · have none : cover l x = 0 := cover_eq_zero_iff.2 fun t ht hx => first t ht x ⟨has, hx⟩
      omega
    · have zero := hit_eq_zero_iff.2 has
      omega

/-- `s` is what is left of a span of `l` when `[lo, hi)` is taken out. -/
def PieceOf (l : List Span) (lo hi : ℕ) (s : Span) : Prop :=
  0 < s.len ∧ ∃ r ∈ l, (s.addr = r.addr ∨ r.addr ≤ s.addr ∧ s.addr = hi) ∧
    (s.fin = r.fin ∨ s.fin ≤ r.fin ∧ s.fin = lo)

theorem PieceOf.self {lo hi : ℕ} {s : Span} (hs : s ∈ l) (pos : 0 < s.len) : PieceOf l lo hi s :=
  ⟨pos, s, hs, Or.inl rfl, Or.inl rfl⟩

/-- Taking a range out leaves spans that do not touch. -/
theorem Coalesced.pieces (once : ∀ x, cover l x ≤ 1) (apart : Coalesced l) {lo hi : ℕ}
    (order : lo < hi) (pieces : ∀ s ∈ l', PieceOf l lo hi s) : Coalesced l' := by
  intro s hs t ht touch
  obtain ⟨posS, r, hr, startS, stopS⟩ := pieces s hs
  obtain ⟨posT, q, hq, startT, stopT⟩ := pieces t ht
  have far := apart r hr q hq
  unfold fin at *
  -- the spans they come from have a common address, so the cut would have to run backwards
  have same : r = q := by
    by_cases back : q.addr < r.addr + r.len
    · rcases Nat.lt_or_ge q.addr (s.addr + s.len) with overlap | reach
      · refine eq_of_has once hr hq (x := s.addr + s.len - 1) ?_ ?_
        · unfold Has
          omega
        · unfold Has
          omega
      · refine eq_of_has once hr hq (x := q.addr) ?_ ?_
        · unfold Has
          omega
        · unfold Has
          omega
    · omega
  subst same
  omega

end Coalesced

/-! ## Ascending spans with gaps -/

section Gaps

variable {l l' : List Span} {a b : Span} {x : ℕ}

/-- Nothing lies before the end of the first span but the span itself. -/
theorem cover_tail_of_gaps (gaps : (a :: l).Pairwise fun s t => s.fin < t.addr) (before : x ≤ a.fin) :
    cover l x = 0 := by
  rw [cover_eq_zero_iff]
  intro s mem has
  have apart := (List.pairwise_cons.1 gaps).1 s mem
  unfold Has at has
  omega

/-- The first span starts where the cover does. -/
theorem addr_le_of_cover (gaps : (a :: l).Pairwise fun s t => s.fin < t.addr) (pos : 0 < a.len)
    (covered : 0 < cover (a :: l) x) : a.addr ≤ x := by
  obtain ⟨s, mem, has⟩ := cover_pos_iff.1 covered
  rcases List.mem_cons.1 mem with rfl | mem
  · exact has.1
  · have apart := (List.pairwise_cons.1 gaps).1 s mem
    unfold fin at apart
    unfold Has at has
    omega

/-- The first span ends where the cover has its first gap. -/
theorem len_le_of_cover (gaps : (a :: l).Pairwise fun s t => s.fin < t.addr)
    (gaps' : (b :: l').Pairwise fun s t => s.fin < t.addr) (start : a.addr = b.addr) (pos : 0 < a.len)
    (same : ∀ x, cover (a :: l) x = cover (b :: l') x) : b.len ≤ a.len := by
  by_contra shorter
  have after := same a.fin
  rw [cover_cons, cover_cons, cover_tail_of_gaps gaps (Nat.le_refl _),
    cover_tail_of_gaps gaps' (by unfold fin; omega)] at after
  have out : a.hit a.fin = 0 := hit_eq_zero_iff.2 fun has => by
    unfold Has fin at has
    omega
  have inside : b.hit a.fin = 1 := hit_eq_one_iff.2 ⟨by unfold fin; omega, by unfold fin; omega⟩
  omega

/-- Ascending spans that are not adjacent are determined by the addresses they cover. -/
theorem eq_of_cover_eq (gaps : l.Pairwise fun s t => s.fin < t.addr)
    (gaps' : l'.Pairwise fun s t => s.fin < t.addr) (pos : ∀ s ∈ l, 0 < s.len) (pos' : ∀ s ∈ l', 0 < s.len)
    (same : ∀ x, cover l x = cover l' x) : l = l' := by
  have covered {s : Span} {l : List Span} (pos : 0 < s.len) : 0 < cover (s :: l) s.addr :=
    cover_pos_of_mem List.mem_cons_self ⟨Nat.le_refl _, by omega⟩
  induction l generalizing l' with
  | nil =>
    cases l' with
    | nil => rfl
    | cons b l' =>
      have first := covered (l := l') (pos' b List.mem_cons_self)
      rw [← same] at first
      exact absurd first (Nat.lt_irrefl 0)
  | cons a l ih =>
    cases l' with
    | nil =>
      have first := covered (l := l) (pos a List.mem_cons_self)
      rw [same] at first
      exact absurd first (Nat.lt_irrefl 0)
    | cons b l' =>
      have pa := pos a List.mem_cons_self
      have pb := pos' b List.mem_cons_self
      have start : a.addr = b.addr := by
        apply Nat.le_antisymm
        · refine addr_le_of_cover gaps pa ?_
          rw [same]
          exact covered pb
        · refine addr_le_of_cover gaps' pb ?_
          rw [← same]
          exact covered pa
      have len : a.len = b.len := Nat.le_antisymm
        (len_le_of_cover gaps' gaps start.symm pb fun x => (same x).symm)
        (len_le_of_cover gaps gaps' start pa same)
      obtain rfl : a = b := by
        cases a
        cases b
        simp_all
      congr 1
      refine ih gaps.of_cons gaps'.of_cons (fun s mem => pos s (List.mem_cons_of_mem a mem))
        (fun s mem => pos' s (List.mem_cons_of_mem a mem)) fun x => ?_
      have both := same x
      rw [cover_cons, cover_cons] at both
      exact Nat.add_left_cancel both

/-- Spans of at least `n` bytes one after the other in a range. -/
theorem length_mul_le {n lo hi : ℕ} (sorted : l.Pairwise fun s t => s.fin ≤ t.addr)
    (long : ∀ s ∈ l, n ≤ s.len) (low : ∀ s ∈ l, lo ≤ s.addr) (high : ∀ s ∈ l, s.fin ≤ hi) :
    l.length * n ≤ hi - lo := by
  induction l generalizing lo with
  | nil => simp
  | cons a l ih =>
    obtain ⟨first, rest⟩ := List.pairwise_cons.1 sorted
    have tail : l.length * n ≤ hi - a.fin := ih rest (fun s mem => long s (List.mem_cons_of_mem a mem)) first
      fun s mem => high s (List.mem_cons_of_mem a mem)
    have len := long a List.mem_cons_self
    have start := low a List.mem_cons_self
    have stop := high a List.mem_cons_self
    rw [List.length_cons, Nat.succ_mul]
    unfold fin at tail stop
    omega

end Gaps

end Span
