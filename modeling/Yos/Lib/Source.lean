import Mathlib.Data.List.Basic
import Mathlib.Data.Nat.Notation
import Mathlib.Tactic.Common

/-!
# Reading from a source

A `Source` hands out values one after another until it has none left, and `readUntil` takes them until
they are enough.  `cut` does the same with a list.  `Source.readUntil_sim` compares the two: if the
states `R 0`, `R 1`, ... hand out the values of a list, then `readUntil` takes what `cut` does.
-/

/-- A state that hands out values, and has fewer left each time. -/
structure Source (σ β : Type*) where
  get : σ → Option β × σ
  left : σ → ℕ
  less : ∀ s b s', get s = (some b, s') → left s' < left s

namespace Source

variable {σ β : Type*} {enough : List β → Bool} {got l rest : List β} {n : ℕ}

/-- Take values until `enough` holds of them, or there are no more. -/
def readUntil (src : Source σ β) (enough : List β → Bool) (s : σ) (got : List β) : List β × σ :=
  if enough got then (got, s)
  else
    match _found : src.get s with
    | (none, s') => (got, s')
    | (some b, s') => readUntil src enough s' (got ++ [b])
termination_by src.left s
decreasing_by exact src.less s b s' _found

/-- The values taken from a list, and whether it ended before they were enough. -/
def cut (enough : List β → Bool) : List β → List β → List β × Bool
  | got, [] => (got, !enough got)
  | got, b :: rest => if enough got then (got, false) else cut enough (got ++ [b]) rest

section Cut

theorem cut_of_enough (done : enough got = true) : cut enough got l = (got, false) := by
  cases l with
  | nil => rw [cut, done, Bool.not_true]
  | cons b rest => rw [cut, if_pos done]

/-- What is taken is a beginning of the list. -/
theorem cut_eq_take (enough : List β → Bool) (got l : List β) :
    ∃ n ≤ l.length, (cut enough got l).1 = got ++ l.take n ∧ ((cut enough got l).2 = true → n = l.length) := by
  induction l generalizing got with
  | nil => exact ⟨0, Nat.le_refl _, by simp [cut], fun _ => rfl⟩
  | cons b rest ih =>
    rw [cut]
    split_ifs with done
    · exact ⟨0, Nat.zero_le _, by simp, fun met => by cases met⟩
    · obtain ⟨n, le, taken, all⟩ := ih (got ++ [b])
      refine ⟨n + 1, by simpa using le, ?_, fun met => ?_⟩
      · simpa using taken
      · simpa using all met

theorem cut_plenty_iff :
    (cut enough got l).2 = false ↔ ∃ n ≤ l.length, enough (got ++ l.take n) = true := by
  induction l generalizing got with
  | nil => simp [cut]
  | cons b rest ih =>
    rw [cut]
    split_ifs with done
    · exact ⟨fun _ => ⟨0, Nat.zero_le _, by simpa using done⟩, fun _ => rfl⟩
    · rw [ih]
      constructor
      · rintro ⟨n, le, plenty⟩
        exact ⟨n + 1, by simpa using le, by simpa using plenty⟩
      · rintro ⟨n, le, plenty⟩
        cases n with
        | zero => exact absurd (by simpa using plenty) done
        | succ n => exact ⟨n, by simpa using le, by simpa using plenty⟩

/-- A list that is enough stays enough when more follows. -/
theorem cut_append (plenty : (cut enough got l).2 = false) (rest : List β) :
    cut enough got (l ++ rest) = cut enough got l := by
  induction l generalizing got with
  | nil =>
    have done : enough got = true := by simpa [cut] using plenty
    rw [cut_of_enough done, cut_of_enough done]
  | cons b l ih =>
    rw [List.cons_append, cut, cut]
    rw [cut] at plenty
    split_ifs at plenty ⊢ with done
    · rfl
    · exact ih plenty

/-- The values that are enough are taken, if no first part of them is. -/
theorem cut_of_first (before : ∀ n < l.length, enough (got ++ l.take n) = false)
    (done : enough (got ++ l) = true) (rest : List β) :
    cut enough got (l ++ rest) = (got ++ l, false) := by
  induction l generalizing got with
  | nil =>
    rw [List.append_nil] at done ⊢
    exact cut_of_enough done
  | cons b l ih =>
    have early : enough got = false := by simpa using before 0 (Nat.succ_pos _)
    rw [List.cons_append, cut, early, if_neg Bool.false_ne_true, ih]
    · simp
    · intro n lt
      simpa using before (n + 1) (Nat.succ_lt_succ lt)
    · simpa using done

/-- All is taken of a list that is never enough. -/
theorem cut_of_never (never : ∀ n ≤ l.length, enough (got ++ l.take n) = false) :
    cut enough got l = (got ++ l, true) := by
  induction l generalizing got with
  | nil =>
    have short : enough got = false := by simpa using never 0 (Nat.le_refl _)
    rw [cut, short, List.append_nil, Bool.not_false]
  | cons b l ih =>
    have early : enough got = false := by simpa using never 0 (Nat.zero_le _)
    rw [cut, early, if_neg Bool.false_ne_true, ih]
    · simp
    · intro n le
      simpa using never (n + 1) (Nat.succ_le_succ le)

/-- A number of values is taken from a list. -/
theorem cut_count (m : ℕ) (got l : List β) :
    cut (fun got => decide (m ≤ got.length)) got l =
      (got ++ l.take (m - got.length), decide (got.length + l.length < m)) := by
  induction l generalizing got with
  | nil =>
    rw [cut, List.take_nil, List.append_nil, List.length_nil, Nat.add_zero, ← decide_not]
    simp
  | cons b rest ih =>
    rw [cut]
    split_ifs with done
    · have many : m ≤ got.length := of_decide_eq_true done
      rw [Nat.sub_eq_zero_of_le many]
      simp
      omega
    · have few : got.length < m := by simpa using done
      obtain ⟨k, rfl⟩ := Nat.exists_eq_add_of_lt few
      rw [ih]
      have here : got.length + k + 1 - got.length = k + 1 := by omega
      have after : got.length + k + 1 - (got ++ [b]).length = k := by
        simp only [List.length_append, List.length_cons, List.length_nil]
        omega
      rw [here, after, List.take_succ_cons, List.append_assoc, List.singleton_append]
      refine Prod.ext rfl ?_
      simp only [List.length_append, List.length_cons, List.length_nil, decide_eq_decide]
      omega

end Cut

theorem readUntil_of_enough (src : Source σ β) (s : σ) (done : enough got = true) :
    src.readUntil enough s got = (got, s) := by
  rw [readUntil, if_pos done]

theorem readUntil_of_none (src : Source σ β) {s s' : σ} (found : src.get s = (none, s')) :
    (src.readUntil enough s got).1 = got ∧
      (src.readUntil enough s got).2 = if enough got then s else s' := by
  rw [readUntil]
  split_ifs with done
  · exact ⟨rfl, rfl⟩
  · rw [found]
    exact ⟨rfl, rfl⟩

/-- What was taken of a source, beside what is cut off a list: the values are the same, and the state is in
`R` of their number, or in `E` if the list ended. -/
structure ReadsAs (R E : ℕ → σ → Prop) (read : List β × σ) (taken : List β × Bool) : Prop where
  values : read.1 = taken.1
  plenty : taken.2 = false → R taken.1.length read.2
  ended : taken.2 = true → E taken.1.length read.2

theorem of_drop_eq_cons {b : β} (left : l.drop n = b :: rest) :
    n < l.length ∧ l.take n ++ [b] = l.take (n + 1) ∧ l.drop (n + 1) = rest := by
  have lt : n < l.length := by
    by_contra none_left
    rw [List.drop_eq_nil_of_le (Nat.le_of_not_lt none_left)] at left
    cases left
  rw [List.drop_eq_getElem_cons lt] at left
  obtain ⟨value, tail⟩ := List.cons.inj left
  exact ⟨lt, by rw [List.take_succ_eq_append_getElem lt, value], tail⟩

/-- A source that hands out the values of a list: `R n` are the states after `n` of them, and `E n` those
that have found the end. -/
theorem readUntil_sim (src : Source σ β) (enough : List β → Bool) {R E : ℕ → σ → Prop} {s : σ}
    (more : ∀ n s b rest, R n s → l.drop n = b :: rest → ∃ s', src.get s = (some b, s') ∧ R (n + 1) s')
    (ends : ∀ n s, R n s → l.drop n = [] → ∃ s', src.get s = (none, s') ∧ E n s') (start : R 0 s) :
    ReadsAs R E (src.readUntil enough s []) (cut enough [] l) := by
  have general : ∀ rest n s, l.drop n = rest → n ≤ l.length → R n s →
      ReadsAs R E (src.readUntil enough s (l.take n)) (cut enough (l.take n) rest) := by
    intro rest
    induction rest with
    | nil =>
      intro n s left le here
      have count : (l.take n).length = n := List.length_take_of_le le
      rw [readUntil, cut]
      split_ifs with done
      · exact ⟨rfl, fun _ => count.symm ▸ here, fun met => by simp [done] at met⟩
      · obtain ⟨s', found, ended⟩ := ends n s here left
        rw [found]
        exact ⟨rfl, fun unmet => by simp [done] at unmet, fun _ => count.symm ▸ ended⟩
    | cons b rest ih =>
      intro n s left le here
      have count : (l.take n).length = n := List.length_take_of_le le
      rw [readUntil, cut]
      split_ifs with done
      · exact ⟨rfl, fun _ => count.symm ▸ here, nofun⟩
      · obtain ⟨s', found, next⟩ := more n s b rest here left
        obtain ⟨lt, grown, left'⟩ := of_drop_eq_cons left
        rw [found]
        dsimp only
        rw [grown]
        exact ih (n + 1) s' left' lt next
  exact general l 0 s rfl (Nat.zero_le _) start

end Source
