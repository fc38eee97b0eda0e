import Mathlib.Data.List.Pairwise
import Mathlib.Data.List.Perm.Basic
import Mathlib.Tactic.Common

/-!
# Accounts of resources

A state has resources.  `Account res has rest l` says that they are the resources of the holders in the list
`l` and what is left beside them, each in one place.  A holder that takes free resources, or some of the rest,
enters the list (`Account.take`); one that gives back exactly its own leaves it (`Account.give`).  Without
holders the resources are the rest (`Account.of_nil`).
-/

variable {ρ σ : Type*}

/-- The lists have no resource in common. -/
def Separate (l l' : List ρ) : Prop := ∀ x ∈ l, x ∉ l'

instance : Std.Symm (@Separate ρ) := ⟨fun _ _ separate x mem mem' => separate x mem' mem⟩

/-- The resources are those of the holders and the rest. -/
structure Account (res : σ → List ρ) (has rest : ρ → Prop) (l : List σ) : Prop where
  covers : ∀ x, has x ↔ rest x ∨ ∃ a ∈ l, x ∈ res a
  apart : ∀ a ∈ l, ∀ x ∈ res a, ¬ rest x
  distinct : (l.map res).Pairwise Separate

namespace Account

variable {res : σ → List ρ} {has has' rest rest' : ρ → Prop} {l l' : List σ} {a : σ} {x : ρ}

theorem nil : Account res has has [] :=
  ⟨fun _ => ⟨Or.inl, fun or => or.elim id fun ⟨_, mem, _⟩ => absurd mem List.not_mem_nil⟩, nofun, .nil⟩

theorem of_nil (acc : Account res has rest []) (x : ρ) : has x ↔ rest x :=
  (acc.covers x).trans ⟨fun or => or.elim id fun ⟨_, mem, _⟩ => absurd mem List.not_mem_nil, Or.inl⟩

theorem held (acc : Account res has rest l) (mem : a ∈ l) (own : x ∈ res a) : has x :=
  (acc.covers x).mpr (Or.inr ⟨a, mem, own⟩)

/-- A resource that no holder has is one of the rest. -/
theorem rest_of (acc : Account res has rest l) (found : has x) (none : ∀ a ∈ l, x ∉ res a) : rest x :=
  ((acc.covers x).mp found).resolve_right fun ⟨a, mem, own⟩ => none a mem own

theorem perm (acc : Account res has rest l) (same : l.Perm l') : Account res has rest l' where
  covers x := (acc.covers x).trans (or_congr Iff.rfl (exists_congr fun _ => and_congr same.mem_iff Iff.rfl))
  apart a mem := acc.apart a (same.mem_iff.mpr mem)
  distinct := ((same.map res).pairwise_iff (Std.Symm.symm _ _)).mp acc.distinct

/-- The account depends on the resources that there are. -/
theorem congr (acc : Account res has rest l) (same : ∀ x, has' x ↔ has x) : Account res has' rest l :=
  ⟨fun x => (same x).trans (acc.covers x), acc.apart, acc.distinct⟩

/-- A holder takes resources that are free or of the rest. -/
theorem take (acc : Account res has rest l) (free : ∀ x ∈ res a, has x → rest x)
    (left : ∀ x, rest' x ↔ rest x ∧ x ∉ res a) (more : ∀ x, has' x ↔ has x ∨ x ∈ res a) :
    Account res has' rest' (a :: l) where
  covers x := by
    rw [more, acc.covers, left]
    by_cases own : x ∈ res a
    · exact iff_of_true (Or.inr own) (Or.inr ⟨a, List.mem_cons_self, own⟩)
    · constructor
      · rintro ((rest | ⟨b, mem, held⟩) | taken)
        · exact Or.inl ⟨rest, own⟩
        · exact Or.inr ⟨b, List.mem_cons_of_mem a mem, held⟩
        · exact absurd taken own
      · rintro (⟨rest, -⟩ | ⟨b, mem, held⟩)
        · exact Or.inl (Or.inl rest)
        · rcases List.mem_cons.mp mem with rfl | mem
          · exact absurd held own
          · exact Or.inl (Or.inr ⟨b, mem, held⟩)
  apart b mem x own rest := by
    obtain ⟨rest, out⟩ := (left x).mp rest
    rcases List.mem_cons.mp mem with rfl | mem
    · exact out own
    · exact acc.apart b mem x own rest
  distinct := by
    refine List.pairwise_cons.mpr ⟨fun _ mem => ?_, acc.distinct⟩
    obtain ⟨b, listed, rfl⟩ := List.mem_map.mp mem
    intro x own own'
    exact acc.apart b listed x own' (free x own (acc.held listed own'))

/-- A holder gives its resources back. -/
theorem give (acc : Account res has rest (a :: l)) (less : ∀ x, has' x ↔ has x ∧ x ∉ res a) :
    Account res has' rest l where
  covers x := by
    rw [less, acc.covers]
    constructor
    · rintro ⟨rest | ⟨b, mem, own⟩, out⟩
      · exact Or.inl rest
      · rcases List.mem_cons.mp mem with rfl | mem
        · exact absurd own out
        · exact Or.inr ⟨b, mem, own⟩
    · rintro (rest | ⟨b, mem, own⟩)
      · exact ⟨Or.inl rest, fun own => acc.apart a List.mem_cons_self x own rest⟩
      · refine ⟨Or.inr ⟨b, List.mem_cons_of_mem a mem, own⟩, fun own' => ?_⟩
        exact (List.pairwise_cons.mp acc.distinct).1 (res b) (List.mem_map_of_mem mem) x own' own
  apart b mem := acc.apart b (List.mem_cons_of_mem a mem)
  distinct := (List.pairwise_cons.mp acc.distinct).2

end Account
