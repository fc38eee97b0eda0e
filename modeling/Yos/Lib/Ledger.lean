import Mathlib.Logic.Function.Basic
import Mathlib.Data.Option.Basic
import Mathlib.Tactic.Common

/-!
# Ownership of numbered resources

A `Ledger` says who opened each number that is open now, and whether every close so far was made by
the owner.  `Owned owner i table` says that the table of `i` refers to numbers of `i` only, and to
each from one slot.  A number enters a table when it is opened (`Owned.take`) and leaves it when it
is closed (`Owned.drop`); what others own is left alone by a legal step (`Keeps`).
-/

/-- The owner of each open number, and whether all closes so far were made by the owner. -/
structure Ledger (ι : Type*) where
  owner : ℕ → Option ι
  clean : Bool

namespace Ledger

variable {ι σ : Type*}

/-- `i` opens the number `h`. -/
def opened (l : Ledger ι) (i : ι) (h : ℕ) : Ledger ι :=
  { l with owner := Function.update l.owner h (some i) }

/-- `i` closes the number `h`. -/
def closed [DecidableEq ι] (l : Ledger ι) (i : ι) (h : ℕ) : Ledger ι where
  owner := Function.update l.owner h none
  clean := l.clean && decide (l.owner h = some i)

/-- The table of `i` refers to numbers of `i`, and to each from one slot. -/
structure Owned (owner : ℕ → Option ι) (i : ι) (table : σ → Option ℕ) : Prop where
  held : ∀ p h, table p = some h → owner h = some i
  inj : ∀ p q h, table p = some h → table q = some h → p = q

/-- What a legal step of `i` does to the ledger: it stays clean, and no other owner loses a
number. -/
structure Keeps (i : ι) (l l' : Ledger ι) : Prop where
  clean : l.clean = true → l'.clean = true
  others : ∀ h j, j ≠ i → l.owner h = some j → l'.owner h = some j

variable {i : ι} {l l' l'' : Ledger ι} {table table' : σ → Option ℕ} {h : ℕ}

@[simp] theorem opened_self (l : Ledger ι) (i : ι) (h : ℕ) : (l.opened i h).owner h = some i :=
  Function.update_self _ _ _

theorem opened_of_ne (i : ι) {g : ℕ} (ne : g ≠ h) : (l.opened i h).owner g = l.owner g :=
  Function.update_of_ne ne _ _

theorem Keeps.refl (i : ι) (l : Ledger ι) : Keeps i l l := ⟨id, fun _ _ _ => id⟩

theorem Keeps.trans (first : Keeps i l l') (second : Keeps i l' l'') : Keeps i l l'' :=
  ⟨fun c => second.clean (first.clean c),
    fun h j ne owns => second.others h j ne (first.others h j ne owns)⟩

theorem keeps_opened (fresh : l.owner h = none) : Keeps i l (l.opened i h) := by
  refine ⟨id, fun g j _ owns => ?_⟩
  have ne : g ≠ h := by
    rintro rfl
    rw [fresh] at owns
    cases owns
  rw [opened_of_ne i ne]
  exact owns

/-- The table of another owner survives a legal step. -/
theorem Owned.keeps {j : ι} (owned : Owned l.owner j table) (other : j ≠ i)
    (keeps : Keeps i l l') : Owned l'.owner j table :=
  ⟨fun p h at_p => keeps.others h j other (owned.held p h at_p), owned.inj⟩

/-- A table that refers to less. -/
theorem Owned.mono (owned : Owned l.owner i table)
    (sub : ∀ p h, table' p = some h → table p = some h) : Owned l.owner i table' :=
  ⟨fun p h at_p => owned.held p h (sub p h at_p),
    fun p q h at_p at_q => owned.inj p q h (sub p h at_p) (sub q h at_q)⟩

/-- A number that is opened and put nowhere. -/
theorem Owned.opened (owned : Owned l.owner i table) (fresh : l.owner h = none) :
    Owned (l.opened i h).owner i table := by
  refine ⟨fun p g at_p => ?_, owned.inj⟩
  have owns := owned.held p g at_p
  have ne : g ≠ h := by
    rintro rfl
    rw [fresh] at owns
    cases owns
  rw [opened_of_ne i ne]
  exact owns

/-- A fresh number is in no table. -/
theorem Owned.unused (owned : Owned l.owner i table) (fresh : l.owner h = none) (p : σ) :
    table p ≠ some h := by
  intro at_p
  have owns := owned.held p h at_p
  rw [fresh] at owns
  cases owns

/-- A number of `i` that is in no slot goes into one. -/
theorem Owned.take (owned : Owned l.owner i table) {p : σ} (owns : l.owner h = some i)
    (unused : ∀ q, table q ≠ some h) (at_p : table' p = some h)
    (rest : ∀ q, q ≠ p → ∀ g, table' q = some g → table q = some g) :
    Owned l.owner i table' := by
  refine ⟨fun q g at_q => ?_, fun q r g at_q at_r => ?_⟩
  · by_cases same : q = p
    · rw [same, at_p] at at_q
      rw [← Option.some.inj at_q]
      exact owns
    · exact owned.held q g (rest q same g at_q)
  · by_cases sameQ : q = p
    · by_cases sameR : r = p
      · rw [sameQ, sameR]
      · rw [sameQ, at_p] at at_q
        rw [← Option.some.inj at_q] at at_r
        exact absurd (rest r sameR h at_r) (unused r)
    · by_cases sameR : r = p
      · rw [sameR, at_p] at at_r
        rw [← Option.some.inj at_r] at at_q
        exact absurd (rest q sameQ h at_q) (unused q)
      · exact owned.inj q r g (rest q sameQ g at_q) (rest r sameR g at_r)

section Closed

variable [DecidableEq ι]

theorem closed_of_ne (i : ι) {g : ℕ} (ne : g ≠ h) : (l.closed i h).owner g = l.owner g :=
  Function.update_of_ne ne _ _

theorem keeps_closed (owns : l.owner h = some i) : Keeps i l (l.closed i h) := by
  refine ⟨fun c => ?_, fun g j other ownsG => ?_⟩
  · rw [closed, c, owns, decide_eq_true rfl, Bool.and_self]
  · have ne : g ≠ h := by
      rintro rfl
      rw [owns] at ownsG
      exact other (Option.some.inj ownsG).symm
    rw [closed_of_ne i ne]
    exact ownsG

/-- A number that no slot refers to is closed. -/
theorem Owned.closed (owned : Owned l.owner i table) (unused : ∀ p, table p ≠ some h) :
    Owned (l.closed i h).owner i table := by
  refine ⟨fun p g at_p => ?_, owned.inj⟩
  have ne : g ≠ h := by
    rintro rfl
    exact unused p at_p
  rw [closed_of_ne i ne]
  exact owned.held p g at_p

/-- The number of a slot is closed and the slot cleared. -/
theorem Owned.drop (owned : Owned l.owner i table) {p : σ} (at_p : table p = some h)
    (gone : table' p = none) (rest : ∀ q, q ≠ p → ∀ g, table' q = some g → table q = some g) :
    Owned (l.closed i h).owner i table' := by
  have sub (q : σ) (g : ℕ) (at_q : table' q = some g) : table q = some g := by
    refine rest q ?_ g at_q
    rintro rfl
    rw [gone] at at_q
    cases at_q
  refine (owned.mono sub).closed fun q at_q => ?_
  have same := owned.inj q p h (sub q h at_q) at_p
  rw [same, gone] at at_q
  cases at_q

end Closed

end Ledger
