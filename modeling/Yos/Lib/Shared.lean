import Mathlib.Data.List.Basic
import Mathlib.Logic.Function.Basic

/-!
# Parties that share cells

Every party has a state of its own, and the parties share cells.  A call reads and writes the state
of its caller and one cell; a call that resets its cell does not depend on what the cell held.  When
every other call is made by the party that called last on the cell, or before any call on it, each
party sees what it would see alone (`results_alone`).  So it does when the others leave the cells as they
are (`results_undisturbed`).
-/

/-- Calls on the state `σ` of a party and one of the cells `κ → C`. -/
structure Shared (σ κ C α ρ : Type*) where
  cell : α → κ
  act : α → σ → C → σ × C × ρ
  resets : α → Bool
  /-- The call may be the first one on its cell. -/
  first : α → Bool
  reset_act : ∀ a, resets a = true → ∀ s c c', act a s c = act a s c'

namespace Shared

variable {ι σ κ C α ρ : Type*} [DecidableEq ι] [DecidableEq κ]

/-- What a party does: it makes a call, or changes its own state. -/
inductive Event (ι σ α : Type*) where
  | call (i : ι) (a : α)
  | own (i : ι) (f : σ → σ)

/-- The party of an event. -/
def Event.party : Event ι σ α → ι
  | .call i _ => i
  | .own i _ => i

/-- The states of the parties, the cells, and who called last on each of them. -/
structure World (ι σ κ C : Type*) where
  own : ι → σ
  cells : κ → C
  last : κ → Option ι

/-- The world after an event, and the result of the call. -/
def World.next (L : Shared σ κ C α ρ) (w : World ι σ κ C) : Event ι σ α → World ι σ κ C × Option ρ
  | .call i a =>
    let (s, c, r) := L.act a (w.own i) (w.cells (L.cell a))
    (⟨Function.update w.own i s, Function.update w.cells (L.cell a) c,
      Function.update w.last (L.cell a) (some i)⟩, some r)
  | .own i f => ({ w with own := Function.update w.own i (f (w.own i)) }, none)

/-- What the parties see. -/
def results (L : Shared σ κ C α ρ) : World ι σ κ C → List (Event ι σ α) → List (ι × Option ρ)
  | _, [] => []
  | w, e :: rest => (e.party, (w.next L e).2) :: results L (w.next L e).1 rest

/-- The call resets its cell, or its party called last on it, or it may be the first call and is. -/
def Ok (L : Shared σ κ C α ρ) (w : World ι σ κ C) : Event ι σ α → Prop
  | .call i a => L.resets a = true ∨ w.last (L.cell a) = some i ∨
      w.last (L.cell a) = none ∧ L.first a = true
  | .own _ _ => True

/-- All events meet `Ok`. -/
def OkRun (L : Shared σ κ C α ρ) : World ι σ κ C → List (Event ι σ α) → Prop
  | _, [] => True
  | w, e :: rest => Ok L w e ∧ OkRun L (w.next L e).1 rest

section Alone

variable {L : Shared σ κ C α ρ} {i : ι} {w v : World ι σ κ C} {e : Event ι σ α}

/-- The world `v` in which party `i` is alone agrees with `w` on what `i` may depend on. -/
structure Agree (i : ι) (w v : World ι σ κ C) : Prop where
  own : w.own i = v.own i
  cells : ∀ k, w.last k = none ∨ w.last k = some i → w.cells k = v.cells k
  mine : ∀ k, w.last k = some i → v.last k = some i
  unused : ∀ k, w.last k = none → v.last k = none

omit [DecidableEq ι] [DecidableEq κ] in
theorem Agree.refl (i : ι) (w : World ι σ κ C) : Agree i w w :=
  ⟨rfl, fun _ _ => rfl, fun _ h => h, fun _ h => h⟩

/-- An event of another party. -/
theorem Agree.other (agree : Agree i w v) (ne : e.party ≠ i) : Agree i (w.next L e).1 v := by
  cases e with
  | call j a =>
    have ne : j ≠ i := ne
    -- the cell of the call now belongs to `j`
    have last (k : κ) (h : Function.update w.last (L.cell a) (some j) k = none ∨
        Function.update w.last (L.cell a) (some j) k = some i) : k ≠ L.cell a := by
      rintro rfl
      rw [Function.update_self] at h
      simp [ne] at h
    refine ⟨?_, fun k h => ?_, fun k h => ?_, fun k h => ?_⟩
    · exact (Function.update_of_ne ne.symm _ _).trans agree.own
    · have at_k := last k h
      refine (Function.update_of_ne at_k _ _).trans (agree.cells k ?_)
      simpa only [World.next, Function.update_of_ne at_k] using h
    · have at_k := last k (.inr h)
      exact agree.mine k (by simpa only [World.next, Function.update_of_ne at_k] using h)
    · have at_k := last k (.inl h)
      exact agree.unused k (by simpa only [World.next, Function.update_of_ne at_k] using h)
  | own j f =>
    refine ⟨?_, agree.cells, agree.mine, agree.unused⟩
    exact (Function.update_of_ne (Ne.symm ne) _ _).trans agree.own

/-- An event of the party itself does the same in both worlds. -/
theorem Agree.same (agree : Agree i w v) (eq : e.party = i) (ok : Ok L w e) :
    Agree i (w.next L e).1 (v.next L e).1 ∧ (w.next L e).2 = (v.next L e).2 ∧ Ok L v e := by
  subst eq
  cases e with
  | call i a =>
    have act : L.act a (w.own i) (w.cells (L.cell a)) = L.act a (v.own i) (v.cells (L.cell a)) := by
      rw [show w.own i = v.own i from agree.own]
      rcases ok with reset | mine | ⟨unused, -⟩
      · exact L.reset_act a reset _ _ _
      · rw [agree.cells _ (.inr mine)]
      · rw [agree.cells _ (.inl unused)]
    have ok' : Ok L v (.call i a) := by
      rcases ok with reset | mine | ⟨unused, first⟩
      · exact .inl reset
      · exact .inr (.inl (agree.mine _ mine))
      · exact .inr (.inr ⟨agree.unused _ unused, first⟩)
    refine ⟨⟨?_, fun k h => ?_, fun k h => ?_, fun k h => ?_⟩, ?_, ok'⟩
    · simp only [World.next, act, Event.party, Function.update_self]
    · by_cases at_k : k = L.cell a
      · simp only [World.next, act, at_k, Function.update_self]
      · simp only [World.next, Function.update_of_ne at_k] at h ⊢
        exact agree.cells k h
    · by_cases at_k : k = L.cell a
      · simp only [World.next, at_k, Function.update_self, Event.party]
      · simp only [World.next, Function.update_of_ne at_k] at h ⊢
        exact agree.mine k h
    · by_cases at_k : k = L.cell a
      · simp only [World.next, at_k, Function.update_self] at h
        cases h
      · simp only [World.next, Function.update_of_ne at_k] at h ⊢
        exact agree.unused k h
    · simp only [World.next, act]
  | own i f =>
    refine ⟨⟨?_, agree.cells, agree.mine, agree.unused⟩, rfl, trivial⟩
    have own : w.own i = v.own i := agree.own
    simp only [World.next, Event.party, Function.update_self, own]

/-- Each party sees what it would see alone, and its own events still meet `Ok`. -/
theorem results_alone {events : List (Event ι σ α)} (agree : Agree i w v) (ok : OkRun L w events) :
    (results L w events).filter (fun r => r.1 = i) =
        results L v (events.filter fun e => e.party = i) ∧
      OkRun L v (events.filter fun e => e.party = i) := by
  induction events generalizing w v with
  | nil => exact ⟨rfl, trivial⟩
  | cons e rest ih =>
    by_cases mine : e.party = i
    · obtain ⟨next, seen, here⟩ := agree.same mine ok.1
      obtain ⟨later, allowed⟩ := ih next ok.2
      rw [results, List.filter_cons_of_pos (by simpa using mine),
        List.filter_cons_of_pos (by simpa using mine), results, later, seen]
      exact ⟨rfl, here, allowed⟩
    · rw [results, List.filter_cons_of_neg (by simpa using mine),
        List.filter_cons_of_neg (by simpa using mine)]
      exact ih (agree.other mine) ok.2

end Alone

/-! ## Calls that leave their cell alone -/

/-- The world after events. -/
def World.after (L : Shared σ κ C α ρ) : World ι σ κ C → List (Event ι σ α) → World ι σ κ C
  | w, [] => w
  | w, e :: rest => World.after L (w.next L e).1 rest

/-- Every event meets a condition in the world it happens in. -/
def Throughout (L : Shared σ κ C α ρ) (ok : World ι σ κ C → Event ι σ α → Prop) :
    World ι σ κ C → List (Event ι σ α) → Prop
  | _, [] => True
  | w, e :: rest => ok w e ∧ Throughout L ok (w.next L e).1 rest

/-- A call leaves its cell as it is. -/
def Leaves (L : Shared σ κ C α ρ) (w : World ι σ κ C) : Event ι σ α → Prop
  | .call i a => (L.act a (w.own i) (w.cells (L.cell a))).2.1 = w.cells (L.cell a)
  | .own _ _ => True

section Undisturbed

variable {L : Shared σ κ C α ρ} {i : ι} {w v : World ι σ κ C} {e : Event ι σ α}
  {events : List (Event ι σ α)} {ok ok' : World ι σ κ C → Event ι σ α → Prop}

theorem Throughout.imp (run : Throughout L ok w events)
    (holds : ∀ w, ∀ e ∈ events, ok w e → ok' w e) : Throughout L ok' w events := by
  induction events generalizing w with
  | nil => trivial
  | cons e rest ih =>
    exact ⟨holds w e List.mem_cons_self run.1,
      ih run.2 fun w e mem => holds w e (List.mem_cons_of_mem _ mem)⟩

/-- What every event keeps of the cells is kept. -/
theorem Throughout.keeps {τ : Type*} {f : (κ → C) → τ} (run : Throughout L ok w events)
    (kept : ∀ w e, ok w e → f (w.next L e).1.cells = f w.cells) : f (w.after L events).cells = f w.cells := by
  induction events generalizing w with
  | nil => rfl
  | cons e rest ih => exact (ih run.2).trans (kept w e run.1)

theorem Leaves.cells (leaves : Leaves L w e) : (w.next L e).1.cells = w.cells := by
  cases e with
  | call i a =>
    refine funext fun k => ?_
    rcases eq_or_ne k (L.cell a) with rfl | ne
    · exact (Function.update_self _ _ _).trans leaves
    · exact Function.update_of_ne ne _ _
  | own i f => rfl

/-- Each party sees what it would see alone while the others leave the cells as they are. -/
theorem results_undisturbed (own : w.own i = v.own i) (cells : w.cells = v.cells)
    (others : Throughout L (fun w e => e.party ≠ i → Leaves L w e) w events) :
    (results L w events).filter (fun r => r.1 = i) = results L v (events.filter fun e => e.party = i) := by
  induction events generalizing w v with
  | nil => rfl
  | cons e rest ih =>
    by_cases mine : e.party = i
    · rw [results, List.filter_cons_of_pos (by simpa using mine),
        List.filter_cons_of_pos (by simpa using mine), results]
      subst mine
      cases e with
      | call i a =>
        have own : w.own i = v.own i := own
        have act : L.act a (w.own i) (w.cells (L.cell a)) = L.act a (v.own i) (v.cells (L.cell a)) := by
          rw [own, cells]
        have seen : (w.next L (.call i a)).2 = (v.next L (.call i a)).2 := by
          simp only [World.next, act]
        rw [seen, ih ?_ ?_ others.2]
        · simp only [World.next, act, Event.party, Function.update_self]
        · simp only [World.next, own, cells]
      | own i f =>
        have own : w.own i = v.own i := own
        rw [ih ?_ ?_ others.2]
        · rfl
        · simp only [World.next, Event.party, Function.update_self, own]
        · exact cells
    · rw [results, List.filter_cons_of_neg (by simpa using mine),
        List.filter_cons_of_neg (by simpa using mine)]
      refine ih ?_ ((others.1 mine).cells.trans cells) others.2
      refine Eq.trans ?_ own
      cases e with
      | call j a => exact Function.update_of_ne (Ne.symm mine) _ _
      | own j f => exact Function.update_of_ne (Ne.symm mine) _ _

end Undisturbed

end Shared
