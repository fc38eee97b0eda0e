import Yos.Lib.Bytes
import Yos.Lib.Spans

/-!
# Lists of memory accesses

An access loads or stores the bytes of a span.  `Stores l x` says that a store of the list `l` is to the
byte `x`, and `Confined n l` that every access of `l` lies below `n`.  A memory that changes only where
the list stores is framed by it (`Framed`); the list of two changes one after the other frames both
(`Framed.append`).
-/

open Span

/-- A load or a store of the bytes of a span. -/
inductive Access where
  | load (s : Span)
  | store (s : Span)
deriving DecidableEq, Repr

namespace Access

/-- The bytes of the access. -/
def span : Access → Span
  | load s => s
  | store s => s

/-- A word is loaded. -/
def loadWord (a : ℕ) : Access := load ⟨a, 4⟩

/-- A word is stored. -/
def storeWord (a : ℕ) : Access := store ⟨a, 4⟩

/-- A store of the list is to the byte `x`. -/
def Stores (l : List Access) (x : ℕ) : Prop := ∃ s, store s ∈ l ∧ s.Has x

/-- Every byte accessed lies below `n`. -/
def Confined (n : ℕ) (l : List Access) : Prop := ∀ a ∈ l, ∀ x, a.span.Has x → x < n

/-- The memory changes only where the list stores. -/
def Framed (m m' : Bytes) (l : List Access) : Prop := ∀ x, ¬ Stores l x → m' x = m x

variable {l l' : List Access} {m m' m'' : Bytes} {a n x : ℕ} {s : Span}

@[simp] theorem stores_nil : ¬ Stores [] x := by simp [Stores]

@[simp] theorem stores_load_cons : Stores (load s :: l) x ↔ Stores l x := by simp [Stores]

@[simp] theorem stores_store_cons : Stores (store s :: l) x ↔ s.Has x ∨ Stores l x := by
  simp [Stores, or_and_right, exists_or]

@[simp] theorem stores_loadWord_cons : Stores (loadWord a :: l) x ↔ Stores l x := stores_load_cons

@[simp] theorem stores_storeWord_cons : Stores (storeWord a :: l) x ↔ (a ≤ x ∧ x < a + 4) ∨ Stores l x :=
  stores_store_cons

@[simp] theorem stores_append : Stores (l ++ l') x ↔ Stores l x ∨ Stores l' x := by
  simp [Stores, or_and_right, exists_or]

@[simp] theorem confined_nil : Confined n [] := by simp [Confined]

@[simp] theorem confined_append : Confined n (l ++ l') ↔ Confined n l ∧ Confined n l' := by
  simp only [Confined, List.mem_append, or_imp, forall_and]

theorem forall_has_lt_iff : (∀ x, s.Has x → x < n) ↔ s.len = 0 ∨ s.fin ≤ n := by
  unfold Has fin
  constructor
  · intro below
    by_contra! above
    exact absurd (below (s.addr + s.len - 1) (by omega)) (by omega)
  · intro small x has
    omega

@[simp] theorem confined_load_cons :
    Confined n (load s :: l) ↔ (s.len = 0 ∨ s.fin ≤ n) ∧ Confined n l := by
  simp only [Confined, List.mem_cons, forall_eq_or_imp, span]
  refine and_congr_left fun _ => forall_has_lt_iff

@[simp] theorem confined_store_cons :
    Confined n (store s :: l) ↔ (s.len = 0 ∨ s.fin ≤ n) ∧ Confined n l := by
  simp only [Confined, List.mem_cons, forall_eq_or_imp, span]
  refine and_congr_left fun _ => forall_has_lt_iff

@[simp] theorem confined_loadWord_cons : Confined n (loadWord a :: l) ↔ a + 4 ≤ n ∧ Confined n l := by
  simp [loadWord, fin]

@[simp] theorem confined_storeWord_cons : Confined n (storeWord a :: l) ↔ a + 4 ≤ n ∧ Confined n l := by
  simp [storeWord, fin]

theorem framed_refl (m : Bytes) (l : List Access) : Framed m m l := fun _ _ => rfl

theorem Framed.congr (framed : Framed m m' l) (same : ∀ x, Stores l x ↔ Stores l' x) : Framed m m' l' :=
  fun x out => framed x (mt (same x).mp out)

/-- Two changes, one after the other. -/
theorem Framed.append (first : Framed m m' l) (second : Framed m' m'' l') : Framed m m'' (l ++ l') := by
  intro x out
  rw [stores_append, not_or] at out
  exact (second x out.2).trans (first x out.1)

theorem framed_write32 (m : Bytes) (a v : ℕ) : Framed m (m.write32 a v) [storeWord a] := by
  intro x out
  rw [stores_storeWord_cons] at out
  exact Bytes.write32_apply_of_disjoint (by omega)

end Access
