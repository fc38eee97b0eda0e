import Mathlib.Data.Finset.Card
import Mathlib.Data.Finset.Filter
import Mathlib.Order.Interval.Finset.Nat
import Yos.Io.FdLife

/-!
# Descriptors as a guest expects them

The numbers of a process, each free, open on a file or retired, and its streams.  An allocation takes
the lowest free number, `dup2` any number, and a copy refers to the file of its source.  `fclose`
releases the number of its stream, but a number that the guest handed to `fdopen` is retired: it stays
out of use until `dup2` names it.

A round is what a program does again and again: it opens a file and closes it, with a stream or without.
-/

namespace Yos

/-- The calls of a guest; `f` is the file that is opened. -/
inductive NumCall (φ : Type) where
  | openFile (f : φ)
  | dup (fd : ℤ)
  | dupfd (fd min : ℤ)
  | dup2 (oldfd newfd : ℤ)
  | close (fd : ℤ)
  | fopen (f : φ)
  | fdopen (fd : ℤ) (opens : Bool)
  | fclose (fp : ℕ)

/-- The numbers of a process: the file each is open on, the retired ones, and the number of each stream
with whether it came from `fdopen`. -/
@[ext] structure PosixFds (φ : Type) where
  file : ℕ → Option φ
  retired : ℕ → Bool
  streams : ℕ → Option (ℕ × Bool)

namespace PosixFds

variable {φ : Type}

section Calls

variable (q : PosixFds φ)

/-- The number is neither open nor retired. -/
def free (w : ℕ) : Bool := (q.file w).isNone && !q.retired w

/-- The lowest free number at or above `min`. -/
def lowest (min : ℤ) : Option ℕ := (List.range fdMax).find? fun w => decide (min ≤ w) && q.free w

/-- The first handle without a stream. -/
def freeHandle : Option ℕ := (List.range' 4 (fileMax - 4)).find? fun k => (q.streams k).isNone

/-- The file of a descriptor. -/
def get (fd : ℤ) : Option φ := if 0 ≤ fd ∧ fd < fdMax then q.file fd.toNat else none

def set (w : ℕ) (f : Option φ) (retired : Bool) : PosixFds φ :=
  { q with
    file := Function.update q.file w f
    retired := Function.update q.retired w retired }

def setStream (k : ℕ) (stream : Option (ℕ × Bool)) : PosixFds φ :=
  { q with streams := Function.update q.streams k stream }

/-- The lowest free number at or above `min` is opened. -/
def alloc (min : ℤ) (f : φ) : PosixFds φ × Option ℕ :=
  match q.lowest min with
  | some w => (q.set w (some f) false, some w)
  | none => (q, none)

/-- `dup`, and `fcntl` with `F_DUPFD`. -/
def dup (fd min : ℤ) : PosixFds φ × Option ℕ :=
  match q.get fd with
  | some f => q.alloc min f
  | none => (q, none)

def dup2 (oldfd newfd : ℤ) : PosixFds φ × Option ℕ :=
  match q.get oldfd with
  | none => (q, none)
  | some f =>
    if oldfd = newfd then (q, some newfd.toNat)
    else if 0 ≤ newfd ∧ newfd < fdMax then (q.set newfd.toNat (some f) false, some newfd.toNat)
    else (q, none)

def close (fd : ℤ) : PosixFds φ := if (q.get fd).isSome then q.set fd.toNat none false else q

/-- `fopen`, and its handle. -/
def fopen (f : φ) : PosixFds φ × Option ℕ :=
  match q.freeHandle, q.lowest 0 with
  | some k, some w => ((q.set w (some f) false).setStream k (some (w, false)), some k)
  | _, _ => (q, none)

/-- `fdopen`, and its handle. -/
def fdopen (fd : ℤ) : PosixFds φ × Option ℕ :=
  match q.get fd, q.freeHandle with
  | some _, some k => (q.setStream k (some (fd.toNat, true)), some k)
  | _, _ => (q, none)

/-- `fclose` retires the number of a stream of `fdopen`. -/
def fclose (fp : ℕ) : PosixFds φ :=
  match q.streams fp with
  | some (w, retires) => (q.set w none retires).setStream fp none
  | none => q

/-- A call, and the number or handle it returns. -/
def call : NumCall φ → PosixFds φ × Option ℕ
  | .openFile f => q.alloc 0 f
  | .dup fd => q.dup fd 0
  | .dupfd fd min => q.dup fd min
  | .dup2 oldfd newfd => q.dup2 oldfd newfd
  | .close fd => (q.close fd, none)
  | .fopen f => q.fopen f
  | .fdopen fd opens => if opens then q.fdopen fd else (q, none)
  | .fclose fp => (q.fclose fp, none)

/-- What the calls that take the lowest free number open, and from which number on. -/
def source : NumCall φ → Option (φ × ℤ)
  | .openFile f | .fopen f => some (f, 0)
  | .dup fd => (q.get fd).map fun f => (f, 0)
  | .dupfd fd min => (q.get fd).map fun f => (f, min)
  | .dup2 _ _ | .close _ | .fdopen _ _ | .fclose _ => none

/-- The number behind what a call returns: that of the stream for `fopen`. -/
def number (result : ℕ) : NumCall φ → ℕ
  | .fopen _ => ((q.streams result).map Prod.fst).getD 0
  | _ => result

/-- A forked child has the files and streams of its parent, and no retired number. -/
def forked : PosixFds φ := { q with retired := fun _ => false }

/-- The number of free numbers. -/
def available : ℕ := ((Finset.range fdMax).filter fun w => q.free w).card

end Calls

/-! ## Allocations -/

section Spec

variable {q q₁ q₂ : PosixFds φ} {f : φ} {k w : ℕ} {min : ℤ}

theorem lowest_spec (found : q.lowest min = some w) :
    w < fdMax ∧ min ≤ w ∧ q.file w = none ∧ q.retired w = false := by
  have cond := List.find?_some found
  have mem := List.mem_of_find?_eq_some found
  simp only [free, Bool.and_eq_true, decide_eq_true_eq, Option.isNone_iff_eq_none,
    Bool.not_eq_true'] at cond
  exact ⟨List.mem_range.1 mem, cond.1, cond.2.1, cond.2.2⟩

theorem lowest_le (found : q.lowest min = some w) {v : ℕ} (lt : v < w) (above : min ≤ v) :
    q.free v = false := by
  have before := (List.find?_range_eq_some.1 found).2.2 v lt
  simpa [above] using before

theorem freeHandle_spec (found : q.freeHandle = some k) : q.streams k = none := by
  have cond := List.find?_some found
  simpa using cond

theorem alloc_eq_some (opens : q.alloc min f = (q₁, some w)) :
    q.lowest min = some w ∧ q₁ = q.set w (some f) false := by
  unfold alloc at opens
  cases found : q.lowest min with
  | none => simp [found] at opens
  | some v =>
    simp only [found, Prod.mk.injEq, Option.some.injEq] at opens
    obtain ⟨rfl, rfl⟩ := opens
    exact ⟨rfl, rfl⟩

theorem fopen_eq_some (opens : q.fopen f = (q₁, some k)) :
    ∃ w, q.freeHandle = some k ∧ q.lowest 0 = some w ∧
      q₁ = (q.set w (some f) false).setStream k (some (w, false)) := by
  unfold fopen at opens
  cases handle : q.freeHandle with
  | none => simp [handle] at opens
  | some j =>
    cases found : q.lowest 0 with
    | none => simp [handle, found] at opens
    | some w =>
      simp only [handle, found, Prod.mk.injEq, Option.some.injEq] at opens
      obtain ⟨rfl, rfl⟩ := opens
      exact ⟨w, rfl, rfl, rfl⟩

/-- A call that allocates a number takes the lowest free one and opens it on its source. -/
theorem call_source {c : NumCall φ} {v : ℕ} (source : q.source c = some (f, min))
    (opens : q.call c = (q₁, some v)) :
    q.lowest min = some (q₁.number v c) ∧ q₁.file (q₁.number v c) = some f := by
  have allocated {min : ℤ} (opens : q.alloc min f = (q₁, some v)) :
      q.lowest min = some v ∧ q₁.file v = some f := by
    obtain ⟨found, rfl⟩ := alloc_eq_some opens
    exact ⟨found, Function.update_self _ _ _⟩
  have duplicated {fd min' : ℤ} (source : (q.get fd).map (fun g => (g, min')) = some (f, min))
      (opens : q.dup fd min' = (q₁, some v)) : q.lowest min = some v ∧ q₁.file v = some f := by
    obtain ⟨g, found, same⟩ := Option.map_eq_some_iff.1 source
    obtain ⟨rfl, rfl⟩ := Prod.mk.inj same
    rw [dup, found] at opens
    exact allocated opens
  cases c with
  | openFile g =>
    obtain ⟨rfl, rfl⟩ := Prod.mk.inj (Option.some.inj source)
    exact allocated opens
  | dup fd => exact duplicated source opens
  | dupfd fd min' => exact duplicated source opens
  | fopen g =>
    obtain ⟨rfl, rfl⟩ := Prod.mk.inj (Option.some.inj source)
    obtain ⟨w, handle, found, rfl⟩ := fopen_eq_some opens
    have number : ((q.set w (some g) false).setStream v (some (w, false))).number v (.fopen g) = w := by
      simp [number, setStream]
    rw [number]
    exact ⟨found, Function.update_self _ _ _⟩
  | dup2 oldfd newfd => cases source
  | close fd => cases source
  | fdopen fd opens => cases source
  | fclose fp => cases source

/-! ## Rounds -/

theorem set_set (g h : Option φ) (r r' : Bool) : (q.set w g r).set w h r' = q.set w h r' := by
  simp [set]

/-- A free number that is released is as it was. -/
theorem set_free (nothing : q.file w = none) (current : q.retired w = false) :
    q.set w none false = q := by
  ext1
  · exact (congrArg (Function.update q.file w) nothing.symm).trans (Function.update_eq_self _ _)
  · exact (congrArg (Function.update q.retired w) current.symm).trans (Function.update_eq_self _ _)
  · rfl

theorem get_set (lt : w < fdMax) (r : Bool) : (q.set w (some f) r).get w = some f := by
  rw [get, if_pos (by omega), Int.toNat_natCast]
  exact Function.update_self _ _ _

/-- A file is opened and closed. -/
theorem close_alloc (opens : q.alloc min f = (q₁, some w)) : q₁.close w = q := by
  obtain ⟨found, rfl⟩ := alloc_eq_some opens
  obtain ⟨lt, -, nothing, current⟩ := lowest_spec found
  rw [close, get_set lt, if_pos Option.isSome_some, Int.toNat_natCast, set_set,
    set_free nothing current]

/-- A stream is opened and closed. -/
theorem fclose_fopen (opens : q.fopen f = (q₁, some k)) : q₁.fclose k = q := by
  obtain ⟨w, handle, found, rfl⟩ := fopen_eq_some opens
  obtain ⟨-, -, nothing, current⟩ := lowest_spec found
  have back : Function.update q.streams k none = q.streams := by
    rw [← freeHandle_spec handle, Function.update_eq_self]
  have stream : ((q.set w (some f) false).setStream k (some (w, false))).streams k =
      some (w, false) := Function.update_self _ _ _
  rw [fclose, stream]
  have files := set_free nothing current
  ext1
  · simpa [set, setStream] using congrArg file files
  · simpa [set, setStream] using congrArg retired files
  · simpa [set, setStream] using back

/-- A file is opened, made into a stream and closed: its number is retired. -/
theorem fclose_fdopen (opens : q.alloc min f = (q₁, some w)) (made : q₁.fdopen w = (q₂, some k)) :
    q₂.fclose k = q.set w none true ∧ w < fdMax ∧ q.free w = true := by
  obtain ⟨found, rfl⟩ := alloc_eq_some opens
  obtain ⟨lt, -, nothing, current⟩ := lowest_spec found
  refine ⟨?_, lt, by simp [free, nothing, current]⟩
  unfold fdopen at made
  rw [get_set lt] at made
  cases handle : (q.set w (some f) false).freeHandle with
  | none => simp [handle] at made
  | some j =>
    simp only [handle, Prod.mk.injEq, Option.some.injEq, Int.toNat_natCast] at made
    obtain ⟨rfl, rfl⟩ := made
    have back : Function.update q.streams j none = q.streams := by
      have gone : q.streams j = none := freeHandle_spec handle
      rw [← gone, Function.update_eq_self]
    have stream : ((q.set w (some f) false).setStream j (some (w, true))).streams j =
        some (w, true) := Function.update_self _ _ _
    rw [fclose, stream]
    ext1
    · simp [set, setStream]
    · simp [set, setStream]
    · simpa [set, setStream] using back

/-- A number that is retired is missing afterwards. -/
theorem available_retire (lt : w < fdMax) (unused : q.free w = true) :
    (q.set w none true).available + 1 = q.available := by
  have rest : ((Finset.range fdMax).filter fun v => (q.set w none true).free v = true) =
      ((Finset.range fdMax).filter fun v => q.free v = true).erase w := by
    ext v
    rcases eq_or_ne v w with rfl | ne
    · simp [free, set]
    · simp [free, set, ne]
  rw [available, rest]
  exact Finset.card_erase_add_one (by simp [lt, unused])

end Spec

end PosixFds

end Yos
