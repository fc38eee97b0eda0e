import Mathlib.Data.List.Range
import Mathlib.Logic.Function.Basic
import Mathlib.Data.Int.Notation
import Mathlib.Tactic.Common

/-!
# Allocation of guest descriptors (`yos_fd_alloc`)

`fd_map` has a host descriptor, -1 for a free slot, or `YOS_FD_FCLOSE_TOMB` for a slot released by
`fclose`, which is not given out again.  `yosFdAlloc` takes over its argument: it stores it in the
first free slot, or closes it when there is none.
-/

namespace Yos

/-- `YOS_FD_MAX`. -/
def fdMax : ℕ := 256

/-- `YOS_VFS_FD_BASE`. -/
def vfsFdBase : ℤ := 1000

/-- `YOS_FD_FCLOSE_TOMB`. -/
def fdFcloseTomb : ℤ := -2

/-- `EMFILE` on the host. -/
def emfile : ℤ := 24

/-- The slot the loop of `yos_fd_alloc` stops at. -/
def firstFree (fdMap : ℕ → ℤ) : Option ℕ := (List.range fdMax).find? fun i => fdMap i == -1

/-- What `yos_fd_alloc` leaves: the table, the value returned and the host descriptors closed. -/
structure FdAlloc where
  fdMap : ℕ → ℤ
  wfd : ℤ
  closes : List ℤ

/-- `yos_fd_alloc`. -/
def yosFdAlloc (fdMap : ℕ → ℤ) (hostFd : ℤ) : FdAlloc :=
  if hostFd < 0 then ⟨fdMap, hostFd, []⟩
  else
    match firstFree fdMap with
    | some i => ⟨Function.update fdMap i hostFd, i, []⟩
    | none => ⟨fdMap, -emfile, [hostFd]⟩

theorem firstFree_eq_none {fdMap : ℕ → ℤ} :
    firstFree fdMap = none ↔ ∀ i < fdMax, fdMap i ≠ -1 := by
  simp [firstFree, List.find?_eq_none]

theorem firstFree_spec {fdMap : ℕ → ℤ} {i : ℕ} (found : firstFree fdMap = some i) :
    i < fdMax ∧ fdMap i = -1 := by
  have free := List.find?_some found
  have mem := List.mem_of_find?_eq_some found
  exact ⟨List.mem_range.1 mem, by simpa using free⟩

theorem yosFdAlloc_of_free {fdMap : ℕ → ℤ} {i : ℕ} {h : ℤ} (nonneg : 0 ≤ h)
    (found : firstFree fdMap = some i) :
    yosFdAlloc fdMap h = ⟨Function.update fdMap i h, i, []⟩ := by
  rw [yosFdAlloc, if_neg (by omega), found]

theorem yosFdAlloc_of_full {fdMap : ℕ → ℤ} {h : ℤ} (nonneg : 0 ≤ h)
    (full : firstFree fdMap = none) : yosFdAlloc fdMap h = ⟨fdMap, -emfile, [h]⟩ := by
  rw [yosFdAlloc, if_neg (by omega), full]

end Yos
