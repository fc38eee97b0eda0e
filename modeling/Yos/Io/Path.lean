import Yos.Libc.Env

/-!
# Paths of a guest (`impl/io/io-internal.h`, `impl/io/io.c`)

The host working directory is shared by all guests and never changed.  A bridge that takes a path
passes it through `yos_path_resolve`, which joins a relative path to the working directory of the
context, unless the result does not fit its buffer.
-/

namespace Yos

/-- `PATH_MAX`. -/
def pathMax : ℕ := 4096

/-- The byte `/`. -/
def slash : UInt8 := 47

/-- The byte `\\`. -/
def backslash : UInt8 := 92

/-- `wstr_check`: the string at a guest pointer, if it starts and ends in the memory. -/
def wstrCheck (memory : Bytes) (memorySize offset : ℕ) : Option (List UInt8) :=
  if offset = 0 ∨ memorySize ≤ offset then none
  else if (List.range (memorySize - offset)).any fun k => memory (offset + k) == 0 then
    some (cString memory (memorySize - offset) offset)
  else none

theorem cString_eq {m : Bytes} {s : List UInt8} {fuel off : ℕ} (room : s.length < fuel)
    (bytes : ∀ i < s.length, m (off + i) = s.getD i 0) (solid : ∀ b ∈ s, b ≠ 0)
    (nul : m (off + s.length) = 0) : cString m fuel off = s := by
  induction s generalizing fuel off with
  | nil =>
    obtain ⟨fuel, rfl⟩ := Nat.exists_eq_succ_of_ne_zero (Nat.ne_zero_of_lt room)
    exact if_pos nul
  | cons b s ih =>
    obtain ⟨fuel, rfl⟩ := Nat.exists_eq_succ_of_ne_zero (Nat.ne_zero_of_lt room)
    have first : m off = b := bytes 0 (Nat.succ_pos _)
    have rest : cString m fuel (off + 1) = s := by
      refine ih (Nat.lt_of_succ_lt_succ room) (fun i lt => ?_) (fun c mem => solid c (by simp [mem])) ?_
      · rw [Nat.add_assoc, Nat.add_comm 1]
        exact bytes (i + 1) (Nat.succ_lt_succ lt)
      · rw [Nat.add_assoc, Nat.add_comm 1]
        exact nul
    rw [cString, first, if_neg (solid b (by simp)), rest]

/-- A string that ends in the memory. -/
theorem wstrCheck_eq {m : Bytes} {s : List UInt8} {size off : ℕ} (pos : off ≠ 0)
    (room : off + s.length < size) (bytes : ∀ i < s.length, m (off + i) = s.getD i 0)
    (solid : ∀ b ∈ s, b ≠ 0) (nul : m (off + s.length) = 0) : wstrCheck m size off = some s := by
  have ends : ((List.range (size - off)).any fun k => m (off + k) == 0) = true :=
    List.any_eq_true.2 ⟨s.length, List.mem_range.2 (by omega), by simp [nul]⟩
  rw [wstrCheck, if_neg (by omega), if_pos ends, cString_eq (by omega) bytes solid nul]

/-- The path starts with a slash. -/
def isAbs (p : List UInt8) : Bool := p.head? == some slash

/-- The start of a joined path: the directory, and a slash if it does not end in one. -/
def joinBase (cwd : List UInt8) : List UInt8 :=
  if cwd.getLast? ≠ some slash ∧ cwd.getLast? ≠ some backslash ∧ cwd.length + 1 < pathMax then
    cwd ++ [slash]
  else cwd

/-- `yos_path_resolve`, on a POSIX host. -/
def yosPathResolve (cwd p : List UInt8) : List UInt8 :=
  if p = [] then p
  else if isAbs p then p
  else if cwd = [] then p
  else if pathMax ≤ cwd.length then p
  else if pathMax < (joinBase cwd).length + p.length + 1 then p
  else joinBase cwd ++ p

end Yos
