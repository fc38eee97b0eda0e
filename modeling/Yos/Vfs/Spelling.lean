import Yos.Io.Canon
import Yos.Io.Paths
import Yos.Vfs.Mount

/-!
# Spellings of a virtual path (`yos_open`, `impl/io/io.c`, `vfs/mount.c`)

`yos_open` joins a relative path to the working directory and looks the result up as it is spelt: `//proc/1`
and `/tmp/../proc/1` miss the mount and reach the host's `/proc`, and `/proc/../etc/passwd` hits it.
`spelling_iff` says which paths are treated like their lexical normal form.
-/

namespace Yos

namespace Vfs

open Paths Canon

variable {ω : Type}

/-- The mount lookup of `yos_open` on a resolved path: the operations that serve the call and the path
they are given.  `opens` tells which operations have an `open`. -/
def served (opens : ω → Bool) (table : MountTable ω) (s : List UInt8) : Option (ω × List UInt8) :=
  let r := yosMountResolve table s
  r.ops.bind fun ops => if opens ops then some (ops, r.remaining) else none

/-- The mount lookup of `yos_open`. -/
def yosOpenVirtual (opens : ω → Bool) (table : MountTable ω) (cwd p : List UInt8) :
    Option (ω × List UInt8) :=
  served opens table (yosPathResolve cwd p)

/-- The lexical normal form of `cwd/p`. -/
def normalPath (cwd p : List UInt8) : List UInt8 := normalForm (absolute cwd p)

/-- The path is served like the lexical normal form of `cwd/p`. -/
def SpellingAlike (opens : ω → Bool) (table : MountTable ω) (cwd p : List UInt8) : Prop :=
  yosOpenVirtual opens table cwd p = yosOpenVirtual opens table cwd (normalPath cwd p)

/-- When it is: the path looked up is in normal form, or is a mount point and a slash, or neither it
nor its normal form lies below a mount point. -/
def SpellingOk (table : MountTable ω) (cwd p : List UInt8) : Prop :=
  yosPathResolve cwd p = normalPath cwd p ∨
    (yosPathResolve cwd p = normalPath cwd p ++ [slash] ∧
      ∃ m ∈ table, m.path = normalPath cwd p) ∨
    ∀ m ∈ table, ¬ m.Covers (yosPathResolve cwd p) ∧ ¬ m.Covers (normalPath cwd p)

/-- A table of file systems that can be opened, each mounted once, at an absolute path without a slash
at its end. -/
structure MountsOk (opens : ω → Bool) (table : MountTable ω) : Prop where
  abs : ∀ m ∈ table, isAbs m.path = true
  noSlash : ∀ m ∈ table, m.path.getLast? ≠ some slash
  opens : ∀ m ∈ table, opens m.ops = true
  once : ∀ m ∈ table, ∀ m' ∈ table, m.ops = m'.ops ↔ m.path = m'.path

/-! ## The lookup -/

section Lookup

variable {opens : ω → Bool} {table : MountTable ω} {s : List UInt8}

/-- The lookup finds the deepest mount that covers the path, if there is one. -/
theorem served_cases (ok : MountsOk opens table) (s : List UInt8) :
    served opens table s = none ∧ (∀ m ∈ table, ¬ m.Covers s) ∨
      ∃ m rest, m ∈ table ∧ m.Covers s ∧ served opens table s = some (m.ops, rest) ∧
        Rest m.path s rest ∧ ∀ m' ∈ table, m'.Covers s → m'.path.length ≤ m.path.length := by
  have nonempty : ∀ m ∈ table, m.path ≠ [] := fun m mem => ne_nil_of_isAbs (ok.abs m mem)
  have deepest := resolve_deepest nonempty s
  unfold Deepest at deepest
  cases found : (yosMountResolve table s).ops with
  | none =>
    rw [found] at deepest
    exact .inl ⟨by rw [served, found, Option.bind_none], deepest.1⟩
  | some ops =>
    rw [found] at deepest
    obtain ⟨before, m, after, shape, covers, rfl, less, atMost, rest⟩ := deepest
    have mem : m ∈ table := by
      rw [shape]
      simp
    refine .inr ⟨m, _, mem, covers, ?_, rest, fun m' mem' covers' => ?_⟩
    · rw [served, found, Option.bind_some, if_pos (ok.opens m mem)]
    · refine (PathText.splitOn_length_le_iff covers' covers).1 ?_
      rw [shape] at mem'
      rcases List.mem_append.1 mem' with first | later
      · exact (less m' first covers').le
      · rcases List.mem_cons.1 later with rfl | last
        · exact Nat.le_refl _
        · exact atMost m' last covers'

/-- A path below no mount point is not served. -/
theorem served_eq_none (ok : MountsOk opens table) (free : ∀ m ∈ table, ¬ m.Covers s) :
    served opens table s = none := by
  rcases served_cases ok s with ⟨none_found, _⟩ | ⟨m, _, mem, covers, _⟩
  · exact none_found
  · exact absurd covers (free m mem)

/-- A mount point is served with the empty path, with or without a slash. -/
theorem served_mount_point (ok : MountsOk opens table) {m : Mount ω} (mem : m ∈ table)
    (spelt : s = m.path ∨ s = m.path ++ [slash]) : served opens table s = some (m.ops, []) := by
  have covers : m.Covers s := by
    refine PathText.splitOn_prefix_iff.2 ?_
    rcases spelt with rfl | rfl
    · exact .inl rfl
    · exact .inr (List.prefix_refl _)
  rcases served_cases ok s with ⟨_, free⟩ | ⟨m', rest, mem', covers', found, rest_spec, longest⟩
  · exact absurd covers (free m mem)
  · have longer := longest m mem covers
    have same : m'.path = m.path := by
      rcases spelt with rfl | rfl
      · rcases PathText.splitOn_prefix_iff.1 covers' with same | starts
        · exact same
        · have := starts.length_le
          rw [List.length_append, List.length_singleton] at this
          omega
      · rcases PathText.splitOn_prefix_iff.1 covers' with same | starts
        · refine absurd ?_ (ok.noSlash m' mem')
          rw [same, List.getLast?_concat]
        · have len := starts.length_le
          simp only [List.length_append, List.length_singleton] at len
          have whole := starts.eq_of_length (by
            simp only [List.length_append, List.length_singleton]
            omega)
          exact List.append_cancel_right whole
    have empty : rest = [] := by
      rcases rest_spec with ⟨_, empty⟩ | more
      · exact empty
      · have len := congrArg List.length more
        rw [same] at len
        rcases spelt with rfl | rfl
        · simp at len
        · simp at len
          exact len
    rw [found, empty, (ok.once m' mem' m mem).2 same]

end Lookup

/-! ## Spellings -/

theorem isAbs_normalPath (cwd p : List UInt8) : isAbs (normalPath cwd p) = true := rfl

/-- A normal form is not a mount point with a slash behind it. -/
theorem normalPath_ne_concat {cwd p m : List UInt8} (abs : isAbs m = true) :
    normalPath cwd p ≠ m ++ [slash] := by
  intro same
  have shape : normalPath cwd p = PathText.text slash (left (absolute cwd p)) :=
    PathText.normal_eq_walk _
  have empty := PathText.eq_nil_of_text_ends (left_plain (absolute cwd p)) (by
    rw [← shape, same, List.getLast?_concat])
  rw [shape, empty, PathText.text_nil] at same
  have len := congrArg List.length same
  obtain ⟨q, rfl⟩ := isAbs_iff.1 abs
  simp at len

/-- Whatever the working directory and the path, the path is served like the lexical normal form of
`cwd/p` exactly under `SpellingOk`. -/
theorem spelling_iff (opens : ω → Bool) (table : MountTable ω) (ok : MountsOk opens table)
    (cwd p : List UInt8) : SpellingAlike opens table cwd p ↔ SpellingOk table cwd p := by
  rw [SpellingAlike, yosOpenVirtual, yosOpenVirtual,
    yosPathResolve_of_isAbs (isAbs_normalPath cwd p), SpellingOk]
  generalize yosPathResolve cwd p = s
  have no_slash : ∀ m ∈ table, normalPath cwd p ≠ m.path ++ [slash] := fun m mem =>
    normalPath_ne_concat (ok.abs m mem)
  generalize normalPath cwd p = n at no_slash ⊢
  constructor
  · intro alike
    rcases served_cases ok s with ⟨none_s, free_s⟩ | ⟨m, rest, mem, _, found, rest_s, _⟩
    · rcases served_cases ok n with ⟨_, free_n⟩ | ⟨m', rest', _, _, found', _, _⟩
      · exact .inr (.inr fun m mem => ⟨free_s m mem, free_n m mem⟩)
      · rw [none_s, found'] at alike
        cases alike
    · rcases served_cases ok n with ⟨none_n, _⟩ | ⟨m', rest', mem', _, found', rest_n, _⟩
      · rw [found, none_n] at alike
        cases alike
      · rw [found, found'] at alike
        obtain ⟨same_ops, rfl⟩ := Prod.mk.inj (Option.some.inj alike)
        have same := (ok.once m mem m' mem').1 same_ops
        rcases rest_s with ⟨rfl, empty⟩ | spelt
        · rcases rest_n with ⟨rfl, _⟩ | spelt'
          · exact .inl same
          · rw [empty] at spelt'
            exact absurd spelt' (no_slash m' mem')
        · rcases rest_n with ⟨rfl, empty⟩ | spelt'
          · refine .inr (.inl ⟨?_, m', mem', rfl⟩)
            rw [spelt, same, empty]
          · exact .inl (by rw [spelt, spelt', same])
  · rintro (rfl | ⟨rfl, m, mem, rfl⟩ | free)
    · rfl
    · rw [served_mount_point ok mem (.inr rfl), served_mount_point ok mem (.inl rfl)]
    · rw [served_eq_none ok fun m mem => (free m mem).1, served_eq_none ok fun m mem => (free m mem).2]

/-- The mounts of the program: only `/proc`. -/
def procMounts : MountTable Unit := mountAll [(procPath, ())]

theorem procMounts_ok : MountsOk (fun _ => true) procMounts := by
  have only : ∀ m ∈ procMounts, m.path = procPath := fun m mem => by
    have added := mem_mountAll mem
    simp at added
    exact added
  refine ⟨fun m mem => ?_, fun m mem => ?_, fun _ _ => rfl, fun m mem m' mem' => ?_⟩
  · rw [only m mem]
    rfl
  · rw [only m mem]
    decide
  · rw [only m mem, only m' mem']
    exact iff_of_true rfl rfl

/-- `/proc/1` is its own normal form. -/
theorem spelling_proc_one :
    SpellingAlike (fun _ => true) procMounts [slash] (procPath ++ [slash, 49]) :=
  (spelling_iff _ _ procMounts_ok _ _).2 (.inl (by decide))

/-- `//proc/1` reaches the file system of the host. -/
theorem double_slash_bypasses :
    yosOpenVirtual (fun _ => true) procMounts [slash] (slash :: procPath ++ [slash, 49]) = none ∧
      normalPath [slash] (slash :: procPath ++ [slash, 49]) = procPath ++ [slash, 49] ∧
      ¬ SpellingAlike (fun _ => true) procMounts [slash] (slash :: procPath ++ [slash, 49]) := by
  refine ⟨by decide, by decide, fun alike => ?_⟩
  have same : yosOpenVirtual (fun _ => true) procMounts [slash] (slash :: procPath ++ [slash, 49]) =
      some ((), [49]) := alike
  exact absurd same (by decide)

end Vfs

end Yos
