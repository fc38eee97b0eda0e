import Mathlib.Data.List.Find
import Yos.Proc.Execve

/-!
# Relative paths of the bridges (`impl/io`, `impl/libc`, `impl/proc/proc.c`)

The host resolves a relative path against its own working directory, which all guests share.  A bridge
that passes its path through `yos_path_resolve` hands the host an absolute one, if the join fits; the
others hand it the guest's path as it is.  `getwd` asks the host, and the search of `execvp` tests its
candidates on the host before `yos_execve` resolves the one it found.  `from_cwd_iff` says for which
calls a relative path means a path below the caller's own working directory.

The host is any function of absolute paths.  Paths of two-path calls count one by one, and the `*at`
calls are those with `AT_FDCWD`.  `realpath`, `tempnam` and `mkfifoat`, which join paths themselves,
are left out.
-/

namespace Yos

namespace Paths

/-! ## Paths -/

/-- A directory with a slash at its end. -/
def withSlash (dir : List UInt8) : List UInt8 :=
  if dir.getLast? = some slash then dir else dir ++ [slash]

/-- The path `dir/p`. -/
def absPath (dir p : List UInt8) : List UInt8 := withSlash dir ++ p

/-- The working directory of a context. -/
structure Cwd where
  path : List UInt8
  abs : isAbs path = true
  short : path.length < pathMax

/-- The working directory of the host process. -/
structure HostDir where
  path : List UInt8
  abs : isAbs path = true

/-- A relative path. -/
structure RelPath where
  path : List UInt8
  nonempty : path ≠ []
  rel : isAbs path = false

/-- The name of a program without a slash, which `execvp` looks up in `PATH`. -/
structure FileName where
  path : List UInt8
  nonempty : path ≠ []
  plain : slash ∉ path

/-! ## The host -/

/-- How the host answers a call: by the absolute path, or with the errors for an empty path and for one
of `PATH_MAX` bytes. -/
structure HostFs (ρ : Type) where
  answer : List UInt8 → ρ
  noent : ρ
  tooLong : ρ

/-- A call with a path. -/
def HostFs.call {ρ : Type} (fs : HostFs ρ) (host : HostDir) (p : List UInt8) : ρ :=
  if p = [] then fs.noent
  else if pathMax ≤ p.length then fs.tooLong
  else fs.answer (if isAbs p then p else absPath host.path p)

/-- `stat` finds a regular file. -/
def statRegular (regular : List UInt8 → Bool) : HostFs Bool := ⟨regular, false, false⟩

/-! ## The bridges -/

/-- The bridges that take a path. -/
inductive PathBridge where
  | yosOpen | yosCreat | yosLink | yosUnlink | yosChdir | yosChmod | yosLchown | yosAccess | yosRename
  | yosMkdir | yosRmdir | yosSymlink | yosReadlink | yosTruncate | yosChown | yosUtimes | yosLutimes
  | yosMkfifo | yosStat | yosLstat | yosFstatat | yosOpendir | yosScandir | yosFopen | yosFreopen
  | yosExecve
  | yosOpenat | yosMkdirat | yosMknodat | yosFchownat | yosFstatat64 | yosUnlinkat | yosRenameat
  | yosLinkat | yosSymlinkat | yosReadlinkat | yosFchmodat | yosFaccessat
  | yosGlob | yosMkdtemp | yosMkstemp | yosMkostemp | yosMkostemps | yosMktemp | yosLpathconf
deriving DecidableEq, Repr

/-- The bridge calls `yos_path_resolve`. -/
def PathBridge.resolves : PathBridge → Bool
  | .yosGlob | .yosMkdtemp | .yosMkstemp | .yosMkostemp | .yosMkostemps | .yosMktemp
  | .yosLpathconf => false
  | _ => true

/-- The path the bridge hands to the host. -/
def PathBridge.hostPath (b : PathBridge) (cwd p : List UInt8) : List UInt8 :=
  if b.resolves then yosPathResolve cwd p else p

/-- `yos_getwd`: the host's `getcwd` with a buffer of 1024 bytes. -/
def yosGetwd (host : HostDir) : Option (List UInt8) :=
  if host.path.length < 1024 then some host.path else none

/-- The candidates of `execvp_path_search`. -/
def candidates (envp : List (List UInt8)) (file : List UInt8) : List (List UInt8) :=
  ((searchDirs (envPath envp)).filter (candidateFits file)).map (candidate file)

/-- The program that `execvp` loads: `yos_execve` resolves what the search found. -/
def execvpTarget (sys : ExecHost) (cwd : List UInt8) (envp : List (List UInt8)) (file : List UInt8) :
    Option (List UInt8) :=
  (execvpPathSearch sys envp file).map (yosPathResolve cwd)

/-! ## What should hold -/

/-- The calls. -/
inductive PathCall where
  | bridge (b : PathBridge) (p : RelPath)
  | getwd
  | execvp (envp : List (List UInt8)) (file : FileName)

/-- The absolute path of a candidate. -/
def absolute (cwd p : List UInt8) : List UInt8 := if isAbs p then p else absPath cwd p

/-- The call does the same as with the path below the caller's working directory, wherever the host
process is. -/
def FromCwd (cwd : Cwd) : PathCall → Prop
  | .bridge b p => ∀ (ρ : Type) (fs : HostFs ρ) (host host' : HostDir),
      fs.call host (b.hostPath cwd.path p.path) =
        fs.call host' (b.hostPath cwd.path (absPath cwd.path p.path))
  | .getwd => ∀ host, yosGetwd host = some cwd.path
  | .execvp envp file => ∀ (sys : ExecHost) (regular : List UInt8 → Bool) (host host' : HostDir),
      execvpTarget { sys with regular := (statRegular regular).call host } cwd.path envp file.path =
        ((candidates envp file.path).map (absolute cwd.path)).find? ((statRegular regular).call host')

/-- When it does: the bridge resolves its path and the join fits, or the path is too long for any
call; `getwd` never; `execvp` when every directory it visits is absolute. -/
def CallOk (cwd : Cwd) : PathCall → Prop
  | .bridge b p => pathMax ≤ p.path.length ∨
      b.resolves = true ∧ cwd.path.getLast? ≠ some backslash ∧
        (absPath cwd.path p.path).length < pathMax
  | .getwd => False
  | .execvp envp file => ∀ dir ∈ searchDirs (envPath envp), candidateFits file.path dir = true →
      isAbs dir = true

/-! ## The resolver -/

section Resolver

theorem ne_nil_of_isAbs {p : List UInt8} (abs : isAbs p = true) : p ≠ [] := by
  rintro rfl
  cases abs

theorem isAbs_append {p q : List UInt8} (nonempty : p ≠ []) : isAbs (p ++ q) = isAbs p := by
  cases p with
  | nil => exact absurd rfl nonempty
  | cons b rest => rfl

theorem withSlash_ne_nil (dir : List UInt8) : withSlash dir ≠ [] := by
  unfold withSlash
  split
  · rintro rfl
    contradiction
  · simp

theorem isAbs_absPath {dir p : List UInt8} (abs : isAbs dir = true) : isAbs (absPath dir p) = true := by
  rw [absPath, isAbs_append (withSlash_ne_nil dir), withSlash]
  split
  · exact abs
  · rw [isAbs_append (ne_nil_of_isAbs abs), abs]

theorem yosPathResolve_of_isAbs {cwd p : List UInt8} (abs : isAbs p = true) :
    yosPathResolve cwd p = p := by
  simp [yosPathResolve, abs]

/-- A relative path is joined to the working directory, or handed on as it is. -/
theorem yosPathResolve_rel (cwd : Cwd) (p : RelPath) : yosPathResolve cwd.path p.path =
    if pathMax < (joinBase cwd.path).length + p.path.length + 1 then p.path
    else joinBase cwd.path ++ p.path := by
  simp [yosPathResolve, p.nonempty, p.rel, ne_nil_of_isAbs cwd.abs, Nat.not_le.mpr cwd.short]

/-- A directory that ends in a backslash gets no slash. -/
theorem joinBase_of_backslash {cwd : List UInt8} (last : cwd.getLast? = some backslash) :
    joinBase cwd = cwd := by
  simp [joinBase, last]

theorem joinBase_of_short {cwd : List UInt8} (last : cwd.getLast? ≠ some backslash)
    (short : cwd.length + 1 < pathMax) : joinBase cwd = withSlash cwd := by
  unfold joinBase withSlash
  by_cases ends : cwd.getLast? = some slash
  · simp [ends]
  · simp [ends, last, short]

/-- The join fits: the host gets the absolute path. -/
theorem yosPathResolve_fits (cwd : Cwd) (p : RelPath) (last : cwd.path.getLast? ≠ some backslash)
    (fits : (absPath cwd.path p.path).length < pathMax) :
    yosPathResolve cwd.path p.path = absPath cwd.path p.path := by
  have some_byte : 0 < p.path.length := List.length_pos_of_ne_nil p.nonempty
  have joined : joinBase cwd.path = withSlash cwd.path := by
    by_cases ends : cwd.path.getLast? = some slash
    · unfold joinBase withSlash
      simp [ends]
    · refine joinBase_of_short last ?_
      rw [absPath, withSlash, if_neg ends, List.length_append, List.length_append,
        List.length_singleton] at fits
      omega
  rw [absPath, List.length_append] at fits
  rw [yosPathResolve_rel, joined, if_neg (by omega), absPath]

/-- The join does not fit: the host gets the path of the guest. -/
theorem yosPathResolve_long (cwd : Cwd) (p : RelPath) (last : cwd.path.getLast? ≠ some backslash)
    (long : pathMax ≤ (absPath cwd.path p.path).length) : yosPathResolve cwd.path p.path = p.path := by
  have some_byte : 0 < p.path.length := List.length_pos_of_ne_nil p.nonempty
  rw [yosPathResolve_rel, if_pos]
  rw [absPath, List.length_append] at long
  by_cases short : cwd.path.length + 1 < pathMax
  · rw [joinBase_of_short last short]
    omega
  · -- The directory fills the buffer, so no slash is added.
    have full : joinBase cwd.path = cwd.path := by
      simp [joinBase, short]
    have := cwd.short
    rw [full]
    omega

end Resolver

/-! ## The calls of the host -/

section Host

variable {ρ : Type} {fs : HostFs ρ} {host : HostDir} {p : List UInt8}

theorem call_of_isAbs (fs : HostFs ρ) (host host' : HostDir) (abs : isAbs p = true) :
    fs.call host p = fs.call host' p := by
  simp [HostFs.call, abs]

/-- The host that answers with the path itself. -/
def echo : HostFs (List UInt8) := ⟨id, [], []⟩

theorem echo_of_isAbs (abs : isAbs p = true) (short : p.length < pathMax) : echo.call host p = p := by
  simp [HostFs.call, echo, abs, ne_nil_of_isAbs abs, Nat.not_le.mpr short]

theorem echo_of_rel (p : RelPath) (short : p.path.length < pathMax) :
    echo.call host p.path = absPath host.path p.path := by
  simp [HostFs.call, echo, p.nonempty, p.rel, Nat.not_le.mpr short]

/-- What a relative path means depends on where the host is. -/
theorem rel_depends_on_host (p : RelPath) (short : p.path.length < pathMax) :
    ¬ ∃ answer, ∀ host : HostDir, echo.call host p.path = answer := by
  rintro ⟨answer, constant⟩
  have root := constant ⟨[slash], rfl⟩
  have deeper := constant ⟨[slash, slash], rfl⟩
  rw [echo_of_rel p short] at root deeper
  have lengths := congrArg List.length (root.trans deeper.symm)
  simp [absPath, withSlash] at lengths

end Host

/-! ## The bridges -/

theorem hostPath_of_isAbs {b : PathBridge} {cwd p : List UInt8} (abs : isAbs p = true) :
    b.hostPath cwd p = p := by
  rw [PathBridge.hostPath]
  split
  · exact yosPathResolve_of_isAbs abs
  · rfl

/-- A bridge that hands on a relative path as it is depends on where the host is. -/
theorem not_fromCwd_of_raw {cwd : Cwd} {b : PathBridge} {p : RelPath} (short : p.path.length < pathMax)
    (raw : b.hostPath cwd.path p.path = p.path) : ¬ FromCwd cwd (.bridge b p) := by
  intro from_cwd
  refine rel_depends_on_host p short ⟨echo.call ⟨[slash], rfl⟩ (absPath cwd.path p.path), fun host => ?_⟩
  have same := from_cwd _ echo host ⟨[slash], rfl⟩
  rwa [raw, hostPath_of_isAbs (isAbs_absPath cwd.abs)] at same

/-- In a directory that ends in a backslash the join lacks its slash. -/
theorem not_fromCwd_of_backslash {cwd : Cwd} {b : PathBridge} {p : RelPath}
    (short : p.path.length < pathMax) (resolves : b.resolves = true)
    (last : cwd.path.getLast? = some backslash) : ¬ FromCwd cwd (.bridge b p) := by
  have joined := yosPathResolve_rel cwd p
  rw [joinBase_of_backslash last] at joined
  split at joined
  · refine not_fromCwd_of_raw short ?_
    rw [PathBridge.hostPath, if_pos resolves, joined]
  · next fits =>
    intro from_cwd
    have same := from_cwd _ echo ⟨[slash], rfl⟩ ⟨[slash], rfl⟩
    rw [hostPath_of_isAbs (isAbs_absPath cwd.abs), PathBridge.hostPath, if_pos resolves, joined,
      echo_of_isAbs] at same
    · have longer : (absPath cwd.path p.path).length = (cwd.path ++ p.path).length + 1 := by
        have ends : cwd.path.getLast? ≠ some slash := by
          rw [last]
          decide
        simp [absPath, withSlash, ends]
        omega
      by_cases room : (absPath cwd.path p.path).length < pathMax
      · rw [echo_of_isAbs (isAbs_absPath cwd.abs) room] at same
        have lengths := congrArg List.length same
        omega
      · have refused : echo.call ⟨[slash], rfl⟩ (absPath cwd.path p.path) = [] := by
          simp [HostFs.call, echo, Nat.not_lt.mp room]
        rw [refused] at same
        exact p.nonempty (List.append_eq_nil_iff.mp same).2
    · rw [isAbs_append (ne_nil_of_isAbs cwd.abs), cwd.abs]
    · rw [List.length_append]
      omega

/-- A path that is too long for any call is refused either way. -/
theorem fromCwd_of_too_long {cwd : Cwd} {b : PathBridge} {p : RelPath} (long : pathMax ≤ p.path.length) :
    FromCwd cwd (.bridge b p) := by
  have handed : yosPathResolve cwd.path p.path = p.path := by
    rw [yosPathResolve_rel, if_pos (by omega)]
  have raw : b.hostPath cwd.path p.path = p.path := by
    rw [PathBridge.hostPath, handed, ite_self]
  have longer : pathMax ≤ (absPath cwd.path p.path).length := by
    rw [absPath, List.length_append]
    omega
  have abs := isAbs_absPath (p := p.path) cwd.abs
  intro ρ fs host host'
  rw [raw, hostPath_of_isAbs abs]
  simp [HostFs.call, p.nonempty, long, longer, ne_nil_of_isAbs abs]

theorem bridge_fromCwd_iff (cwd : Cwd) (b : PathBridge) (p : RelPath) :
    FromCwd cwd (.bridge b p) ↔ CallOk cwd (.bridge b p) := by
  by_cases short : p.path.length < pathMax
  · constructor
    · intro from_cwd
      have resolves : b.resolves = true := by
        by_contra raw
        refine not_fromCwd_of_raw short ?_ from_cwd
        rw [PathBridge.hostPath, if_neg raw]
      have last : cwd.path.getLast? ≠ some backslash := fun last =>
        not_fromCwd_of_backslash short resolves last from_cwd
      refine .inr ⟨resolves, last, ?_⟩
      by_contra long
      refine not_fromCwd_of_raw short ?_ from_cwd
      rw [PathBridge.hostPath, yosPathResolve_long cwd p last (Nat.not_lt.mp long), ite_self]
    · rintro (long | ⟨resolves, last, fits⟩) ρ fs host host'
      · exact absurd short (Nat.not_lt.mpr long)
      · have abs := isAbs_absPath (p := p.path) cwd.abs
        rw [hostPath_of_isAbs abs, PathBridge.hostPath, if_pos resolves,
          yosPathResolve_fits cwd p last fits]
        exact call_of_isAbs fs host host' abs
  · have long := Nat.not_lt.mp short
    exact iff_of_true (fromCwd_of_too_long long) (.inl long)

/-- `getwd` answers with the working directory of the host. -/
theorem not_fromCwd_getwd (cwd : Cwd) : ¬ FromCwd cwd .getwd := by
  intro from_cwd
  have root := from_cwd ⟨[slash], rfl⟩
  have deeper := from_cwd ⟨[slash, slash], rfl⟩
  exact nomatch root.trans deeper.symm

/-! ## The search in `PATH` -/

section Search

variable {cwd : Cwd} {envp : List (List UInt8)} {file : FileName}

theorem FileName.rel (file : FileName) : isAbs file.path = false := by
  cases known : file.path with
  | nil => rfl
  | cons b rest =>
    have other : b ≠ slash := by
      rintro rfl
      exact file.plain (by simp [known])
    simp [isAbs, other]

/-- A candidate is absolute exactly when its directory is. -/
theorem isAbs_candidate (file : FileName) (dir : List UInt8) :
    isAbs (candidate file.path dir) = isAbs dir := by
  rw [candidate]
  split
  · next empty =>
    rw [empty, file.rel]
    rfl
  · next nonempty => exact isAbs_append nonempty

theorem candidate_ne_nil (file : FileName) (dir : List UInt8) : candidate file.path dir ≠ [] := by
  rw [candidate]
  split
  · exact file.nonempty
  · simp

theorem length_candidate_lt {dir : List UInt8} (fits : candidateFits file.path dir = true) :
    (candidate file.path dir).length < pathMax := by
  have room := of_decide_eq_true fits
  rw [candidate]
  split
  · omega
  · rw [List.length_append, List.length_cons]
    omega

theorem mem_candidates {c : List UInt8} : c ∈ candidates envp file.path ↔
    ∃ dir ∈ searchDirs (envPath envp), candidateFits file.path dir = true ∧
      candidate file.path dir = c := by
  simp [candidates, and_assoc]

/-- When every candidate is absolute, the search does not depend on the host. -/
theorem execvp_fromCwd (absolutes : ∀ c ∈ candidates envp file.path, isAbs c = true) :
    FromCwd cwd (.execvp envp file) := by
  intro sys regular host host'
  have same : (candidates envp file.path).map (absolute cwd.path) = candidates envp file.path := by
    calc (candidates envp file.path).map (absolute cwd.path)
      _ = (candidates envp file.path).map id :=
        List.map_congr_left fun c listed => if_pos (absolutes c listed)
      _ = candidates envp file.path := List.map_id _
  have answers : (candidates envp file.path).find? ((statRegular regular).call host) =
      (candidates envp file.path).find? ((statRegular regular).call host') :=
    List.find?_congr fun c listed => call_of_isAbs _ host host' (absolutes c listed)
  rw [same, ← answers]
  change ((candidates envp file.path).find? ((statRegular regular).call host)).map _ = _
  cases found : (candidates envp file.path).find? ((statRegular regular).call host) with
  | none => rfl
  | some c =>
    have abs := absolutes c (List.mem_of_find?_eq_some found)
    rw [Option.map_some, yosPathResolve_of_isAbs abs]

/-- A relative candidate that is a file below the working directory of the host is loaded, although
nothing is there below the caller's. -/
theorem not_execvp_fromCwd {c : List UInt8} (listed : c ∈ candidates envp file.path)
    (rel : isAbs c = false) : ¬ FromCwd cwd (.execvp envp file) := by
  intro from_cwd
  obtain ⟨dir, -, fits, rfl⟩ := mem_candidates.mp listed
  -- A host directory longer than every absolute candidate.
  let expected := (candidates envp file.path).map (absolute cwd.path)
  let host : HostDir := ⟨slash :: List.replicate expected.flatten.length slash, rfl⟩
  let there := absPath host.path (candidate file.path dir)
  have away : there ∉ expected := by
    intro inside
    have bound := (List.sublist_flatten_of_mem inside).length_le
    have longer : expected.flatten.length < there.length := by
      simp only [there, absPath, withSlash, host]
      split
      · simp only [List.length_append, List.length_cons, List.length_replicate]
        omega
      · simp only [List.length_append, List.length_cons, List.length_replicate]
        omega
    omega
  have same := from_cwd ⟨fun _ => none, fun _ => none, fun _ => false, true, true, false, fun _ _ => none⟩
    (fun x => x = there) host host
  have nothing : expected.find? ((statRegular fun x => x = there).call host) = none := by
    rw [List.find?_eq_none]
    intro x listed found
    have is_there : x = there := by
      obtain ⟨c', -, rfl⟩ := List.mem_map.mp listed
      simp only [HostFs.call, statRegular] at found
      split at found
      · cases found
      · split at found
        · cases found
        · have abs : isAbs (absolute cwd.path c') = true := by
            rw [absolute]
            split
            · assumption
            · exact isAbs_absPath cwd.abs
          rw [if_pos abs] at found
          exact of_decide_eq_true found
    exact away (is_there ▸ listed)
  have something : ((candidates envp file.path).find?
      ((statRegular fun x => x = there).call host)).isSome = true := by
    refine List.find?_isSome.mpr ⟨_, listed, ?_⟩
    simp [HostFs.call, statRegular, candidate_ne_nil, rel, Nat.not_le.mpr (length_candidate_lt fits), there]
  rw [nothing] at same
  rw [execvpTarget, Option.map_eq_none_iff] at same
  change (candidates envp file.path).find? _ = none at same
  rw [same] at something
  cases something

theorem execvp_fromCwd_iff : FromCwd cwd (.execvp envp file) ↔ CallOk cwd (.execvp envp file) := by
  constructor
  · intro from_cwd dir visited fits
    by_contra rel
    refine not_execvp_fromCwd (mem_candidates.mpr ⟨dir, visited, fits, rfl⟩) ?_ from_cwd
    rw [isAbs_candidate]
    exact Bool.eq_false_iff.mpr rel
  · intro absolutes
    refine execvp_fromCwd fun c listed => ?_
    obtain ⟨dir, visited, fits, rfl⟩ := mem_candidates.mp listed
    rw [isAbs_candidate]
    exact absolutes dir visited fits

end Search

end Paths

end Yos
