import Yos.Proc.ExecReload

/-!
# An exec that fails (`impl/proc/proc.c`)

`yos_execvp` and `yos_execvpe` put the path they found into the memory of the guest, 1024 bytes above
the program break, before `yos_execve` has tested anything.  `exec_unchanged_iff` says when a call that
fails leaves the process as it was: always, but for a search whose result was not there already.
-/

namespace Yos

open Word

/-- `last_failed_exec_path`, `last_failed_exec_errno` and `stderr_written_since_exec`. -/
structure FailRecord where
  path : List UInt8
  errno : ℕ
  stderrWritten : Bool

/-- What an exec works with: the context, the errno cell, the descriptors, the signal state, the
pending exec and the record of the last failure. -/
structure ExecProc where
  ctx : ExecCtx
  errnoOff : ℕ
  fdMap : ℕ → Option Reload.FdEntry
  sigHandlers : ℕ → ℕ
  sigPending : ℕ → Bool
  execPending : Bool
  exec : Reload.ExecRequest
  lastFailed : FailRecord

namespace ExecProc

variable (p : ExecProc)

/-- The byte is in the errno cell. -/
def InErrno (x : ℕ) : Prop := p.errnoOff ≠ 0 ∧ p.errnoOff ≤ x ∧ x < p.errnoOff + 4

instance (x : ℕ) : Decidable (p.InErrno x) := inferInstanceAs (Decidable (_ ∧ _))

/-- `yos_errno_neg`. -/
def errnoNeg (remap : ℕ → ℕ) (e : ℕ) : ExecProc :=
  if p.errnoOff = 0 then p
  else
    { p with
      ctx.mem.memory := p.ctx.mem.memory.write32 p.errnoOff (remap e) }

/-- The record `yos_execve` keeps of a file that cannot be read. -/
def noteFailure (host : ExecHost) (filename : ℕ) : ExecProc :=
  match wstrCheck p.ctx.mem.memory p.ctx.mem.memorySize filename with
  | none => p
  | some raw =>
    match host.access (execName p.ctx raw) with
    | none => p
    | some e => { p with lastFailed := ⟨(execName p.ctx raw).take 255, e, false⟩ }

/-- The end of a `yos_execve` that succeeds. -/
def commit (path : List UInt8) (argv : List (List UInt8)) (envp : Option (List (List UInt8))) :
    ExecProc :=
  { p with
    sigHandlers := fun _ => 0
    sigPending := fun _ => false
    execPending := true
    exec := ⟨path, argv, envp⟩
    fdMap := fun fd => (p.fdMap fd).filter fun e => !e.cloexec }

/-- `yos_execve`. -/
def execve (remap : ℕ → ℕ) (host : ExecHost) (filename argvPtr envp : ℕ) : ExecProc × ExecOutcome :=
  match yosExecve host p.ctx filename argvPtr envp with
  | .pending path argv env => (p.commit path argv env, .pending path argv env)
  | .fails e => ((p.noteFailure host filename).errnoNeg remap e, .fails e)
  | .raw e => (p, .raw e)
  | .replaced => (p, .replaced)

/-- The path is put in the scratch area. -/
def stash (resolved : List UInt8) : ExecProc := { p with ctx := p.ctx.stash resolved }

/-- `yos_execvpe`. -/
def execvpe (remap : ℕ → ℕ) (host : ExecHost) (file argvPtr envp : ℕ) : ExecProc × ExecOutcome :=
  match wstrCheck p.ctx.mem.memory p.ctx.mem.memorySize file with
  | none => (p, .raw Errno.EFAULT.number)
  | some fn =>
    if fn.contains slash then p.execve remap host file argvPtr envp
    else
      match execvpPathSearch host p.ctx.envp fn with
      | none => (p, .raw Errno.ENOENT.number)
      | some resolved =>
        if p.ctx.mem.memorySize < execScratch p.ctx + 4096 then (p, .raw Errno.ENOMEM.number)
        else (p.stash resolved).execve remap host (execScratch p.ctx) argvPtr envp

end ExecProc

/-- The calls of the family. -/
inductive ExecForm where
  | execve (filename argvPtr envp : ℕ)
  | execv (path argvPtr : ℕ)
  | execvp (file argvPtr : ℕ)
  | execvpe (file argvPtr envp : ℕ)

/-- A call. -/
def ExecProc.run (p : ExecProc) (remap : ℕ → ℕ) (host : ExecHost) : ExecForm → ExecProc × ExecOutcome
  | .execve filename argvPtr envp => p.execve remap host filename argvPtr envp
  | .execv path argvPtr => p.execve remap host path argvPtr 0
  | .execvp file argvPtr => p.execvpe remap host file argvPtr 0
  | .execvpe file argvPtr envp => p.execvpe remap host file argvPtr envp

/-- The call returns an error. -/
def ExecOutcome.IsError : ExecOutcome → Prop
  | .pending _ _ _ => False
  | .fails _ => True
  | .raw _ => True
  | .replaced => False

/-- A process that an exec has left as it was. -/
structure ExecProc.Unchanged (p p' : ExecProc) : Prop where
  memory : ∀ x, ¬ p.InErrno x → p'.ctx.mem.memory x = p.ctx.mem.memory x
  fdMap : p'.fdMap = p.fdMap
  sigHandlers : p'.sigHandlers = p.sigHandlers
  sigPending : p'.sigPending = p.sigPending
  exec : p'.execPending = p.execPending ∧ p'.exec = p.exec

/-! ## `yos_execve` -/

namespace ExecProc

variable {p : ExecProc} {remap : ℕ → ℕ} {host : ExecHost}

/-- What leaves a later state as it was can be ignored. -/
theorem Unchanged.iff_of {q r : ExecProc} (cell : q.errnoOff = p.errnoOff) (later : q.Unchanged r) :
    p.Unchanged r ↔ p.Unchanged q := by
  have memory (x : ℕ) (out : ¬ p.InErrno x) : r.ctx.mem.memory x = q.ctx.mem.memory x :=
    later.memory x (by unfold InErrno at out ⊢; rwa [cell])
  constructor
  · rintro ⟨bytes, fds, handlers, pending, exec⟩
    exact ⟨fun x out => (memory x out).symm.trans (bytes x out), later.fdMap.symm.trans fds,
      later.sigHandlers.symm.trans handlers, later.sigPending.symm.trans pending,
      later.exec.1.symm.trans exec.1, later.exec.2.symm.trans exec.2⟩
  · rintro ⟨bytes, fds, handlers, pending, exec⟩
    exact ⟨fun x out => (memory x out).trans (bytes x out), later.fdMap.trans fds,
      later.sigHandlers.trans handlers, later.sigPending.trans pending,
      later.exec.1.trans exec.1, later.exec.2.trans exec.2⟩

variable (p remap) in
theorem errnoNeg_unchanged (e : ℕ) : p.Unchanged (p.errnoNeg remap e) := by
  unfold errnoNeg
  split_ifs with cell
  · exact ⟨fun _ _ => rfl, rfl, rfl, rfl, rfl, rfl⟩
  · refine ⟨fun x out => ?_, rfl, rfl, rfl, rfl, rfl⟩
    exact if_neg fun inside => out ⟨cell, inside⟩

variable (p host) in
theorem noteFailure_eq (filename : ℕ) : ∃ record, p.noteFailure host filename =
    { p with lastFailed := record } := by
  unfold noteFailure
  rcases wstrCheck p.ctx.mem.memory p.ctx.mem.memorySize filename with _ | raw
  · exact ⟨p.lastFailed, rfl⟩
  · dsimp only
    rcases host.access (execName p.ctx raw) with _ | e
    · exact ⟨p.lastFailed, rfl⟩
    · exact ⟨_, rfl⟩

/-- A `yos_execve` that fails changes nothing. -/
theorem execve_unchanged {filename argvPtr envp : ℕ}
    (failed : (p.execve remap host filename argvPtr envp).2.IsError) :
    p.Unchanged (p.execve remap host filename argvPtr envp).1 := by
  unfold execve at failed ⊢
  generalize yosExecve host p.ctx filename argvPtr envp = outcome at failed ⊢
  cases outcome with
  | pending path argv env => exact False.elim failed
  | fails e =>
    obtain ⟨record, noted⟩ := noteFailure_eq p host filename
    have stored := errnoNeg_unchanged { p with lastFailed := record } remap e
    dsimp only
    rw [noted]
    exact ⟨stored.memory, stored.fdMap, stored.sigHandlers, stored.sigPending, stored.exec⟩
  | raw e => exact ⟨fun _ _ => rfl, rfl, rfl, rfl, rfl, rfl⟩
  | replaced => exact False.elim failed

/-- The outcome is that of the bridge without the state it leaves. -/
theorem execve_outcome (filename argvPtr envp : ℕ) :
    (p.execve remap host filename argvPtr envp).2 = yosExecve host p.ctx filename argvPtr envp := by
  unfold execve
  cases yosExecve host p.ctx filename argvPtr envp <;> rfl

theorem execvpe_outcome (file argvPtr envp : ℕ) :
    (p.execvpe remap host file argvPtr envp).2 = yosExecvpe host p.ctx file argvPtr envp := by
  unfold execvpe yosExecvpe
  rcases wstrCheck p.ctx.mem.memory p.ctx.mem.memorySize file with _ | fn
  · rfl
  dsimp only
  by_cases path : fn.contains slash = true
  · rw [if_pos path, if_pos path]
    exact execve_outcome file argvPtr envp
  rw [if_neg path, if_neg path]
  rcases execvpPathSearch host p.ctx.envp fn with _ | resolved
  · rfl
  dsimp only
  by_cases room : p.ctx.mem.memorySize < execScratch p.ctx + 4096
  · rw [if_pos room, if_pos room]
  · rw [if_neg room, if_neg room, execve_outcome, stash]

/-! ## The search -/

/-- The bytes of a string and its NUL are in the scratch area already, as far as they miss the errno
cell. -/
def Stashed (p : ExecProc) (resolved : List UInt8) : Prop :=
  ∀ i < resolved.length + 1, ¬ p.InErrno (execScratch p.ctx + i) →
    p.ctx.mem.memory (execScratch p.ctx + i) = (resolved ++ [0]).getD i 0

/-- A search that finds a file has its path in the scratch area already, if that area has room. -/
def SearchKeeps (p : ExecProc) (host : ExecHost) (file : ℕ) : Prop :=
  ∀ fn resolved, wstrCheck p.ctx.mem.memory p.ctx.mem.memorySize file = some fn →
    fn.contains slash = false → execvpPathSearch host p.ctx.envp fn = some resolved →
      execScratch p.ctx + 4096 ≤ p.ctx.mem.memorySize → p.Stashed resolved

/-- The condition on a call. -/
def Keeps (p : ExecProc) (host : ExecHost) : ExecForm → Prop
  | .execve _ _ _ => True
  | .execv _ _ => True
  | .execvp file _ => p.SearchKeeps host file
  | .execvpe file _ _ => p.SearchKeeps host file

/-- A string is written over equal bytes. -/
theorem writeBytes_same_iff {m : Bytes} {off : ℕ} {l : List UInt8} (out : ℕ → Prop) :
    (∀ x, out x → writeBytes m off l x = m x) ↔
      ∀ i < l.length, out (off + i) → m (off + i) = l.getD i 0 := by
  unfold writeBytes
  constructor
  · intro same i lt away
    rw [← same _ away, if_pos ⟨Nat.le_add_right off i, Nat.add_lt_add_left lt off⟩,
      Nat.add_sub_cancel_left]
  · intro equal x away
    by_cases inside : off ≤ x ∧ x < off + l.length
    · obtain ⟨i, rfl⟩ := Nat.exists_eq_add_of_le inside.1
      rw [if_pos inside, Nat.add_sub_cancel_left, equal i (Nat.add_lt_add_iff_left.1 inside.2) away]
    · rw [if_neg inside]

/-- Only the memory differs. -/
theorem stash_frame (resolved : List UInt8) :
    (p.stash resolved).errnoOff = p.errnoOff ∧ (p.stash resolved).fdMap = p.fdMap ∧
      (p.stash resolved).sigHandlers = p.sigHandlers ∧
      (p.stash resolved).sigPending = p.sigPending ∧
      (p.stash resolved).execPending = p.execPending ∧ (p.stash resolved).exec = p.exec := by
  simp only [stash, and_self]

theorem stash_unchanged_iff {resolved : List UInt8} :
    p.Unchanged (p.stash resolved) ↔ p.Stashed resolved := by
  have length : (resolved ++ [0]).length = resolved.length + 1 := List.length_append
  have memory : (p.stash resolved).ctx.mem.memory =
      writeBytes p.ctx.mem.memory (execScratch p.ctx) (resolved ++ [0]) := by
    rw [stash, ExecCtx.stash]
  rw [Stashed, ← length, ← writeBytes_same_iff fun x => ¬ p.InErrno x, ← memory]
  obtain ⟨-, fds, handlers, pending, exec⟩ := p.stash_frame resolved
  exact ⟨fun same => same.memory, fun bytes => ⟨bytes, fds, handlers, pending, exec⟩⟩

theorem execvpe_unchanged_iff {file argvPtr envp : ℕ}
    (failed : (p.execvpe remap host file argvPtr envp).2.IsError) :
    p.Unchanged (p.execvpe remap host file argvPtr envp).1 ↔ p.SearchKeeps host file := by
  have refl : p.Unchanged p := ⟨fun _ _ => rfl, rfl, rfl, rfl, rfl, rfl⟩
  unfold SearchKeeps
  rcases name : wstrCheck p.ctx.mem.memory p.ctx.mem.memorySize file with _ | fn
  · rw [execvpe, name]
    exact iff_of_true refl (by simp)
  by_cases path : fn.contains slash = true
  · have call : p.execvpe remap host file argvPtr envp = p.execve remap host file argvPtr envp := by
      rw [execvpe, name]
      exact if_pos path
    rw [call] at failed ⊢
    refine iff_of_true (execve_unchanged failed) fun name _ found plain => ?_
    rw [← Option.some.inj found, path] at plain
    exact absurd plain (by decide)
  rw [Bool.not_eq_true] at path
  rcases search : execvpPathSearch host p.ctx.envp fn with _ | resolved
  · have call : p.execvpe remap host file argvPtr envp = (p, .raw Errno.ENOENT.number) := by
      simp only [execvpe, name, path, search, Bool.false_eq_true, if_false]
    rw [call]
    refine iff_of_true refl fun name _ found _ hit => ?_
    rw [← Option.some.inj found, search] at hit
    exact absurd hit (by simp)
  by_cases room : p.ctx.mem.memorySize < execScratch p.ctx + 4096
  · have call : p.execvpe remap host file argvPtr envp = (p, .raw Errno.ENOMEM.number) := by
      simp only [execvpe, name, path, search, room, Bool.false_eq_true, if_true, if_false]
    rw [call]
    exact iff_of_true refl fun _ _ _ _ _ fits => absurd fits (by omega)
  · have call : p.execvpe remap host file argvPtr envp =
        (p.stash resolved).execve remap host (execScratch p.ctx) argvPtr envp := by
      simp only [execvpe, name, path, search, room, Bool.false_eq_true, if_false]
    generalize execScratch p.ctx = off at call room
    rw [call] at failed ⊢
    rw [Unchanged.iff_of (stash_frame resolved).1 (execve_unchanged failed), stash_unchanged_iff]
    constructor
    · intro stashed _ _ found _ hit _
      rw [← Option.some.inj found, search] at hit
      rwa [← Option.some.inj hit]
    · exact fun keeps => keeps fn resolved rfl path search (Nat.le_of_not_lt room)

/-- A call that fails leaves the process as it was exactly when its search does. -/
theorem exec_unchanged_iff (p : ExecProc) (remap : ℕ → ℕ) (host : ExecHost) (form : ExecForm)
    (failed : (p.run remap host form).2.IsError) :
    p.Unchanged (p.run remap host form).1 ↔ p.Keeps host form := by
  cases form with
  | execve filename argvPtr envp => exact iff_of_true (execve_unchanged failed) trivial
  | execv path argvPtr => exact iff_of_true (execve_unchanged failed) trivial
  | execvp file argvPtr => exact execvpe_unchanged_iff failed
  | execvpe file argvPtr envp => exact execvpe_unchanged_iff failed

/-! ## A mapping above the break -/

/-- A host on which every path names a wasm file. -/
def wasmHost : ExecHost where
  access _ := none
  file _ := some [0x00, 0x61, 0x73, 0x6d]
  regular _ := true
  mallocArgv := true
  mallocEnvp := true
  allowHostExec := false
  execv _ _ := none

/-- A guest with the string `x` at 16, before it maps anything. -/
def spareCtx : MemCtx :=
  { MemCtx.blank (2 ^ 22) 0x50000 with memory := fun x => if x = 16 then 120 else 0 }

/-- A guest that mapped the page at its break. -/
def mappedProc : ExecProc where
  ctx := ⟨(yosMmap2 spareCtx 0x50000 4096 mapFixed (-1)).1, [slash], []⟩
  errnoOff := 0x108
  fdMap _ := none
  sigHandlers _ := 0
  sigPending _ := false
  execPending := false
  exec := ⟨[], [], none⟩
  lastFailed := ⟨[], 0, false⟩

/-- A guest without the string. -/
theorem exec_unchanged_empty :
    mappedProc.Unchanged (mappedProc.run id wasmHost (.execvp 0 0)).1 := by
  have failed : (mappedProc.run id wasmHost (.execvp 0 0)).2.IsError := trivial
  exact (exec_unchanged_iff mappedProc id wasmHost (.execvp 0 0) failed).2 fun fn _ found => by
    exact absurd found (by simp [wstrCheck])

/-- The path overwrites a byte of the mapping; then the missing argument vector is noticed. -/
theorem exec_unchanged_fails :
    (⟨0x50000, 4096⟩ : Span) ∈ mappedProc.ctx.mem.liveList ∧
      (mappedProc.run id wasmHost (.execvp 16 0)).2 = .fails Errno.EFAULT.number ∧
      mappedProc.ctx.mem.memory 0x50400 = 0 ∧
      (mappedProc.run id wasmHost (.execvp 16 0)).1.ctx.mem.memory 0x50400 = 120 := by
  have size : mappedProc.ctx.mem.memorySize = 2 ^ 22 := by decide
  have name : wstrCheck mappedProc.ctx.mem.memory mappedProc.ctx.mem.memorySize 16 = some [120] :=
    wstrCheck_eq (by decide) (by rw [size]; decide) (by decide) (by simp) (by decide)
  have found : wstrCheck (mappedProc.stash [120]).ctx.mem.memory
      (mappedProc.stash [120]).ctx.mem.memorySize 0x50400 = some [120] :=
    wstrCheck_eq (by decide) (by decide) (by decide) (by simp) (by decide)
  have call : mappedProc.run id wasmHost (.execvp 16 0) =
      ((mappedProc.stash [120]).errnoNeg id Errno.EFAULT.number, .fails Errno.EFAULT.number) := by
    have search : execvpPathSearch wasmHost mappedProc.ctx.envp [120] = some [120] := by decide
    have scratch : execScratch mappedProc.ctx = 0x50400 := by decide
    have noArgv : yosExecve wasmHost (mappedProc.stash [120]).ctx 0x50400 0 0 =
        .fails Errno.EFAULT.number := by
      rw [yosExecve, found]
      rfl
    have noted : (mappedProc.stash [120]).noteFailure wasmHost 0x50400 = mappedProc.stash [120] := by
      rw [noteFailure, found]
      rfl
    rw [run, execvpe, name]
    dsimp only
    rw [if_neg (by decide), search]
    dsimp only
    rw [scratch, if_neg (by rw [size]; decide), execve, noArgv]
    dsimp only
    rw [noted]
  rw [call]
  exact ⟨by decide, rfl, by decide, by decide⟩

end ExecProc

end Yos
