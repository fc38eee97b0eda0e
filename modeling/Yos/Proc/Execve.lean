import Yos.Io.Path
import Yos.Mem.Mmap

/-!
# `execve`, `execvp` and the search in `PATH` (`impl/proc/proc.c`)

A program that can be loaded is a wasm file, a script whose interpreter is one, or a host program
whose base name the search in `PATH` finds as a wasm file.  Anything else goes to
`host_execve_fallback`, which refuses it unless the runtime was built to replace itself by host
programs.

The bridges answer an error either through `yos_errno_neg` (`ExecOutcome.fails`) or by returning the
negated number (`ExecOutcome.raw`).  Signal state and descriptors, which a successful `execve` also
resets, and the record of the last failed path are left out.
-/

namespace Yos

open Word

/-- What the bridges ask the host. -/
structure ExecHost where
  /-- The error of `access(path, R_OK)`, if it fails. -/
  access : List UInt8 → Option ℕ
  /-- The contents of a file that can be opened. -/
  file : List UInt8 → Option (List UInt8)
  /-- `stat` finds a file that passes the test of the search. -/
  regular : List UInt8 → Bool
  /-- The allocations of the argument vector and of the environment succeed. -/
  mallocArgv : Bool
  mallocEnvp : Bool
  /-- The runtime was built with `YOS_ALLOW_HOST_EXEC`. -/
  allowHostExec : Bool
  /-- The error of the host's `execv`, unless it replaces the process. -/
  execv : List UInt8 → List (List UInt8) → Option ℕ

/-- The fields of `struct yos_exec_ctx` the bridges use; `envp` is empty when it is null. -/
structure ExecCtx where
  mem : MemCtx
  cwd : List UInt8
  envp : List (List UInt8)

/-- What becomes of the call. -/
inductive ExecOutcome where
  /-- The call returns 0 and the image is replaced. -/
  | pending (path : List UInt8) (argv : List (List UInt8)) (envp : Option (List (List UInt8)))
  /-- `return yos_errno_neg(ctx, e)`. -/
  | fails (e : ℕ)
  /-- `return -e`. -/
  | raw (e : ℕ)
  /-- The host's `execv` replaced the process. -/
  | replaced
deriving DecidableEq, Repr

/-! ## The search in `PATH` -/

/-- The byte `:`. -/
def colon : UInt8 := 58

/-- The bytes of `PATH=`. -/
def pathEq : List UInt8 := [80, 65, 84, 72, 61]

/-- The value of `PATH` in a vector; it is empty when there is none. -/
def envPath (envp : List (List UInt8)) : List UInt8 :=
  match envp.find? fun s => pathEq.isPrefixOf s with
  | some s => s.drop pathEq.length
  | none => []

/-- The directories the loop visits.  It ends at the end of the string, so an empty last component
is visited only when there is no other. -/
def searchDirs (path : List UInt8) : List (List UInt8) :=
  let dirs := path.splitOn colon
  if 1 < dirs.length ∧ dirs.getLast? = some [] then dirs.dropLast else dirs

/-- The path tried in a directory; an empty directory is the working directory. -/
def candidate (file dir : List UInt8) : List UInt8 :=
  if dir = [] then file else dir ++ slash :: file

/-- The candidate fits the buffer of the search. -/
def candidateFits (file dir : List UInt8) : Bool := dir.length + 1 + file.length + 1 ≤ pathMax

/-- `execvp_path_search`. -/
def execvpPathSearch (host : ExecHost) (envp : List (List UInt8)) (file : List UInt8) :
    Option (List UInt8) :=
  (((searchDirs (envPath envp)).filter (candidateFits file)).map (candidate file)).find? host.regular

/-! ## The format of a file -/

/-- `check_wasm_magic`. -/
def checkWasmMagic (host : ExecHost) (path : List UInt8) : Bool :=
  (host.file path).any fun contents => contents.take 4 == [0x00, 0x61, 0x73, 0x6d]

/-- A blank or a tab. -/
def isBlank (b : UInt8) : Bool := b == 32 || b == 9

/-- A newline or a carriage return. -/
def isEol (b : UInt8) : Bool := b == 10 || b == 13

/-- `parse_shebang`: the interpreter and its argument.  A line of 256 bytes or more is cut. -/
def parseShebang (host : ExecHost) (path : List UInt8) : Option (List UInt8 × List UInt8) :=
  match host.file path with
  | none => none
  | some contents =>
    let line := ((contents.take 255).takeWhile (· ≠ 10)).takeWhile (· ≠ 0)
    if line.take 2 ≠ [35, 33] then none
    else
      let p := (line.drop 2).dropWhile isBlank
      let interp := p.takeWhile fun b => !isBlank b && !isEol b
      if interp = [] ∨ pathMax ≤ interp.length then none
      else
        let p := (p.drop interp.length).dropWhile isBlank
        let arg := ((p.takeWhile fun b => !isEol b).reverse.dropWhile isBlank).reverse
        some (interp, arg)

/-- The part of a path after its last slash. -/
def baseName (path : List UInt8) : List UInt8 := (path.reverse.takeWhile (· ≠ slash)).reverse

/-- The file to load, and for a script the argument of its interpreter. -/
structure ExecImage where
  path : List UInt8
  script : Option (List UInt8)
deriving DecidableEq, Repr

/-- The wasm file that the search in `PATH` finds for a base name. -/
def searchWasm (host : ExecHost) (envp : List (List UInt8)) (base : List UInt8) :
    Option (List UInt8) :=
  (execvpPathSearch host envp base).filter (checkWasmMagic host)

/-- The part of `yos_execve` that looks for the wasm file to load. -/
def execFormat (host : ExecHost) (envp : List (List UInt8)) (fn : List UInt8) : Option ExecImage :=
  if checkWasmMagic host fn then some ⟨fn, none⟩
  else
    match parseShebang host fn with
    | some (interp, arg) =>
      if checkWasmMagic host interp then some ⟨interp, some arg⟩
      else (searchWasm host envp (baseName interp)).map fun path => ⟨path, some arg⟩
    | none =>
      if fn.contains slash ∧ baseName fn ≠ [] then
        (searchWasm host envp (baseName fn)).map fun path => ⟨path, none⟩
      else none

/-- The argument vector of the new image: a script is an argument of its interpreter. -/
def ExecImage.argv (image : ExecImage) (fn : List UInt8) (argv : List (List UInt8)) :
    List (List UInt8) :=
  match image.script with
  | none => argv
  | some arg => image.path :: ((if arg = [] then [] else [arg]) ++ fn :: argv.drop 1)

/-! ## The bridges -/

/-- The loops of `yos_execve` over a vector of strings; `n` entries were read before. -/
def readVec (mem : MemCtx) (limit ptr : ℕ) : (fuel n : ℕ) → Except Errno (List (List UInt8))
  | 0, _ => .error .E2BIG
  | fuel + 1, n =>
    if mem.memorySize < ptr + n * 4 + 4 then .error .EFAULT
    else
      let entry := mem.memory.read32 (ptr + n * 4)
      if entry = 0 then .ok []
      else if limit < n then .error .E2BIG
      else
        match wstrCheck mem.memory mem.memorySize entry with
        | none => .error .EFAULT
        | some s => (readVec mem limit ptr fuel (n + 1)).map (s :: ·)

/-- The loop of `host_execve_fallback`, which reads `fuel` entries at most. -/
def fallbackVec (mem : MemCtx) (ptr : ℕ) : (fuel n : ℕ) → Except Errno (List (List UInt8))
  | 0, _ => .ok []
  | fuel + 1, n =>
    if mem.memorySize < ptr + (n + 1) * 4 then .error .EFAULT
    else
      let entry := mem.memory.read32 (ptr + n * 4)
      if entry = 0 then .ok []
      else
        match wstrCheck mem.memory mem.memorySize entry with
        | none => .error .EFAULT
        | some s => (fallbackVec mem ptr fuel (n + 1)).map (s :: ·)

/-- The argument vector of `host_execve_fallback`, which is empty for a null pointer. -/
def fallbackArgv (mem : MemCtx) (argvPtr : ℕ) : Except Errno (List (List UInt8)) :=
  if argvPtr = 0 then .ok [] else fallbackVec mem argvPtr 1024 0

/-- `host_execve_fallback`. -/
def hostExecveFallback (host : ExecHost) (ctx : ExecCtx) (fn : List UInt8) (argvPtr : ℕ) :
    ExecOutcome :=
  if !host.allowHostExec then .raw Errno.ENOEXEC.number
  else if argvPtr ≠ 0 ∧ ctx.mem.memorySize < argvPtr + 4 then .raw Errno.EFAULT.number
  else
    match fallbackArgv ctx.mem argvPtr with
    | .error e => .raw e.number
    | .ok argv =>
      if !host.mallocArgv then .raw Errno.ENOMEM.number
      else
        match host.execv fn argv with
        | some e => .raw e
        | none => .replaced

/-- The part of `yos_execve` that copies the vectors of the new image. -/
def execveVectors (host : ExecHost) (ctx : ExecCtx) (image : ExecImage) (fn : List UInt8)
    (argvPtr envp : ℕ) : ExecOutcome :=
  if argvPtr = 0 then .fails Errno.EFAULT.number
  else
    match readVec ctx.mem 1024 argvPtr 1026 0 with
    | .error e => .fails e.number
    | .ok argv =>
      if !host.mallocArgv then .fails Errno.ENOMEM.number
      else if envp = 0 then .pending image.path (image.argv fn argv) none
      else if ctx.mem.memorySize ≤ envp then .fails Errno.EFAULT.number
      else
        match readVec ctx.mem 4096 envp 4098 0 with
        | .error e => .fails e.number
        | .ok env =>
          if !host.mallocEnvp then .fails Errno.ENOMEM.number
          else .pending image.path (image.argv fn argv) (some env)

/-- The file name `yos_execve` works with. -/
def execName (ctx : ExecCtx) (raw : List UInt8) : List UInt8 :=
  (yosPathResolve ctx.cwd raw).take (pathMax - 1)

/-- `yos_execve`. -/
def yosExecve (host : ExecHost) (ctx : ExecCtx) (filename argvPtr envp : ℕ) : ExecOutcome :=
  match wstrCheck ctx.mem.memory ctx.mem.memorySize filename with
  | none => .fails Errno.EFAULT.number
  | some raw =>
    let fn := execName ctx raw
    match host.access fn with
    | some e => .fails e
    | none =>
      match execFormat host ctx.envp fn with
      | none => hostExecveFallback host ctx fn argvPtr
      | some image => execveVectors host ctx image fn argvPtr envp

/-- `yos_execv`. -/
def yosExecv (host : ExecHost) (ctx : ExecCtx) (path argvPtr : ℕ) : ExecOutcome :=
  yosExecve host ctx path argvPtr 0

/-- Where `yos_execvp` puts the path it found, for `yos_execve` to read. -/
def execScratch (ctx : ExecCtx) : ℕ := u32 (ctx.mem.heapEnd + 1024)

/-- The context with the path in its scratch area. -/
def ExecCtx.stash (ctx : ExecCtx) (resolved : List UInt8) : ExecCtx :=
  { ctx with
    mem := { ctx.mem with memory := writeBytes ctx.mem.memory (execScratch ctx) (resolved ++ [0]) } }

/-- `yos_execvpe`. -/
def yosExecvpe (host : ExecHost) (ctx : ExecCtx) (file argvPtr envp : ℕ) : ExecOutcome :=
  match wstrCheck ctx.mem.memory ctx.mem.memorySize file with
  | none => .raw Errno.EFAULT.number
  | some fn =>
    if fn.contains slash then yosExecve host ctx file argvPtr envp
    else
      match execvpPathSearch host ctx.envp fn with
      | none => .raw Errno.ENOENT.number
      | some resolved =>
        if ctx.mem.memorySize < execScratch ctx + 4096 then .raw Errno.ENOMEM.number
        else yosExecve host (ctx.stash resolved) (execScratch ctx) argvPtr envp

/-- `yos_execvp`. -/
def yosExecvp (host : ExecHost) (ctx : ExecCtx) (file argvPtr : ℕ) : ExecOutcome :=
  yosExecvpe host ctx file argvPtr 0

end Yos
