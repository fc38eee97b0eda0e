import Yos.Io.FdTable
import Yos.Lib.Ledger
import Yos.Lib.System

/-!
# The life of host descriptors (`impl/io/io.c`, `file.c`, `dir.c`, `pty.c`, `impl/libc/posix.c`)

All guests are threads of one host process and share its descriptors, so a guest that closes a
number twice may close a file another guest has just opened.  `yos_fd_alloc` closes its argument
when the table is full, and most callers then close it again; a stream and `fd_map` refer to the
same descriptor, and the exit of a process closes both.  `FdOk` are the calls that avoid these
cases; `Io/FdOwner` proves that they keep every close legal.

The number a host call returns is an input: any number that is not open.  The three standard
streams of the host belong to no guest.
-/

namespace Yos

/-! ## The tables of one guest -/

/-- `YOS_FILE_MAX`. -/
def fileMax : ℕ := 256

/-- `YOS_DIR_MAX`. -/
def dirMax : ℕ := 64


/-- The descriptor tables of `struct yos_exec_ctx`.  A stream is known by the host descriptor in it
and a directory by its host descriptor and its guest descriptor. -/
structure FdTables where
  fdMap : ℕ → ℤ
  fileSlots : ℕ → Option ℕ
  fileWfds : ℕ → ℤ
  dirSlots : ℕ → Option (ℕ × ℤ)

/-- The first free stream slot. -/
def FdTables.freeFile (t : FdTables) : Option ℕ :=
  (List.range' 4 (fileMax - 4)).find? fun k => (t.fileSlots k).isNone

/-- The first free directory slot, which is what `slot_reserve` takes. -/
def FdTables.freeDir (t : FdTables) : Option ℕ :=
  (List.range' 1 (dirMax - 1)).find? fun k => (t.dirSlots k).isNone

variable {ι : Type}

/-- The tables of the guest that makes a call, and the ledger of the host.  The owner `none` is the
host process itself. -/
structure FdProc (ι : Type) where
  t : FdTables
  ledger : Ledger (Option ι)

variable [DecidableEq ι]

namespace FdProc

/-- A host call returns the new descriptor `h`. -/
def hostOpen (p : FdProc ι) (i : ι) (h : ℕ) : FdProc ι :=
  { p with ledger := p.ledger.opened (some i) h }

/-- `close(h)`, also as part of `fclose` and `closedir`. -/
def hostClose (p : FdProc ι) (i : ι) (h : ℕ) : FdProc ι :=
  { p with ledger := p.ledger.closed (some i) h }

/-- Store a value in `fd_map`. -/
def setFd (p : FdProc ι) (w : ℕ) (v : ℤ) : FdProc ι :=
  { p with t := { p.t with fdMap := Function.update p.t.fdMap w v } }

/-- Store an entry in `file_slots` and `file_wfds`. -/
def setFile (p : FdProc ι) (k : ℕ) (file : Option ℕ) (wfd : ℤ) : FdProc ι :=
  { p with
    t := { p.t with
      fileSlots := Function.update p.t.fileSlots k file
      fileWfds := Function.update p.t.fileWfds k wfd } }

/-- Store an entry in the directory table. -/
def setDir (p : FdProc ι) (k : ℕ) (dir : Option (ℕ × ℤ)) : FdProc ι :=
  { p with t := { p.t with dirSlots := Function.update p.t.dirSlots k dir } }

/-- `yos_fd_alloc`, with what it does to the host. -/
def fdAlloc (p : FdProc ι) (i : ι) (h : ℕ) : FdProc ι × ℤ :=
  let a := yosFdAlloc p.t.fdMap h
  (a.closes.foldl (fun p h => p.hostClose i h.toNat) { p with t := { p.t with fdMap := a.fdMap } },
    a.wfd)

/-- `yos_fd_close`. -/
def fdClose (p : FdProc ι) (i : ι) (wfd : ℤ) : FdProc ι :=
  if wfd < 0 ∨ fdMax ≤ wfd then p
  else
    let hfd := p.t.fdMap wfd.toNat
    if hfd < 0 then p else (p.hostClose i hfd.toNat).setFd wfd.toNat (-1)

/-- `yos_open`; the descriptors of emulated pipes and terminals are handled alike. -/
def yosOpen (p : FdProc ι) (i : ι) (r : ℕ) : FdProc ι := ((p.hostOpen i r).fdAlloc i r).1

/-- The end of the bridges that close the descriptor again when there is no guest descriptor for
it. -/
def allocOrClose (p : FdProc ι) (i : ι) (r : ℕ) : FdProc ι × ℤ :=
  let (q, wfd) := (p.hostOpen i r).fdAlloc i r
  if wfd < 0 then (q.hostClose i r, wfd) else (q, wfd)

/-- `yos_openat`. -/
def yosOpenat (p : FdProc ι) (i : ι) (r : ℕ) : FdProc ι := (p.allocOrClose i r).1

/-- `yos_socket`. -/
def yosSocket (p : FdProc ι) (i : ι) (r : ℕ) : FdProc ι := (p.allocOrClose i r).1

/-- The guest descriptor has an entry. -/
def mapped (p : FdProc ι) (wfd : ℤ) : Bool :=
  0 ≤ wfd ∧ wfd < fdMax ∧ 0 ≤ p.t.fdMap wfd.toNat

/-- `yos_dup`. -/
def yosDup (p : FdProc ι) (i : ι) (wfd : ℤ) (r : ℕ) : FdProc ι :=
  if p.mapped wfd then (p.allocOrClose i r).1 else p

/-- `yos_accept`; `yos_accept4` does the same with the descriptors. -/
def yosAccept (p : FdProc ι) (i : ι) (wfd : ℤ) (r : ℕ) : FdProc ι :=
  if p.mapped wfd then (p.allocOrClose i r).1 else p

/-- `yos_posix_openpt` on a host that has pseudo terminals. -/
def yosPosixOpenpt (p : FdProc ι) (i : ι) (r : ℕ) : FdProc ι := (p.allocOrClose i r).1

/-- `yos_posix_openpt` with a socket pair instead; the second socket stays with the terminal. -/
def yosPosixOpenptPair (p : FdProc ι) (i : ι) (r₀ r₁ : ℕ) : FdProc ι :=
  ((p.hostOpen i r₁).allocOrClose i r₀).1

/-- `alloc_wasm_fd_for_host_dir`; `copy` is the result of the host's `dup`. -/
def allocWasmFdForHostDir (p : FdProc ι) (i : ι) : (copy : Option ℕ) → FdProc ι × ℤ
  | none => (p, -1)
  | some duped =>
    let (q, wfd) := p.allocOrClose i duped
    if wfd < 0 then (q, -1) else (q, wfd)

/-- `yos_opendir` for a host directory; `finalised` says that `slot_finalise` found guest memory. -/
def yosOpendir (p : FdProc ι) (i : ι) (d : ℕ) (copy : Option ℕ) (finalised : Bool) : FdProc ι :=
  let p := p.hostOpen i d
  match p.t.freeDir with
  | none => p.hostClose i d
  | some k =>
    let (p, wfd) := p.allocWasmFdForHostDir i copy
    if finalised then p.setDir k (some (d, wfd)) else p.hostClose i d

/-- `yos_closedir` of the directory in slot `k`. -/
def yosClosedir (p : FdProc ι) (i : ι) (k : ℕ) : FdProc ι :=
  match p.t.dirSlots k with
  | none => p
  | some (d, wfd) => ((p.hostClose i d).fdClose i wfd).setDir k none

/-- `yos_fopen` and `yos_alloc_file_handle_with_mode`. -/
def yosFopen (p : FdProc ι) (i : ι) (r : ℕ) : FdProc ι :=
  let (p, wfd) := (p.hostOpen i r).fdAlloc i r
  match p.t.freeFile with
  | some k => p.setFile k (some r) (if 0 ≤ wfd then -(wfd + 1) else -1)
  | none => (p.fdClose i wfd).hostClose i r

/-- `free_handle`. -/
def freeHandle (p : FdProc ι) (k : ℕ) : FdProc ι :=
  let stored := p.t.fileWfds k
  let p := p.setFile k none (-1)
  if 0 ≤ stored then (if stored < fdMax then p.setFd stored.toNat fdFcloseTomb else p)
  else if stored < -1 then
    let wfd := -(stored + 1)
    if 0 ≤ wfd ∧ wfd < fdMax then p.setFd wfd.toNat (-1) else p
  else p

/-- `yos_fclose`.  The handles 1, 2 and 3 are the standard streams of the host. -/
def yosFclose (p : FdProc ι) (i : ι) (fp : ℕ) : FdProc ι :=
  if 1 ≤ fp ∧ fp ≤ 3 then p.hostClose i (fp - 1)
  else if fp < 4 ∨ fileMax ≤ fp then p
  else
    match p.t.fileSlots fp with
    | none => p
    | some h => (p.hostClose i h).freeHandle fp

/-- `yos_close`; a virtual file has no host descriptor. -/
def yosClose (p : FdProc ι) (i : ι) (fd : ℤ) : FdProc ι :=
  if vfsFdBase ≤ fd then p else p.fdClose i fd

/-- One iteration of the loops that close the entries of `fd_map` that satisfy `drop`. -/
def sweepOne (i : ι) (drop : ℤ → Bool) (p : FdProc ι) (w : ℕ) : FdProc ι :=
  let hfd := p.t.fdMap w
  if 0 ≤ hfd ∧ drop hfd then (p.hostClose i hfd.toNat).setFd w (-1) else p

/-- The end of `yos_execve`; `cloexec` tells which host descriptors have `FD_CLOEXEC`. -/
def yosExecveSweep (p : FdProc ι) (i : ι) (cloexec : ℤ → Bool) : FdProc ι :=
  (List.range fdMax).foldl (sweepOne i cloexec) p

/-- The sweep of `fork_thread_func` when a forked child runs a new program. -/
def childExecSweep (p : FdProc ι) (i : ι) (cloexec : ℤ → Bool) : FdProc ι :=
  (List.range' 3 (fdMax - 3)).foldl (sweepOne i cloexec) p

/-- One iteration of the loop that closes the streams. -/
def closeFile (i : ι) (p : FdProc ι) (k : ℕ) : FdProc ι :=
  match p.t.fileSlots k with
  | none => p
  | some h => (p.setFile k none (-1)).hostClose i h

/-- The descriptors in `yos_proc_post_exit_cleanup`. -/
def yosProcPostExitCleanup (p : FdProc ι) (i : ι) : FdProc ι :=
  (List.range fileMax).foldl (closeFile i)
    ((List.range fdMax).foldl (sweepOne i fun hfd => 3 ≤ hfd) p)

end FdProc

/-! ## The system -/

/-- The calls, with the results of the host calls they make. -/
inductive FdLifeCall where
  | openFile (r : ℕ)
  | openat (r : ℕ)
  | dup (wfd : ℤ) (r : ℕ)
  | socket (r : ℕ)
  | accept (wfd : ℤ) (r : ℕ)
  | openpt (r : ℕ)
  | openptPair (r₀ r₁ : ℕ)
  | opendir (d : ℕ) (copy : Option ℕ) (finalised : Bool)
  | closedir (k : ℕ)
  | fopen (r : ℕ)
  | fclose (fp : ℕ)
  | close (fd : ℤ)
  | execve (cloexec : ℤ → Bool)
  | childExec (cloexec : ℤ → Bool)
  | exit

/-- The effect of a call of guest `i`. -/
def FdProc.call (p : FdProc ι) (i : ι) : FdLifeCall → FdProc ι
  | .openFile r => p.yosOpen i r
  | .openat r => p.yosOpenat i r
  | .dup wfd r => p.yosDup i wfd r
  | .socket r => p.yosSocket i r
  | .accept wfd r => p.yosAccept i wfd r
  | .openpt r => p.yosPosixOpenpt i r
  | .openptPair r₀ r₁ => p.yosPosixOpenptPair i r₀ r₁
  | .opendir d copy finalised => p.yosOpendir i d copy finalised
  | .closedir k => p.yosClosedir i k
  | .fopen r => p.yosFopen i r
  | .fclose fp => p.yosFclose i fp
  | .close fd => p.yosClose i fd
  | .execve cloexec => p.yosExecveSweep i cloexec
  | .childExec cloexec => p.childExecSweep i cloexec
  | .exit => p.yosProcPostExitCleanup i

/-- The descriptors the host returns during a call. -/
def FdLifeCall.news : FdLifeCall → List ℕ
  | .openFile r | .openat r | .dup _ r | .socket r | .accept _ r | .openpt r | .fopen r => [r]
  | .openptPair r₀ r₁ => [r₀, r₁]
  | .opendir d copy _ => d :: copy.toList
  | .closedir _ | .fclose _ | .close _ | .execve _ | .childExec _ | .exit => []

/-- The guests and the host. -/
structure FdWorld (ι : Type) where
  tables : ι → FdTables
  ledger : Ledger (Option ι)

/-- The state after a call of guest `i`. -/
def FdWorld.next (s : FdWorld ι) (i : ι) (c : FdLifeCall) : FdWorld ι :=
  let p := FdProc.call ⟨s.tables i, s.ledger⟩ i c
  ⟨Function.update s.tables i p.t, p.ledger⟩

/-- A guest starts with three descriptors of its own at 0, 1 and 2. -/
structure FdStarted (s : FdWorld ι) : Prop where
  clean : s.ledger.clean = true
  stdio : ∀ i, ∀ w < 3, ∃ h : ℕ, 3 ≤ h ∧ (s.tables i).fdMap w = h ∧
    s.ledger.owner h = some (some i)
  distinct : ∀ i, ∀ w < 3, ∀ v < 3, (s.tables i).fdMap w = (s.tables i).fdMap v → w = v
  rest : ∀ i w, 3 ≤ w → (s.tables i).fdMap w = -1
  noFiles : ∀ i k, (s.tables i).fileSlots k = none
  noDirs : ∀ i k, (s.tables i).dirSlots k = none

/-- The runs of any number of guests.  A host call returns a number that is not open. -/
def fdSystem (ι : Type) [DecidableEq ι] : System (FdWorld ι) (ι × FdLifeCall) where
  init := FdStarted
  step s a s' := a.2.news.Nodup ∧ (∀ h ∈ a.2.news, s.ledger.owner h = none) ∧ s' = s.next a.1 a.2

/-- The calls that do not close a descriptor of another: those that close their descriptor again
find a free entry in `fd_map`, `yos_fopen` finds a free handle, `yos_fclose` gets a handle whose
guest descriptor is not 0 and still stands for the descriptor of the stream, and a process exits
without open streams. -/
def FdOk (s : FdWorld ι) : ι × FdLifeCall → Prop
  | (i, .openat _) | (i, .socket _) | (i, .openpt _) | (i, .openptPair _ _) =>
    (firstFree (s.tables i).fdMap).isSome
  | (i, .dup wfd _) | (i, .accept wfd _) =>
    FdProc.mapped ⟨s.tables i, s.ledger⟩ wfd → (firstFree (s.tables i).fdMap).isSome
  | (i, .opendir _ copy _) =>
    (s.tables i).freeDir.isSome → copy.isSome → (firstFree (s.tables i).fdMap).isSome
  | (i, .fopen _) => (s.tables i).freeFile.isSome
  | (i, .fclose fp) =>
    ¬ (1 ≤ fp ∧ fp ≤ 3) ∧ ∀ h, 4 ≤ fp → fp < fileMax → (s.tables i).fileSlots fp = some h →
      ∃ w : ℕ, 1 ≤ w ∧ w < fdMax ∧ (s.tables i).fileWfds fp = -(w + 1) ∧ (s.tables i).fdMap w = h
  | (i, .exit) => ∀ k < fileMax, (s.tables i).fileSlots k = none
  | (_, .openFile _) | (_, .closedir _) | (_, .close _) | (_, .execve _) | (_, .childExec _) => True

end Yos
