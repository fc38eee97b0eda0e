import Yos.Io.FdLife
import Yos.Libc.Env
import Yos.Mem.Mmap
import Yos.Proc.Setjmp

/-!
# The copy of a process made by `fork` (`impl/proc/proc.c`)

`yos_fork_pump` collects the state of the parent in a `fork_thread_arg_t`, and `fork_thread_func`
fills a zeroed context from it.  A field that is in neither of the two copies starts at zero in the
child.  `fork_copies_iff` says for which parents the child behaves as the parent would: those in
which every such field is still zero.

A descriptor or a stream is known by the open file it stands for, since parent and child refer to
the same open files by different host descriptors.  The copy of the linear memory is taken to be
exact, and a directory stream is known by its slot.  Fields that no bridge of the memory, descriptor,
stream, environment, jump and key interfaces reads are left out.
-/

namespace Yos

/-! ## The context -/

/-- `WASM3MT_MAX_TLS_KEYS`. -/
def maxTlsKeys : ℕ := 64

/-- An entry of `fd_map`. -/
inductive FdEntry (φ : Type) where
  | free
  | tomb
  | file (f : φ)

/-- The open file of an entry. -/
def FdEntry.file? {φ : Type} : FdEntry φ → Option φ
  | .file f => some f
  | .free | .tomb => none

/-- A host stream: its open file, the bytes read ahead and the bytes not yet written. -/
structure Stream (φ : Type) where
  file : φ
  readAhead : List UInt8
  unwritten : List UInt8

/-- The fields of `struct yos_exec_ctx` that the interfaces use.  `dirSlots` has the guest descriptor
of an open directory and `procfsFds` the node of an open virtual file; `envp` is the vector the
environment is loaded from. -/
structure ForkCtx (φ : Type) where
  sj : SjCtx
  fdMap : Fin fdMax → FdEntry φ
  fdPaths : Fin fdMax → Option String
  cwd : String
  umask : ℕ
  fileSlots : Fin fileMax → Option (Stream φ)
  fileWfds : Fin fileMax → ℤ
  dirSlots : Fin dirMax → Option ℤ
  procfsFds : ℕ → Option ℕ
  envStore : EnvStore
  envp : List (List UInt8)
  sigHandlers : ℕ → ℕ
  sigIgnoreMask : ℕ
  sigMask : ℕ
  sigPending : ℕ
  nextKey : ℕ
  tls : Fin maxTlsKeys → ℕ

variable {φ : Type}

/-! ## The two copies -/

/-- Which duplications of host descriptors and streams succeed. -/
structure HostDups where
  fd : Fin fdMax → Bool
  stream : Fin fileMax → Bool

/-- `fork_thread_arg_t`. -/
structure ForkThreadArg (φ : Type) where
  memorySnapshot : Bytes
  memorySize : ℕ
  asyncifyPtr : ℕ
  sjDiscardPtr : ℕ
  heapEnd : ℕ
  allocLo : ℕ
  allocHi : ℕ
  allocFreeHead : ℕ
  mmapTop : ℕ
  freeList : List Span
  envp : List (List UInt8)
  parentFdMap : Fin fdMax → FdEntry φ
  parentCwd : String
  parentSigHandlers : ℕ → ℕ
  parentSigIgnoreMask : ℕ
  parentSigMask : ℕ
  parentSigPending : ℕ
  parentFileDupFps : Fin fileMax → Option (Stream φ)
  parentFileDupWfds : Fin fileMax → ℤ
  parentEnvStore : EnvStore
  parentUmask : ℕ

/-- The loop of `yos_fork_pump` over `fd_map`. -/
def dupFdMap (dups : HostDups) (p : ForkCtx φ) (w : Fin fdMax) : FdEntry φ :=
  match p.fdMap w with
  | .file f => if dups.fd w then .file f else .free
  | .free | .tomb => .free

/-- The loop of `yos_fork_pump` over the streams: a new stream on the same file. -/
def dupStream (dups : HostDups) (p : ForkCtx φ) (k : Fin fileMax) : Option (Stream φ) :=
  match p.fileSlots k with
  | some s => if dups.stream k then some ⟨s.file, [], []⟩ else none
  | none => none

/-- The part of `yos_fork_pump` that fills the argument of the child's thread. -/
def yosForkPump (dups : HostDups) (p : ForkCtx φ) : ForkThreadArg φ where
  memorySnapshot := p.sj.mem.memory
  memorySize := p.sj.mem.memorySize
  asyncifyPtr := p.sj.asyncifyPtr
  sjDiscardPtr := p.sj.sjDiscardPtr
  heapEnd := p.sj.mem.heapEnd
  allocLo := p.sj.mem.allocLo
  allocHi := p.sj.mem.allocHi
  allocFreeHead := p.sj.mem.allocFreeHead
  mmapTop := p.sj.mem.mmapTop
  freeList := p.sj.mem.freeList
  envp := p.envp
  parentFdMap := dupFdMap dups p
  parentCwd := p.cwd
  parentSigHandlers := p.sigHandlers
  parentSigIgnoreMask := p.sigIgnoreMask
  parentSigMask := p.sigMask
  parentSigPending := p.sigPending
  parentFileDupFps := dupStream dups p
  parentFileDupWfds := fun k => if (dupStream dups p k).isSome then p.fileWfds k else -1
  parentEnvStore := p.envStore
  parentUmask := p.umask

/-- The context `fork_thread_func` builds; what it does not assign is zero. -/
def forkThreadFunc (a : ForkThreadArg φ) : ForkCtx φ where
  sj :=
    { mem :=
        { memory := a.memorySnapshot
          memorySize := a.memorySize
          heapEnd := a.heapEnd
          mmapTop := a.mmapTop
          freeList := a.freeList
          liveList := []
          allocLo := a.allocLo
          allocHi := a.allocHi
          allocFreeHead := a.allocFreeHead }
      asyncifyPtr := a.asyncifyPtr
      sjDiscardPtr := a.sjDiscardPtr
      sjSlots := List.replicate sjSlotCount ⟨0, 0, none⟩
      setjmpPending := none
      longjmpPending := false
      longjmpTarget := 0
      longjmpValue := 0 }
  fdMap := a.parentFdMap
  fdPaths := fun _ => none
  cwd := a.parentCwd
  umask := a.parentUmask
  fileSlots := a.parentFileDupFps
  fileWfds := a.parentFileDupWfds
  dirSlots := fun _ => none
  procfsFds := fun _ => none
  envStore := a.parentEnvStore
  envp := a.envp
  sigHandlers := a.parentSigHandlers
  sigIgnoreMask := a.parentSigIgnoreMask
  sigMask := a.parentSigMask
  sigPending := a.parentSigPending
  nextKey := 0
  tls := fun _ => 0

/-- The child of a process. -/
def forkChild (dups : HostDups) (p : ForkCtx φ) : ForkCtx φ := forkThreadFunc (yosForkPump dups p)

/-! ## The bridges -/

/-- What a guest sees of a call.  `file` and `host` stand for an access to an open file and to a
standard stream of the host. -/
inductive ForkResult (φ : Type) where
  | num (n : ℤ)
  | host (fp : ℕ)
  | err (e : Errno)
  | file (f : φ)
  | text (s : String)
  | bytes (l : List UInt8)
  | exits (code : ℤ)

/-- The result of a function with an error number. -/
def ForkResult.ofExcept {α : Type} (value : α → ℤ) : Except Errno α → ForkResult φ
  | .ok a => .num (value a)
  | .error e => .err e

/-- The result of a function that stores its error number. -/
def ForkResult.ofRet (r : Ret) : ForkResult φ :=
  match r.errno with
  | some e => .err e
  | none => .num r.value

namespace ForkCtx

/-- Replace the memory part. -/
def setMem (p : ForkCtx φ) (mem : MemCtx) : ForkCtx φ := { p with sj := { p.sj with mem } }

/-- The slot of a guest descriptor. -/
def fdSlot (wfd : ℤ) : Option (Fin fdMax) :=
  if h : 0 ≤ wfd ∧ wfd < fdMax then some ⟨wfd.toNat, by omega⟩ else none

/-- The slot of a stream handle; 1, 2 and 3 are the standard streams of the host. -/
def fileSlot (fp : ℕ) : Option (Fin fileMax) :=
  if h : 4 ≤ fp ∧ fp < fileMax then some ⟨fp, h.2⟩ else none

/-- The slot and the stream of a handle of the guest (`yos_handle_to_file`). -/
def fileAt (p : ForkCtx φ) (fp : ℕ) : Option (Fin fileMax × Stream φ) :=
  (fileSlot fp).bind fun k => (p.fileSlots k).map fun s => (k, s)

/-- The open file of a guest descriptor (`yos_fd_get`), with its slot. -/
def fdFile (p : ForkCtx φ) (wfd : ℤ) : Option (Fin fdMax × φ) :=
  (fdSlot wfd).bind fun w => (p.fdMap w).file?.map fun f => (w, f)

/-- Store an entry of `fd_map` with its path. -/
def setFd (p : ForkCtx φ) (w : Fin fdMax) (entry : FdEntry φ) (path : Option String) : ForkCtx φ :=
  { p with
    fdMap := Function.update p.fdMap w entry
    fdPaths := Function.update p.fdPaths w path }

/-- The slot `yos_fd_alloc` takes. -/
def freeFd (p : ForkCtx φ) : Option (Fin fdMax) :=
  (List.finRange fdMax).find? fun w => match p.fdMap w with
    | .free => true
    | .tomb | .file _ => false

/-- `yos_fd_alloc_with_path` for an open file. -/
def allocFd (p : ForkCtx φ) (f : φ) (path : Option String) : ForkCtx φ × ℤ :=
  match p.freeFd with
  | some w => (p.setFd w (.file f) path, w)
  | none => (p, -emfile)

/-- `yos_close`, for a descriptor of the table. -/
def close (p : ForkCtx φ) (wfd : ℤ) : ForkCtx φ × ForkResult φ :=
  match p.fdFile wfd with
  | some (w, _) => (p.setFd w .free none, .num 0)
  | none => (p, .err .EBADF)

/-- `yos_dup`. -/
def dup (p : ForkCtx φ) (wfd : ℤ) : ForkCtx φ × ForkResult φ :=
  match p.fdFile wfd with
  | none => (p, .err .EBADF)
  | some (w, f) =>
    match p.allocFd f (p.fdPaths w) with
    | (q, new) => if new < 0 then (q, .err .EMFILE) else (q, .num new)

/-- `yos_dup2`. -/
def dup2 (p : ForkCtx φ) (oldfd newfd : ℤ) : ForkCtx φ × ForkResult φ :=
  match p.fdFile oldfd with
  | none => (p, .err .EBADF)
  | some (w, f) =>
    if oldfd = newfd then (p, .num newfd)
    else
      match fdSlot newfd with
      | none => (p, .err .EBADF)
      | some new => (p.setFd new (.file f) (p.fdPaths w), .num newfd)

/-- `yos_fchdir`; `isDir` tells the directories among the open files. -/
def fchdir (isDir : φ → Bool) (p : ForkCtx φ) (wfd : ℤ) : ForkCtx φ × ForkResult φ :=
  match p.fdFile wfd with
  | none => (p, .err .EBADF)
  | some (w, f) =>
    if !isDir f then (p, .err .ENOTDIR)
    else
      match p.fdPaths w with
      | some path => ({ p with cwd := path }, .num 0)
      | none => (p, .num 0)

/-- Store a stream and its guest descriptor. -/
def setFile (p : ForkCtx φ) (k : Fin fileMax) (s : Option (Stream φ)) (wfd : ℤ) : ForkCtx φ :=
  { p with
    fileSlots := Function.update p.fileSlots k s
    fileWfds := Function.update p.fileWfds k wfd }

/-- The slot `yos_alloc_file_handle_with_mode` takes. -/
def freeFile (p : ForkCtx φ) : Option (Fin fileMax) :=
  (List.finRange fileMax).find? fun k => 4 ≤ k.val && (p.fileSlots k).isNone

/-- `yos_fopen` of the host file `f`; the result is the handle. -/
def fopen (p : ForkCtx φ) (f : φ) : ForkCtx φ × ForkResult φ :=
  let (q, wfd) := p.allocFd f none
  match q.freeFile with
  | some k => (q.setFile k (some ⟨f, [], []⟩) (if 0 ≤ wfd then -(wfd + 1) else -1), .num k)
  | none => ((q.close wfd).1, .num 0)

/-- `yos_fdopen`. -/
def fdopen (p : ForkCtx φ) (wfd : ℤ) : ForkCtx φ × ForkResult φ :=
  match p.fdFile wfd with
  | none => (p, .num 0)
  | some (w, f) =>
    match p.freeFile with
    | some k => (p.setFile k (some ⟨f, [], []⟩) wfd, .num k)
    | none => (p.setFd w .tomb none, .num 0)

/-- An access to a standard stream goes to the file of its descriptor (`std_handle_hfd`), else to
the stream of the host. -/
def stdAccess (p : ForkCtx φ) (fp : ℕ) : ForkResult φ :=
  match p.fdFile ((fp : ℤ) - 1) with
  | some (_, f) => .file f
  | none => .host fp

/-- `yos_fileno`. -/
def fileno (p : ForkCtx φ) (fp : ℕ) : ForkResult φ :=
  if 1 ≤ fp ∧ fp ≤ 3 then .num (fp - 1)
  else
    match fileSlot fp with
    | none => .num (-1)
    | some k => if p.fileWfds k < -1 then .num (-(p.fileWfds k + 1)) else .num (p.fileWfds k)

/-- `yos_fgetc`; `refill` is what the host reads when nothing is read ahead. -/
def fgetc (p : ForkCtx φ) (fp : ℕ) (refill : List UInt8) : ForkCtx φ × ForkResult φ :=
  if 1 ≤ fp ∧ fp ≤ 3 then (p, p.stdAccess fp)
  else
    match p.fileAt fp with
    | none => (p, .num (-1))
    | some (k, s) =>
      match if s.readAhead = [] then refill else s.readAhead with
      | [] => (p, .num (-1))
      | b :: rest =>
        (p.setFile k (some { s with readAhead := rest }) (p.fileWfds k), .num b.toNat)

/-- `yos_fputc`; a guest stream keeps the byte until it is flushed. -/
def fputc (p : ForkCtx φ) (fp : ℕ) (b : UInt8) : ForkCtx φ × ForkResult φ :=
  if 1 ≤ fp ∧ fp ≤ 3 then (p, p.stdAccess fp)
  else
    match p.fileAt fp with
    | none => (p, .num (-1))
    | some (k, s) =>
      (p.setFile k (some { s with unwritten := s.unwritten ++ [b] }) (p.fileWfds k), .num b.toNat)

/-- `yos_fflush` of one stream; the result is what reaches the file. -/
def fflush (p : ForkCtx φ) (fp : ℕ) : ForkCtx φ × ForkResult φ :=
  match p.fileAt fp with
  | none => (p, .bytes [])
  | some (k, s) => (p.setFile k (some { s with unwritten := [] }) (p.fileWfds k), .bytes s.unwritten)

/-- `free_handle`. -/
def freeHandle (p : ForkCtx φ) (k : Fin fileMax) : ForkCtx φ :=
  let stored := p.fileWfds k
  let p := p.setFile k none (-1)
  if 0 ≤ stored then
    match fdSlot stored with
    | some w => p.setFd w .tomb none
    | none => p
  else if stored < -1 then
    match fdSlot (-(stored + 1)) with
    | some w => p.setFd w .free none
    | none => p
  else p

/-- `yos_fclose`; the result is what reaches the file. -/
def fclose (p : ForkCtx φ) (fp : ℕ) : ForkCtx φ × ForkResult φ :=
  if 1 ≤ fp ∧ fp ≤ 3 then (p, .host fp)
  else
    match p.fileAt fp with
    | none => (p, .err .EBADF)
    | some (k, s) => (p.freeHandle k, .bytes s.unwritten)

/-- The slot of a directory stream; slot 0 is never taken. -/
def dirSlot (h : ℕ) : Option (Fin dirMax) :=
  if r : 0 < h ∧ h < dirMax then some ⟨h, r.2⟩ else none

/-- `slot_get`: the slot and the guest descriptor of an open directory stream. -/
def dirAt (p : ForkCtx φ) (h : ℕ) : Option (Fin dirMax × ℤ) :=
  (dirSlot h).bind fun k => (p.dirSlots k).map fun wfd => (k, wfd)

/-- `slot_reserve`. -/
def freeDir (p : ForkCtx φ) : Option (Fin dirMax) :=
  (List.finRange dirMax).find? fun k => 0 < k.val && (p.dirSlots k).isNone

/-- `yos_opendir` of the host directory `f`. -/
def opendir (p : ForkCtx φ) (f : φ) (path : String) : ForkCtx φ × ForkResult φ :=
  match p.freeDir with
  | none => (p, .err .EMFILE)
  | some k =>
    let (q, wfd) := p.allocFd f (some path)
    ({ q with dirSlots := Function.update q.dirSlots k (some (if wfd < 0 then -1 else wfd)) },
      .num k)

/-- `yos_closedir`. -/
def closedir (p : ForkCtx φ) (h : ℕ) : ForkCtx φ × ForkResult φ :=
  match p.dirAt h with
  | none => (p, .err .EBADF)
  | some (k, wfd) =>
    let q := (p.close wfd).1
    ({ q with dirSlots := Function.update q.dirSlots k none }, .num 0)

/-- `yos_dirfd`. -/
def dirfd (p : ForkCtx φ) (h : ℕ) : ForkResult φ :=
  match p.dirAt h with
  | none => .err .EBADF
  | some (_, wfd) => if wfd < 0 then .err .EBADF else .num wfd

/-- The virtual file of a descriptor from `YOS_VFS_FD_BASE` on. -/
def virtualFile (p : ForkCtx φ) (fd : ℕ) : ForkResult φ :=
  match p.procfsFds fd with
  | some node => .num node
  | none => .err .EBADF

/-- Run a bridge of the environment. -/
def withEnv {α : Type} (p : ForkCtx φ) (bridge : EnvCtx → EnvCtx × α) : ForkCtx φ × α :=
  let (e, r) := bridge ⟨p.sj.mem, p.envStore⟩
  ({ p.setMem e.mem with envStore := e.store }, r)

/-- `m3_longjmp`; without a matching slot the process exits. -/
def longjmp (p : ForkCtx φ) (jmpBufPtr : ℕ) (val : ℤ) : ForkCtx φ × ForkResult φ :=
  match sjFindSlot p.sj.sjSlots jmpBufPtr with
  | none => (p, .exits (if val = 0 then 1 else val))
  | some _ => ({ p with sj := p.sj.longjmp jmpBufPtr val }, .num 0)

/-- `host_pthread_key_create`; the result is the new key. -/
def keyCreate (p : ForkCtx φ) : ForkCtx φ × ForkResult φ :=
  ({ p with nextKey := (p.nextKey + 1) % 2 ^ 32 },
    if maxTlsKeys ≤ p.nextKey then .num (-1) else .num p.nextKey)

/-- The value of a key. -/
def tlsSlot (key : ℕ) : Option (Fin maxTlsKeys) :=
  if h : key < maxTlsKeys then some ⟨key, h⟩ else none

/-- `host_pthread_setspecific`. -/
def setspecific (p : ForkCtx φ) (key value : ℕ) : ForkCtx φ × ForkResult φ :=
  match tlsSlot key with
  | some k => ({ p with tls := Function.update p.tls k value }, .num 0)
  | none => (p, .num (-1))

/-- `host_pthread_getspecific`. -/
def getspecific (p : ForkCtx φ) (key : ℕ) : ForkResult φ :=
  match tlsSlot key with
  | some k => .num (p.tls k)
  | none => .num 0

end ForkCtx

/-- The calls of the interfaces, and the guest's own accesses to its memory. -/
inductive ForkCall (φ : Type) where
  | load (a : ℕ)
  | store (a : ℕ) (v : UInt8)
  | brk (addr : ℕ)
  | mmap2 (addr length flags : ℕ) (fd : ℤ)
  | munmap (addr len : ℕ)
  | malloc (size : ℕ)
  | free (off : ℕ)
  | openFile (f : φ) (path : String)
  | close (wfd : ℤ)
  | dup (wfd : ℤ)
  | fdGet (wfd : ℤ)
  | dup2 (oldfd newfd : ℤ)
  | fchdir (wfd : ℤ)
  | getcwd
  | umask (mask : ℕ)
  | fopen (f : φ)
  | fdopen (wfd : ℤ)
  | fileno (fp : ℕ)
  | fgetc (fp : ℕ) (refill : List UInt8)
  | fputc (fp : ℕ) (b : UInt8)
  | fflush (fp : ℕ)
  | fclose (fp : ℕ)
  | opendir (f : φ) (path : String)
  | closedir (h : ℕ)
  | dirfd (h : ℕ)
  | virtualFile (fd : ℕ)
  | getenv (nameOff : ℕ)
  | setenv (nameOff valueOff : ℕ) (overwrite : Bool)
  | unsetenv (nameOff : ℕ)
  | setjmp (jmpBufPtr : ℕ) (rewinding : Bool) (sp : ℕ)
  | longjmp (jmpBufPtr : ℕ) (val : ℤ)
  | pump
  | keyCreate
  | keyDelete (key : ℕ)
  | setspecific (key value : ℕ)
  | getspecific (key : ℕ)

/-- The context after a call, and what the guest sees. -/
def ForkCtx.call (isDir : φ → Bool) (p : ForkCtx φ) : ForkCall φ → ForkCtx φ × ForkResult φ
  | .load a => (p, .num (p.sj.mem.memory a).toNat)
  | .store a v =>
    (p.setMem { p.sj.mem with memory := Function.update p.sj.mem.memory a v }, .num 0)
  | .brk addr => let (mem, r) := yosBrk p.sj.mem addr; (p.setMem mem, .ofExcept (fun n => (n : ℤ)) r)
  | .mmap2 addr length flags fd =>
    let (mem, r) := yosMmap2 p.sj.mem addr length flags fd
    (p.setMem mem, .ofExcept (fun n => (n : ℤ)) r)
  | .munmap addr len =>
    let (mem, r) := yosMunmap p.sj.mem addr len
    (p.setMem mem, .ofExcept (fun _ => 0) r)
  | .malloc size => let (mem, off) := yosMalloc p.sj.mem size; (p.setMem mem, .num off)
  | .free off => (p.setMem (freeOff p.sj.mem off), .num 0)
  | .openFile f path => let (q, wfd) := p.allocFd f (some path); (q, .num wfd)
  | .close wfd => p.close wfd
  | .dup wfd => p.dup wfd
  | .fdGet wfd =>
    match p.fdFile wfd with
    | some (_, f) => (p, .file f)
    | none => (p, .err .EBADF)
  | .dup2 oldfd newfd => p.dup2 oldfd newfd
  | .fchdir wfd => p.fchdir isDir wfd
  | .getcwd => (p, .text p.cwd)
  | .umask mask => ({ p with umask := mask % 2 ^ 9 }, .num p.umask)
  | .fopen f => p.fopen f
  | .fdopen wfd => p.fdopen wfd
  | .fileno fp => (p, p.fileno fp)
  | .fgetc fp refill => p.fgetc fp refill
  | .fputc fp b => p.fputc fp b
  | .fflush fp => p.fflush fp
  | .fclose fp => p.fclose fp
  | .opendir f path => p.opendir f path
  | .closedir h => p.closedir h
  | .dirfd h => (p, p.dirfd h)
  | .virtualFile fd => (p, p.virtualFile fd)
  | .getenv nameOff =>
    let (q, off) := p.withEnv fun e => yosGetenv e p.envp nameOff
    (q, .num off)
  | .setenv nameOff valueOff overwrite =>
    let (q, r) := p.withEnv fun e => yosSetenv e p.envp nameOff valueOff overwrite
    (q, .ofRet r)
  | .unsetenv nameOff =>
    let (q, r) := p.withEnv fun e => yosUnsetenv e p.envp nameOff
    (q, .ofRet r)
  | .setjmp jmpBufPtr rewinding sp =>
    let (sj, r) := p.sj.setjmp jmpBufPtr rewinding sp
    ({ p with sj }, .num r)
  | .longjmp jmpBufPtr val => p.longjmp jmpBufPtr val
  | .pump => ({ p with sj := p.sj.pump }, .num 0)
  | .keyCreate => p.keyCreate
  | .keyDelete _ => (p, .num 0)
  | .setspecific key value => p.setspecific key value
  | .getspecific key => (p, p.getspecific key)

/-- What the guest sees of a sequence of calls. -/
def ForkCtx.outcomes (isDir : φ → Bool) : ForkCtx φ → List (ForkCall φ) → List (ForkResult φ)
  | _, [] => []
  | p, c :: calls =>
    let (q, r) := p.call isDir c
    r :: q.outcomes isDir calls

end Yos
