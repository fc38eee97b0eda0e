import Yos.Io.FdLife
import Yos.Lib.Account
import Yos.Libc.Env
import Yos.Mem.HeapClient

/-!
# Directory streams (`impl/io/dir.c`, `vfs/procfs.c`, `vfs/file.c`)

A guest's `DIR *` points to a header in its heap, with a guest descriptor and the index of a slot of the
process.  The slot has a stream of the host, or a file of a virtual filesystem and what was read ahead of it.
Each entry is put into a block of the guest's heap in the guest's form.

The calls are steps of `dirSystem`.  What the host answers is an input: descriptors that are not open, and the
entries of a host directory, which it delivers again after `rewinddir`.  The process table does not change
during the calls.  The path recorded for a guest descriptor, the pump for signals and the content of the
virtual files that are no directories are left out, and the host does not run out of memory.
-/

namespace Yos.DirStream

open Word Bytes

/-! ## Entries -/

/-- An entry, of the host's `readdir` or of `getdents64`. -/
structure Dirent where
  fileno : UInt64
  off : UInt64
  type : UInt8
  name : List UInt8
deriving DecidableEq

/-- A number in `n` bytes, the lowest first. -/
def le (n v : ℕ) : List UInt8 := (List.range n).map fun i => UInt8.ofNat (v / 256 ^ i)

/-- `YOS_FBSD_DIRENT_NAME_OFF`. -/
def fbsdDirentNameOff : ℕ := 24

/-- `YOS_FBSD_DIRENT_SIZE`. -/
def fbsdDirentSize : ℕ := 280

/-- The bytes that `emit_fbsd_dirent` stores. -/
def fbsdDirent (e : Dirent) : List UInt8 :=
  let name := e.name.take 255
  let reclen := (fbsdDirentNameOff + name.length + 1 + 7) / 8 * 8
  le 8 e.fileno.toNat ++ le 8 e.off.toNat ++ le 2 reclen ++ [e.type, 0] ++ le 2 name.length ++ [0, 0] ++ name ++
    List.replicate (fbsdDirentSize - fbsdDirentNameOff - name.length) 0

/-! ## The virtual filesystem -/

/-- `procfs_file_type`; the types that are no directories are one here. -/
inductive ProcfsType where
  | root
  | pidDir
  | other
deriving DecidableEq, Repr

/-- What the calls read of the processes: the numbers of those that are neither free nor zombies, in the order
of the table, and which numbers `yos_proc_find` knows. -/
structure ProcView where
  pids : List ℕ
  find : ℤ → Bool
  small : ∀ pid ∈ pids, pid < 2 ^ 31

/-- `struct yos_file`. -/
structure VfsFile where
  inUse : Bool
  dirIndex : ℕ
  procfsPid : ℤ
  procfsFileType : ProcfsType
deriving DecidableEq, Repr

/-- `YOS_MAX_VFS_FILES`. -/
def maxVfsFiles : ℕ := 256

/-- `rec_len`. -/
def recLen (name : List UInt8) : ℕ := (19 + name.length + 8) / 8 * 8

/-- A record of `getdents64`. -/
def dirent (ino : ℕ) (type : UInt8) (name : List UInt8) : Dirent :=
  ⟨UInt64.ofNat ino, UInt64.ofNat (recLen name), type, name⟩

/-- `DT_DIR`. -/
def dtDir : UInt8 := 4

/-- `DT_REG`. -/
def dtReg : UInt8 := 8

/-- `DT_LNK`. -/
def dtLnk : UInt8 := 10

/-- `root_entries`. -/
def rootEntries : List (List UInt8 × UInt8) :=
  [([115, 101, 108, 102], dtLnk), ([109, 111, 117, 110, 116, 115], dtReg)]

/-- `entries`, of the directory of a process. -/
def pidEntries : List (List UInt8 × UInt8) :=
  [([115, 116, 97, 116], dtReg), ([99, 109, 100, 108, 105, 110, 101], dtReg),
    ([115, 116, 97, 116, 117, 115], dtReg), ([99, 111, 109, 109], dtReg), ([101, 120, 101], dtLnk),
    ([99, 119, 100], dtLnk)]

/-- The number in decimal. -/
def pidName (pid : ℕ) : List UInt8 := (Nat.toDigits 10 pid).map fun c => UInt8.ofNat c.toNat

/-- The entries with fixed names, which are numbered from 1. -/
def numbered (l : List (List UInt8 × UInt8)) : List Dirent := l.mapIdx fun i e => dirent (i + 1) e.2 e.1

/-- The entries that the loops of `procfs_getdents64` go through, for a file that is a directory. -/
def procfsEntries (rt : ProcView) : ProcfsType → Option (List Dirent)
  | .root => some (numbered rootEntries ++ rt.pids.map fun pid => dirent pid dtDir (pidName pid))
  | .pidDir => some (numbered pidEntries)
  | .other => none

/-- The loops of `procfs_getdents64`: the records that are stored from the entry at `i` on, and `dir_index`. -/
def getdentsLoop (count : ℕ) : (i : ℕ) → List Dirent → (dirIndex pos : ℕ) → List Dirent × ℕ
  | _, [], dirIndex, _ => ([], dirIndex)
  | i, e :: rest, dirIndex, pos =>
    if dirIndex ≤ i then
      if count < pos + recLen e.name then ([], dirIndex)
      else
        let (l, dirIndex) := getdentsLoop count (i + 1) rest (i + 1) (pos + recLen e.name)
        (e :: l, dirIndex)
    else getdentsLoop count (i + 1) rest dirIndex pos

/-- `procfs_getdents64`: the records in the buffer, and the file. -/
def procfsGetdents64 (rt : ProcView) (file : VfsFile) (count : ℕ) : Except Errno (List Dirent × VfsFile) :=
  match procfsEntries rt file.procfsFileType with
  | none => .error .ENOTDIR
  | some entries =>
    let (l, dirIndex) := getdentsLoop count 0 entries file.dirIndex 0
    .ok (l, { file with dirIndex })

/-! ## The state of a process -/

/-- What is behind a slot: a stream of the host with its descriptor, its entries and how many of them were
read, or a file of the virtual filesystem with the entries read ahead. -/
inductive DirBack where
  | host (d : ℕ) (entries : List Dirent) (pos : ℕ)
  | vfs (file : ℕ) (buf : List Dirent) (exhausted : Bool)

/-- `struct yos_dir_slot`. -/
structure DirSlot where
  back : DirBack
  scratchOff : ℕ
  ddOff : ℕ
  wasmFd : ℤ

/-- The memory and the tables of a process, and which descriptors of the host are open. -/
structure DirCtx where
  mem : MemCtx
  fdMap : ℕ → ℤ
  host : ℕ → Bool
  files : ℕ → VfsFile
  dirs : ℕ → Option DirSlot

/-- `YOS_VFS_DIRBUF_SIZE`. -/
def vfsDirbufSize : ℕ := 4096

/-- `YOS_DD_SIZE`. -/
def ddSize : ℕ := 8

namespace DirCtx

/-- The host's descriptor is opened or closed. -/
def setHost (s : DirCtx) (h : ℕ) (isOpen : Bool) : DirCtx := { s with host := Function.update s.host h isOpen }

/-- Store a slot. -/
def setDir (s : DirCtx) (k : ℕ) (slot : Option DirSlot) : DirCtx := { s with dirs := Function.update s.dirs k slot }

/-- Store a virtual file. -/
def setFile (s : DirCtx) (i : ℕ) (file : VfsFile) : DirCtx :=
  { s with files := Function.update s.files i file }

/-- The slot that `slot_reserve` takes. -/
def slotReserve (s : DirCtx) : Option ℕ := (List.range' 1 (dirMax - 1)).find? fun k => (s.dirs k).isNone

/-- The slot that `yos_file_alloc` takes. -/
def fileAlloc (s : DirCtx) : Option ℕ := (List.range maxVfsFiles).find? fun i => !(s.files i).inUse

/-- `slot_from_dd`: the slot of a guest's pointer, with its index. -/
def slotFromDd (s : DirCtx) (dd : ℕ) : Option (ℕ × DirSlot) :=
  if dd = 0 then none
  else if s.mem.memorySize < dd + ddSize then none
  else
    let idx := s.mem.memory.read32 (dd + 4)
    if idx = 0 ∨ dirMax ≤ idx then none
    else
      match s.dirs idx with
      | none => none
      | some slot => if slot.ddOff ≠ dd then none else some (idx, slot)

/-- The end of `yos_fd_alloc`, which closes its argument when the table is full. -/
def fdAlloc (s : DirCtx) (h : ℕ) : DirCtx × ℤ :=
  let a := yosFdAlloc s.fdMap h
  (a.closes.foldl (fun s h => s.setHost h.toNat false) { s with fdMap := a.fdMap }, a.wfd)

/-- `yos_fd_close`. -/
def fdClose (s : DirCtx) (wfd : ℤ) : DirCtx :=
  if wfd < 0 ∨ fdMax ≤ wfd then s
  else
    let hfd := s.fdMap wfd.toNat
    if hfd < 0 then s
    else { s.setHost hfd.toNat false with fdMap := Function.update s.fdMap wfd.toNat (-1) }

end DirCtx

/-! ## The calls -/

/-- What a call returns: a pointer, NULL at the end, or NULL with an error. -/
abbrev DirRet := Except Errno ℕ

/-- `slot_finalise`: the memory, and the offsets of the two blocks unless a request fails.  `none` if a walk
of `yos_free` goes round for ever. -/
def slotFinalise (mem : MemCtx) (handle : ℕ) (wasmFd : ℤ) : Option (MemCtx × Option (ℕ × ℕ)) :=
  let (mem, scratch) := yosMalloc mem fbsdDirentSize
  if scratch = 0 then some (mem, none)
  else
    let (mem, dd) := yosMalloc mem ddSize
    if dd = 0 then (freeCall mem scratch).map fun mem => (mem, none)
    else
      let memory := (mem.memory.write32 dd (wasmFd % 2 ^ 32).toNat).write32 (dd + 4) handle
      some ({ mem with memory }, some (scratch, dd))

/-- The end of the calls that open a stream: slot `k` gets what is behind it, or `undo` gives that back. -/
def finish (s : DirCtx) (k : ℕ) (back : DirBack) (wasmFd : ℤ) (undo : DirCtx → DirCtx) : Option (DirCtx × DirRet) :=
  match slotFinalise s.mem k wasmFd with
  | none => none
  | some (mem, none) => some (undo { s with mem }, .error .ENOMEM)
  | some (mem, some (scratchOff, ddOff)) =>
    some ({ s with mem }.setDir k (some ⟨back, scratchOff, ddOff, wasmFd⟩), .ok ddOff)

/-- `procfs_open`, when `parse_procfs_path` answers `parsed`. -/
def procfsOpen (rt : ProcView) (s : DirCtx) (parsed : Except Errno (ProcfsType × ℤ)) : DirCtx × Except Errno ℕ :=
  match parsed with
  | .error e => (s, .error e)
  | .ok (type, pid) =>
    if 0 < pid ∧ !rt.find pid then (s, .error .ENOENT)
    else
      match s.fileAlloc with
      | none => (s, .error .EMFILE)
      | some i => (s.setFile i ⟨true, 0, pid, type⟩, .ok i)

/-- `alloc_wasm_fd_for_host_dir`; `copy` is the result of the host's `dup`. -/
def allocWasmFdForHostDir (s : DirCtx) : (copy : Option ℕ) → DirCtx × ℤ
  | none => (s, -1)
  | some duped =>
    let (s, wfd) := (s.setHost duped true).fdAlloc duped
    if wfd < 0 then (s.setHost duped false, -1) else (s, wfd)

/-- Where the path leads: to the virtual filesystem, with the answer of `parse_procfs_path`, or to the host,
with the answers of its `opendir`, a descriptor and the entries, and of its `dup`. -/
inductive DirTarget where
  | vfs (parsed : Except Errno (ProcfsType × ℤ))
  | host (answer : Except Errno (ℕ × List Dirent)) (copy : Option ℕ)

/-- `yos_opendir`; the `close` of the virtual filesystem does nothing. -/
def yosOpendir (rt : ProcView) (s : DirCtx) (pathOff : ℕ) (target : DirTarget) : Option (DirCtx × DirRet) :=
  if pathOff = 0 ∨ s.mem.memorySize ≤ pathOff then some (s, .error .EFAULT)
  else
    match target with
    | .vfs parsed =>
      match procfsOpen rt s parsed with
      | (s, .error e) => some (s, .error e)
      | (s, .ok i) =>
        match s.slotReserve with
        | none => some (s, .error .EMFILE)
        | some k => finish s k (.vfs i [] false) (vfsFdBase + i) id
    | .host (.error e) _ => some (s, .error e)
    | .host (.ok (d, entries)) copy =>
      let s := s.setHost d true
      match s.slotReserve with
      | none => some (s.setHost d false, .error .EMFILE)
      | some k =>
        let (s, wfd) := allocWasmFdForHostDir s copy
        finish s k (.host d entries 0) wfd fun s => s.setHost d false

/-- `yos_fdopendir`, when the host's `fdopendir` answers `answer`. -/
def yosFdopendir (s : DirCtx) (wfd : ℤ) (answer : Except Errno (List Dirent)) : Option (DirCtx × DirRet) :=
  if wfd < 0 ∨ fdMax ≤ wfd ∨ s.fdMap wfd.toNat < 0 then some (s, .error .EBADF)
  else
    let d := (s.fdMap wfd.toNat).toNat
    match answer with
    | .error e => some (s, .error e)
    | .ok entries =>
      match s.slotReserve with
      | none => some (s.setHost d false, .error .EMFILE)
      | some k => finish s k (.host d entries 0) wfd fun s => s.setHost d false

/-- `emit_fbsd_dirent`. -/
def emitFbsdDirent (s : DirCtx) (slot : DirSlot) (e : Dirent) : DirCtx :=
  { s with mem := { s.mem with memory := writeBytes s.mem.memory slot.scratchOff (fbsdDirent e) } }

/-- `yos_readdir`. -/
def yosReaddir (rt : ProcView) (s : DirCtx) (dd : ℕ) : DirCtx × DirRet :=
  match s.slotFromDd dd with
  | none => (s, .error .EBADF)
  | some (k, slot) =>
    match slot.back with
    | .host d entries pos =>
      match entries[pos]? with
      | none => (s, .ok 0)
      | some e =>
        (emitFbsdDirent (s.setDir k (some { slot with back := .host d entries (pos + 1) })) slot e,
          .ok slot.scratchOff)
    | .vfs i (e :: buf) exhausted =>
      (emitFbsdDirent (s.setDir k (some { slot with back := .vfs i buf exhausted })) slot e, .ok slot.scratchOff)
    | .vfs i [] exhausted =>
      if exhausted then (s, .ok 0)
      else
        match procfsGetdents64 rt (s.files i) vfsDirbufSize with
        | .error e => (s, .error e)
        | .ok ([], file) => ((s.setFile i file).setDir k (some { slot with back := .vfs i [] true }), .ok 0)
        | .ok (e :: buf, file) =>
          (emitFbsdDirent ((s.setFile i file).setDir k (some { slot with back := .vfs i buf false })) slot e,
            .ok slot.scratchOff)

/-- `yos_rewinddir`. -/
def yosRewinddir (s : DirCtx) (dd : ℕ) : DirCtx :=
  match s.slotFromDd dd with
  | none => s
  | some (k, slot) =>
    match slot.back with
    | .host d entries _ => s.setDir k (some { slot with back := .host d entries 0 })
    | .vfs i _ _ =>
      (s.setFile i { s.files i with dirIndex := 0 }).setDir k (some { slot with back := .vfs i [] false })

/-- The two blocks are given back at the end of `yos_closedir`. -/
def freeBlocks (mem : MemCtx) (slot : DirSlot) : Option MemCtx :=
  ((if slot.scratchOff ≠ 0 then freeCall mem slot.scratchOff else some mem)).bind fun mem =>
    if slot.ddOff ≠ 0 then freeCall mem slot.ddOff else some mem

/-- `yos_closedir`; `none` if a walk of `yos_free` goes round for ever. -/
def yosClosedir (s : DirCtx) (dd : ℕ) : Option (DirCtx × DirRet) :=
  match s.slotFromDd dd with
  | none => some (s, .error .EBADF)
  | some (k, slot) =>
    let (s, rc) : DirCtx × DirRet :=
      match slot.back with
      | .host d _ _ => (s.setHost d false, if s.host d then .ok 0 else .error .EBADF)
      | .vfs _ _ _ => (s, .ok 0)
    let s := if 0 ≤ slot.wasmFd ∧ slot.wasmFd < fdMax ∧ slot.wasmFd < vfsFdBase then s.fdClose slot.wasmFd else s
    (freeBlocks s.mem slot).map fun mem => ({ s with mem }.setDir k none, rc)

/-! ## Runs -/

/-- The calls, with the answers of the host. -/
inductive DirCall where
  | opendir (pathOff : ℕ) (target : DirTarget)
  | fdopendir (wfd : ℤ) (answer : Except Errno (List Dirent))
  | readdir (dd : ℕ)
  | rewinddir (dd : ℕ)
  | closedir (dd : ℕ)

/-- The effect of a call. -/
def DirCtx.call (rt : ProcView) (s : DirCtx) : DirCall → Option (DirCtx × DirRet)
  | .opendir pathOff target => yosOpendir rt s pathOff target
  | .fdopendir wfd answer => yosFdopendir s wfd answer
  | .readdir dd => some (yosReaddir rt s dd)
  | .rewinddir dd => some (yosRewinddir s dd, .ok 0)
  | .closedir dd => yosClosedir s dd

/-- The descriptors the host returns during a call. -/
def DirCall.news : DirCall → List ℕ
  | .opendir _ (.host (.ok (d, _)) copy) => d :: copy.toList
  | _ => []

/-- What the guest holds beside its streams: the open entries of `fd_map`, descriptors of the host, and virtual
files. -/
structure DirRest where
  fdMap : ℕ → ℤ
  host : ℕ → Bool
  files : ℕ → Bool

/-- A guest descriptor becomes part of a stream. -/
def DirRest.give (r : DirRest) (w : ℕ) : DirRest where
  fdMap := Function.update r.fdMap w (-1)
  host := Function.update r.host (r.fdMap w).toNat false
  files := r.files

/-- `fdopendir` makes the guest's descriptor a part of the stream it returns. -/
def DirRest.after (r : DirRest) : DirCall → DirRet → DirRest
  | .fdopendir wfd _, .ok _ => r.give wfd.toNat
  | _, _ => r

/-- A process and what it holds beside its streams. -/
structure DirState where
  now : DirCtx
  rest : DirRest

/-- The process has no streams; each entry of `fd_map` is a descriptor of the host that is open, and no two are
the same. -/
structure DirStarted (g : GuestHeap) (s : DirState) : Prop where
  mem : s.now.mem = g.ctx
  rest : s.rest = ⟨s.now.fdMap, s.now.host, fun i => (s.now.files i).inUse⟩
  dirs : ∀ k, s.now.dirs k = none
  live : ∀ w (h : ℕ), s.now.fdMap w = h → s.now.host h = true
  distinct : ∀ w v (h : ℕ), s.now.fdMap w = h → s.now.fdMap v = h → w = v

/-- The runs of a process with the heap `g`.  A host call returns a number that is not open. -/
def dirSystem (rt : ProcView) (g : GuestHeap) : System DirState DirCall where
  init := DirStarted g
  step s c s' := c.news.Nodup ∧ (∀ h ∈ c.news, s.now.host h = false) ∧
    ∃ ret, s.now.call rt c = some (s'.now, ret) ∧ s'.rest = s.rest.after c ret

/-! ## What the streams hold -/

/-- What a stream holds besides its blocks: an entry of `fd_map`, descriptors of the host, a virtual file and a
slot. -/
inductive DirRes where
  | fd (w h : ℕ)
  | host (h : ℕ)
  | file (i : ℕ)
  | slot (k : ℕ)
deriving DecidableEq, Repr

/-- The resources that are in use. -/
def DirCtx.Has (s : DirCtx) : DirRes → Prop
  | .fd w h => s.fdMap w = h
  | .host h => s.host h = true
  | .file i => (s.files i).inUse = true
  | .slot k => (s.dirs k).isSome

/-- The resources beside the streams. -/
def DirRest.Has (r : DirRest) : DirRes → Prop
  | .fd w h => r.fdMap w = h
  | .host h => r.host h = true
  | .file i => r.files i = true
  | .slot _ => False

/-- What is behind a slot. -/
def DirBack.res : DirBack → DirRes
  | .host d _ _ => .host d
  | .vfs i _ _ => .file i

/-- An open stream: its slot, what is behind it, its guest descriptor with the host's, and its blocks. -/
structure Stream where
  k : ℕ
  back : DirRes
  fd : Option (ℕ × ℕ)
  scratch : HeldPtr
  dd : HeldPtr
deriving DecidableEq

/-- What the stream holds besides its blocks. -/
def Stream.res (st : Stream) : List DirRes :=
  match st.fd with
  | none => [.slot st.k, st.back]
  | some (w, h) => [.slot st.k, st.back, .fd w h, .host h]

/-- The blocks of the stream. -/
def Stream.blocks (st : Stream) : List HeldPtr := [st.dd, st.scratch]

/-- The slot is that of the stream: it refers to what the stream holds, and the guest's header to the slot. -/
structure Stream.At (st : Stream) (s : DirCtx) (slot : DirSlot) : Prop where
  stored : s.dirs st.k = some slot
  back : slot.back.res = st.back
  scratch : slot.scratchOff = st.scratch.ptr ∧ st.scratch.size = fbsdDirentSize
  dd : slot.ddOff = st.dd.ptr ∧ st.dd.size = ddSize
  fd : ∀ w h, st.fd = some (w, h) → slot.wasmFd = w ∧ w < fdMax
  noFd : st.fd = none → ¬ (0 ≤ slot.wasmFd ∧ slot.wasmFd < fdMax)
  index : 1 ≤ st.k ∧ st.k < dirMax
  header : s.mem.memory.read32 (st.dd.ptr + 4) = st.k

/-- The tables and the heap hold what the streams hold and the rest, and nothing else. -/
structure Conserved (g : GuestHeap) (r : DirRest) (s : DirCtx) (l : List Stream) : Prop where
  account : Account Stream.res s.Has r.Has l
  shut : ∀ w, s.fdMap w < 0 → r.fdMap w = s.fdMap w
  lent : ∀ st ∈ l, ∀ w h, st.fd = some (w, h) → r.fdMap w = -1
  heap : HeapStays g ⟨s.mem, l.flatMap Stream.blocks ++ g.held⟩
  streams : ∀ st ∈ l, ∃ slot, st.At s slot

/-- The streams after a call: an open that succeeds adds one, and `closedir` removes that of its argument. -/
def StreamsAfter (l : List Stream) : DirCall → DirRet → List Stream → Prop
  | .opendir _ _, .ok dd, l' | .fdopendir _ _, .ok dd, l' => ∃ st, st.dd.ptr = dd ∧ l' = st :: l
  | .closedir dd, .ok _, l' => ∃ st ∈ l, st.dd.ptr = dd ∧ l' = l.erase st
  | _, _, l' => l' = l

/-- The process has given back what it acquired, and its heap serves what it served at the beginning. -/
structure Returned (g : GuestHeap) (r : DirRest) (s : DirCtx) : Prop where
  fdMap : s.fdMap = r.fdMap
  host : s.host = r.host
  files : ∀ i, (s.files i).inUse = r.files i
  heap : AllocInv ⟨s.mem, g.held⟩
  serves : ∀ sizes, (∀ size ∈ sizes, Fits size) → servedCount s.mem sizes = servedCount g.ctx sizes

/-! ## What the calls should do -/

/-- The entries of the stream, if it is one of a directory. -/
def DirCtx.listing (rt : ProcView) (s : DirCtx) (slot : DirSlot) : Option (List Dirent) :=
  match slot.back with
  | .host _ entries _ => some entries
  | .vfs i _ _ => procfsEntries rt (s.files i).procfsFileType

/-- How many entries were delivered since the stream was opened or rewound. -/
def DirCtx.place (s : DirCtx) (slot : DirSlot) : ℕ :=
  match slot.back with
  | .host _ _ pos => pos
  | .vfs i buf _ => (s.files i).dirIndex - buf.length

/-- An open that fails leaves the tables and what is held in the heap as they were. -/
structure SameTables (s s' : DirCtx) : Prop where
  fdMap : s'.fdMap = s.fdMap
  host : s'.host = s.host
  files : s'.files = s.files
  dirs : s'.dirs = s.dirs
  heap : ∀ held, AllocInv ⟨s.mem, held⟩ → AllocInv ⟨s'.mem, held⟩

/-- The other streams deliver what they would have delivered. -/
def OthersKept (rt : ProcView) (s s' : DirCtx) (k : ℕ) : Prop :=
  ∀ j slot, j ≠ k → s.dirs j = some slot → s'.dirs j = some slot ∧ s'.listing rt slot = s.listing rt slot ∧
    s'.place slot = s.place slot

/-- The stream in slot `k` has the same entries, and `place` of them were delivered. -/
def PlacedAt (rt : ProcView) (s s' : DirCtx) (k : ℕ) (slot : DirSlot) (place : ℕ) : Prop :=
  ∃ slot', s'.dirs k = some slot' ∧ slot'.ddOff = slot.ddOff ∧ s'.listing rt slot' = s.listing rt slot ∧
    s'.place slot' = place

/-- The stream in slot `k` delivers its next entry, or says that there is none. -/
def ReadMet (rt : ProcView) (s : DirCtx) (k : ℕ) (slot : DirSlot) (s' : DirCtx) (ret : DirRet) : Prop :=
  match s.listing rt slot with
  | none => ret = .error .ENOTDIR ∧ s' = s
  | some entries =>
    match entries[s.place slot]? with
    | none => ret = .ok 0 ∧ PlacedAt rt s s' k slot (s.place slot)
    | some e => ret = .ok slot.scratchOff ∧ PlacedAt rt s s' k slot (s.place slot + 1) ∧
      ∀ i (lt : i < (fbsdDirent e).length), s'.mem.memory (slot.scratchOff + i) = (fbsdDirent e)[i]

/-- What the result of a call should be, and its effect. -/
def CallMet (rt : ProcView) (s : DirCtx) (c : DirCall) (s' : DirCtx) (ret : DirRet) : Prop :=
  match c with
  | .opendir _ _ | .fdopendir _ _ =>
    match ret with
    | .error _ => SameTables s s'
    | .ok dd => ∃ k slot, s.dirs k = none ∧ s'.dirs = Function.update s.dirs k (some slot) ∧ slot.ddOff = dd ∧
      s'.place slot = 0 ∧ OthersKept rt s s' k
  | .readdir dd => ∀ k slot, s.dirs k = some slot → slot.ddOff = dd →
    OthersKept rt s s' k ∧ ReadMet rt s k slot s' ret
  | .rewinddir dd => ∀ k slot, s.dirs k = some slot → slot.ddOff = dd →
    OthersKept rt s s' k ∧ PlacedAt rt s s' k slot 0
  | .closedir dd => ∀ k slot, s.dirs k = some slot → slot.ddOff = dd →
    ret = .ok 0 ∧ s'.dirs = Function.update s.dirs k none ∧ OthersKept rt s s' k

/-- The heap has room for the blocks of a stream. -/
def Finalises (mem : MemCtx) : Prop := servedCount mem [fbsdDirentSize, ddSize] = 2

/-- The calls that keep the account: a virtual directory that can be opened finds a slot and memory; so does a
guest descriptor that becomes a stream, and no stream has it already; a host directory that gets a slot and a
guest descriptor finds memory; and no stream of a virtual directory is closed. -/
def DirOk (rt : ProcView) (s : DirState) : DirCall → Prop
  | .opendir pathOff (.vfs parsed) => ¬ (pathOff = 0 ∨ s.now.mem.memorySize ≤ pathOff) →
    (procfsOpen rt s.now parsed).2.isOk = true → s.now.slotReserve.isSome ∧ Finalises s.now.mem
  | .opendir pathOff (.host (.ok _) copy) => ¬ (pathOff = 0 ∨ s.now.mem.memorySize ≤ pathOff) →
    s.now.slotReserve.isSome → copy.isSome → (firstFree s.now.fdMap).isSome → Finalises s.now.mem
  | .fdopendir wfd (.ok _) => ¬ (wfd < 0 ∨ fdMax ≤ wfd ∨ s.now.fdMap wfd.toNat < 0) →
    s.now.slotReserve.isSome ∧ Finalises s.now.mem ∧ ∀ k slot, s.now.dirs k = some slot → slot.wasmFd ≠ wfd
  | .closedir dd => ∀ k slot i buf exhausted, s.now.slotFromDd dd = some (k, slot) →
    slot.back ≠ .vfs i buf exhausted
  | .opendir _ (.host (.error _) _) | .fdopendir _ (.error _) | .readdir _ | .rewinddir _ => True

end Yos.DirStream
