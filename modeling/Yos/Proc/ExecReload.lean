import Mathlib.Logic.Function.Basic
import Yos.Proc.Execve

/-!
# The two exec reloads (`main.c`, `impl/proc/proc.c`)

After a successful `yos_execve` the old linear memory is freed and a new module is loaded: by the main
loop for the initial process, by the loop of `fork_thread_func` for a forked child.  Both loops reset,
field by field, what the host keeps about the old memory.  `Place` lists the fields and the static
variables of the bridges that hold guest offsets, and `mainPlaces` and `childPlaces` the ones each
loop resets.  `exec_replaced_iff` says when the two loops do what an exec promises.

An offset is kept with the number of the memory it was allocated in; no step depends on the number.
Host handles that refer to no guest memory (files, timers, TLS and Lua states) are left out, and so is
the index of the next `getopt` argument.
-/

namespace Yos

namespace Reload

/-! ## States -/

/-- A guest offset that the host keeps. -/
structure CachedOff where
  off : ℕ
  /-- The memory it was allocated in. -/
  image : ℕ
deriving DecidableEq, Repr

/-- The fields of `ctx->pwd_anchors`. -/
inductive Anchor where
  | pwd | grp | login | ufu | gfg
  | tm | timestr
  | errstr | gaistr | hstr | signam
  | ttyname | ctermid | dirname | l64a | nlLanginfo
  | setlocale | getwd | tempnam | getusershell | tmpnam | proto
deriving DecidableEq, Repr

/-- Where guest offsets are kept. -/
inductive Place where
  /-- The memory map of `impl/mem`. -/
  | freeList | liveList | mmapTop | allocLo | allocHi | allocFreeHead
  /-- The names and values of `env_store`. -/
  | envStore
  | anchor (a : Anchor)
  | progname
  | fgetlnBuf
  /-- `getopt_state.optarg_off`. -/
  | optarg
  /-- `scratch_off` and `dd_off` of the directory slots. -/
  | dirSlots
  /-- `jmp_buf_ptr` and `asyncify_buf` of the setjmp slots. -/
  | sjSlots
  | longjmpTarget | sjDiscard | asyncify
  /-- `scratch_off` of the open archives. -/
  | archiveScratch
  /-- The static `slab_off` of `pack_servent`. -/
  | servent
  /-- The thread-local `buf_off` of `yos_ptsname`. -/
  | ptsname
  /-- The thread-local `base` of the string stashes of `liblua.c` and `libpython.c`. -/
  | luaStash | pythonStash
deriving DecidableEq, Repr

/-- An entry of `fd_map`. -/
structure FdEntry where
  host : ℕ
  cloexec : Bool
deriving DecidableEq, Repr

/-- An open archive, and the guest fd its read callback owns. -/
structure Archive where
  handle : ℕ
  ownFd : Option ℕ
deriving DecidableEq, Repr

/-- What `yos_execve` stores for the reload. -/
structure ExecRequest where
  path : List UInt8
  argv : List (List UInt8)
  envp : Option (List (List UInt8))
deriving DecidableEq, Repr

/-- What the reload finds at the path. -/
structure NewModule where
  /-- The number of the new memory. -/
  image : ℕ
  /-- The file is read, parsed and loaded. -/
  loads : Bool
  initialSize : ℕ
  /-- The size after `ResizeMemory`, if it succeeds. -/
  resized : Option ℕ
  /-- The exported `__heap_base`. -/
  heapBase : Option ℕ
deriving DecidableEq, Repr

/-- The part of the context that an exec touches, with the static variables of the bridges. -/
structure ExecState where
  image : ℕ
  memorySize : ℕ
  heapEnd : ℕ
  offs : Place → List CachedOff
  /-- The memory that `pthread_host` pins. -/
  pthreadHost : Option ℕ
  fgetlnCap : ℕ
  /-- `env_store.initialised`. -/
  envLoaded : Bool
  iconv : List ℕ
  archives : List Archive
  /-- `setjmp_pending_slot`, if `setjmp_pending` is set. -/
  setjmpPending : Option ℕ
  /-- `longjmp_value`, if `longjmp_pending` is set. -/
  longjmpPending : Option ℤ
  errnoOff : ℕ
  sigHandlers : ℕ → ℕ
  sigPending : ℕ → Bool
  fdMap : ℕ → Option FdEntry
  argv : List (List UInt8)
  envp : List (List UInt8)
  exec : Option ExecRequest
  comm : List UInt8
  exe : List UInt8

namespace ExecState

/-! ## The reloads -/

/-- Reset the given places. -/
def clear (s : ExecState) (places : List Place) : ExecState :=
  { s with offs := fun p => if p ∈ places then [] else s.offs p }

/-- Close the entries of `fd_map` from `first` on that are marked close-on-exec. -/
def closeOnExec (s : ExecState) (first : ℕ) : ExecState :=
  { s with fdMap := fun fd =>
      match s.fdMap fd with
      | some e => if first ≤ fd ∧ e.cloexec then none else some e
      | none => none }

/-- The end of `yos_execve`: the request is stored, the handlers and the pending signals are cleared. -/
def commit (s : ExecState) (req : ExecRequest) : ExecState :=
  { s with
    sigHandlers := fun _ => 0
    sigPending := fun _ => false
    exec := some req }.closeOnExec 0

/-- `yos_libarchive_ctx_free`: the open archives are freed with the fds they own. -/
def freeArchives (s : ExecState) : ExecState :=
  { s with
    archives := []
    fdMap := fun fd => if s.archives.any (·.ownFd = some fd) then none else s.fdMap fd }

end ExecState

/-- The start of the heap of a module. -/
def heapStart (heapBase : Option ℕ) : ℕ :=
  match heapBase with
  | some base => max 0x50000 ((base + 15) % 0x100000000 / 16 * 16)
  | none => 0x50000

/-- What the main loop resets: `free_count`, `live_count`, `mmap_top`, the bookmarks of the allocator,
and the archives. -/
def mainPlaces : List Place :=
  [.archiveScratch, .freeList, .liveList, .mmapTop, .allocLo, .allocHi, .allocFreeHead]

/-- The reload of the initial process.  No state is left when the module does not load. -/
def mainReload (s : ExecState) (m : NewModule) : Option ExecState :=
  match s.exec with
  | none => none
  | some req =>
    if m.loads then
      m.resized.map fun size =>
        { s.freeArchives.clear mainPlaces with
          pthreadHost := some m.image
          argv := req.argv
          envp := req.envp.getD s.envp
          image := m.image
          memorySize := size
          heapEnd := heapStart m.heapBase
          errnoOff := 0x108
          comm := (baseName req.path).take 15
          exe := req.path.take 4095
          exec := none }
    else none

/-- The anchors that `yos_pwd_post_execve_reset` resets. -/
def pwdAnchors : List Anchor :=
  [.pwd, .grp, .login, .ufu, .gfg, .tm, .timestr, .errstr, .gaistr, .hstr, .signam, .ttyname, .ctermid,
    .dirname, .l64a, .nlLanginfo, .setlocale, .getwd, .tempnam, .getusershell, .tmpnam, .proto]

/-- What `fork_thread_func` resets: the environment, the anchors, the helpers of the FreeBSD userland,
the memory map without `live_count`, and the setjmp state. -/
def childPlaces : List Place :=
  .envStore :: pwdAnchors.map .anchor ++
  [.progname, .fgetlnBuf, .mmapTop, .freeList, .allocLo, .allocHi, .allocFreeHead,
    .sjSlots, .longjmpTarget, .sjDiscard, .asyncify]

/-- The reload of a forked child.  A failed `ResizeMemory` is not noticed. -/
def childReload (s : ExecState) (m : NewModule) : Option ExecState :=
  match s.exec with
  | none => none
  | some req =>
    if m.loads then
      some ({ s.clear childPlaces with
        pthreadHost := some m.image
        fgetlnCap := 0
        envLoaded := false
        iconv := []
        argv := req.argv
        envp := req.envp.getD s.envp
        image := m.image
        memorySize := m.resized.getD m.initialSize
        heapEnd := heapStart m.heapBase
        setjmpPending := none
        longjmpPending := none
        comm := (baseName req.path).take 15
        exe := req.path.take 4095
        exec := none }.closeOnExec 3)
    else none

/-- The two loops. -/
inductive Loop where
  | main
  | child
deriving DecidableEq, Repr

/-- The reload of a loop. -/
def reload : Loop → ExecState → NewModule → Option ExecState
  | .main => mainReload
  | .child => childReload

/-! ## Later bridges -/

/-- What a bridge of the new image does with the kept offsets. -/
inductive BridgeUse where
  /-- Go through the offsets of a place, or allocate one there if it has none. -/
  | through (p : Place) (fresh : ℕ)
  /-- Add an offset just allocated. -/
  | store (p : Place) (off : ℕ)
  /-- Free and forget what a place holds. -/
  | forget (p : Place)
deriving DecidableEq, Repr

namespace ExecState

/-- Set what a place holds. -/
def put (s : ExecState) (p : Place) (held : List CachedOff) : ExecState :=
  { s with offs := Function.update s.offs p held }

/-- One use, and the offsets it goes through. -/
def bridge (s : ExecState) : BridgeUse → ExecState × List CachedOff
  | .through p fresh =>
    if s.offs p = [] then (s.put p [⟨fresh, s.image⟩], [⟨fresh, s.image⟩]) else (s, s.offs p)
  | .store p off => (s.put p (⟨off, s.image⟩ :: s.offs p), [⟨off, s.image⟩])
  | .forget p => (s.put p [], s.offs p)

/-- The offsets that a sequence of uses goes through. -/
def accesses (s : ExecState) : List BridgeUse → List CachedOff
  | [] => []
  | use :: rest => (s.bridge use).2 ++ (s.bridge use).1.accesses rest

end ExecState

/-! ## What an exec promises -/

/-- After either loop nothing of the old memory is kept; the loops leave the same state; and no later
bridge goes through an offset of the old memory. -/
structure Replaced (s : ExecState) (req : ExecRequest) (m : NewModule) : Prop where
  reset : ∀ loop r, reload loop (s.commit req) m = some r →
    (∀ p, r.offs p = []) ∧ (∀ sig, r.sigHandlers sig = 0) ∧ r.pthreadHost = some m.image
  same : reload .main (s.commit req) m = reload .child (s.commit req) m
  clean : ∀ loop r uses, reload loop (s.commit req) m = some r →
    ∀ c ∈ r.accesses uses, c.image = r.image

/-- Before the exec nothing is kept where one of the loops forgets it. -/
structure NothingKept (s : ExecState) : Prop where
  offs : ∀ p, p ∉ mainPlaces ∨ p ∉ childPlaces → s.offs p = []
  fgetlnCap : s.fgetlnCap = 0
  envLoaded : s.envLoaded = false
  iconv : s.iconv = []
  archives : s.archives = []
  setjmpPending : s.setjmpPending = none
  longjmpPending : s.longjmpPending = none
  errnoOff : s.errnoOff = 0x108

/-! ## Every use after a clean reload -/

section Uses

variable {s : ExecState}

/-- Every kept offset is of the current memory. -/
def ExecState.Current (s : ExecState) : Prop := ∀ p, ∀ c ∈ s.offs p, c.image = s.image

theorem put_image (p : Place) (held : List CachedOff) : (s.put p held).image = s.image := rfl

theorem ExecState.Current.put (now : s.Current) {p : Place} {held : List CachedOff}
    (fresh : ∀ c ∈ held, c.image = s.image) : (s.put p held).Current := by
  intro q c kept
  rw [put_image]
  rcases eq_or_ne q p with rfl | other
  · simp only [ExecState.put, Function.update_self] at kept
    exact fresh c kept
  · simp only [ExecState.put, Function.update_of_ne other] at kept
    exact now q c kept

/-- A use keeps the offsets current and goes only through current ones. -/
theorem ExecState.Current.bridge (now : s.Current) (use : BridgeUse) :
    (s.bridge use).1.Current ∧ (s.bridge use).1.image = s.image ∧
      ∀ c ∈ (s.bridge use).2, c.image = s.image := by
  cases use with
  | through p fresh =>
    rw [ExecState.bridge]
    split
    · exact ⟨now.put (by simp), rfl, by simp⟩
    · exact ⟨now, rfl, now p⟩
  | store p off =>
    refine ⟨now.put ?_, rfl, by simp [ExecState.bridge]⟩
    intro c kept
    rcases List.mem_cons.mp kept with rfl | old
    · rfl
    · exact now p c old
  | forget p => exact ⟨now.put (by simp), rfl, now p⟩

/-- While the kept offsets are current, no sequence of uses goes through an old one. -/
theorem ExecState.Current.accesses {uses : List BridgeUse} (now : s.Current) :
    ∀ c ∈ s.accesses uses, c.image = s.image := by
  induction uses generalizing s with
  | nil => exact fun c h => nomatch h
  | cons use rest ih =>
    obtain ⟨later, same, through⟩ := now.bridge use
    intro c accessed
    rw [ExecState.accesses, List.mem_append] at accessed
    rcases accessed with first | rest
    · exact through c first
    · rw [← same]
      exact ih later c rest

theorem current_of_empty (empty : ∀ p, s.offs p = []) : s.Current := by
  intro p c kept
  rw [empty p] at kept
  cases kept

end Uses

/-! ## What the reloads leave -/

section Reloads

variable {s r : ExecState} {req : ExecRequest} {m : NewModule} {size : ℕ}

/-- Once the marked fds are closed, closing them again changes nothing. -/
theorem closeOnExec_twice (first : ℕ) :
    ((s.closeOnExec 0).closeOnExec first).fdMap = (s.closeOnExec 0).fdMap := by
  funext fd
  simp only [ExecState.closeOnExec]
  cases s.fdMap fd with
  | none => rfl
  | some e => cases marked : e.cloexec <;> simp [marked]

/-- The state the main loop leaves. -/
theorem mainReload_commit (s : ExecState) (req : ExecRequest) (loads : m.loads = true) (grown : m.resized = some size) :
    mainReload (s.commit req) m = some { (s.commit req).freeArchives.clear mainPlaces with
      pthreadHost := some m.image
      argv := req.argv
      envp := req.envp.getD s.envp
      image := m.image
      memorySize := size
      heapEnd := heapStart m.heapBase
      errnoOff := 0x108
      comm := (baseName req.path).take 15
      exe := req.path.take 4095
      exec := none } := by
  rw [mainReload]
  simp only [ExecState.commit, ExecState.closeOnExec, loads, grown, if_true, Option.map_some]

/-- The state the loop of a child leaves: its walk over the fds finds nothing to close. -/
theorem childReload_commit (s : ExecState) (req : ExecRequest) (loads : m.loads = true) :
    childReload (s.commit req) m = some { (s.commit req).clear childPlaces with
      pthreadHost := some m.image
      fgetlnCap := 0
      envLoaded := false
      iconv := []
      argv := req.argv
      envp := req.envp.getD s.envp
      image := m.image
      memorySize := m.resized.getD m.initialSize
      heapEnd := heapStart m.heapBase
      setjmpPending := none
      longjmpPending := none
      comm := (baseName req.path).take 15
      exe := req.path.take 4095
      exec := none } := by
  have closed := closeOnExec_twice (s := s) 3
  simp only [ExecState.closeOnExec] at closed
  simp only [childReload, ExecState.commit, ExecState.closeOnExec, ExecState.clear, loads, if_true,
    closed]

theorem reload_of_not_loads (s : ExecState) (req : ExecRequest) (loop : Loop)
    (fails : m.loads = false) :
    reload loop (s.commit req) m = none := by
  cases loop <;> simp [reload, mainReload, childReload, ExecState.commit, ExecState.closeOnExec, fails]

theorem clear_offs_eq_nil {places : List Place} {p : Place} (empty : p ∉ places → s.offs p = []) :
    (s.clear places).offs p = [] := by
  by_cases listed : p ∈ places
  · exact if_pos listed
  · exact (if_neg listed).trans (empty listed)

theorem offs_eq_nil_of_clear {places : List Place} {p : Place} (cleared : (s.clear places).offs p = [])
    (missing : p ∉ places) : s.offs p = [] :=
  (if_neg missing).symm.trans cleared

/-- If nothing is kept where a loop forgets it, both loops leave nothing behind. -/
theorem NothingKept.reset (kept : NothingKept s) (loads : m.loads = true) (grown : m.resized = some size)
    (loop : Loop) (made : reload loop (s.commit req) m = some r) :
    (∀ p, r.offs p = []) ∧ (∀ sig, r.sigHandlers sig = 0) ∧ r.pthreadHost = some m.image := by
  cases loop with
  | main =>
    rw [reload, mainReload_commit s req loads grown] at made
    cases made
    exact ⟨fun p => clear_offs_eq_nil fun missing => kept.offs p (.inl missing), fun _ => rfl, rfl⟩
  | child =>
    rw [reload, childReload_commit s req loads] at made
    cases made
    exact ⟨fun p => clear_offs_eq_nil fun missing => kept.offs p (.inr missing), fun _ => rfl, rfl⟩

/-- If nothing is kept where a loop forgets it, both loops leave the same state. -/
theorem NothingKept.same (kept : NothingKept s) (loads : m.loads = true)
    (grown : m.resized = some size) :
    reload .main (s.commit req) m = reload .child (s.commit req) m := by
  have empty (p : Place) : ((s.commit req).clear mainPlaces).offs p =
      ((s.commit req).clear childPlaces).offs p := by
    have main : ((s.commit req).clear mainPlaces).offs p = [] :=
      clear_offs_eq_nil fun missing => kept.offs p (.inl missing)
    have child : ((s.commit req).clear childPlaces).offs p = [] :=
      clear_offs_eq_nil fun missing => kept.offs p (.inr missing)
    rw [main, child]
  have offs : ((s.commit req).clear mainPlaces).offs = ((s.commit req).clear childPlaces).offs :=
    funext empty
  simp only [ExecState.clear] at offs
  rw [reload, reload, mainReload_commit s req loads grown, childReload_commit s req loads]
  simp [ExecState.clear, ExecState.freeArchives, ExecState.commit, ExecState.closeOnExec, grown,
    kept.fgetlnCap, kept.envLoaded, kept.iconv, kept.archives, kept.setjmpPending,
    kept.longjmpPending, kept.errnoOff] at offs ⊢
  exact offs

/-- What an exec promises needs that nothing is kept where a loop forgets it. -/
theorem Replaced.nothingKept (replaced : Replaced s req m) (loads : m.loads = true)
    (grown : m.resized = some size) : NothingKept s := by
  have main := mainReload_commit s req loads grown
  have child := childReload_commit s req loads
  obtain ⟨mainEmpty, -, -⟩ := replaced.reset .main _ main
  obtain ⟨childEmpty, -, -⟩ := replaced.reset .child _ child
  have same := replaced.same
  rw [reload, reload, main, child, Option.some.injEq] at same
  refine ⟨fun p missing => ?_, congrArg ExecState.fgetlnCap same, congrArg ExecState.envLoaded same,
    congrArg ExecState.iconv same, (congrArg ExecState.archives same).symm,
    congrArg ExecState.setjmpPending same, congrArg ExecState.longjmpPending same,
    (congrArg ExecState.errnoOff same).symm⟩
  rcases missing with missing | missing
  · exact offs_eq_nil_of_clear (mainEmpty p) missing
  · exact offs_eq_nil_of_clear (childEmpty p) missing

/-- A memory that cannot grow ends the initial process only. -/
theorem Replaced.grows (replaced : Replaced s req m) (loads : m.loads = true) :
    m.resized.isSome = true := by
  cases grown : m.resized with
  | some size => rfl
  | none =>
    have same := replaced.same
    rw [reload, reload, childReload_commit s req loads] at same
    simp [mainReload, ExecState.commit, ExecState.closeOnExec, loads, grown] at same

end Reloads

/-- An exec replaces the whole image exactly when the module does not load, or its memory grows and
nothing is kept where one of the loops forgets it. -/
theorem exec_replaced_iff (s : ExecState) (req : ExecRequest) (m : NewModule) :
    Replaced s req m ↔ (m.loads = true → m.resized.isSome = true ∧ NothingKept s) := by
  constructor
  · intro replaced loads
    have grows := replaced.grows loads
    obtain ⟨size, grown⟩ := Option.isSome_iff_exists.mp grows
    exact ⟨grows, replaced.nothingKept loads grown⟩
  · intro settled
    cases loads : m.loads with
    | false =>
      have stops (loop : Loop) := reload_of_not_loads s req loop loads
      refine ⟨fun loop r made => ?_, (stops .main).trans (stops .child).symm,
        fun loop r uses made => ?_⟩
      · exact nomatch (stops loop).symm.trans made
      · exact nomatch (stops loop).symm.trans made
    | true =>
      obtain ⟨grows, kept⟩ := settled loads
      obtain ⟨size, grown⟩ := Option.isSome_iff_exists.mp grows
      refine ⟨fun loop r made => kept.reset loads grown loop made, kept.same loads grown,
        fun loop r uses made => ?_⟩
      exact (current_of_empty (kept.reset loads grown loop made).1).accesses

/-- The state of a process that looked up a service and set an environment variable. -/
def servedState : ExecState where
  image := 1
  memorySize := 0x1000000
  heapEnd := 0x50000
  offs
    | .servent => [⟨0x60000, 1⟩]
    | .envStore => [⟨0x61000, 1⟩, ⟨0x61010, 1⟩]
    | _ => []
  pthreadHost := some 1
  fgetlnCap := 0
  envLoaded := true
  iconv := []
  archives := []
  setjmpPending := none
  longjmpPending := none
  errnoOff := 0x108
  sigHandlers _ := 0
  sigPending _ := false
  fdMap _ := none
  argv := []
  envp := []
  exec := none
  comm := []
  exe := []

/-- After the exec of a process that looked up a service, `pack_servent` writes the new image through
the old offset after both reloads, and the main loop keeps the offsets of the old environment, which
the loop of a child resets. -/
theorem exec_keeps_old_offsets :
    ¬ Replaced servedState ⟨[0x2f, 0x61], [], none⟩ ⟨2, true, 0x20000, some 0x1000000, none⟩ ∧
    (∀ loop, ∃ r, reload loop (servedState.commit ⟨[0x2f, 0x61], [], none⟩)
        ⟨2, true, 0x20000, some 0x1000000, none⟩ = some r ∧
      r.image = 2 ∧ r.accesses [.through .servent 0x70000] = [⟨0x60000, 1⟩]) ∧
    ∃ main child, reload .main (servedState.commit ⟨[0x2f, 0x61], [], none⟩)
        ⟨2, true, 0x20000, some 0x1000000, none⟩ = some main ∧
      reload .child (servedState.commit ⟨[0x2f, 0x61], [], none⟩)
        ⟨2, true, 0x20000, some 0x1000000, none⟩ = some child ∧
      main.offs .envStore = [⟨0x61000, 1⟩, ⟨0x61010, 1⟩] ∧ child.offs .envStore = [] := by
  refine ⟨fun replaced => ?_, fun loop => ?_, _, _, rfl, rfl, rfl, rfl⟩
  · have kept := (replaced.nothingKept rfl rfl).offs .servent (.inl (by decide))
    cases kept
  · cases loop <;> exact ⟨_, rfl, rfl, rfl⟩

end Reload

end Yos
