import Mathlib.Data.Fintype.Basic
import Mathlib.Data.Finset.Card
import Yos.Proc.Fork

/-!
# When the child of a fork is a copy

`ForkCopies` says that every sequence of calls has the same results in the child as in the parent,
and that the child's records of live mappings, paths, reserved keys and jump slots are the parent's.
`ForkComplete` lists what the two copies of `yos_fork_pump` and `fork_thread_func` leave out, as
conditions on the parent: `fork_copies_iff` proves that they are exactly the condition.

No bridge reads the stream slots 0 to 3, the directory slot 0, or the target and the value of a
`longjmp` that is not under way.  `visible` clears them; a call on a cleared context does what it
does on the context itself (`call_visible`), and so does every sequence of calls
(`outcomes_visible`).
-/

namespace Yos

variable {φ : Type}

/-! ## The property and the condition -/

/-- The jump slots, and the jump under way. -/
def SjCtx.jumps (s : SjCtx) : List SjSlot × Option ℕ × Bool :=
  (s.sjSlots, s.setjmpPending, s.longjmpPending)

/-- The child is observably equal to the parent. -/
structure ForkCopies (isDir : φ → Bool) (dups : HostDups) (p : ForkCtx φ) : Prop where
  outcomes : ∀ calls, (forkChild dups p).outcomes isDir calls = p.outcomes isDir calls
  live : (forkChild dups p).sj.mem.liveList = p.sj.mem.liveList
  paths : (forkChild dups p).fdPaths = p.fdPaths
  keys : (forkChild dups p).nextKey = p.nextKey
  jumps : (forkChild dups p).sj.jumps = p.sj.jumps

/-- The child's copy of an entry of `fd_map` is the entry: it is no tombstone, and a descriptor is
duplicated. -/
def FdEntry.Copied (dup : Bool) : FdEntry φ → Prop
  | .free => True
  | .tomb => False
  | .file _ => dup = true

/-- The child's copy of a stream slot is the slot: a stream is duplicated and has nothing in its
buffer, and a free slot has no guest descriptor. -/
def StreamCopied (dup : Bool) (wfd : ℤ) : Option (Stream φ) → Prop
  | some s => dup = true ∧ s.readAhead = [] ∧ s.unwritten = []
  | none => wfd = -1

/-- Nothing that the fork does not copy is set in the parent. -/
structure ForkComplete (dups : HostDups) (p : ForkCtx φ) : Prop where
  live : p.sj.mem.liveList = []
  fds : ∀ w, (p.fdMap w).Copied (dups.fd w)
  paths : ∀ w, p.fdPaths w = none
  files : ∀ k, 4 ≤ k.val → StreamCopied (dups.stream k) (p.fileWfds k) (p.fileSlots k)
  dirs : ∀ k, 0 < k.val → p.dirSlots k = none
  virtualFiles : ∀ fd, p.procfsFds fd = none
  slots : p.sj.sjSlots = List.replicate sjSlotCount ⟨0, 0, none⟩
  setjmp : p.sj.setjmpPending = none
  longjmp : p.sj.longjmpPending = false
  keys : p.nextKey = 0
  tls : ∀ k, p.tls k = 0

/-! ## What no call sees -/

/-- Clear what no jump reads. -/
def SjCtx.visible (s : SjCtx) : SjCtx :=
  { s with
    longjmpTarget := if s.longjmpPending then s.longjmpTarget else 0
    longjmpValue := if s.longjmpPending then s.longjmpValue else 0 }

/-- Clear the slots of a table below the first slot that is used. -/
def usedSlots {n : ℕ} {α : Type} (first : ℕ) (cleared : α) (table : Fin n → α) : Fin n → α :=
  fun k => if first ≤ k.val then table k else cleared

theorem usedSlots_apply {n first : ℕ} {α : Type} {cleared : α} {table : Fin n → α} {k : Fin n}
    (used : first ≤ k.val) : usedSlots first cleared table k = table k := if_pos used

theorem usedSlots_update {n first : ℕ} {α : Type} {cleared v : α} {table : Fin n → α} {k : Fin n}
    (used : first ≤ k.val) :
    usedSlots first cleared (Function.update table k v) =
      Function.update (usedSlots first cleared table) k v := by
  funext j
  by_cases same : j = k
  · simp [usedSlots, same, used]
  · simp [usedSlots, same]

theorem usedSlots_idem {n first : ℕ} {α : Type} {cleared : α} {table : Fin n → α} :
    usedSlots first cleared (usedSlots first cleared table) = usedSlots first cleared table := by
  funext k
  unfold usedSlots
  split <;> rfl

/-- Clear what no call reads. -/
def ForkCtx.visible (p : ForkCtx φ) : ForkCtx φ :=
  { p with
    sj := p.sj.visible
    fileSlots := usedSlots 4 none p.fileSlots
    fileWfds := usedSlots 4 (-1) p.fileWfds
    dirSlots := usedSlots 1 none p.dirSlots }

/-- A call has the same result on two contexts, and leaves contexts that look the same. -/
def SameCall {α σ : Type} (visible : σ → σ) (a b : σ × α) : Prop :=
  a.2 = b.2 ∧ visible a.1 = visible b.1

theorem SjCtx.setjmp_visible (s : SjCtx) (jmpBufPtr : ℕ) (rewinding : Bool) (sp : ℕ) :
    SameCall visible (s.visible.setjmp jmpBufPtr rewinding sp) (s.setjmp jmpBufPtr rewinding sp) := by
  unfold setjmp
  cases pending : s.longjmpPending with
  | true =>
    by_cases target : s.longjmpTarget = jmpBufPtr
    · simp [SameCall, visible, pending, target]
    · simp [SameCall, visible, pending, target]
  | false =>
    cases rewinding with
    | true => simp [SameCall, visible, pending]
    | false =>
      rcases taken : sjTakeSlot s.sjSlots jmpBufPtr s.mem.memorySize sp with ⟨slots, _ | i⟩
      · simp [SameCall, visible, pending, taken]
      · simp [SameCall, visible, pending, taken, initBuf, bufOf]

theorem SjCtx.visible_idem (s : SjCtx) : s.visible.visible = s.visible := by
  cases pending : s.longjmpPending with
  | true => simp [visible, pending]
  | false => simp [visible, pending]

theorem SjCtx.longjmp_visible (s : SjCtx) (jmpBufPtr : ℕ) (val : ℤ) :
    (s.visible.longjmp jmpBufPtr val).visible = (s.longjmp jmpBufPtr val).visible := by
  have slots : s.visible.sjSlots = s.sjSlots := rfl
  unfold longjmp
  rw [slots]
  cases sjFindSlot s.sjSlots jmpBufPtr with
  | none => exact s.visible_idem
  | some i => rfl

theorem SjCtx.pump_visible (s : SjCtx) : s.visible.pump.visible = s.pump.visible := by
  have slots : s.visible.sjSlots = s.sjSlots := rfl
  unfold pump
  cases setjmp : s.setjmpPending with
  | some i =>
    cases pending : s.longjmpPending with
    | true => simp [visible, setjmp, pending, bufOf]
    | false => simp [visible, setjmp, pending, bufOf]
  | none =>
    cases pending : s.longjmpPending with
    | false => simp [visible, setjmp, pending]
    | true =>
      rcases found : sjFindSlot s.sjSlots s.longjmpTarget with _ | i
      · simp [visible, setjmp, pending, found]
      · rcases saved : s.sjSlots[i]?.bind SjSlot.saveData with _ | save
        · simp [visible, setjmp, pending, found, saved]
        · simp only [visible, setjmp, pending, found, saved, if_true]
          rfl

/-! ## The calls on a context and on what is visible of it -/

namespace ForkCtx

theorem visible_idem (p : ForkCtx φ) : p.visible.visible = p.visible := by
  simp only [visible, p.sj.visible_idem, usedSlots_idem]

/-- A call that does the same to what is visible. -/
theorem sameCall_of_visible {a b : ForkCtx φ × ForkResult φ}
    (same : a = (b.1.visible, b.2)) : SameCall visible a b := by
  subst same
  exact ⟨rfl, b.1.visible_idem⟩

theorem visible_setFile (p : ForkCtx φ) {k : Fin fileMax} (s : Option (Stream φ)) (wfd : ℤ)
    (used : 4 ≤ k.val) : p.visible.setFile k s wfd = (p.setFile k s wfd).visible := by
  simp only [visible, setFile, usedSlots_update used]

theorem visible_setDir (p : ForkCtx φ) {k : Fin dirMax} (wfd : Option ℤ) (used : 1 ≤ k.val) :
    { p.visible with dirSlots := Function.update p.visible.dirSlots k wfd } =
      visible { p with dirSlots := Function.update p.dirSlots k wfd } := by
  simp only [visible, usedSlots_update used]

theorem fileSlot_used {fp : ℕ} {k : Fin fileMax} (h : fileSlot fp = some k) : 4 ≤ k.val := by
  unfold fileSlot at h
  split at h
  · next r =>
    cases h
    exact r.1
  · cases h

theorem dirSlot_used {h : ℕ} {k : Fin dirMax} (slot : dirSlot h = some k) : 1 ≤ k.val := by
  unfold dirSlot at slot
  split at slot
  · next r =>
    cases slot
    exact r.1
  · cases slot

theorem visible_fileAt (p : ForkCtx φ) (fp : ℕ) : p.visible.fileAt fp = p.fileAt fp := by
  unfold fileAt
  cases slot : fileSlot fp with
  | none => rfl
  | some k => simp only [Option.bind_some, visible, usedSlots_apply (fileSlot_used slot)]

theorem fileAt_used {p : ForkCtx φ} {fp : ℕ} {k : Fin fileMax} {s : Stream φ}
    (h : p.fileAt fp = some (k, s)) : 4 ≤ k.val ∧ p.fileSlots k = some s := by
  obtain ⟨j, slot, mapped⟩ := Option.bind_eq_some_iff.mp h
  obtain ⟨s', stream, pair⟩ := Option.map_eq_some_iff.mp mapped
  cases pair
  exact ⟨fileSlot_used slot, stream⟩

theorem visible_dirAt (p : ForkCtx φ) (h : ℕ) : p.visible.dirAt h = p.dirAt h := by
  unfold dirAt
  cases slot : dirSlot h with
  | none => rfl
  | some k => simp only [Option.bind_some, visible, usedSlots_apply (dirSlot_used slot)]

theorem dirAt_used {p : ForkCtx φ} {h : ℕ} {k : Fin dirMax} {wfd : ℤ}
    (open_ : p.dirAt h = some (k, wfd)) : 1 ≤ k.val := by
  obtain ⟨j, slot, mapped⟩ := Option.bind_eq_some_iff.mp open_
  obtain ⟨w, -, pair⟩ := Option.map_eq_some_iff.mp mapped
  cases pair
  exact dirSlot_used slot

theorem visible_freeFile (p : ForkCtx φ) : p.visible.freeFile = p.freeFile := by
  unfold freeFile
  congr 1
  funext k
  by_cases used : 4 ≤ k.val
  · simp only [visible, usedSlots_apply used]
  · simp [used]

theorem freeFile_used {p : ForkCtx φ} {k : Fin fileMax} (h : p.freeFile = some k) : 4 ≤ k.val := by
  have found := List.find?_some h
  simp only [Bool.and_eq_true, decide_eq_true_eq] at found
  exact found.1

theorem visible_freeDir (p : ForkCtx φ) : p.visible.freeDir = p.freeDir := by
  unfold freeDir
  congr 1
  funext k
  by_cases used : 1 ≤ k.val
  · simp only [visible, usedSlots_apply used]
  · have zero : k.val = 0 := by omega
    simp [zero]

theorem freeDir_used {p : ForkCtx φ} {k : Fin dirMax} (h : p.freeDir = some k) : 1 ≤ k.val := by
  have found := List.find?_some h
  simp only [Bool.and_eq_true, decide_eq_true_eq] at found
  exact found.1

theorem visible_allocFd (p : ForkCtx φ) (f : φ) (path : Option String) :
    p.visible.allocFd f path = ((p.allocFd f path).1.visible, (p.allocFd f path).2) := by
  have free : p.visible.freeFd = p.freeFd := rfl
  unfold allocFd
  rw [free]
  cases p.freeFd with
  | none => rfl
  | some w => rfl

theorem visible_close (p : ForkCtx φ) (wfd : ℤ) :
    p.visible.close wfd = ((p.close wfd).1.visible, (p.close wfd).2) := by
  have file : p.visible.fdFile wfd = p.fdFile wfd := rfl
  unfold close
  rw [file]
  cases p.fdFile wfd with
  | none => rfl
  | some e => rfl

theorem visible_dup (p : ForkCtx φ) (wfd : ℤ) :
    p.visible.dup wfd = ((p.dup wfd).1.visible, (p.dup wfd).2) := by
  have file : p.visible.fdFile wfd = p.fdFile wfd := rfl
  unfold dup
  rw [file]
  cases p.fdFile wfd with
  | none => rfl
  | some e =>
    have paths : p.visible.fdPaths = p.fdPaths := rfl
    simp only [paths, visible_allocFd]
    split <;> rfl

theorem visible_dup2 (p : ForkCtx φ) (oldfd newfd : ℤ) :
    p.visible.dup2 oldfd newfd = ((p.dup2 oldfd newfd).1.visible, (p.dup2 oldfd newfd).2) := by
  have file : p.visible.fdFile oldfd = p.fdFile oldfd := rfl
  unfold dup2
  rw [file]
  cases p.fdFile oldfd with
  | none => rfl
  | some e =>
    by_cases same : oldfd = newfd
    · simp only [if_pos same]
    · simp only [if_neg same]
      cases fdSlot newfd with
      | none => rfl
      | some new => rfl

theorem visible_fchdir (isDir : φ → Bool) (p : ForkCtx φ) (wfd : ℤ) :
    p.visible.fchdir isDir wfd = ((p.fchdir isDir wfd).1.visible, (p.fchdir isDir wfd).2) := by
  have file : p.visible.fdFile wfd = p.fdFile wfd := rfl
  unfold fchdir
  rw [file]
  rcases p.fdFile wfd with _ | ⟨w, f⟩
  · rfl
  · have paths : p.visible.fdPaths = p.fdPaths := rfl
    simp only [paths]
    cases isDir f with
    | false => rfl
    | true =>
      cases p.fdPaths w with
      | none => rfl
      | some path => rfl

theorem visible_fopen (p : ForkCtx φ) (f : φ) :
    p.visible.fopen f = ((p.fopen f).1.visible, (p.fopen f).2) := by
  unfold fopen
  simp only [visible_allocFd, visible_freeFile]
  cases free : (p.allocFd f none).1.freeFile with
  | none => simp only [visible_close]
  | some k => simp only [visible_setFile _ _ _ (freeFile_used free)]

theorem visible_fdopen (p : ForkCtx φ) (wfd : ℤ) :
    p.visible.fdopen wfd = ((p.fdopen wfd).1.visible, (p.fdopen wfd).2) := by
  have file : p.visible.fdFile wfd = p.fdFile wfd := rfl
  unfold fdopen
  rw [file, visible_freeFile]
  rcases p.fdFile wfd with _ | ⟨w, f⟩
  · rfl
  · cases free : p.freeFile with
    | none => rfl
    | some k => simp only [visible_setFile _ _ _ (freeFile_used free)]

theorem visible_fileno (p : ForkCtx φ) (fp : ℕ) : p.visible.fileno fp = p.fileno fp := by
  unfold fileno
  cases slot : fileSlot fp with
  | none => rfl
  | some k => simp only [visible, usedSlots_apply (fileSlot_used slot)]

theorem visible_fgetc (p : ForkCtx φ) (fp : ℕ) (refill : List UInt8) :
    p.visible.fgetc fp refill = ((p.fgetc fp refill).1.visible, (p.fgetc fp refill).2) := by
  have std : p.visible.stdAccess fp = p.stdAccess fp := rfl
  unfold fgetc
  rw [visible_fileAt, std]
  by_cases isStd : 1 ≤ fp ∧ fp ≤ 3
  · simp only [if_pos isStd]
  · simp only [if_neg isStd]
    rcases found : p.fileAt fp with _ | ⟨k, s⟩
    · rfl
    · have used := (fileAt_used found).1
      have wfd : p.visible.fileWfds k = p.fileWfds k := usedSlots_apply used
      simp only [wfd, visible_setFile _ _ _ used]
      cases (if s.readAhead = [] then refill else s.readAhead) with
      | nil => rfl
      | cons b rest => rfl

theorem visible_fputc (p : ForkCtx φ) (fp : ℕ) (b : UInt8) :
    p.visible.fputc fp b = ((p.fputc fp b).1.visible, (p.fputc fp b).2) := by
  have std : p.visible.stdAccess fp = p.stdAccess fp := rfl
  unfold fputc
  rw [visible_fileAt, std]
  by_cases isStd : 1 ≤ fp ∧ fp ≤ 3
  · simp only [if_pos isStd]
  · simp only [if_neg isStd]
    rcases found : p.fileAt fp with _ | ⟨k, s⟩
    · rfl
    · have used := (fileAt_used found).1
      have wfd : p.visible.fileWfds k = p.fileWfds k := usedSlots_apply used
      simp only [wfd, visible_setFile _ _ _ used]

theorem visible_fflush (p : ForkCtx φ) (fp : ℕ) :
    p.visible.fflush fp = ((p.fflush fp).1.visible, (p.fflush fp).2) := by
  unfold fflush
  rw [visible_fileAt]
  rcases found : p.fileAt fp with _ | ⟨k, s⟩
  · rfl
  · have used := (fileAt_used found).1
    have wfd : p.visible.fileWfds k = p.fileWfds k := usedSlots_apply used
    simp only [wfd, visible_setFile _ _ _ used]

theorem visible_freeHandle (p : ForkCtx φ) {k : Fin fileMax} (used : 4 ≤ k.val) :
    p.visible.freeHandle k = (p.freeHandle k).visible := by
  have wfd : p.visible.fileWfds k = p.fileWfds k := usedSlots_apply used
  unfold freeHandle
  simp only [wfd, visible_setFile _ _ _ used]
  by_cases owned : 0 ≤ p.fileWfds k
  · simp only [if_pos owned]
    cases fdSlot (p.fileWfds k) with
    | none => rfl
    | some w => rfl
  · simp only [if_neg owned]
    by_cases internal : p.fileWfds k < -1
    · simp only [if_pos internal]
      cases fdSlot (-(p.fileWfds k + 1)) with
      | none => rfl
      | some w => rfl
    · simp only [if_neg internal]

theorem visible_fclose (p : ForkCtx φ) (fp : ℕ) :
    p.visible.fclose fp = ((p.fclose fp).1.visible, (p.fclose fp).2) := by
  unfold fclose
  rw [visible_fileAt]
  by_cases isStd : 1 ≤ fp ∧ fp ≤ 3
  · simp only [if_pos isStd]
  · simp only [if_neg isStd]
    rcases found : p.fileAt fp with _ | ⟨k, s⟩
    · rfl
    · simp only [visible_freeHandle p (fileAt_used found).1]

theorem visible_opendir (p : ForkCtx φ) (f : φ) (path : String) :
    p.visible.opendir f path = ((p.opendir f path).1.visible, (p.opendir f path).2) := by
  unfold opendir
  rw [visible_freeDir]
  cases free : p.freeDir with
  | none => rfl
  | some k => simp only [visible_allocFd, visible_setDir _ _ (freeDir_used free)]

theorem visible_closedir (p : ForkCtx φ) (h : ℕ) :
    p.visible.closedir h = ((p.closedir h).1.visible, (p.closedir h).2) := by
  unfold closedir
  rw [visible_dirAt]
  rcases found : p.dirAt h with _ | ⟨k, wfd⟩
  · rfl
  · simp only [visible_close, visible_setDir _ _ (dirAt_used found)]

theorem visible_dirfd (p : ForkCtx φ) (h : ℕ) : p.visible.dirfd h = p.dirfd h := by
  unfold dirfd
  rw [visible_dirAt]

theorem visible_setspecific (p : ForkCtx φ) (key value : ℕ) :
    p.visible.setspecific key value =
      ((p.setspecific key value).1.visible, (p.setspecific key value).2) := by
  unfold setspecific
  cases tlsSlot key with
  | none => rfl
  | some k => rfl

/-- The bridges of the environment use the memory and the store, both visible. -/
theorem visible_withEnv {α : Type} (p : ForkCtx φ) (bridge : EnvCtx → EnvCtx × α) :
    p.visible.withEnv bridge = ((p.withEnv bridge).1.visible, (p.withEnv bridge).2) := rfl

theorem longjmp_visible (p : ForkCtx φ) (jmpBufPtr : ℕ) (val : ℤ) :
    SameCall visible (p.visible.longjmp jmpBufPtr val) (p.longjmp jmpBufPtr val) := by
  have slots : p.visible.sj.sjSlots = p.sj.sjSlots := rfl
  have sj := p.sj.longjmp_visible jmpBufPtr val
  unfold longjmp
  rw [slots]
  cases sjFindSlot p.sj.sjSlots jmpBufPtr with
  | none => exact ⟨rfl, p.visible_idem⟩
  | some i =>
    refine ⟨rfl, ?_⟩
    simp only [visible, usedSlots_idem, mk.injEq, and_self, and_true]
    exact sj

/-- One call: the same result, and contexts that look the same. -/
theorem call_visible (isDir : φ → Bool) (p : ForkCtx φ) (c : ForkCall φ) :
    SameCall visible (p.visible.call isDir c) (p.call isDir c) := by
  cases c with
  | load a => exact sameCall_of_visible rfl
  | store a v => exact sameCall_of_visible rfl
  | brk addr => exact sameCall_of_visible rfl
  | mmap2 addr length flags fd => exact sameCall_of_visible rfl
  | munmap addr len => exact sameCall_of_visible rfl
  | malloc size => exact sameCall_of_visible rfl
  | free off => exact sameCall_of_visible rfl
  | openFile f path =>
    refine sameCall_of_visible ?_
    simp only [call, visible_allocFd]
  | close wfd => exact sameCall_of_visible (p.visible_close wfd)
  | dup wfd => exact sameCall_of_visible (p.visible_dup wfd)
  | dup2 oldfd newfd => exact sameCall_of_visible (p.visible_dup2 oldfd newfd)
  | fdGet wfd =>
    have file : p.visible.fdFile wfd = p.fdFile wfd := rfl
    refine sameCall_of_visible ?_
    simp only [call, file]
    cases p.fdFile wfd with
    | none => rfl
    | some e => rfl
  | fchdir wfd => exact sameCall_of_visible (p.visible_fchdir isDir wfd)
  | getcwd => exact sameCall_of_visible rfl
  | umask mask => exact sameCall_of_visible rfl
  | fopen f => exact sameCall_of_visible (p.visible_fopen f)
  | fdopen wfd => exact sameCall_of_visible (p.visible_fdopen wfd)
  | fileno fp =>
    refine sameCall_of_visible ?_
    simp only [call, visible_fileno]
  | fgetc fp refill => exact sameCall_of_visible (p.visible_fgetc fp refill)
  | fputc fp b => exact sameCall_of_visible (p.visible_fputc fp b)
  | fflush fp => exact sameCall_of_visible (p.visible_fflush fp)
  | fclose fp => exact sameCall_of_visible (p.visible_fclose fp)
  | opendir f path => exact sameCall_of_visible (p.visible_opendir f path)
  | closedir h => exact sameCall_of_visible (p.visible_closedir h)
  | dirfd h =>
    refine sameCall_of_visible ?_
    simp only [call, visible_dirfd]
  | virtualFile fd => exact sameCall_of_visible rfl
  | getenv nameOff =>
    refine sameCall_of_visible ?_
    simp only [call, visible_withEnv]
    rfl
  | setenv nameOff valueOff overwrite =>
    refine sameCall_of_visible ?_
    simp only [call, visible_withEnv]
    rfl
  | unsetenv nameOff =>
    refine sameCall_of_visible ?_
    simp only [call, visible_withEnv]
    rfl
  | setjmp jmpBufPtr rewinding sp =>
    obtain ⟨result, sj⟩ := p.sj.setjmp_visible jmpBufPtr rewinding sp
    refine ⟨congrArg ForkResult.num result, ?_⟩
    simp only [call, visible, usedSlots_idem, mk.injEq, and_self, and_true]
    exact sj
  | longjmp jmpBufPtr val => exact p.longjmp_visible jmpBufPtr val
  | pump =>
    refine ⟨rfl, ?_⟩
    simp only [call, visible, usedSlots_idem, mk.injEq, and_self, and_true]
    exact p.sj.pump_visible
  | keyCreate => exact sameCall_of_visible rfl
  | keyDelete key => exact sameCall_of_visible rfl
  | setspecific key value => exact sameCall_of_visible (p.visible_setspecific key value)
  | getspecific key => exact sameCall_of_visible rfl

/-- A sequence of calls sees only what is visible. -/
theorem outcomes_visible (isDir : φ → Bool) (calls : List (ForkCall φ)) (p : ForkCtx φ) :
    p.visible.outcomes isDir calls = p.outcomes isDir calls := by
  induction calls generalizing p with
  | nil => rfl
  | cons c calls ih =>
    obtain ⟨result, after⟩ := p.call_visible isDir c
    simp only [outcomes]
    rw [result, ← ih (p.visible.call isDir c).1, after, ih]

end ForkCtx

/-! ## A parent that is copied completely -/

section Complete

variable {dups : HostDups} {p : ForkCtx φ}

theorem dupFdMap_eq {w : Fin fdMax} (copied : (p.fdMap w).Copied (dups.fd w)) :
    dupFdMap dups p w = p.fdMap w := by
  unfold dupFdMap
  cases entry : p.fdMap w with
  | free => rfl
  | tomb =>
    rw [entry] at copied
    exact copied.elim
  | file f =>
    rw [entry] at copied
    exact if_pos copied

theorem dupStream_eq {k : Fin fileMax}
    (copied : StreamCopied (dups.stream k) (p.fileWfds k) (p.fileSlots k)) :
    dupStream dups p k = p.fileSlots k := by
  unfold dupStream
  cases slot : p.fileSlots k with
  | none => rfl
  | some s =>
    rw [slot] at copied
    obtain ⟨dup, readAhead, unwritten⟩ := copied
    obtain ⟨file, ahead, pending⟩ := s
    cases readAhead
    cases unwritten
    exact if_pos dup

theorem dupWfd_eq {k : Fin fileMax}
    (copied : StreamCopied (dups.stream k) (p.fileWfds k) (p.fileSlots k)) :
    (if (dupStream dups p k).isSome then p.fileWfds k else -1) = p.fileWfds k := by
  rw [dupStream_eq copied]
  cases slot : p.fileSlots k with
  | none =>
    rw [slot] at copied
    exact copied.symm
  | some s => rfl

theorem usedSlots_congr {n first : ℕ} {α : Type} {cleared : α} {table table' : Fin n → α}
    (same : ∀ k, first ≤ k.val → table k = table' k) :
    usedSlots first cleared table = usedSlots first cleared table' := by
  funext k
  unfold usedSlots
  split
  · next used => exact same k used
  · rfl

/-- The child of a completely copied parent looks like the parent. -/
theorem ForkComplete.visible_eq (complete : ForkComplete dups p) :
    (forkChild dups p).visible = p.visible := by
  have fdMap : (forkChild dups p).fdMap = p.fdMap := funext fun w => dupFdMap_eq (complete.fds w)
  have fdPaths : (forkChild dups p).fdPaths = p.fdPaths := funext fun w => (complete.paths w).symm
  have procfsFds : (forkChild dups p).procfsFds = p.procfsFds :=
    funext fun fd => (complete.virtualFiles fd).symm
  have tls : (forkChild dups p).tls = p.tls := funext fun k => (complete.tls k).symm
  have files : usedSlots 4 none (forkChild dups p).fileSlots = usedSlots 4 none p.fileSlots :=
    usedSlots_congr fun k used => dupStream_eq (complete.files k used)
  have wfds : usedSlots 4 (-1) (forkChild dups p).fileWfds = usedSlots 4 (-1) p.fileWfds :=
    usedSlots_congr fun k used => dupWfd_eq (complete.files k used)
  have dirs : usedSlots 1 none (forkChild dups p).dirSlots = usedSlots 1 none p.dirSlots :=
    usedSlots_congr fun k used => (complete.dirs k used).symm
  have sj : (forkChild dups p).sj.visible = p.sj.visible := by
    simp only [SjCtx.visible, complete.longjmp, complete.setjmp, complete.slots]
    simp [forkChild, forkThreadFunc, yosForkPump, ← complete.live]
  simp only [ForkCtx.visible, fdMap, fdPaths, procfsFds, tls, files, wfds, dirs, sj, complete.keys]
  rfl

theorem ForkComplete.copies (complete : ForkComplete dups p) (isDir : φ → Bool) :
    ForkCopies isDir dups p where
  outcomes calls := by
    rw [← (forkChild dups p).outcomes_visible, complete.visible_eq, p.outcomes_visible]
  live := complete.live.symm
  paths := funext fun w => (complete.paths w).symm
  keys := complete.keys.symm
  jumps := by
    simp only [SjCtx.jumps, complete.slots, complete.setjmp, complete.longjmp]
    rfl

end Complete

/-! ## What a copy tells about the parent -/

/-- The entry can be given to a new descriptor. -/
def FdEntry.isFree : FdEntry φ → Bool
  | .free => true
  | .tomb | .file _ => false

/-- The free slots of `fd_map`. -/
def ForkCtx.freeFds (p : ForkCtx φ) : Finset (Fin fdMax) :=
  Finset.univ.filter fun w => (p.fdMap w).isFree = true

namespace ForkCtx

theorem mem_freeFds {p : ForkCtx φ} {w : Fin fdMax} :
    w ∈ p.freeFds ↔ (p.fdMap w).isFree = true := by
  simp [freeFds]

theorem freeFd_eq_none {p : ForkCtx φ} (none_ : p.freeFd = none) : p.freeFds = ∅ := by
  refine Finset.filter_eq_empty_iff.mpr fun w _ free => ?_
  have busy := List.find?_eq_none.mp none_ w (List.mem_finRange w)
  cases entry : p.fdMap w <;> simp_all [FdEntry.isFree]

theorem freeFd_mem {p : ForkCtx φ} {w : Fin fdMax} (found : p.freeFd = some w) :
    w ∈ p.freeFds := by
  have free := List.find?_some found
  rw [mem_freeFds]
  cases entry : p.fdMap w <;> simp_all [FdEntry.isFree]

theorem freeFds_setFd (p : ForkCtx φ) (w : Fin fdMax) (f : φ) (path : Option String) :
    (p.setFd w (.file f) path).freeFds = p.freeFds.erase w := by
  ext v
  rw [Finset.mem_erase, mem_freeFds, mem_freeFds]
  by_cases same : v = w
  · simp [setFd, same, FdEntry.isFree]
  · simp [setFd, same]

/-- A number that repeated opening returns is the one of a free slot, or the error. -/
theorem num_of_mem_opens (isDir : φ → Bool) (f : φ) (n : ℕ) (p : ForkCtx φ) {w : Fin fdMax}
    (seen : ForkResult.num (w : ℤ) ∈ p.outcomes isDir (List.replicate n (.openFile f ""))) :
    w ∈ p.freeFds := by
  induction n generalizing p with
  | zero => simp [outcomes] at seen
  | succ n ih =>
    simp only [List.replicate_succ, outcomes, call, allocFd, List.mem_cons] at seen
    cases found : p.freeFd with
    | none =>
      simp only [found, ForkResult.num.injEq] at seen
      rcases seen with error | later
      · simp only [emfile] at error
        omega
      · exact ih p later
    | some v =>
      simp only [found, ForkResult.num.injEq] at seen
      rcases seen with now | later
      · have same : w = v := Fin.ext (by omega)
        exact same ▸ freeFd_mem found
      · have free := ih _ later
        rw [freeFds_setFd] at free
        exact Finset.mem_of_mem_erase free

/-- Repeated opening returns the number of every free slot. -/
theorem mem_opens_of_free (isDir : φ → Bool) (f : φ) (n : ℕ) (p : ForkCtx φ) {w : Fin fdMax}
    (free : w ∈ p.freeFds) (enough : p.freeFds.card ≤ n) :
    ForkResult.num (w : ℤ) ∈ p.outcomes isDir (List.replicate n (.openFile f "")) := by
  induction n generalizing p with
  | zero =>
    have empty : p.freeFds = ∅ := Finset.card_eq_zero.mp (by omega)
    simp [empty] at free
  | succ n ih =>
    simp only [List.replicate_succ, outcomes, call, allocFd, List.mem_cons]
    cases found : p.freeFd with
    | none =>
      rw [freeFd_eq_none found] at free
      simp at free
    | some v =>
      by_cases same : w = v
      · exact .inl (by simp [same])
      · refine .inr (ih _ ?_ ?_)
        · rw [freeFds_setFd]
          exact Finset.mem_erase.mpr ⟨same, free⟩
        · rw [freeFds_setFd, Finset.card_erase_of_mem (freeFd_mem found)]
          omega

theorem fdSlot_val (w : Fin fdMax) : fdSlot (w : ℤ) = some w := by
  have bound : (0 : ℤ) ≤ w ∧ (w : ℤ) < fdMax := ⟨by omega, by omega⟩
  simp [fdSlot, bound.2]

theorem fileSlot_val {k : Fin fileMax} (used : 4 ≤ k.val) : fileSlot k.val = some k := by
  simp [fileSlot, used, k.isLt]

theorem dirSlot_val {k : Fin dirMax} (used : 0 < k.val) : dirSlot k.val = some k := by
  simp [dirSlot, used, k.isLt]

theorem tlsSlot_val (k : Fin maxTlsKeys) : tlsSlot k.val = some k := by
  simp [tlsSlot, k.isLt]

theorem fileAt_val (p : ForkCtx φ) {k : Fin fileMax} (used : 4 ≤ k.val) :
    p.fileAt k.val = (p.fileSlots k).map fun s => (k, s) := by
  simp [fileAt, fileSlot_val used]

end ForkCtx

namespace ForkCopies

open ForkCtx

variable {isDir : φ → Bool} {dups : HostDups} {p : ForkCtx φ}

/-- One call has the same result in both. -/
theorem result (copies : ForkCopies isDir dups p) (c : ForkCall φ) :
    ((forkChild dups p).call isDir c).2 = (p.call isDir c).2 := by
  have same := copies.outcomes [c]
  simpa only [ForkCtx.outcomes, List.cons.injEq, and_true] using same

theorem not_tomb (copies : ForkCopies isDir dups p) (f : φ) (w : Fin fdMax) :
    p.fdMap w ≠ .tomb := by
  intro tomb
  have free : w ∈ (forkChild dups p).freeFds := by
    rw [mem_freeFds]
    show (dupFdMap dups p w).isFree = true
    simp [dupFdMap, tomb, FdEntry.isFree]
  have seen := mem_opens_of_free isDir f _ _ free (Nat.le_refl _)
  rw [copies.outcomes] at seen
  have parent := num_of_mem_opens isDir f _ _ seen
  rw [mem_freeFds, tomb] at parent
  cases parent

theorem fd_copied [Inhabited φ] (copies : ForkCopies isDir dups p) (w : Fin fdMax) :
    (p.fdMap w).Copied (dups.fd w) := by
  cases entry : p.fdMap w with
  | free => exact trivial
  | tomb => exact copies.not_tomb default w entry
  | file f =>
    have same := copies.result (.fdGet w)
    cases dup : dups.fd w with
    | true => exact rfl
    | false =>
      simp [call, fdFile, fdSlot_val, entry, FdEntry.file?, forkChild, forkThreadFunc, yosForkPump,
        dupFdMap, dup] at same

theorem file_copied (copies : ForkCopies isDir dups p) {k : Fin fileMax} (used : 4 ≤ k.val) :
    StreamCopied (dups.stream k) (p.fileWfds k) (p.fileSlots k) := by
  have notStd : ¬ (1 ≤ k.val ∧ k.val ≤ 3) := by omega
  have child : (forkChild dups p).fileSlots k = dupStream dups p k := rfl
  cases slot : p.fileSlots k with
  | none =>
    have same := copies.result (.fileno k)
    have childWfd : (forkChild dups p).fileWfds k = -1 := by
      simp [forkChild, forkThreadFunc, yosForkPump, dupStream, slot]
    simp only [call, fileno, if_neg notStd, fileSlot_val used, childWfd] at same
    show p.fileWfds k = -1
    by_cases internal : p.fileWfds k < -1
    · simp only [if_pos internal, lt_irrefl, if_false, ForkResult.num.injEq] at same
      omega
    · simp only [if_neg internal, lt_irrefl, if_false, ForkResult.num.injEq] at same
      exact same.symm
  | some s =>
    have dup : dups.stream k = true := by
      have same := copies.result (.fclose k)
      by_contra failed
      simp [call, fclose, notStd, fileAt_val _ used, child, dupStream, slot, failed] at same
    have childSlot : (forkChild dups p).fileSlots k = some ⟨s.file, [], []⟩ := by
      rw [child]
      simp [dupStream, slot, dup]
    refine ⟨dup, ?_, ?_⟩
    · cases ahead : s.readAhead with
      | nil => rfl
      | cons b rest =>
        have same := copies.result (.fgetc k [b + 1])
        simp [call, fgetc, notStd, fileAt_val _ used, childSlot, slot, ahead] at same
        omega
    · have same := copies.result (.fflush k)
      simp only [call, fflush, fileAt_val _ used, childSlot, slot, Option.map_some,
        ForkResult.bytes.injEq] at same
      exact same.symm

theorem dir_none (copies : ForkCopies isDir dups p) {k : Fin dirMax} (used : 0 < k.val) :
    p.dirSlots k = none := by
  have same := copies.result (.closedir k)
  cases slot : p.dirSlots k with
  | none => rfl
  | some wfd =>
    simp [call, closedir, dirAt, dirSlot_val used, slot, forkChild, forkThreadFunc] at same

theorem virtualFile_none (copies : ForkCopies isDir dups p) (fd : ℕ) : p.procfsFds fd = none := by
  have same := copies.result (.virtualFile fd)
  cases slot : p.procfsFds fd with
  | none => rfl
  | some node => simp [call, virtualFile, slot, forkChild, forkThreadFunc] at same

theorem tls_zero (copies : ForkCopies isDir dups p) (k : Fin maxTlsKeys) : p.tls k = 0 := by
  have same := copies.result (.getspecific k)
  simp only [call, getspecific, tlsSlot_val, forkChild, forkThreadFunc, ForkResult.num.injEq] at same
  omega

theorem complete [Inhabited φ] (copies : ForkCopies isDir dups p) : ForkComplete dups p where
  live := copies.live.symm
  fds := copies.fd_copied
  paths w := (congrFun copies.paths w).symm
  files _ := copies.file_copied
  dirs _ := copies.dir_none
  virtualFiles := copies.virtualFile_none
  slots := (congrArg Prod.fst copies.jumps).symm
  setjmp := (congrArg (fun j => j.2.1) copies.jumps).symm
  longjmp := (congrArg (fun j => j.2.2) copies.jumps).symm
  keys := copies.keys.symm
  tls := copies.tls_zero

end ForkCopies

/-- A process of 4 MiB with one page mapped. -/
def mappedParent : ForkCtx Unit where
  sj :=
    { mem :=
        { MemCtx.blank (2 ^ 22) 0x50000 with
          mmapTop := 2 ^ 21 + 4096
          liveList := [⟨2 ^ 21, 4096⟩] }
      asyncifyPtr := 2 ^ 22 - 2 ^ 14
      sjDiscardPtr := 0
      sjSlots := List.replicate sjSlotCount ⟨0, 0, none⟩
      setjmpPending := none
      longjmpPending := false
      longjmpTarget := 0
      longjmpValue := 0 }
  fdMap := fun _ => .free
  fdPaths := fun _ => none
  cwd := "/"
  umask := 18
  fileSlots := fun _ => none
  fileWfds := fun _ => -1
  dirSlots := fun _ => none
  procfsFds := fun _ => none
  envStore := ⟨[], false⟩
  envp := []
  sigHandlers := fun _ => 0
  sigIgnoreMask := 0
  sigMask := 0
  sigPending := 0
  nextKey := 0
  tls := fun _ => 0

/-- Store a byte in the page, unmap the page and look at the byte. -/
def useMapping : List (ForkCall Unit) := [.store (2 ^ 21) 1, .munmap (2 ^ 21) 4096, .load (2 ^ 21)]

end Yos
