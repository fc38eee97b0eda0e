import Yos.Proc.ProcTable

/-!
# Failing forks (`impl/proc/proc.c`)

When `yos_fork_pump` runs, the parent has been unwound to its `fork` call and the entry of the child
is reserved.  The pump makes the copies the child needs, starts its thread and rewinds the parent;
`fork_thread_func` sets the child up.  Both have exits with a clean-up of their own.

No exit is clean (`fork_failure_atomic_iff`): the pump returns without rewinding the parent, and the
child thread ends without making its entry a zombie.  The descriptors and streams duplicated for the
child are released exactly once on every exit (`fork_failure_releases_dups`).
-/

namespace Yos.ForkFail

/-! ## The state of a fork -/

/-- The points at which a fork can fail, in the order of the source. -/
inductive ForkPoint where
  /-- `mmap` of the snapshot. -/
  | snapshot
  /-- `malloc` of `fork_thread_arg`. -/
  | arg
  /-- `malloc` of the globals. -/
  | globals
  /-- `yos_proc_find` of the child. -/
  | child
  /-- `malloc` of the wasm bytes. -/
  | wasmBytes
  /-- `pthread_create`. -/
  | thread
  /-- `m3_NewRuntime`. -/
  | runtime
  /-- `calloc` of the child's context. -/
  | ctx
  /-- `m3_ParseModule`. -/
  | parse
  /-- `m3_LoadModule`. -/
  | load
deriving DecidableEq, Repr

/-- What is allocated for the child; a stream includes the descriptor it was opened on. -/
inductive ForkRes where
  | snapshot
  | arg
  | globals
  | wasmBytes
  | fd (i : ℕ)
  | file (i : ℕ)
  | m3Env
  | m3Runtime
  | ctx
deriving DecidableEq, Repr

/-- The parent's open descriptors and streams, and what the host makes of the calls. -/
structure ForkHost where
  ok : ForkPoint → Bool
  /-- `fd_map[i]` is open and can be duplicated. -/
  fdDup : ℕ → Bool
  /-- `file_slots[i]` is open and its descriptor can be duplicated. -/
  fileDup : ℕ → Bool
  /-- `fdopen` of the duplicate. -/
  fdopen : ℕ → Bool
  /-- The pid of the reserved entry. -/
  childPid : ℤ

/-- The allocations made so far and where the fork stands. -/
structure ForkState where
  acquired : ForkRes → ℕ
  released : ForkRes → ℕ
  /-- The entries of `parent_fd_map` and `parent_file_dup_fps` that are set. -/
  fdDups : ℕ → Bool
  fileDups : ℕ → Bool
  /-- The state of the child's entry, if `yos_proc_find` finds it. -/
  slot : Option ProcState
  /-- A host thread runs the child. -/
  thread : Bool
  /-- What the parent's `fork` returns, once the parent is rewound. -/
  result : Option ℤ

namespace ForkState

def acquire (s : ForkState) (r : ForkRes) : ForkState :=
  { s with acquired := Function.update s.acquired r (s.acquired r + 1) }

def release (s : ForkState) (r : ForkRes) : ForkState :=
  { s with released := Function.update s.released r (s.released r + 1) }

/-- `if (child) child->state = state`. -/
def setSlot (s : ForkState) (state : ProcState) : ForkState :=
  { s with slot := s.slot.map fun _ => state }

/-- The child's thread runs and the parent is rewound with the child's pid. -/
def start (s : ForkState) (pid : ℤ) : ForkState := { s with thread := true, result := some pid }

/-- The child's thread returns. -/
def finish (s : ForkState) : ForkState := { s with thread := false }

end ForkState

/-- The size of the descriptor and of the stream table. -/
def forkTable : ℕ := 256

/-- A loop over a table. -/
def overTable (n : ℕ) (body : ForkState → ℕ → ForkState) (s : ForkState) : ForkState :=
  (List.range n).foldl body s

/-- The state when the pump starts: the entry is reserved and the parent unwound. -/
def forkStart (h : ForkHost) : ForkState where
  acquired _ := 0
  released _ := 0
  fdDups _ := false
  fileDups _ := false
  slot := if h.ok .child then some .ready else none
  thread := false
  result := none

/-! ## The loops -/

/-- The body of the loop that duplicates the descriptors. -/
def dupFd (h : ForkHost) (s : ForkState) (i : ℕ) : ForkState :=
  if h.fdDup i then { s.acquire (.fd i) with fdDups := Function.update s.fdDups i true } else s

/-- The body of the loop that duplicates the streams. -/
def dupFile (h : ForkHost) (s : ForkState) (i : ℕ) : ForkState :=
  if h.fileDup i then
    let s := s.acquire (.file i)
    if h.fdopen i then { s with fileDups := Function.update s.fileDups i true }
    else s.release (.file i)
  else s

/-- The body of the loop that closes the descriptors. -/
def closeFd (s : ForkState) (i : ℕ) : ForkState :=
  if s.fdDups i then { s.release (.fd i) with fdDups := Function.update s.fdDups i false } else s

/-- The body of the loop that closes the streams. -/
def closeFile (s : ForkState) (i : ℕ) : ForkState :=
  if s.fileDups i then { s.release (.file i) with fileDups := Function.update s.fileDups i false }
  else s

/-- `release_parent_dups`; the exits after the child's context has adopted the tables close its
copies in the same way. -/
def releaseParentDups (s : ForkState) : ForkState :=
  overTable forkTable closeFile (overTable forkTable closeFd s)

/-- The copies of the parent's descriptors and streams. -/
def forkCopies (h : ForkHost) (s : ForkState) : ForkState :=
  overTable forkTable (dupFile h) (overTable forkTable (dupFd h) s)

/-! ## The child's set-up -/

/-- The releases that all exits of `fork_thread_func` end with. -/
def threadExit (s : ForkState) : ForkState :=
  (((s.release .snapshot).release .globals).release .arg).finish

/-- The exits after a failed parse or load. -/
def moduleExit (s : ForkState) : ForkState :=
  threadExit ((((releaseParentDups s).release .ctx).release .m3Runtime).release .m3Env)

/-- `fork_thread_func`, up to the rewind of the child. -/
def forkThreadFunc (h : ForkHost) (s : ForkState) : ForkState :=
  let s := s.acquire .m3Env
  if !h.ok .runtime then threadExit (releaseParentDups s)
  else
    let s := s.acquire .m3Runtime
    if !h.ok .ctx then threadExit (((releaseParentDups s).release .m3Runtime).release .m3Env)
    else
      let s := s.acquire .ctx
      if !h.ok .parse then moduleExit s
      else if !h.ok .load then moduleExit s
      else ((s.release .snapshot).release .globals).release .arg

/-! ## The pump -/

/-- The last part of the pump: the copies are made, the thread is started. -/
def spawnChild (h : ForkHost) (s : ForkState) : ForkState :=
  let s := (forkCopies h s).setSlot .running
  if !h.ok .thread then
    ((((releaseParentDups s).release .snapshot).release .globals).release .arg).setSlot .free
  else forkThreadFunc h (s.start h.childPid)

/-- `yos_fork_pump`, followed by the set-up in the child's thread. -/
def yosForkPump (h : ForkHost) : ForkState :=
  let s := forkStart h
  if !h.ok .snapshot then s.setSlot .free
  else
    let s := s.acquire .snapshot
    if !h.ok .arg then (s.release .snapshot).setSlot .free
    else
      let s := s.acquire .arg
      if !h.ok .globals then ((s.release .snapshot).release .arg).setSlot .free
      else
        let s := s.acquire .globals
        if !h.ok .child then ((s.release .snapshot).release .arg).release .globals
        else if !h.ok .wasmBytes then
          (((s.release .snapshot).release .globals).release .arg).setSlot .free
        else spawnChild h (s.acquire .wasmBytes)

/-! ## What a failing fork should do -/

/-- The fork fails before the parent is rewound. -/
def ForkHost.parentFails (h : ForkHost) : Bool :=
  [.snapshot, .arg, .globals, .child, .wasmBytes, .thread].any fun p => !h.ok p

/-- The fork fails in the child's thread. -/
def ForkHost.childFails (h : ForkHost) : Bool :=
  !h.parentFails && [.runtime, .ctx, .parse, .load].any fun p => !h.ok p

/-- Everything allocated for the child was released once. -/
def ForkState.Balanced (s : ForkState) : Prop :=
  ∀ r, s.acquired r = s.released r ∧ s.released r ≤ 1

/-- A failing fork leaves nothing behind.  The parent sees an error when the fork fails before it is
rewound; a child that fails becomes a zombie; an entry is ready or running only with a thread. -/
structure ForkAtomic (h : ForkHost) (s : ForkState) : Prop where
  resumed : h.parentFails → s.result = some (-1)
  zombie : h.childFails → s.result = some h.childPid ∧ s.slot = some .zombie
  runs : s.slot = some .ready ∨ s.slot = some .running → s.thread = true
  balanced : h.parentFails ∨ h.childFails → s.Balanced

/-! ## What a loop leaves alone -/

section Frame

variable {h : ForkHost} {s : ForkState} {α : Type}

/-- The rule for a loop over a table. -/
theorem overTable_induction {P : ℕ → ForkState → Prop} {body : ForkState → ℕ → ForkState} {n : ℕ}
    (start : P 0 s) (next : ∀ k t, k < n → P k t → P (k + 1) (body t k)) :
    P n (overTable n body s) := by
  induction n with
  | zero => exact start
  | succ n ih =>
    have before := ih fun k t hk => next k t (by omega)
    rw [overTable, List.range_succ, List.foldl_append]
    exact next n _ (by omega) before

/-- What the body of a loop leaves alone, the loop does. -/
theorem overTable_keeps {f : ForkState → α} {body : ForkState → ℕ → ForkState} {n : ℕ}
    (keeps : ∀ t i, f (body t i) = f t) : f (overTable n body s) = f s :=
  overTable_induction (P := fun _ t => f t = f s) rfl fun k t _ same => (keeps t k).trans same

/-- Where the fork stands: the part of the state the loops leave alone. -/
def ForkState.stand (s : ForkState) : Option ProcState × Bool × Option ℤ :=
  (s.slot, s.thread, s.result)

theorem acquire_stand (r : ForkRes) : (s.acquire r).stand = s.stand := rfl

theorem release_stand (r : ForkRes) : (s.release r).stand = s.stand := rfl

theorem dupFd_stand (i : ℕ) : (dupFd h s i).stand = s.stand := by
  unfold dupFd
  split <;> rfl

theorem dupFile_stand (i : ℕ) : (dupFile h s i).stand = s.stand := by
  unfold dupFile
  split
  · dsimp only
    split <;> rfl
  · rfl

theorem closeFd_stand (i : ℕ) : (closeFd s i).stand = s.stand := by
  unfold closeFd
  split <;> rfl

theorem closeFile_stand (i : ℕ) : (closeFile s i).stand = s.stand := by
  unfold closeFile
  split <;> rfl

theorem releaseParentDups_stand : (releaseParentDups s).stand = s.stand := by
  rw [releaseParentDups, overTable_keeps fun t i => closeFile_stand i,
    overTable_keeps fun t i => closeFd_stand i]

theorem forkCopies_stand : (forkCopies h s).stand = s.stand := by
  rw [forkCopies, overTable_keeps fun t i => dupFile_stand i,
    overTable_keeps fun t i => dupFd_stand i]

end Frame

/-! ## The duplicates of a table -/

section Dups

variable {h : ForkHost} {s : ForkState} {acquired released : ℕ → ℕ} {flag : ℕ → Bool} {k : ℕ}

/-- A table of duplicates while its loop runs: an entry that is set is held, and only the first `k`
entries were made, each once. -/
structure TableDups (acquired released : ℕ → ℕ) (flag : ℕ → Bool) (k : ℕ) : Prop where
  held : ∀ i, acquired i = released i + (flag i).toNat
  once : ∀ i, acquired i ≤ if i < k then 1 else 0

namespace TableDups

theorem skip (t : TableDups acquired released flag k) : TableDups acquired released flag (k + 1) where
  held := t.held
  once i := by
    have := t.once i
    split_ifs at this ⊢ <;> omega

/-- The entry `k` was not made yet. -/
theorem fresh (t : TableDups acquired released flag k) :
    acquired k = 0 ∧ released k = 0 ∧ flag k = false := by
  have once := t.once k
  have held := t.held k
  rw [if_neg (Nat.lt_irrefl k)] at once
  refine ⟨by omega, by omega, ?_⟩
  cases flagged : flag k with
  | false => rfl
  | true =>
    rw [flagged] at held
    simp only [Bool.toNat_true] at held
    omega

theorem take (t : TableDups acquired released flag k) :
    TableDups (Function.update acquired k (acquired k + 1)) released (Function.update flag k true)
      (k + 1) where
  held i := by
    by_cases same : i = k
    · subst same
      have := t.fresh
      simp [this]
    · simp only [Function.update_of_ne same]
      exact t.held i
  once i := by
    by_cases same : i = k
    · subst same
      have := t.fresh
      simp [this]
    · simp only [Function.update_of_ne same]
      exact t.skip.once i

/-- The duplicate was made and given back at once. -/
theorem giveBack (t : TableDups acquired released flag k) :
    TableDups (Function.update acquired k (acquired k + 1))
      (Function.update released k (released k + 1)) flag (k + 1) where
  held i := by
    by_cases same : i = k
    · subst same
      have := t.fresh
      simp [this]
    · simp only [Function.update_of_ne same]
      exact t.held i
  once i := by
    by_cases same : i = k
    · subst same
      have := t.fresh
      simp [this]
    · simp only [Function.update_of_ne same]
      exact t.skip.once i

theorem close (t : TableDups acquired released flag k) {j : ℕ} (isSet : flag j = true) :
    TableDups acquired (Function.update released j (released j + 1)) (Function.update flag j false)
      k where
  held i := by
    by_cases same : i = j
    · subst same
      have := t.held i
      rw [isSet] at this
      simpa using this
    · simp only [Function.update_of_ne same]
      exact t.held i
  once := t.once

/-- No entry is set: everything was released once. -/
theorem balanced (t : TableDups acquired released flag k) (closed : ∀ i < k, flag i = false) (i : ℕ) :
    acquired i = released i ∧ released i ≤ 1 := by
  have held := t.held i
  have once := t.once i
  by_cases small : i < k
  · rw [closed i small] at held
    rw [if_pos small] at once
    simp only [Bool.toNat_false, Nat.add_zero] at held
    omega
  · rw [if_neg small] at once
    omega

end TableDups

theorem fd_injective : Function.Injective ForkRes.fd := fun _ _ h => ForkRes.fd.inj h

theorem file_injective : Function.Injective ForkRes.file := fun _ _ h => ForkRes.file.inj h

/-- The duplicated descriptors, of which the first `k` were visited. -/
def ForkState.FdDups (s : ForkState) (k : ℕ) : Prop :=
  TableDups (s.acquired ∘ .fd) (s.released ∘ .fd) s.fdDups k

/-- The duplicated streams, of which the first `k` were visited. -/
def ForkState.FileDups (s : ForkState) (k : ℕ) : Prop :=
  TableDups (s.acquired ∘ .file) (s.released ∘ .file) s.fileDups k

/-- Both tables of duplicates are complete. -/
structure DupsHeld (s : ForkState) : Prop where
  fd : s.FdDups forkTable
  file : s.FileDups forkTable

/-- Every duplicate was released once. -/
def DupsReleased (s : ForkState) : Prop :=
  ∀ i, (s.acquired (.fd i) = s.released (.fd i) ∧ s.released (.fd i) ≤ 1) ∧
    s.acquired (.file i) = s.released (.file i) ∧ s.released (.file i) ≤ 1

theorem dupFd_dups {l : ℕ} (fd : s.FdDups k) (file : s.FileDups l) :
    (dupFd h s k).FdDups (k + 1) ∧ (dupFd h s k).FileDups l := by
  unfold dupFd
  split
  · refine ⟨?_, ?_⟩
    · have taken := fd.take
      unfold ForkState.FdDups ForkState.acquire
      rwa [Function.update_comp_eq_of_injective _ fd_injective]
    · unfold ForkState.FileDups ForkState.acquire
      rwa [Function.update_comp_eq_of_forall_ne _ _ fun i => by simp]
  · exact ⟨fd.skip, file⟩

theorem dupFile_dups {l : ℕ} (fd : s.FdDups l) (file : s.FileDups k) :
    (dupFile h s k).FdDups l ∧ (dupFile h s k).FileDups (k + 1) := by
  unfold dupFile
  split
  · dsimp only
    split
    · refine ⟨?_, ?_⟩
      · unfold ForkState.FdDups ForkState.acquire
        rwa [Function.update_comp_eq_of_forall_ne _ _ fun i => by simp]
      · have taken := file.take
        unfold ForkState.FileDups ForkState.acquire
        rwa [Function.update_comp_eq_of_injective _ file_injective]
    · refine ⟨?_, ?_⟩
      · unfold ForkState.FdDups ForkState.acquire ForkState.release
        rwa [Function.update_comp_eq_of_forall_ne _ _ fun i => by simp,
          Function.update_comp_eq_of_forall_ne _ _ fun i => by simp]
      · have given := file.giveBack
        unfold ForkState.FileDups ForkState.acquire ForkState.release
        rwa [Function.update_comp_eq_of_injective _ file_injective,
          Function.update_comp_eq_of_injective _ file_injective]
  · exact ⟨fd, file.skip⟩

theorem closeFd_dups (held : DupsHeld s) (i : ℕ) : DupsHeld (closeFd s i) := by
  unfold closeFd
  split
  · next isSet =>
    refine ⟨?_, ?_⟩
    · have closed := held.fd.close isSet
      unfold ForkState.FdDups ForkState.release
      rwa [Function.update_comp_eq_of_injective _ fd_injective]
    · have file := held.file
      unfold ForkState.FileDups ForkState.release
      rwa [Function.update_comp_eq_of_forall_ne _ _ fun i => by simp]
  · exact held

theorem closeFile_dups (held : DupsHeld s) (i : ℕ) : DupsHeld (closeFile s i) := by
  unfold closeFile
  split
  · next isSet =>
    refine ⟨?_, ?_⟩
    · have fd := held.fd
      unfold ForkState.FdDups ForkState.release
      rwa [Function.update_comp_eq_of_forall_ne _ _ fun i => by simp]
    · have closed := held.file.close isSet
      unfold ForkState.FileDups ForkState.release
      rwa [Function.update_comp_eq_of_injective _ file_injective]
  · exact held

/-- Each close clears its own entry. -/
theorem closeFd_fdDups (i : ℕ) : (closeFd s i).fdDups = Function.update s.fdDups i false := by
  unfold closeFd
  split
  · rfl
  · next unset => rw [← Bool.eq_false_iff.mpr unset, Function.update_eq_self]

theorem closeFile_fileDups (i : ℕ) : (closeFile s i).fileDups = Function.update s.fileDups i false := by
  unfold closeFile
  split
  · rfl
  · next unset => rw [← Bool.eq_false_iff.mpr unset, Function.update_eq_self]

/-- Clearing the next entry extends the range that is clear. -/
theorem clear_succ {set : ℕ → Bool} {i : ℕ} (below : ∀ j < i, set j = false) :
    ∀ j < i + 1, Function.update set i false j = false := by
  intro j hj
  rcases eq_or_ne j i with rfl | other
  · exact Function.update_self ..
  · rw [Function.update_of_ne other]
    exact below j (by omega)

theorem closeFile_fdDups (i : ℕ) : (closeFile s i).fdDups = s.fdDups := by
  unfold closeFile
  split <;> rfl

/-- The pump duplicates each open descriptor and stream once. -/
theorem forkCopies_dups (fd : s.FdDups 0) (file : s.FileDups 0) : DupsHeld (forkCopies h s) := by
  have fds : (overTable forkTable (dupFd h) s).FdDups forkTable ∧
      (overTable forkTable (dupFd h) s).FileDups 0 :=
    overTable_induction (P := fun k t => t.FdDups k ∧ t.FileDups 0) ⟨fd, file⟩
      fun k t _ both => dupFd_dups both.1 both.2
  have both : (forkCopies h s).FdDups forkTable ∧ (forkCopies h s).FileDups forkTable :=
    overTable_induction (P := fun k t => t.FdDups forkTable ∧ t.FileDups k) fds
      fun k t _ both => dupFile_dups both.1 both.2
  exact ⟨both.1, both.2⟩

/-- `release_parent_dups` releases every duplicate once. -/
theorem releaseParentDups_released (held : DupsHeld s) : DupsReleased (releaseParentDups s) := by
  have fds := overTable_induction (P := fun k t => DupsHeld t ∧ ∀ j < k, t.fdDups j = false)
    (n := forkTable) ⟨held, fun j hj => by omega⟩
    fun k t _ both => ⟨closeFd_dups both.1 k, by rw [closeFd_fdDups]; exact clear_succ both.2⟩
  have files := overTable_induction
    (P := fun k t => DupsHeld t ∧ (∀ j < forkTable, t.fdDups j = false) ∧
      ∀ j < k, t.fileDups j = false)
    (n := forkTable) ⟨fds.1, fds.2, fun j hj => by omega⟩
    fun k t _ all => ⟨closeFile_dups all.1 k, by rw [closeFile_fdDups]; exact all.2.1,
      by rw [closeFile_fileDups]; exact clear_succ all.2.2⟩
  rw [releaseParentDups]
  obtain ⟨all, fdClosed, fileClosed⟩ := files
  intro i
  have fd := all.fd.balanced fdClosed i
  have file := all.file.balanced fileClosed i
  exact ⟨fd, file⟩

/-- The other allocations say nothing about the duplicates. -/
def ForkRes.isDup : ForkRes → Bool
  | .fd _ | .file _ => true
  | _ => false

theorem ForkRes.ne_of_isDup {r : ForkRes} (other : r.isDup = false) (i : ℕ) :
    ForkRes.fd i ≠ r ∧ ForkRes.file i ≠ r := by
  constructor <;> rintro rfl <;> cases other

theorem DupsReleased.acquire (done : DupsReleased s) {r : ForkRes} (other : r.isDup = false) :
    DupsReleased (s.acquire r) := fun i => by
  have ne := ForkRes.ne_of_isDup other i
  simp only [ForkState.acquire, Function.update_of_ne ne.1, Function.update_of_ne ne.2]
  exact done i

theorem DupsReleased.release (done : DupsReleased s) {r : ForkRes} (other : r.isDup = false) :
    DupsReleased (s.release r) := fun i => by
  have ne := ForkRes.ne_of_isDup other i
  simp only [ForkState.release, Function.update_of_ne ne.1, Function.update_of_ne ne.2]
  exact done i

theorem DupsHeld.acquire (held : DupsHeld s) {r : ForkRes} (other : r.isDup = false) :
    DupsHeld (s.acquire r) := by
  have ne := ForkRes.ne_of_isDup other
  obtain ⟨fd, file⟩ := held
  unfold ForkState.FdDups at fd
  unfold ForkState.FileDups at file
  refine ⟨?_, ?_⟩
  · unfold ForkState.FdDups ForkState.acquire
    rwa [Function.update_comp_eq_of_forall_ne _ _ fun i => (ne i).1]
  · unfold ForkState.FileDups ForkState.acquire
    rwa [Function.update_comp_eq_of_forall_ne _ _ fun i => (ne i).2]

theorem DupsReleased.setSlot (done : DupsReleased s) (p : ProcState) : DupsReleased (s.setSlot p) :=
  done

theorem DupsReleased.finish (done : DupsReleased s) : DupsReleased s.finish := done

theorem DupsHeld.setSlot (held : DupsHeld s) (p : ProcState) : DupsHeld (s.setSlot p) :=
  ⟨held.fd, held.file⟩

theorem DupsHeld.start (held : DupsHeld s) (pid : ℤ) : DupsHeld (s.start pid) :=
  ⟨held.fd, held.file⟩

end Dups

/-! ## The exits -/

section Exits

variable {h : ForkHost} {s : ForkState}

/-- The state of the pump before the copies are made. -/
def forkPrepared (h : ForkHost) : ForkState :=
  ((((forkStart h).acquire .snapshot).acquire .arg).acquire .globals).acquire .wasmBytes

/-- A fork that failed before the parent was rewound. -/
structure ParentExit (s : ForkState) : Prop where
  unresumed : s.result = none
  idle : s.slot ≠ some .ready ∧ s.slot ≠ some .running
  dups : DupsReleased s

/-- A fork that failed in the child's thread. -/
structure ChildExit (h : ForkHost) (s : ForkState) : Prop where
  resumed : s.result = some h.childPid
  stuck : s.slot = some .running ∧ s.thread = false
  dups : DupsReleased s

/-- A fork that did not fail. -/
structure Forked (h : ForkHost) (s : ForkState) : Prop where
  resumed : s.result = some h.childPid
  runs : s.slot = some .running ∧ s.thread = true

theorem release_result (r : ForkRes) : (s.release r).result = s.result := rfl

theorem setSlot_result (p : ProcState) : (s.setSlot p).result = s.result := rfl

theorem forkStart_released (h : ForkHost) : DupsReleased (forkStart h) := fun _ =>
  ⟨⟨rfl, Nat.zero_le 1⟩, rfl, Nat.zero_le 1⟩

theorem setSlot_idle : (s.setSlot .free).slot ≠ some .ready ∧ (s.setSlot .free).slot ≠ some .running := by
  unfold ForkState.setSlot
  cases s.slot with
  | none => simp
  | some p => simp

/-- No duplicate is made before `forkCopies`. -/
theorem forkPrepared_dups (h : ForkHost) : (forkPrepared h).FdDups 0 ∧ (forkPrepared h).FileDups 0 :=
  ⟨⟨fun _ => rfl, fun _ => Nat.zero_le _⟩, ⟨fun _ => rfl, fun _ => Nat.zero_le _⟩⟩

/-- The early exits of the pump. -/
theorem yosForkPump_early
    (fails : ¬ (h.ok .snapshot ∧ h.ok .arg ∧ h.ok .globals ∧ h.ok .child ∧ h.ok .wasmBytes)) :
    ParentExit (yosForkPump h) := by
  have start := forkStart_released h
  unfold yosForkPump
  split
  · exact ⟨rfl, setSlot_idle, start.setSlot _⟩
  dsimp only
  split
  · exact ⟨rfl, setSlot_idle, ((start.acquire rfl).release rfl).setSlot _⟩
  split
  · exact ⟨rfl, setSlot_idle,
      ((((start.acquire rfl).acquire rfl).release rfl).release rfl).setSlot _⟩
  have prepared := ((start.acquire (r := .snapshot) rfl).acquire (r := .arg) rfl).acquire
    (r := .globals) rfl
  split
  · next missing =>
    refine ⟨rfl, ?_, ((prepared.release rfl).release rfl).release rfl⟩
    have none : (forkStart h).slot = none := by
      rw [forkStart]
      simpa using missing
    constructor <;> simp [ForkState.acquire, ForkState.release, none]
  split
  · exact ⟨rfl, setSlot_idle, (((prepared.release rfl).release rfl).release rfl).setSlot _⟩
  · simp_all

/-- Otherwise the copies are made. -/
theorem yosForkPump_spawn
    (ok : h.ok .snapshot ∧ h.ok .arg ∧ h.ok .globals ∧ h.ok .child ∧ h.ok .wasmBytes) :
    yosForkPump h = spawnChild h (forkPrepared h) := by
  obtain ⟨h₁, h₂, h₃, h₄, h₅⟩ := ok
  simp only [yosForkPump, h₁, h₂, h₃, h₄, h₅, Bool.not_true, Bool.false_eq_true, if_false]
  rfl

/-- The state in which the thread is started. -/
theorem forkCopies_prepared (found : h.ok .child = true) :
    DupsHeld (forkCopies h (forkPrepared h)) ∧
      (forkCopies h (forkPrepared h)).stand = (some .ready, false, none) := by
  refine ⟨forkCopies_dups (forkPrepared_dups h).1 (forkPrepared_dups h).2, ?_⟩
  rw [forkCopies_stand]
  rw [forkPrepared, acquire_stand, acquire_stand, acquire_stand, acquire_stand]
  simp [ForkState.stand, forkStart, found]

theorem threadExit_exit (dups : DupsReleased s)
    (stand : s.stand = (some .running, true, some h.childPid)) : ChildExit h (threadExit s) := by
  simp only [ForkState.stand, Prod.mk.injEq] at stand
  exact ⟨stand.2.2, ⟨stand.1, rfl⟩, (((dups.release rfl).release rfl).release rfl).finish⟩

/-- The exits of `fork_thread_func` leave the entry running without a thread. -/
theorem forkThreadFunc_exit (held : DupsHeld s)
    (stand : s.stand = (some .running, true, some h.childPid))
    (fails : ¬ (h.ok .runtime ∧ h.ok .ctx ∧ h.ok .parse ∧ h.ok .load)) :
    ChildExit h (forkThreadFunc h s) := by
  have exits {t : ForkState} (held : DupsHeld t) (same : t.stand = s.stand) :
      DupsReleased (releaseParentDups t) ∧
        (releaseParentDups t).stand = (some .running, true, some h.childPid) :=
    ⟨releaseParentDups_released held, by rw [releaseParentDups_stand, same, stand]⟩
  have withEnv : DupsHeld (s.acquire .m3Env) := held.acquire rfl
  have withRuntime := withEnv.acquire (r := .m3Runtime) rfl
  have withCtx := withRuntime.acquire (r := .ctx) rfl
  unfold forkThreadFunc
  dsimp only
  split
  · obtain ⟨done, at_exit⟩ := exits withEnv rfl
    exact threadExit_exit done at_exit
  split
  · obtain ⟨done, at_exit⟩ := exits withRuntime rfl
    refine threadExit_exit ((done.release rfl).release rfl) ?_
    rw [release_stand, release_stand, at_exit]
  have module : ChildExit h (moduleExit (((s.acquire .m3Env).acquire .m3Runtime).acquire .ctx)) := by
    obtain ⟨done, at_exit⟩ := exits withCtx rfl
    refine threadExit_exit (((done.release rfl).release rfl).release rfl) ?_
    rw [release_stand, release_stand, release_stand, at_exit]
  split
  · exact module
  split
  · exact module
  · simp_all

theorem forkThreadFunc_forked (stand : s.stand = (some .running, true, some h.childPid))
    (ok : h.ok .runtime ∧ h.ok .ctx ∧ h.ok .parse ∧ h.ok .load) : Forked h (forkThreadFunc h s) := by
  obtain ⟨h₁, h₂, h₃, h₄⟩ := ok
  simp only [ForkState.stand, Prod.mk.injEq] at stand
  simp only [forkThreadFunc, h₁, h₂, h₃, h₄, Bool.not_true, Bool.false_eq_true, if_false]
  exact ⟨stand.2.2, stand.1, stand.2.1⟩

/-- The points in the pump. -/
def ForkHost.PumpOk (h : ForkHost) : Prop :=
  (h.ok .snapshot ∧ h.ok .arg ∧ h.ok .globals ∧ h.ok .child ∧ h.ok .wasmBytes) ∧ h.ok .thread

/-- The points in the child's thread. -/
def ForkHost.ThreadOk (h : ForkHost) : Prop := h.ok .runtime ∧ h.ok .ctx ∧ h.ok .parse ∧ h.ok .load

theorem parentFails_iff : h.parentFails = true ↔ ¬ h.PumpOk := by
  simp only [ForkHost.parentFails, ForkHost.PumpOk, List.any_cons, List.any_nil, Bool.or_eq_true,
    Bool.not_eq_true', Bool.or_false, ← Bool.not_eq_true]
  tauto

theorem childFails_iff : h.childFails = true ↔ h.PumpOk ∧ ¬ h.ThreadOk := by
  have first : (!h.parentFails) = true ↔ h.PumpOk := by
    rw [Bool.not_eq_true', ← Bool.not_eq_true, parentFails_iff, not_not]
  rw [ForkHost.childFails, Bool.and_eq_true, first]
  refine and_congr_right fun _ => ?_
  simp only [ForkHost.ThreadOk, List.any_cons, List.any_nil, Bool.or_eq_true, Bool.not_eq_true',
    Bool.or_false, ← Bool.not_eq_true]
  tauto

/-- How a fork can end. -/
theorem yosForkPump_cases (h : ForkHost) :
    (¬ h.PumpOk ∧ ParentExit (yosForkPump h)) ∨
      (h.PumpOk ∧ ¬ h.ThreadOk ∧ ChildExit h (yosForkPump h)) ∨
      (h.PumpOk ∧ h.ThreadOk ∧ Forked h (yosForkPump h)) := by
  by_cases early : h.ok .snapshot ∧ h.ok .arg ∧ h.ok .globals ∧ h.ok .child ∧ h.ok .wasmBytes
  · obtain ⟨held, stand⟩ := forkCopies_prepared early.2.2.2.1
    rw [yosForkPump_spawn early]
    simp only [ForkState.stand, Prod.mk.injEq] at stand
    by_cases thread : h.ok .thread = true
    · have running : (((forkCopies h (forkPrepared h)).setSlot .running).start h.childPid).stand =
          (some .running, true, some h.childPid) := by
        simp [ForkState.stand, ForkState.start, ForkState.setSlot, stand.1]
      have both := (held.setSlot .running).start h.childPid
      rw [spawnChild, if_neg (by simp [thread])]
      by_cases child : h.ThreadOk
      · exact .inr (.inr ⟨⟨early, thread⟩, child, forkThreadFunc_forked running child⟩)
      · exact .inr (.inl ⟨⟨early, thread⟩, child, forkThreadFunc_exit both running child⟩)
    · have done := releaseParentDups_released (held.setSlot .running)
      have same := releaseParentDups_stand (s := (forkCopies h (forkPrepared h)).setSlot .running)
      simp only [ForkState.stand, Prod.mk.injEq] at same
      refine .inl ⟨fun ok => thread ok.2, ?_⟩
      rw [spawnChild, if_pos (by simpa using thread)]
      refine ⟨?_, setSlot_idle, (((done.release rfl).release rfl).release rfl).setSlot _⟩
      rw [setSlot_result, release_result, release_result, release_result, same.2.2, setSlot_result]
      exact stand.2.2
  · exact .inl ⟨fun ok => early ok.1, yosForkPump_early early⟩

end Exits

/-! ## Failing forks -/

/-- Every exit releases the descriptors and streams duplicated for the child exactly once. -/
theorem fork_failure_releases_dups (h : ForkHost) (fails : h.parentFails ∨ h.childFails) :
    DupsReleased (yosForkPump h) := by
  rw [parentFails_iff, childFails_iff] at fails
  rcases yosForkPump_cases h with ⟨-, exit⟩ | ⟨-, -, exit⟩ | ⟨pump, thread, -⟩
  · exact exit.dups
  · exact exit.dups
  · rcases fails with no | no
    · exact absurd pump no
    · exact absurd thread no.2

/-- A fork is atomic exactly when it does not fail: every exit of the pump leaves the parent
unresumed, every exit of the child's thread leaves its entry running without a thread. -/
theorem fork_failure_atomic_iff (h : ForkHost) :
    ForkAtomic h (yosForkPump h) ↔ ∀ p, h.ok p = true := by
  have all : (∀ p, h.ok p = true) ↔ h.PumpOk ∧ h.ThreadOk := by
    constructor
    · intro ok
      exact ⟨⟨⟨ok _, ok _, ok _, ok _, ok _⟩, ok _⟩, ok _, ok _, ok _, ok _⟩
    · rintro ⟨⟨⟨h₁, h₂, h₃, h₄, h₅⟩, h₆⟩, h₇, h₈, h₉, h₁₀⟩ p
      cases p <;> assumption
  rw [all]
  rcases yosForkPump_cases h with ⟨pump, exit⟩ | ⟨pump, thread, exit⟩ | ⟨pump, thread, forked⟩
  · refine iff_of_false (fun atomic => ?_) (fun ok => pump ok.1)
    have resumed := atomic.resumed (parentFails_iff.2 pump)
    rw [exit.unresumed] at resumed
    cases resumed
  · refine iff_of_false (fun atomic => ?_) (fun ok => thread ok.2)
    have zombie := (atomic.zombie (childFails_iff.2 ⟨pump, thread⟩)).2
    rw [exit.stuck.1] at zombie
    cases zombie
  · refine iff_of_true ⟨?_, ?_, fun _ => forked.runs.2, ?_⟩ ⟨pump, thread⟩
    · intro fails
      exact absurd pump (parentFails_iff.1 fails)
    · intro fails
      exact absurd thread (childFails_iff.1 fails).2
    · rintro (fails | fails)
      · exact absurd pump (parentFails_iff.1 fails)
      · exact absurd thread (childFails_iff.1 fails).2

/-- A host on which everything works but one point. -/
def failingAt (point : ForkPoint) : ForkHost where
  ok p := p ≠ point
  fdDup i := i < 3
  fileDup _ := false
  fdopen _ := true
  childPid := 2

/-- When the thread cannot be created, the parent's `fork` never returns; when the module does not
parse, the child's entry stays running without a thread. -/
theorem fork_failure_not_atomic :
    (yosForkPump (failingAt .thread)).result = none ∧
      ¬ ForkAtomic (failingAt .thread) (yosForkPump (failingAt .thread)) ∧
      (yosForkPump (failingAt .parse)).slot = some .running ∧
      (yosForkPump (failingAt .parse)).thread = false ∧
      ¬ ForkAtomic (failingAt .parse) (yosForkPump (failingAt .parse)) := by
  have thread : ParentExit (yosForkPump (failingAt .thread)) := by
    rcases yosForkPump_cases (failingAt .thread) with ⟨-, exit⟩ | ⟨pump, -⟩ | ⟨pump, -⟩
    · exact exit
    · exact absurd pump.2 (by decide)
    · exact absurd pump.2 (by decide)
  have parse : ChildExit (failingAt .parse) (yosForkPump (failingAt .parse)) := by
    rcases yosForkPump_cases (failingAt .parse) with ⟨pump, -⟩ | ⟨-, -, exit⟩ | ⟨-, child, -⟩
    · exact absurd ⟨by decide, by decide⟩ pump
    · exact exit
    · exact absurd child.2.2.1 (by decide)
  refine ⟨thread.unresumed, fun atomic => ?_, parse.stuck.1, parse.stuck.2, fun atomic => ?_⟩
  · have resumed := atomic.resumed (by decide)
    rw [thread.unresumed] at resumed
    cases resumed
  · have zombie := (atomic.zombie (by decide)).2
    rw [parse.stuck.1] at zombie
    cases zombie

end Yos.ForkFail
