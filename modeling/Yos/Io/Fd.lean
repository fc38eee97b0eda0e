import Yos.Errno
import Yos.Io.FdTable
import Yos.Lib.Bytes
import Mathlib.Data.Set.Basic

/-!
# Guest file descriptors (`impl/io/io.c`)

Every context has a table `fd_map` from guest descriptors to host descriptors of the one host
process.  Most bridges translate with `yos_fd_get`, which refuses a descriptor without an entry;
`yos_fd_translate` instead passes the guest's number on when there is no entry.  A bridge that uses
it acts on a descriptor of the table, or on whatever host descriptor has the guest's number
(`fd_confined_iff`).

What a host call does to the file is left open; a call on a number that is not open fails with
`EBADF`.
-/

namespace Yos

/-! ## The context and the translation -/

/-- The fields of `struct yos_exec_ctx` the descriptor bridges use.  `procfsFds` is the table of
virtual files, which says for each open one whether it has a read operation. -/
structure FdCtx where
  memory : Bytes
  memorySize : ℕ
  fdMap : ℕ → ℤ
  procfsFds : Option (ℤ → Option Bool)

/-- `AT_FDCWD`, which is the same number for the guest and for a Linux host. -/
def atFdcwd : ℤ := -100

/-- `YOS_IOV_MAX`. -/
def iovMax : ℤ := 1024

/-- `yos_fd_get`. -/
def yosFdGet (ctx : FdCtx) (wfd : ℤ) : Ret :=
  if wfd = atFdcwd then ⟨atFdcwd, none⟩
  else if wfd < 0 ∨ fdMax ≤ wfd then yosErrnoNeg .EBADF
  else
    let hfd := ctx.fdMap wfd.toNat
    if hfd < 0 then yosErrnoNeg .EBADF else ⟨hfd, none⟩

/-- `yos_fd_translate`. -/
def yosFdTranslate (ctx : FdCtx) (fd : ℤ) : ℤ :=
  let hfd := (yosFdGet ctx fd).value
  if hfd < 0 then fd else hfd

/-- `host_fd`. -/
def hostFd (ctx : FdCtx) (fd : ℤ) : ℤ := yosFdTranslate ctx fd

/-! ## Argument checks -/

/-- `wptr`: the address is not null and lies in the memory. -/
def wptr (ctx : FdCtx) (offset : ℕ) : Bool := offset ≠ 0 ∧ offset < ctx.memorySize

/-- `wptr_range`: the range is not null and lies in the memory. -/
def wptrRange (ctx : FdCtx) (offset len : ℕ) : Bool :=
  if len = 0 then offset ≤ ctx.memorySize
  else offset ≠ 0 ∧ offset < ctx.memorySize ∧ offset + len ≤ ctx.memorySize

/-- `yos_iovec_w32_to_host`; the host array itself is not needed. -/
def yosIovecW32ToHost (ctx : FdCtx) (vec : ℕ) (vlen : ℤ) : Except Errno Unit :=
  if vlen = 0 then .ok ()
  else if vlen < 0 ∨ iovMax < vlen then .error .EINVAL
  else if !wptrRange ctx vec (vlen.toNat * 8) then .error .EFAULT
  else if (List.range vlen.toNat).all fun i =>
      let base := ctx.memory.read32 (vec + i * 8)
      let len := ctx.memory.read32 (vec + i * 8 + 4)
      wptrRange ctx base len || len = 0 then
    .ok ()
  else .error .EFAULT

/-! ## The bridges -/

/-- How a bridge ends: it returns before any host call, it is served by a virtual file, or it makes
its host calls on a host descriptor. -/
inductive FdOutcome where
  | returns (r : Ret)
  | virtual
  | host (hfd : ℤ)
deriving DecidableEq, Repr

/-- `yos_lseek`. -/
def yosLseek (ctx : FdCtx) (fd : ℤ) : FdOutcome := .host (hostFd ctx fd)

/-- `yos_vfs__llseek`. -/
def yosLlseek (ctx : FdCtx) (fd : ℤ) (resultPtr : ℕ) : FdOutcome :=
  if !wptr ctx resultPtr then .returns (yosErrnoNeg .EFAULT) else .host (hostFd ctx fd)

/-- `yos_ioctl`.  The packet-mode switch, the terminal queries and the final `ioctl` all go to the
translated descriptor. -/
def yosIoctl (ctx : FdCtx) (fd : ℤ) : FdOutcome := .host (hostFd ctx fd)

/-- `yos_ftruncate`. -/
def yosFtruncate (ctx : FdCtx) (fd : ℤ) : FdOutcome := .host (hostFd ctx fd)

/-- `yos_fchmod`. -/
def yosFchmod (ctx : FdCtx) (fd : ℤ) : FdOutcome := .host (hostFd ctx fd)

/-- `yos_fchown`. -/
def yosFchown (ctx : FdCtx) (fd : ℤ) : FdOutcome := .host (hostFd ctx fd)

/-- The common body of `yos_readv` and `yos_writev`. -/
def vectorIo (ctx : FdCtx) (fd : ℤ) (vec : ℕ) (vlen : ℤ) : FdOutcome :=
  if vlen < 0 ∨ iovMax < vlen then .returns (yosErrnoNeg .EINVAL)
  else
    match yosIovecW32ToHost ctx vec vlen with
    | .error e => .returns (yosErrnoNeg e)
    | .ok _ => .host (hostFd ctx fd)

/-- `yos_readv`. -/
def yosReadv (ctx : FdCtx) (fd : ℤ) (vec : ℕ) (vlen : ℤ) : FdOutcome := vectorIo ctx fd vec vlen

/-- `yos_writev`. -/
def yosWritev (ctx : FdCtx) (fd : ℤ) (vec : ℕ) (vlen : ℤ) : FdOutcome := vectorIo ctx fd vec vlen

/-- The common body of `yos_vfs_pread64` and `yos_vfs_pwrite64`. -/
def positionedIo (ctx : FdCtx) (fd : ℤ) (buf count : ℕ) : FdOutcome :=
  if !wptrRange ctx buf count then .returns (yosErrnoNeg .EFAULT) else .host (hostFd ctx fd)

/-- `yos_vfs_pread64`. -/
def yosPread64 (ctx : FdCtx) (fd : ℤ) (buf count : ℕ) : FdOutcome := positionedIo ctx fd buf count

/-- `yos_vfs_pwrite64`. -/
def yosPwrite64 (ctx : FdCtx) (fd : ℤ) (buf count : ℕ) : FdOutcome := positionedIo ctx fd buf count

/-- `yos_read`. -/
def yosRead (ctx : FdCtx) (fd : ℤ) (buf count : ℕ) : FdOutcome :=
  if !wptrRange ctx buf count then .returns (yosErrnoNeg .EFAULT)
  else if vfsFdBase ≤ fd then
    match ctx.procfsFds with
    | none => .returns (yosErrnoNeg .EBADF)
    | some files =>
      match files fd with
      | some true => .virtual
      | _ => .returns (yosErrnoNeg .EBADF)
  else
    let hfd := yosFdGet ctx fd
    if hfd.value < 0 then .returns hfd else .host hfd.value

/-- `yos_write`. -/
def yosWrite (ctx : FdCtx) (fd : ℤ) (buf count : ℕ) : FdOutcome :=
  if !wptrRange ctx buf count then .returns (yosErrnoNeg .EFAULT)
  else
    let hfd := yosFdGet ctx fd
    if hfd.value < 0 then .returns hfd else .host hfd.value

/-- The calls of the descriptor bridges, with the arguments their checks read. -/
inductive FdCall where
  | lseek
  | llseek (resultPtr : ℕ)
  | ioctl
  | ftruncate
  | fchmod
  | fchown
  | readv (vec : ℕ) (vlen : ℤ)
  | writev (vec : ℕ) (vlen : ℤ)
  | pread64 (buf count : ℕ)
  | pwrite64 (buf count : ℕ)
  | read (buf count : ℕ)
  | write (buf count : ℕ)
deriving DecidableEq, Repr

/-- The outcome of a call. -/
def FdCall.run (ctx : FdCtx) (fd : ℤ) : FdCall → FdOutcome
  | .lseek => yosLseek ctx fd
  | .llseek resultPtr => yosLlseek ctx fd resultPtr
  | .ioctl => yosIoctl ctx fd
  | .ftruncate => yosFtruncate ctx fd
  | .fchmod => yosFchmod ctx fd
  | .fchown => yosFchown ctx fd
  | .readv vec vlen => yosReadv ctx fd vec vlen
  | .writev vec vlen => yosWritev ctx fd vec vlen
  | .pread64 buf count => yosPread64 ctx fd buf count
  | .pwrite64 buf count => yosPwrite64 ctx fd buf count
  | .read buf count => yosRead ctx fd buf count
  | .write buf count => yosWrite ctx fd buf count

/-! ## Confinement -/

/-- `h` is the host descriptor stored for the guest descriptor `fd`. -/
def FdMapped (ctx : FdCtx) (fd h : ℤ) : Prop :=
  0 ≤ fd ∧ fd < fdMax ∧ ctx.fdMap fd.toNat = h ∧ 0 ≤ h

/-- The outcome stays inside the table of the context: a host call is made on the descriptor stored
for `fd`, or on a number that is not open, which the host refuses with `EBADF`; a call that returns
early reports `EBADF`, or the error of another argument. -/
def FdConfined (openFds : Set ℕ) (ctx : FdCtx) (fd : ℤ) : FdOutcome → Prop
  | .returns r => r.errno = some .EBADF ∨ r.errno = some .EFAULT ∨ r.errno = some .EINVAL
  | .virtual => True
  | .host h => FdMapped ctx fd h ∨ ∀ n ∈ openFds, h ≠ n

/-- The checks the call makes before it looks at the descriptor succeed. -/
def FdCall.argsOk (ctx : FdCtx) : FdCall → Bool
  | .lseek | .ioctl | .ftruncate | .fchmod | .fchown => true
  | .llseek resultPtr => wptr ctx resultPtr
  | .readv vec vlen | .writev vec vlen =>
    !decide (vlen < 0 ∨ iovMax < vlen) && (yosIovecW32ToHost ctx vec vlen).isOk
  | .pread64 buf count | .pwrite64 buf count | .read buf count | .write buf count =>
    wptrRange ctx buf count

/-- The call uses `yos_fd_get` directly. -/
def FdCall.strict : FdCall → Bool
  | .read _ _ | .write _ _ => true
  | _ => false

/-- The context has a host descriptor for `fd`. -/
def FdHasEntry (ctx : FdCtx) (fd : ℤ) : Prop := 0 ≤ fd ∧ fd < fdMax ∧ 0 ≤ ctx.fdMap fd.toNat

section Confined

variable {openFds : Set ℕ} {ctx : FdCtx} {fd : ℤ}

theorem yosFdGet_of_entry (entry : FdHasEntry ctx fd) :
    yosFdGet ctx fd = ⟨ctx.fdMap fd.toNat, none⟩ := by
  obtain ⟨lo, hi, mapped⟩ := entry
  have cwd : fd ≠ atFdcwd := by unfold atFdcwd; omega
  rw [yosFdGet, if_neg cwd, if_neg (by omega)]
  dsimp only
  rw [if_neg (by omega)]

theorem yosFdGet_of_no_entry (noEntry : ¬ FdHasEntry ctx fd) :
    yosFdGet ctx fd = if fd = atFdcwd then ⟨atFdcwd, none⟩ else yosErrnoNeg .EBADF := by
  unfold yosFdGet FdHasEntry at *
  dsimp only
  split_ifs
  · rfl
  · rfl
  · rfl
  · omega

theorem yosFdGet_neg (noEntry : ¬ FdHasEntry ctx fd) : (yosFdGet ctx fd).value < 0 := by
  rw [yosFdGet_of_no_entry noEntry]
  split_ifs
  · decide
  · decide

/-- A host call on the translated descriptor is confined if the table has an entry, or if the
number itself is not open. -/
theorem confined_hostFd : FdConfined openFds ctx fd (.host (hostFd ctx fd)) ↔
    FdHasEntry ctx fd ∨ ∀ n ∈ openFds, fd ≠ n := by
  by_cases entry : FdHasEntry ctx fd
  · have same : hostFd ctx fd = ctx.fdMap fd.toNat := by
      rw [hostFd, yosFdTranslate, yosFdGet_of_entry entry]
      exact if_neg (Int.not_lt.2 entry.2.2)
    rw [same]
    exact ⟨fun _ => Or.inl entry, fun _ => Or.inl ⟨entry.1, entry.2.1, rfl, entry.2.2⟩⟩
  · have same : hostFd ctx fd = fd := by
      rw [hostFd, yosFdTranslate]
      exact if_pos (yosFdGet_neg entry)
    rw [same]
    constructor
    · rintro (⟨lo, hi, mapped, -⟩ | closed)
      · exact absurd ⟨lo, hi, by omega⟩ entry
      · exact Or.inr closed
    · rintro (h | closed)
      · exact absurd h entry
      · exact Or.inr closed

/-- A call that uses `yos_fd_get` is confined unless the guest passes `AT_FDCWD`. -/
theorem confined_yosFdGet :
    FdConfined openFds ctx fd
        (if (yosFdGet ctx fd).value < 0 then .returns (yosFdGet ctx fd)
          else .host (yosFdGet ctx fd).value) ↔ fd ≠ atFdcwd := by
  by_cases entry : FdHasEntry ctx fd
  · have nonneg := entry.2.2
    rw [yosFdGet_of_entry entry, if_neg (by dsimp only; omega)]
    refine ⟨fun _ => ?_, fun _ => Or.inl ⟨entry.1, entry.2.1, rfl, nonneg⟩⟩
    have := entry.1
    unfold atFdcwd
    omega
  · rw [if_pos (yosFdGet_neg entry), yosFdGet_of_no_entry entry]
    split_ifs with cwd
    · simp [FdConfined, cwd]
    · simp [FdConfined, yosErrnoNeg, cwd]

theorem iovec_error {vec : ℕ} {vlen : ℤ} {e : Errno}
    (error : yosIovecW32ToHost ctx vec vlen = .error e) : e = .EFAULT ∨ e = .EINVAL := by
  unfold yosIovecW32ToHost at error
  split_ifs at error
  all_goals
    cases error
    simp

/-- When an argument is refused, the call returns its error before it looks at the descriptor. -/
theorem run_of_not_argsOk {c : FdCall} (refused : c.argsOk ctx = false) :
    FdConfined openFds ctx fd (c.run ctx fd) := by
  have fault : FdConfined openFds ctx fd (.returns (yosErrnoNeg .EFAULT)) := Or.inr (Or.inl rfl)
  have inval : FdConfined openFds ctx fd (.returns (yosErrnoNeg .EINVAL)) := Or.inr (Or.inr rfl)
  cases c with
  | lseek | ioctl | ftruncate | fchmod | fchown => simp [FdCall.argsOk] at refused
  | llseek resultPtr =>
    have bad : wptr ctx resultPtr = false := refused
    rw [FdCall.run, yosLlseek, bad]
    exact fault
  | readv vec vlen | writev vec vlen =>
    show FdConfined openFds ctx fd (vectorIo ctx fd vec vlen)
    rw [vectorIo]
    by_cases range : vlen < 0 ∨ iovMax < vlen
    · rw [if_pos range]
      exact inval
    · rw [if_neg range]
      rcases converted : yosIovecW32ToHost ctx vec vlen with e | u
      · rcases iovec_error converted with rfl | rfl
        · exact fault
        · exact inval
      · simp [FdCall.argsOk, range, converted, Except.isOk, Except.toBool] at refused
  | pread64 buf count | pwrite64 buf count =>
    have bad : wptrRange ctx buf count = false := refused
    show FdConfined openFds ctx fd (positionedIo ctx fd buf count)
    rw [positionedIo, bad]
    exact fault
  | read buf count =>
    have bad : wptrRange ctx buf count = false := refused
    rw [FdCall.run, yosRead, bad]
    exact fault
  | write buf count =>
    have bad : wptrRange ctx buf count = false := refused
    rw [FdCall.run, yosWrite, bad]
    exact fault

/-- A bridge that translates with `yos_fd_translate` makes its host call on the result. -/
theorem run_of_argsOk {c : FdCall} (valid : c.argsOk ctx = true) (translates : c.strict = false) :
    c.run ctx fd = .host (hostFd ctx fd) := by
  cases c with
  | lseek | ioctl | ftruncate | fchmod | fchown => rfl
  | llseek resultPtr =>
    have good : wptr ctx resultPtr = true := valid
    rw [FdCall.run, yosLlseek, good]
    rfl
  | readv vec vlen | writev vec vlen =>
    show vectorIo ctx fd vec vlen = _
    rw [FdCall.argsOk, Bool.and_eq_true] at valid
    obtain ⟨range, converted⟩ := valid
    rw [vectorIo, if_neg (by simpa using range)]
    rcases result : yosIovecW32ToHost ctx vec vlen with e | u
    · simp [result, Except.isOk, Except.toBool] at converted
    · rfl
  | pread64 buf count | pwrite64 buf count =>
    have good : wptrRange ctx buf count = true := valid
    show positionedIo ctx fd buf count = _
    rw [positionedIo, good]
    rfl
  | read | write => simp [FdCall.strict] at translates

theorem confined_of_strict {c : FdCall} (valid : c.argsOk ctx = true) (strict : c.strict = true) :
    FdConfined openFds ctx fd (c.run ctx fd) ↔ fd ≠ atFdcwd := by
  cases c with
  | read buf count =>
    have good : wptrRange ctx buf count = true := valid
    rw [FdCall.run, yosRead, good, if_neg (by simp)]
    by_cases virtual : vfsFdBase ≤ fd
    · rw [if_pos virtual]
      have other : fd ≠ atFdcwd := by
        unfold vfsFdBase at virtual
        unfold atFdcwd
        omega
      refine ⟨fun _ => other, fun _ => ?_⟩
      rcases ctx.procfsFds with _ | files
      · exact Or.inl rfl
      · dsimp only
        split
        · trivial
        · exact Or.inl rfl
    · rw [if_neg virtual]
      exact confined_yosFdGet
  | write buf count =>
    have good : wptrRange ctx buf count = true := valid
    rw [FdCall.run, yosWrite, good, if_neg (by simp)]
    exact confined_yosFdGet
  | _ => simp [FdCall.strict] at strict

/-- A bridge stays inside the table of its context iff an earlier argument is refused, or the
descriptor has an entry, or its number is not open on the host; for `yos_read` and `yos_write`, iff
an earlier argument is refused or the descriptor is not `AT_FDCWD`. -/
theorem fd_confined_iff (openFds : Set ℕ) (ctx : FdCtx) (fd : ℤ) (c : FdCall) :
    FdConfined openFds ctx fd (c.run ctx fd) ↔
      (c.argsOk ctx = true →
        if c.strict then fd ≠ atFdcwd else FdHasEntry ctx fd ∨ ∀ n ∈ openFds, fd ≠ n) := by
  by_cases valid : c.argsOk ctx = true
  · rw [forall_prop_of_true valid]
    by_cases strict : c.strict = true
    · rw [if_pos strict]
      exact confined_of_strict valid strict
    · rw [if_neg strict, run_of_argsOk valid (by simpa using strict)]
      exact confined_hostFd
  · rw [forall_prop_of_false valid]
    exact iff_of_true (run_of_not_argsOk (by simpa using valid)) trivial

end Confined

/-- A guest with only its standard streams, next to an open host descriptor 7 of another guest. -/
def stdioCtx : FdCtx where
  memory := fun _ => 0
  memorySize := 2 ^ 22
  fdMap := fun i => if i < 3 then i + 3 else -1
  procfsFds := none

/-- The guest truncates a file it never opened. -/
theorem ftruncate_escapes :
    ¬ ∀ (openFds : Set ℕ) (ctx : FdCtx) (fd : ℤ) (c : FdCall),
      FdConfined openFds ctx fd (c.run ctx fd) := by
  intro claim
  rcases claim {3, 4, 5, 7} stdioCtx 7 .ftruncate with ⟨-, -, mapped, -⟩ | closed
  · exact absurd mapped (by decide)
  · exact closed 7 (by simp) rfl

end Yos
