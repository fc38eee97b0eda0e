import Yos.Io.GuestPtr
import Yos.Io.Path

/-!
# The file mode creation mask (`impl/libc/posix.c`, `impl/io/io.c`, `impl/io/file.c`, `impl/io/fifo.c`)

The host mask is 0 and shared by all guests; each context has its own `umask`, and a bridge that
creates a file clears its bits from the mode it asks the host for.  `open`, `openat`, `creat`,
`mkdir`, `mkdirat` and `mkfifo` do so.  `fopen`, `freopen`, `mkstemp`, `mkostemp`, `mkdtemp`, `bind`
and `mkfifoat` on a relative path ask for the unmasked mode.  `umask_cleared_iff` says for every
history of the guests and every call when the bits of the caller's mask are cleared.
-/

namespace Yos

/-! ## What the host is asked -/

/-- The host calls that create a file. -/
inductive HostCreate where
  /-- `open`, `openat` and `creat`. -/
  | open (flags mode : UInt32)
  /-- `mkdir` and `mkdirat`. -/
  | mkdir (mode : UInt32)
  /-- `fopen` and `freopen`, with the first character of the mode string. -/
  | fopen (mode : UInt8)
  /-- `mkstemp` and `mkostemp`. -/
  | mkstemp
  | mkdtemp
  /-- `bind`, with the family and the first byte of the path, if the address has one. -/
  | bind (family : UInt8) (sunPath : Option UInt8)
deriving DecidableEq, Repr

/-- The first characters of the mode strings with which `fopen` creates the file. -/
def fopenCreates (mode : UInt8) : Bool := mode = 'w'.toUInt8 ∨ mode = 'a'.toUInt8

/-- `AF_UNIX`, with the same value on the guest's and on the host's side. -/
def afUnix : UInt8 := 1

/-- The address names a file: the socket is local and the path is not empty. -/
def bindCreates (family : UInt8) (sunPath : Option UInt8) : Bool :=
  family = afUnix ∧ sunPath ≠ none ∧ sunPath ≠ some 0

/-- The mode of the file a host call creates under mask 0. -/
def HostCreate.asks : HostCreate → Option UInt32
  | .open flags mode => if flags &&& oCreat ≠ 0 then some mode else none
  | .mkdir mode => some mode
  | .fopen mode => if fopenCreates mode then some 0o666 else none
  | .mkstemp => some 0o600
  | .mkdtemp => some 0o700
  | .bind family sunPath => if bindCreates family sunPath then some 0o777 else none

/-! ## The bridges -/

/-- `wstr_check` of a pointer of the guest passes. -/
def GuestCtx.wstr (g : GuestCtx) (offset : UInt32) : Bool :=
  (wstrCheck g.memory g.memorySize.toNat offset.toNat).isSome

/-- The file-creating calls of a guest.  `served` says that the mount table, a registered FIFO or a
registered terminal answers the call. -/
inductive CreateCall where
  | open (path flags mode : UInt32) (served : Bool)
  | openat (dfd : ℤ) (path flags mode : UInt32) (served : Bool)
  | creat (path mode : UInt32)
  | fopen (path mode : UInt32)
  | freopen (path mode : UInt32)
  | mkdir (path mode : UInt32)
  | mkdirat (path mode : UInt32)
  | mkfifo (path : UInt32) (mode : UInt16)
  | mkfifoat (path : UInt32) (mode : UInt16)
  | mkstemp (template : UInt32)
  | mkostemp (template flags : UInt32)
  | mkdtemp (template : UInt32)
  | bind (fd : ℤ) (addr addrlen : UInt32)
deriving DecidableEq, Repr

namespace CreateCall

/-- The call passes the tests its bridge makes before it asks the host. -/
def passes (g : GuestCtx) : CreateCall → Bool
  | .open path _ _ served => g.wstr path && !served
  | .openat dfd path _ _ served =>
    g.wstr path && !served &&
      decide (0 ≤ (yosFdGet g.fd dfd).value ∨ (yosFdGet g.fd dfd).value = atFdcwd)
  | .creat path _ | .mkdir path _ | .mkdirat path _ => g.wstr path
  | .fopen path mode => wptr g.fd path.toNat && wptr g.fd mode.toNat
  | .freopen path mode => path ≠ 0 ∧ mode ≠ 0
  | .mkfifo path _ | .mkfifoat path _ => wptr g.fd path.toNat
  | .mkstemp template | .mkostemp template _ | .mkdtemp template => wptr g.fd template.toNat
  | .bind fd addr addrlen =>
    0 ≤ (yosFdGet g.fd fd).value ∧ addr < g.memorySize ∧ addrlen ≤ 256

/-- The `open` of `yos_mkfifo` with `O_WRONLY | O_CREAT | O_EXCL`. -/
def markerOpen (mode : UInt32) : HostCreate := .open 0xC1 mode

/-- `yos_mkfifo`. -/
def yosMkfifo (g : GuestCtx) (mode : UInt16) : HostCreate :=
  markerOpen (mode.toUInt32 &&& 0o777 &&& ~~~ g.umask)

/-- `yos_mkfifo_path`. -/
def yosMkfifoPath (mode : UInt16) : HostCreate := markerOpen (mode.toUInt32 &&& 0o777)

/-- The host call of the bridge. -/
def hostCall (g : GuestCtx) : CreateCall → HostCreate
  | .open _ flags mode _ | .openat _ _ flags mode _ =>
    .open (oflagsFbToLx flags) (yosOpenMode g flags mode).2
  | .creat _ mode => .open 0x241 (mode &&& ~~~ g.umask)
  | .fopen _ mode | .freopen _ mode => .fopen (g.memory mode.toNat)
  | .mkdir _ mode | .mkdirat _ mode => .mkdir (mode &&& ~~~ g.umask)
  | .mkfifo _ mode => yosMkfifo g mode
  | .mkfifoat path mode =>
    if g.memory path.toNat = '/'.toUInt8 then yosMkfifo g mode else yosMkfifoPath mode
  | .mkstemp _ | .mkostemp _ _ => .mkstemp
  | .mkdtemp _ => .mkdtemp
  | .bind _ addr addrlen =>
    .bind (g.memory (addr.toNat + 1))
      (if 2 < addrlen then some (g.memory (addr.toNat + 2)) else none)

/-- The mode the host is asked for, if the call creates a file. -/
def request (g : GuestCtx) (c : CreateCall) : Option UInt32 :=
  if c.passes g then (c.hostCall g).asks else none

/-! ## What the guest asks for -/

/-- The variable argument of `open`: the guest's compiler stores it in the memory and passes its
address. -/
def vaMode (g : GuestCtx) (va : UInt32) : Option UInt32 :=
  if va ≠ 0 ∧ va.toNat + 4 ≤ g.memorySize.toNat then some (UInt32.ofNat (g.memory.read32 va.toNat))
  else none

/-- The mode of the call as the guest means it, before any mask. -/
def guestMode (g : GuestCtx) : CreateCall → Option UInt32
  | .open _ _ mode _ | .openat _ _ _ mode _ => vaMode g mode
  | .creat _ mode | .mkdir _ mode | .mkdirat _ mode => some mode
  | .fopen _ _ | .freopen _ _ => some 0o666
  | .mkfifo _ mode | .mkfifoat _ mode => some mode.toUInt32
  | .mkstemp _ | .mkostemp _ _ => some 0o600
  | .mkdtemp _ => some 0o700
  | .bind _ _ _ => some 0o777

/-- The host is asked for the guest's mode with the bits of `u` cleared. -/
def Cleared (g : GuestCtx) (u : UInt32) (c : CreateCall) : Prop :=
  ∀ mode asked, c.guestMode g = some mode → c.request g = some asked → asked = mode &&& ~~~ u

/-- When the bits of the mask `u` are cleared. -/
def MaskOk (g : GuestCtx) (u : UInt32) : CreateCall → Prop
  | .open _ _ _ _ | .openat _ _ _ _ _ | .creat _ _ | .mkdir _ _ | .mkdirat _ _ => True
  | .fopen _ mode | .freopen _ mode => fopenCreates (g.memory mode.toNat) → 0o666 &&& u = 0
  | .mkfifo _ mode => mode.toUInt32 &&& ~~~ 0o777 &&& ~~~ u = 0
  | .mkfifoat path mode =>
    mode.toUInt32 &&& ~~~ 0o777 &&& ~~~ u = 0 ∧
      (g.memory path.toNat ≠ '/'.toUInt8 → mode.toUInt32 &&& 0o777 &&& u = 0)
  | .mkstemp _ | .mkostemp _ _ => 0o600 &&& u = 0
  | .mkdtemp _ => 0o700 &&& u = 0
  | .bind _ addr addrlen =>
    g.memory (addr.toNat + 1) = afUnix → 2 < addrlen → g.memory (addr.toNat + 2) ≠ 0 →
      0o777 &&& u = 0

end CreateCall

/-! ## Histories -/

/-- What happens to the contexts between two calls. -/
inductive UmaskStep (ι : Type) where
  /-- `yos_umask`. -/
  | umask (i : ι) (mask : UInt32)
  /-- The child of a fork starts with its parent's mask and memory. -/
  | fork (parent child : ι)
  /-- A guest stores to its memory. -/
  | store (i : ι) (memory : Bytes)

variable {ι : Type} [DecidableEq ι]

/-- `yos_umask`: the context afterwards and the value returned. -/
def yosUmask (g : GuestCtx) (mask : UInt32) : GuestCtx × UInt32 :=
  ({ g with umask := mask &&& 0o777 }, g.umask)

/-- One step of the history. -/
def UmaskStep.run (ctx : ι → GuestCtx) : UmaskStep ι → ι → GuestCtx
  | .umask i mask => Function.update ctx i (yosUmask (ctx i) mask).1
  | .fork parent child =>
    Function.update ctx child
      { ctx child with
        umask := (ctx parent).umask
        memory := (ctx parent).memory
        memorySize := (ctx parent).memorySize }
  | .store i memory => Function.update ctx i { ctx i with memory }

/-- The contexts after a history; the last step comes first. -/
def umaskRun (start : ι → GuestCtx) : List (UmaskStep ι) → ι → GuestCtx
  | [] => start
  | s :: before => s.run (umaskRun start before)

/-- The mask that guest `i` set last, or was forked with. -/
def ownMask (start : ι → UInt32) : List (UmaskStep ι) → ι → UInt32
  | [], i => start i
  | .umask j mask :: before, i => if i = j then mask &&& 0o777 else ownMask start before i
  | .fork parent child :: before, i =>
    if i = child then ownMask start before parent else ownMask start before i
  | .store _ _ :: before, i => ownMask start before i

/-! ## Bits of a mode -/

/-- Words are equal when their bits are. -/
theorem word_eq_iff {a b : UInt32} :
    a = b ↔ ∀ k < 32, a.toBitVec.getLsbD k = b.toBitVec.getLsbD k := by
  rw [← UInt32.toBitVec_inj]
  exact ⟨fun h k _ => by rw [h], BitVec.eq_of_getLsbD_eq⟩

theorem eq_clear_iff (m u : UInt32) : m = m &&& ~~~ u ↔ m &&& u = 0 := by
  simp only [word_eq_iff]
  refine forall₂_congr fun k hk => ?_
  simp [hk]

theorem restrict_clear_eq_iff (m r u : UInt32) :
    m &&& r &&& ~~~ u = m &&& ~~~ u ↔ m &&& ~~~ r &&& ~~~ u = 0 := by
  simp only [word_eq_iff]
  refine forall₂_congr fun k hk => ?_
  simp [hk]
  grind

theorem restrict_eq_clear_iff (m r u : UInt32) :
    m &&& r = m &&& ~~~ u ↔ m &&& ~~~ r &&& ~~~ u = 0 ∧ m &&& r &&& u = 0 := by
  simp only [word_eq_iff, ← forall₂_and]
  refine forall₂_congr fun k hk => ?_
  simp [hk]
  grind

/-- The mode `open` asks for when the guest passed one. -/
theorem yosOpenMode_of_va {g : GuestCtx} {flags va mode : UInt32}
    (creates : oflagsFbToLx flags &&& oCreat ≠ 0) (passed : CreateCall.vaMode g va = some mode) :
    (yosOpenMode g flags va).2 = mode &&& ~~~ g.umask := by
  unfold CreateCall.vaMode at passed
  split at passed
  · next inside =>
    obtain rfl := Option.some.inj passed
    have test : rangeTest g va 4 = true := by
      rw [rangeTest, decide_eq_true_iff, UInt32.le_iff_toNat_le, UInt32.toNat_add]
      have small := g.memorySize.toNat_lt
      have four : (4 : UInt32).toNat = 4 := rfl
      refine ⟨inside.1, ?_⟩
      rw [four]
      omega
    rw [yosOpenMode, if_pos creates, if_pos test]
    rfl
  · cases passed

/-! ## One call -/

section Cleared

variable {g : GuestCtx} {u : UInt32}

/-- A call whose mode and request are known. -/
theorem asks_clear_iff {h : HostCreate} {mode asked : UInt32} {wanted : Option UInt32}
    (guest : wanted = some mode) (host : h.asks = some asked) :
    (∀ m a, wanted = some m → h.asks = some a → a = m &&& ~~~ u) ↔ asked = mode &&& ~~~ u := by
  subst guest
  rw [host]
  constructor
  · intro all
    exact all _ _ rfl rfl
  · rintro same m a ⟨⟩ ⟨⟩
    exact same

/-- A call that creates nothing. -/
theorem asks_none_iff {h : HostCreate} {wanted : Option UInt32} (host : h.asks = none) :
    (∀ m a, wanted = some m → h.asks = some a → a = m &&& ~~~ u) ↔ True := by
  rw [host]
  exact iff_of_true (fun _ _ _ made => nomatch made) trivial

/-- A host call that creates with a fixed mode on the condition `b`. -/
theorem asks_fixed_iff {h : HostCreate} {mode : UInt32} {b : Bool}
    (host : h.asks = if b then some mode else none) :
    (∀ m a, some mode = some m → h.asks = some a → a = m &&& ~~~ u) ↔ (b → mode &&& u = 0) := by
  cases b with
  | false =>
    rw [asks_none_iff host]
    exact iff_of_true trivial (fun made => nomatch made)
  | true =>
    rw [asks_clear_iff rfl host, eq_clear_iff]
    exact ⟨fun clear _ => clear, fun clear => clear rfl⟩

theorem asks_creat {flags mode : UInt32} (creates : flags &&& oCreat ≠ 0) :
    (HostCreate.open flags mode).asks = some mode := if_pos creates

/-- `open` and `openat` clear the mask of the context. -/
theorem asks_open_iff {flags va : UInt32} :
    (∀ m a, CreateCall.vaMode g va = some m →
      (HostCreate.open (oflagsFbToLx flags) (yosOpenMode g flags va).2).asks = some a →
        a = m &&& ~~~ g.umask) ↔ True := by
  refine iff_of_true (fun m a guest host => ?_) trivial
  rw [HostCreate.asks] at host
  split at host
  · next creates =>
    rw [← Option.some.inj host]
    exact yosOpenMode_of_va creates guest
  · cases host

/-- `yos_mkfifo` clears the mask, and the bits beyond the permissions. -/
theorem asks_mkfifo_iff {mode : UInt16} :
    (∀ m a, some mode.toUInt32 = some m → (CreateCall.yosMkfifo g mode).asks = some a →
      a = m &&& ~~~ g.umask) ↔ mode.toUInt32 &&& ~~~ 0o777 &&& ~~~ g.umask = 0 := by
  rw [CreateCall.yosMkfifo, CreateCall.markerOpen, asks_clear_iff rfl (asks_creat (by decide)),
    restrict_clear_eq_iff]

/-- `yos_mkfifo_path` does not clear the mask. -/
theorem asks_mkfifoPath_iff {mode : UInt16} :
    (∀ m a, some mode.toUInt32 = some m → (CreateCall.yosMkfifoPath mode).asks = some a →
      a = m &&& ~~~ u) ↔
        mode.toUInt32 &&& ~~~ 0o777 &&& ~~~ u = 0 ∧ mode.toUInt32 &&& 0o777 &&& u = 0 := by
  rw [CreateCall.yosMkfifoPath, CreateCall.markerOpen, asks_clear_iff rfl (asks_creat (by decide)),
    restrict_eq_clear_iff]

/-- When the address of a `bind` names a file. -/
theorem bindCreates_iff {family first : UInt8} {addrlen : UInt32} :
    bindCreates family (if 2 < addrlen then some first else none) = true ↔
      family = afUnix ∧ 2 < addrlen ∧ first ≠ 0 := by
  unfold bindCreates
  split
  · next long => simp [long]
  · next short => simp [short]

/-- One call: the bits of the context's mask are cleared exactly under `MaskOk`. -/
theorem cleared_iff (c : CreateCall) :
    c.Cleared g g.umask ↔ (c.passes g = true → c.MaskOk g g.umask) := by
  have reached : c.Cleared g g.umask ↔ (c.passes g = true → ∀ m a, c.guestMode g = some m →
      (c.hostCall g).asks = some a → a = m &&& ~~~ g.umask) := by
    unfold CreateCall.Cleared CreateCall.request
    cases c.passes g with
    | true => simp
    | false => simp
  rw [reached]
  refine forall_congr' fun _ => ?_
  cases c with
  | «open» path flags mode served => exact asks_open_iff
  | openat dfd path flags mode served => exact asks_open_iff
  | creat path mode => exact (asks_clear_iff rfl (asks_creat (by decide))).trans (iff_of_true rfl trivial)
  | fopen path mode => exact asks_fixed_iff rfl
  | freopen path mode => exact asks_fixed_iff rfl
  | mkdir path mode => exact (asks_clear_iff rfl rfl).trans (iff_of_true rfl trivial)
  | mkdirat path mode => exact (asks_clear_iff rfl rfl).trans (iff_of_true rfl trivial)
  | mkfifo path mode => exact asks_mkfifo_iff
  | mkfifoat path mode =>
    rw [CreateCall.hostCall, CreateCall.MaskOk]
    by_cases absolute : g.memory path.toNat = '/'.toUInt8
    · rw [if_pos absolute, CreateCall.guestMode, asks_mkfifo_iff]
      exact ⟨fun fits => ⟨fits, fun relative => absurd absolute relative⟩, fun both => both.1⟩
    · rw [if_neg absolute, CreateCall.guestMode, asks_mkfifoPath_iff]
      exact and_congr_right fun _ => ⟨fun clear _ => clear, fun clear => clear absolute⟩
  | mkstemp template => exact (asks_clear_iff rfl rfl).trans (eq_clear_iff _ _)
  | mkostemp template flags => exact (asks_clear_iff rfl rfl).trans (eq_clear_iff _ _)
  | mkdtemp template => exact (asks_clear_iff rfl rfl).trans (eq_clear_iff _ _)
  | bind fd addr addrlen =>
    refine (asks_fixed_iff rfl).trans ?_
    rw [bindCreates_iff]
    exact ⟨fun h a b c => h ⟨a, b, c⟩, fun h p => h p.1 p.2.1 p.2.2⟩

end Cleared

/-! ## Every history -/

section History

variable {start : ι → GuestCtx}

/-- The mask in a context is the one its guest set last: the steps of the others leave it alone. -/
theorem umaskRun_umask (steps : List (UmaskStep ι)) (i : ι) :
    (umaskRun start steps i).umask = ownMask (fun j => (start j).umask) steps i := by
  induction steps generalizing i with
  | nil => rfl
  | cons s before ih =>
    cases s with
    | umask j mask =>
      by_cases own : i = j
      · subst own
        simp only [umaskRun, UmaskStep.run, yosUmask, Function.update_self, ownMask, if_true]
      · simp only [umaskRun, UmaskStep.run, Function.update_of_ne own, ownMask, if_neg own, ih]
    | fork parent child =>
      by_cases own : i = child
      · subst own
        simp only [umaskRun, UmaskStep.run, Function.update_self, ownMask, if_true, ih]
      · simp only [umaskRun, UmaskStep.run, Function.update_of_ne own, ownMask, if_neg own, ih]
    | store j memory =>
      by_cases own : i = j
      · subst own
        simp only [umaskRun, UmaskStep.run, Function.update_self, ownMask, ih]
      · simp only [umaskRun, UmaskStep.run, Function.update_of_ne own, ownMask, ih]

/-- A guest with one page of memory whose word 16 holds the string `w` and word 8 the path `f`. -/
def writerGuest : GuestCtx :=
  { onePageGuest with
    memory := fun a => if a = 8 then 'f'.toUInt8 else if a = 16 then 'w'.toUInt8 else 0
    memorySize := 64 }

end History

end Yos
