import Yos.Io.Chdir
import Yos.Io.Mkfifo
import Yos.Io.Umask
import Yos.Vfs.Spelling

/-!
# The `*at` calls (`impl/io/io.c`, `impl/io/fifo.c`)

`yos_openat` looks the guest's path up in the mount table as it is, where `yos_open` resolves it first,
and knows neither the registered FIFOs nor the slaves of the terminals.  `yos_fstatat` resolves its path
against the working directory also when it is given a directory, and `yos_mkfifoat` takes the host's
name of the directory and leaves the mask out.  `at_calls_iff` says for which arguments each of them
asks the environment for the same as its plain form does.

What the files and the virtual operations then answer is left open.
-/

namespace Yos

namespace AtCalls

open Paths Canon Chdir Mkfifo Vfs

variable {δ ω : Type}

/-! ## The environment -/

/-- What a path leads to: an entry of a directory, with a file or without, or an error. -/
inductive Found (δ : Type) where
  | noent
  | tooLong
  | entry (d : δ)
deriving DecidableEq, Repr

def Found.of : Option δ → Found δ
  | some d => .entry d
  | none => .noent

/-- The host looks up a path. -/
def lookup (t : HostTree δ) (host : HostDir) (p : List UInt8) : Found δ :=
  (⟨fun p => .of (t.node p), .noent, .tooLong⟩ : HostFs (Found δ)).call host p

/-- The host looks up a path in a directory. -/
def lookupAt (t : HostTree δ) (host : HostDir) (dir : δ) (p : List UInt8) : Found δ :=
  if isAbs p then lookup t host p
  else if p = [] then .noent
  else if pathMax ≤ p.length then .tooLong
  else .of (t.look dir p)

/-- What a call asks of the environment: an error to the guest, an operation of a virtual file system, a
copy of an end of a FIFO or of the slave of a terminal, or a host call on an entry; `record` is the path
the descriptor gets. -/
inductive Ask (δ ω : Type) where
  | fault
  | noent
  | tooLong
  | noDir
  | virtual (ops : ω) (remaining : List UInt8) (flags mode : UInt32)
  | fifo (hostFd : ℕ) (cloexec : Bool)
  | pty (path : List UInt8) (cloexec : Bool)
  | open (d : δ) (flags mode : UInt32) (record : List UInt8)
  | stat (d : δ) (flags : UInt32) (fifo : Bool)
  | mkfifo (path : List UInt8) (mode : UInt32)

/-- The host call on what was found. -/
def Found.ask (call : δ → Ask δ ω) : Found δ → Ask δ ω
  | .noent => .noent
  | .tooLong => .tooLong
  | .entry d => call d

/-! ## The context -/

/-- The context of a guest.  Its working directory is an absolute path that fits its buffer. -/
structure AtCtx (δ ω : Type) where
  dirs : DirCtx δ
  guest : GuestCtx
  opens : ω → Bool
  mounts : MountTable ω
  fifos : List FifoEntry
  abs : isAbs dirs.cwd = true
  short : dirs.cwd.length < pathMax

namespace AtCtx

variable (t : HostTree δ) (host : HostDir) (c : AtCtx δ ω)

def cwd : Cwd := ⟨c.dirs.cwd, c.abs, c.short⟩

/-- `fifo_lookup_locked`. -/
def fifo (path : List UInt8) : Option FifoEntry := c.fifos.find? fun e => e.path = path

/-- The mount lookup. -/
def mount (path : List UInt8) : Option (ω × List UInt8) := served c.opens c.mounts path

end AtCtx

/-- `O_CLOEXEC` on the host. -/
def oCloexec : UInt32 := 0x80000

/-- The path of the slaves of the terminals, `/dev/yos-pts/`. -/
def ptsPath : List UInt8 := [47, 100, 101, 118, 47, 121, 111, 115, 45, 112, 116, 115, 47]

/-- `yos_fifo_try_open` on a registered FIFO. -/
def fifoTryOpen (e : FifoEntry) (flags : UInt32) : Ask δ ω :=
  .fifo (if flags &&& 3 = 0 then e.rfd else e.wfd) (flags &&& oCloexec ≠ 0)

/-- `yos_at_flags_fb_to_lx`. -/
def atFlagsFbToLx (f : UInt32) : UInt32 :=
  (if f &&& 0x100 ≠ 0 then 0x200 else 0) ||| (if f &&& 0x200 ≠ 0 then 0x100 else 0) |||
    (if f &&& 0x400 ≠ 0 then 0x400 else 0) ||| (if f &&& 0x800 ≠ 0 then 0x200 else 0) |||
    (if f &&& 0x4000 ≠ 0 then 0x1000 else 0)

/-! ## The bridges -/

/-- The directory of an `*at` call: the working directory, or a guest descriptor. -/
inductive DirArg where
  | cwd
  | fd (w : ℕ)

namespace AtCtx

variable (t : HostTree δ) (host : HostDir) (c : AtCtx δ ω)

/-- The host call of `open` and `openat`. -/
def openAsk (found : Found δ) (record : List UInt8) (flags mode : UInt32) : Ask δ ω :=
  found.ask fun d => .open d (oflagsFbToLx flags) (yosOpenMode c.guest flags mode).2 record

/-- `yos_open`. -/
def yosOpen (raw : Option (List UInt8)) (flags mode : UInt32) : Ask δ ω :=
  match raw with
  | none => .fault
  | some raw =>
    let s := yosPathResolve c.dirs.cwd raw
    match c.mount s with
    | some (ops, remaining) => .virtual ops remaining flags mode
    | none =>
      match c.fifo s with
      | some e => fifoTryOpen e flags
      | none =>
        if ptsPath <+: s then .pty s (flags &&& oCloexec ≠ 0)
        else c.openAsk (lookup t host s) (recordPath c.dirs.cwd s) flags mode

/-- `yos_openat`. -/
def yosOpenat (dfd : DirArg) (raw : Option (List UInt8)) (flags mode : UInt32) : Ask δ ω :=
  match raw with
  | none => .fault
  | some raw =>
    match c.mount raw with
    | some (ops, remaining) => .virtual ops remaining flags mode
    | none =>
      match dfd with
      | .cwd =>
        let path := yosPathResolve c.dirs.cwd raw
        c.openAsk (lookup t host path) (recordPath c.dirs.cwd path) flags mode
      | .fd w =>
        match c.dirs.fdNode w with
        | none => .noDir
        | some dir =>
          c.openAsk (lookupAt t host dir raw) (recordPath c.dirs.cwd (c.dirs.openatPath w raw)) flags
            mode

/-- `yos_fstatat` with a descriptor. -/
def yosFstatat (w : ℕ) (raw : Option (List UInt8)) (flags : UInt32) : Ask δ ω :=
  match raw with
  | none => .fault
  | some raw =>
    let path := yosPathResolve c.dirs.cwd raw
    match c.dirs.fdNode w with
    | none => .noDir
    | some dir =>
      (lookupAt t host dir path).ask fun d => .stat d (atFlagsFbToLx flags) (c.fifo path).isSome

/-- `yos_mkfifo`. -/
def yosMkfifo (raw : List UInt8) (mode : UInt16) : Ask δ ω :=
  .mkfifo (yosPathResolve c.dirs.cwd raw) (mode.toUInt32 &&& 0o777 &&& ~~~ c.guest.umask)

/-- `yos_mkfifoat` with a descriptor; `hostName` is the path the host gives when it has entered the
directory, if it can. -/
def yosMkfifoat (hostName : δ → Option (List UInt8)) (w : ℕ) (raw : Option (List UInt8))
    (mode : UInt16) : Ask δ ω :=
  match raw with
  | none => .fault
  | some raw =>
    if isAbs raw then c.yosMkfifo raw mode
    else
      match (c.dirs.fdNode w).bind hostName with
      | none => .noDir
      | some dir => .mkfifo ((dir ++ slash :: raw).take 4095) (mode.toUInt32 &&& 0o777)

end AtCtx

/-! ## What should hold -/

/-- A descriptor that is open on the directory that the absolute path `path` names. -/
structure DirFd (t : HostTree δ) (c : AtCtx δ ω) where
  w : ℕ
  dir : δ
  path : List UInt8
  abs : isAbs path = true
  open_on : c.dirs.fdNode w = some dir
  names : t.node path = some dir

/-- The calls: `openat` with `AT_FDCWD`, and the calls with a descriptor and a relative path. -/
inductive AtCall (t : HostTree δ) (c : AtCtx δ ω) where
  | openatCwd (raw : Option (List UInt8)) (flags mode : UInt32)
  | openat (d : DirFd t c) (p : RelPath) (flags mode : UInt32)
  | fstatat (d : DirFd t c) (p : RelPath) (flags : UInt32)
  | mkfifoat (d : DirFd t c) (p : RelPath) (mode : UInt16)

namespace AtCall

variable {t : HostTree δ} {c : AtCtx δ ω} (host : HostDir) (hostName : δ → Option (List UInt8))

/-- The call. -/
def ask : AtCall t c → Ask δ ω
  | openatCwd raw flags mode => c.yosOpenat t host .cwd raw flags mode
  | openat d p flags mode => c.yosOpenat t host (.fd d.w) (some p.path) flags mode
  | fstatat d p flags => c.yosFstatat t host d.w (some p.path) flags
  | mkfifoat d p mode => c.yosMkfifoat hostName d.w (some p.path) mode

/-- The plain form: `open`, or the same call on the absolute path. -/
def plain : AtCall t c → Ask δ ω
  | openatCwd raw flags mode => c.yosOpen t host raw flags mode
  | openat d p flags mode => c.yosOpenat t host (.fd d.w) (some (absPath d.path p.path)) flags mode
  | fstatat d p flags => c.yosFstatat t host d.w (some (absPath d.path p.path)) flags
  | mkfifoat d p mode => c.yosMkfifoat hostName d.w (some (absPath d.path p.path)) mode

/-- When the two agree. -/
def Agrees : AtCall t c → Prop
  | openatCwd raw _ _ => ∀ p, raw = some p →
      isAbs p = true ∧ c.mount p ≠ none ∨
        c.mount (yosPathResolve c.dirs.cwd p) = none ∧ c.fifo (yosPathResolve c.dirs.cwd p) = none ∧
          ¬ ptsPath <+: yosPathResolve c.dirs.cwd p
  | openat d p _ _ => c.mount (absPath d.path p.path) = none ∧
      (pathMax ≤ p.path.length ∨ (absPath d.path p.path).length < pathMax ∧
        (t.look d.dir p.path ≠ none → recordPath c.dirs.cwd (c.dirs.openatPath d.w p.path) =
          recordPath c.dirs.cwd (absPath d.path p.path)))
  | fstatat d p _ => pathMax ≤ p.path.length ∨ (absPath d.path p.path).length < pathMax ∧
      (isAbs (yosPathResolve c.dirs.cwd p.path) = true →
        t.node (yosPathResolve c.dirs.cwd p.path) = t.node (absPath d.path p.path)) ∧
      (t.look d.dir p.path ≠ none → (c.fifo (yosPathResolve c.dirs.cwd p.path)).isSome =
        (c.fifo (absPath d.path p.path)).isSome)
  | mkfifoat d p mode => (∃ dir, hostName d.dir = some dir ∧
      (dir ++ slash :: p.path).take 4095 = absPath d.path p.path) ∧
      mode.toUInt32 &&& 0o777 &&& c.guest.umask = 0

end AtCall

/-! ## The lookups -/

section Lookups

variable {t : HostTree δ} {host : HostDir} {c : AtCtx δ ω} {p : List UInt8}

theorem lookup_of_isAbs (abs : isAbs p = true) :
    lookup t host p = if pathMax ≤ p.length then .tooLong else .of (t.node p) := by
  rw [lookup, HostFs.call, if_neg (ne_nil_of_isAbs abs), if_pos abs]

theorem lookupAt_of_isAbs (abs : isAbs p = true) (dir : δ) :
    lookupAt t host dir p = if pathMax ≤ p.length then .tooLong else .of (t.node p) := by
  rw [lookupAt, if_pos abs, lookup_of_isAbs abs]

theorem lookupAt_rel (p : RelPath) (dir : δ) : lookupAt t host dir p.path =
    if pathMax ≤ p.path.length then .tooLong else .of (t.look dir p.path) := by
  rw [lookupAt, if_neg (by simp [p.rel]), if_neg p.nonempty]

theorem of_injective : Function.Injective (Found.of (δ := δ)) := by
  rintro (_ | d) (_ | d') same <;> simp_all [Found.of]

theorem of_ne_tooLong (d : Option δ) : Found.of d ≠ .tooLong := by
  cases d <;> simp [Found.of]

/-- The path below the directory is longer than the path alone. -/
theorem length_le_absPath (dir p : List UInt8) : p.length ≤ (absPath dir p).length := by
  rw [absPath, List.length_append]
  exact Nat.le_add_left _ _

/-- A relative path has no mount. -/
theorem mount_rel (mounted : ∀ m ∈ c.mounts, isAbs m.path = true) (rel : isAbs p = false) :
    c.mount p = none := by
  have deepest := resolve_deepest (fun m mem => ne_nil_of_isAbs (mounted m mem)) p
  unfold Deepest at deepest
  rw [AtCtx.mount, served]
  cases found : (yosMountResolve c.mounts p).ops with
  | none => rfl
  | some ops =>
    rw [found] at deepest
    obtain ⟨before, m, after, shape, covers, -⟩ := deepest
    have abs : isAbs m.path = true := mounted m (by simp [shape])
    rcases PathText.splitOn_prefix_iff.1 covers with same | ⟨rest, more⟩
    · rw [← same, abs] at rel
      cases rel
    · rw [← more, List.append_assoc, isAbs_append (ne_nil_of_isAbs abs), abs] at rel
      cases rel

end Lookups

/-! ## What is asked -/

section Asks

variable {t : HostTree δ} {host : HostDir} {c : AtCtx δ ω} {found found' : Found δ}
  {record record' : List UInt8} {flags mode : UInt32}

theorem openAsk_ne_virtual (ops : ω) (remaining : List UInt8) (flags' mode' : UInt32) :
    c.openAsk found record flags mode ≠ .virtual ops remaining flags' mode' := by
  cases found <;> simp [AtCtx.openAsk, Found.ask]

theorem openAsk_ne_fifo (e : FifoEntry) (flags' : UInt32) :
    c.openAsk found record flags mode ≠ fifoTryOpen e flags' := by
  cases found <;> simp [AtCtx.openAsk, Found.ask, fifoTryOpen]

theorem openAsk_ne_pty (path : List UInt8) (cloexec : Bool) :
    c.openAsk found record flags mode ≠ .pty path cloexec := by
  cases found <;> simp [AtCtx.openAsk, Found.ask]

/-- The host call says what was found, and what is recorded if there is something. -/
theorem openAsk_eq_iff : c.openAsk found record flags mode = c.openAsk found' record' flags mode ↔
    found = found' ∧ ∀ d, found = .entry d → record = record' := by
  cases found <;> cases found' <;> simp [AtCtx.openAsk, Found.ask]

theorem statAsk_eq_iff {fifo fifo' : Bool} :
    (found.ask fun d => Ask.stat (ω := ω) d flags fifo) = (found'.ask fun d => .stat d flags fifo') ↔
      found = found' ∧ ∀ d, found = .entry d → fifo = fifo' := by
  cases found <;> cases found' <;> simp [Found.ask]

theorem of_eq_entry (node : Option δ) {P : Prop} :
    (∀ d, Found.of node = .entry d → P) ↔ (node ≠ none → P) := by
  cases node <;> simp [Found.of]

end Asks

/-! ## The calls -/

section Calls

variable {t : HostTree δ} {c : AtCtx δ ω} {host : HostDir} {hostName : δ → Option (List UInt8)}

theorem openatCwd_iff (mounted : ∀ m ∈ c.mounts, isAbs m.path = true) (raw : Option (List UInt8))
    (flags mode : UInt32) :
    c.yosOpenat t host .cwd raw flags mode = c.yosOpen t host raw flags mode ↔
      (AtCall.openatCwd (t := t) (c := c) raw flags mode).Agrees hostName := by
  cases raw with
  | none => exact iff_of_true rfl fun _ same => by cases same
  | some p =>
    simp only [AtCall.Agrees, Option.some.injEq, forall_eq', AtCtx.yosOpenat, AtCtx.yosOpen]
    cases raw_mount : c.mount p with
    | some found =>
      have abs : isAbs p = true := by
        by_contra rel
        rw [mount_rel mounted (by simpa using rel)] at raw_mount
        cases raw_mount
      simp [yosPathResolve_of_isAbs abs, raw_mount, abs]
    | none =>
      generalize yosPathResolve c.dirs.cwd p = s
      simp only [ne_eq, not_true_eq_false, and_false, false_or]
      cases c.mount s with
      | some found => simp [openAsk_ne_virtual]
      | none =>
        cases c.fifo s with
        | some e => simp [openAsk_ne_fifo]
        | none =>
          by_cases pts : ptsPath <+: s
          · simp [pts, openAsk_ne_pty]
          · simp [pts]

theorem openat_iff (mounted : ∀ m ∈ c.mounts, isAbs m.path = true) (d : DirFd t c) (p : RelPath)
    (flags mode : UInt32) :
    c.yosOpenat t host (.fd d.w) (some p.path) flags mode =
        c.yosOpenat t host (.fd d.w) (some (absPath d.path p.path)) flags mode ↔
      (AtCall.openat d p flags mode).Agrees hostName := by
  have below := t.join d.path p.path d.dir d.abs p.rel p.nonempty d.names
  have abs : isAbs (absPath d.path p.path) = true := isAbs_absPath d.abs
  have whole : c.dirs.openatPath d.w (absPath d.path p.path) = absPath d.path p.path := by
    rw [DirCtx.openatPath, if_pos abs]
  simp only [AtCall.Agrees, AtCtx.yosOpenat, mount_rel mounted p.rel, d.open_on]
  cases c.mount (absPath d.path p.path) with
  | some found => simp [openAsk_ne_virtual]
  | none =>
    rw [openAsk_eq_iff, lookupAt_rel, lookupAt_of_isAbs abs, whole, below]
    have longer := length_le_absPath d.path p.path
    by_cases long : pathMax ≤ p.path.length
    · simp [long, long.trans longer]
    · by_cases fits : (absPath d.path p.path).length < pathMax
      · simp [long, fits, Nat.not_le.2 fits, of_eq_entry]
      · simp [long, fits, Nat.not_lt.1 fits, of_ne_tooLong]

/-- A relative path is joined to the working directory, or handed on as it is. -/
theorem resolve_cases (cwd : Cwd) (p : RelPath) :
    yosPathResolve cwd.path p.path = p.path ∨
      isAbs (yosPathResolve cwd.path p.path) = true ∧
        (yosPathResolve cwd.path p.path).length < pathMax ∧
        p.path.length ≤ (yosPathResolve cwd.path p.path).length := by
  rw [yosPathResolve_rel]
  split_ifs with long
  · exact .inl rfl
  · rw [isAbs_append (by unfold joinBase; split_ifs <;> simp [ne_nil_of_isAbs cwd.abs]),
      List.length_append]
    refine .inr ⟨?_, by omega, by omega⟩
    unfold joinBase
    split_ifs
    · rw [isAbs_append (ne_nil_of_isAbs cwd.abs), cwd.abs]
    · exact cwd.abs

theorem fstatat_iff (d : DirFd t c) (p : RelPath) (flags : UInt32) :
    c.yosFstatat t host d.w (some p.path) flags =
        c.yosFstatat t host d.w (some (absPath d.path p.path)) flags ↔
      (AtCall.fstatat d p flags).Agrees hostName := by
  have below := t.join d.path p.path d.dir d.abs p.rel p.nonempty d.names
  have abs : isAbs (absPath d.path p.path) = true := isAbs_absPath d.abs
  have longer := length_le_absPath d.path p.path
  simp only [AtCall.Agrees, AtCtx.yosFstatat, d.open_on, yosPathResolve_of_isAbs abs]
  rw [statAsk_eq_iff, lookupAt_of_isAbs abs, below]
  rcases resolve_cases c.cwd p with same | ⟨joined, short, atLeast⟩
  · -- the join is too long, and the path goes to the directory
    rw [show yosPathResolve c.dirs.cwd p.path = p.path from same, lookupAt_rel, p.rel]
    by_cases long : pathMax ≤ p.path.length
    · simp [long, long.trans longer]
    · by_cases fits : (absPath d.path p.path).length < pathMax
      · simp [long, fits, Nat.not_le.2 fits, of_eq_entry]
      · simp [long, fits, Nat.not_lt.1 fits, of_ne_tooLong]
  · have joined : isAbs (yosPathResolve c.dirs.cwd p.path) = true := joined
    have short : (yosPathResolve c.dirs.cwd p.path).length < pathMax := short
    have long : ¬ pathMax ≤ p.path.length := Nat.not_le.2 (atLeast.trans_lt short)
    rw [lookupAt_of_isAbs joined, if_neg (Nat.not_le.2 short)]
    by_cases fits : (absPath d.path p.path).length < pathMax
    · rw [if_neg (Nat.not_le.2 fits), of_injective.eq_iff, of_eq_entry]
      simp only [long, fits, joined, true_and, false_or, forall_const]
      constructor
      · rintro ⟨same, fifo⟩
        exact ⟨same, same ▸ fifo⟩
      · rintro ⟨same, fifo⟩
        exact ⟨same, same ▸ fifo⟩
    · simp [long, fits, Nat.not_lt.1 fits, of_ne_tooLong]

theorem mkfifoat_iff (d : DirFd t c) (p : RelPath) (mode : UInt16) :
    c.yosMkfifoat hostName d.w (some p.path) mode =
        c.yosMkfifoat hostName d.w (some (absPath d.path p.path)) mode ↔
      (AtCall.mkfifoat d p mode).Agrees hostName := by
  have abs : isAbs (absPath d.path p.path) = true := isAbs_absPath d.abs
  simp only [AtCall.Agrees, AtCtx.yosMkfifoat, p.rel, abs, d.open_on, Option.bind_some, if_true,
    Bool.false_eq_true, if_false, AtCtx.yosMkfifo, yosPathResolve_of_isAbs abs]
  cases hostName d.dir with
  | none => simp
  | some dir => simp [eq_clear_iff]

/-- The `*at` calls ask for what their plain forms do exactly on these arguments. -/
theorem at_calls_iff (mounted : ∀ m ∈ c.mounts, isAbs m.path = true) (a : AtCall t c) :
    a.ask host hostName = a.plain host hostName ↔ a.Agrees hostName := by
  cases a with
  | openatCwd raw flags mode => exact openatCwd_iff mounted raw flags mode
  | openat d p flags mode => exact openat_iff mounted d p flags mode
  | fstatat d p flags => exact fstatat_iff d p flags
  | mkfifoat d p mode => exact mkfifoat_iff d p mode

end Calls

/-! ## A directory below the root -/

/-- A process in the root directory with descriptor 3 open on `/a`. -/
def aboveA : AtCtx Place Unit where
  dirs := inRoot.setFd 3 (some .a) (some [slash, 97]) (some [slash, 97])
  guest := ⟨fun _ => 0, 4096, fun _ => -1, 0o022, 0, fun _ => 0, []⟩
  opens _ := true
  mounts := [⟨procPath, ()⟩]
  fifos := []
  abs := rfl
  short := by decide

def dirA : DirFd linkTree aboveA := ⟨3, .a, [slash, 97], rfl, by decide, by decide⟩

/-- The entry `b` of `/a`. -/
def nameB : RelPath := ⟨[98], by simp, rfl⟩

theorem mkfifoat_agrees :
    (AtCall.mkfifoat dirA nameB 0o600).ask hostRoot (fun _ => some [slash, 97]) =
      (AtCall.mkfifoat dirA nameB 0o600).plain hostRoot fun _ => some [slash, 97] :=
  (at_calls_iff (fun m mem => by rw [List.mem_singleton.1 mem]; rfl) _).2
    ⟨⟨[slash, 97], rfl, by decide⟩, by decide⟩

/-- `fstatat` looks for `b` in the working directory. -/
theorem fstatat_other_dir :
    (AtCall.fstatat dirA nameB 0).ask hostRoot (fun _ => none) = .noent ∧
      (AtCall.fstatat dirA nameB 0).plain hostRoot (fun _ => none) = .stat .b 0 false := by
  constructor
  · rfl
  · rfl

end AtCalls

end Yos
