import Yos.Io.Fd
import Yos.Lib.FlagMap

/-!
# Terminal attributes (`yos_tcgetattr`, `yos_tcsetattr`, `impl/libc/posix.c`, `posix-linux.c`)

A guest's `struct termios` has the layout and the flags of FreeBSD.  The bridges convert between it
and the host's through tables of flags.  What has no counterpart is lost, although `yos_tcsetattr`
reads the host's state first to keep it: `termios_fb_to_lx` clears the structure.  And the character
size is mapped bit by bit, with an entry for CS8 that any of its two bits matches, so CS6 and CS7
become CS8.

What survives a round trip on each side is `HostKept` and `SizeKept` (`termios_round_trip_iff`).  The
speeds are fields of their own here; `supported` says which of them the host's `cfsetispeed` and
`cfsetospeed` accept.
-/

namespace Yos

open Bytes FlagMap

/-! ## The structures -/

/-- The host's `struct termios`. -/
structure HostTermios where
  iflag : BitVec 32
  oflag : BitVec 32
  cflag : BitVec 32
  lflag : BitVec 32
  line : UInt8
  cc : Fin 32 → UInt8
  ispeed : BitVec 32
  ospeed : BitVec 32

/-- The guest's `struct termios`. -/
structure GuestTermios where
  iflag : BitVec 32
  oflag : BitVec 32
  cflag : BitVec 32
  lflag : BitVec 32
  cc : Fin 20 → UInt8
  ispeed : BitVec 32
  ospeed : BitVec 32

/-- `YOS_FBSD_TERMIOS_SIZE`. -/
def fbsdTermiosSize : ℕ := 44

/-- A table of flags: FreeBSD's and Linux's. -/
abbrev FlagTable := List (BitVec 32 × BitVec 32)

/-- `iflag_map`. -/
def iflagMap : FlagTable :=
  [(0x0001, 0x1), (0x0002, 0x2), (0x0004, 0x4), (0x0008, 0x8), (0x0010, 0x10), (0x0020, 0x20),
    (0x0040, 0x40), (0x0080, 0x80), (0x0100, 0x100), (0x0200, 0x400), (0x0400, 0x1000),
    (0x0800, 0x800), (0x2000, 0x2000)]

/-- `oflag_map`. -/
def oflagMap : FlagTable :=
  [(0x0001, 0x1), (0x0002, 0x4), (0x0004, 0x20), (0x0008, 0x10), (0x0010, 0x8), (0x0020, 0x40),
    (0x0040, 0x80)]

/-- `cflag_map`; the first three entries are CS6, CS7 and CS8. -/
def cflagMap : FlagTable :=
  [(0x0100, 0x10), (0x0200, 0x20), (0x0300, 0x30), (0x0400, 0x40), (0x0800, 0x80), (0x1000, 0x100),
    (0x2000, 0x200), (0x4000, 0x400), (0x8000, 0x800)]

/-- `lflag_map`. -/
def lflagMap : FlagTable :=
  [(0x00000001, 0x800), (0x00000002, 0x10), (0x00000004, 0x20), (0x00000008, 0x8),
    (0x00000010, 0x40), (0x00000020, 0x400), (0x00000040, 0x200), (0x00000080, 0x1),
    (0x00000100, 0x2), (0x00000400, 0x8000), (0x00000800, 0x10000), (0x00400000, 0x100),
    (0x00800000, 0x1000), (0x20000000, 0x4000), (0x80000000, 0x80)]

/-- `map_flags` from the guest to the host. -/
def FlagTable.toHost (t : FlagTable) (v : BitVec 32) : BitVec 32 := mapFlags t v

/-- `map_flags` from the host to the guest. -/
def FlagTable.toGuest (t : FlagTable) (v : BitVec 32) : BitVec 32 := mapFlags (t.map Prod.swap) v

/-- `cc_fb_to_lx`. -/
def ccFbToLx : Fin 20 → Option (Fin 32)
  | 0 => some 4 -- VEOF
  | 1 => some 11 -- VEOL
  | 2 => some 16 -- VEOL2
  | 3 => some 2 -- VERASE
  | 4 => some 14 -- VWERASE
  | 5 => some 3 -- VKILL
  | 6 => some 12 -- VREPRINT
  | 8 => some 0 -- VINTR
  | 9 => some 1 -- VQUIT
  | 10 => some 10 -- VSUSP
  | 12 => some 8 -- VSTART
  | 13 => some 9 -- VSTOP
  | 14 => some 15 -- VLNEXT
  | 15 => some 13 -- VDISCARD
  | 16 => some 6 -- VMIN
  | 17 => some 5 -- VTIME
  | _ => none

/-! ## The conversions -/

/-- Store one control character of the guest. -/
def putHostCc (cc : Fin 20 → UInt8) (c : Fin 32 → UInt8) (i : Fin 20) : Fin 32 → UInt8 :=
  match ccFbToLx i with
  | some li => Function.update c li (cc i)
  | none => c

/-- The loop of `termios_fb_to_lx` over the control characters. -/
def ccToHost (cc : Fin 20 → UInt8) : Fin 32 → UInt8 :=
  (List.finRange 20).foldl (putHostCc cc) fun _ => 0

/-- The loop of `termios_lx_to_fb` over the control characters. -/
def ccToGuest (cc : Fin 32 → UInt8) (i : Fin 20) : UInt8 :=
  match ccFbToLx i with
  | some li => cc li
  | none => 0

/-- `cfsetispeed` and `cfsetospeed` on a cleared structure. -/
def cfsetSpeed (supported : BitVec 32 → Bool) (speed : BitVec 32) : BitVec 32 :=
  if supported speed then speed else 0

/-- `termios_fb_to_lx`. -/
def termiosFbToLx (supported : BitVec 32 → Bool) (g : GuestTermios) : HostTermios where
  iflag := iflagMap.toHost g.iflag
  oflag := oflagMap.toHost g.oflag
  cflag := cflagMap.toHost g.cflag
  lflag := lflagMap.toHost g.lflag
  line := 0
  cc := ccToHost g.cc
  ispeed := cfsetSpeed supported g.ispeed
  ospeed := cfsetSpeed supported g.ospeed

/-- `termios_lx_to_fb`. -/
def termiosLxToFb (h : HostTermios) : GuestTermios where
  iflag := iflagMap.toGuest h.iflag
  oflag := oflagMap.toGuest h.oflag
  cflag := cflagMap.toGuest h.cflag
  lflag := lflagMap.toGuest h.lflag
  cc := ccToGuest h.cc
  ispeed := h.ispeed
  ospeed := h.ospeed

/-- The control characters in memory. -/
def putCc (m : Bytes) (a : ℕ) (cc : Fin 20 → UInt8) : Bytes := fun x =>
  if inside : a ≤ x ∧ x < a + 20 then cc ⟨x - a, by omega⟩ else m x

/-- Write a guest's structure. -/
def GuestTermios.store (m : Bytes) (a : ℕ) (g : GuestTermios) : Bytes :=
  let m := (m.fill a fbsdTermiosSize 0).write32 a g.iflag.toNat
  let m := (m.write32 (a + 4) g.oflag.toNat).write32 (a + 8) g.cflag.toNat
  let m := putCc (m.write32 (a + 12) g.lflag.toNat) (a + 16) g.cc
  (m.write32 (a + 36) g.ispeed.toNat).write32 (a + 40) g.ospeed.toNat

/-- Read a guest's structure. -/
def GuestTermios.load (m : Bytes) (a : ℕ) : GuestTermios where
  iflag := BitVec.ofNat 32 (m.read32 a)
  oflag := BitVec.ofNat 32 (m.read32 (a + 4))
  cflag := BitVec.ofNat 32 (m.read32 (a + 8))
  lflag := BitVec.ofNat 32 (m.read32 (a + 12))
  cc := fun i => m (a + 16 + i)
  ispeed := BitVec.ofNat 32 (m.read32 (a + 36))
  ospeed := BitVec.ofNat 32 (m.read32 (a + 40))

/-! ## The bridges -/

/-- The context with the attributes of its emulated terminals, once they are set up; the attributes
of the host's terminals by host descriptor; and the `ONLCR` switches of the emulated ones. -/
structure TermState where
  ctx : FdCtx
  fakePty : Option HostTermios
  host : ℤ → Option HostTermios
  onlcr : ℤ → Bool

/-- `fake_pty_termios_defaults`. -/
def fakePtyTermiosDefaults : HostTermios where
  iflag := 0x100 ||| 0x400 ||| 0x2 -- ICRNL, IXON, BRKINT
  oflag := 0x1 ||| 0x4 -- OPOST, ONLCR
  cflag := 0x30 ||| 0x80 ||| 0x400 -- CS8, CREAD, HUPCL
  lflag := 0x8 ||| 0x10 ||| 0x20 ||| 0x40 ||| 0x2 ||| 0x1 ||| 0x8000
  line := 0
  cc
    | 0 => 0o3
    | 1 => 0o34
    | 2 => 0o177
    | 3 => 0o25
    | 4 => 0o4
    | 6 => 1
    | 8 => 0o21
    | 9 => 0o23
    | 10 => 0o32
    | _ => 0
  ispeed := 0o17 -- B38400
  ospeed := 0o17

/-- The attributes of the terminal behind a host descriptor; `isPty` is `yos_pty_is_pty_fd`. -/
def TermState.termios (s : TermState) (isPty : ℤ → Bool) (hfd : ℤ) : Option HostTermios :=
  if isPty hfd then some (s.fakePty.getD fakePtyTermiosDefaults) else s.host hfd

/-- `yos_tcgetattr`; the host's `tcgetattr` fails with `e`. -/
def yosTcgetattr (isPty : ℤ → Bool) (e : Errno) (s : TermState) (wfd : ℤ) (off : ℕ) :
    TermState × Ret :=
  if !wptrRange s.ctx off fbsdTermiosSize then (s, yosErrnoNeg .EFAULT)
  else
    let hfd := (yosFdGet s.ctx wfd).value
    if hfd < 0 then (s, yosErrnoNeg .EBADF)
    else
      let put := fun h => { s.ctx with memory := (termiosLxToFb h).store s.ctx.memory off }
      if isPty hfd then
        let h := s.fakePty.getD fakePtyTermiosDefaults
        ({ s with ctx := put h, fakePty := some h }, ⟨0, none⟩)
      else
        match s.host hfd with
        | none => (s, yosErrnoNeg e)
        | some h => ({ s with ctx := put h }, ⟨0, none⟩)

/-- `yos_tcsetattr`; the host's `tcgetattr` fails with `e`, and its `tcsetattr` knows the actions 0,
1 and 2. -/
def yosTcsetattr (isPty : ℤ → Bool) (supported : BitVec 32 → Bool) (e : Errno) (s : TermState)
    (wfd actions : ℤ) (off : ℕ) : TermState × Ret :=
  if !wptrRange s.ctx off fbsdTermiosSize then (s, yosErrnoNeg .EFAULT)
  else
    let hfd := (yosFdGet s.ctx wfd).value
    if hfd < 0 then (s, yosErrnoNeg .EBADF)
    else
      let h := termiosFbToLx supported (GuestTermios.load s.ctx.memory off)
      if isPty hfd then
        ({ s with
          fakePty := some h
          onlcr := Function.update s.onlcr hfd (h.oflag &&& 0x4 ≠ 0) }, ⟨0, none⟩)
      else
        match s.host hfd with
        | none => (s, yosErrnoNeg e)
        | some _ =>
          if actions < 0 ∨ 2 < actions then (s, yosErrnoNeg .EINVAL)
          else ({ s with host := Function.update s.host hfd (some h) }, ⟨0, none⟩)

/-! ## The structure in memory -/

section Memory

variable {m : Bytes} {a b : ℕ} {cc : Fin 20 → UInt8}

theorem read32_putCc (apart : b + 4 ≤ a ∨ a + 20 ≤ b) : (putCc m a cc).read32 b = m.read32 b :=
  read32_congr fun x low high => dif_neg (by omega)

theorem putCc_apply (i : Fin 20) : putCc m a cc (a + i) = cc i := by
  have inside : a ≤ a + i ∧ a + i < a + 20 := by omega
  rw [putCc, dif_pos inside]
  congr 1
  exact Fin.ext (Nat.add_sub_cancel_left a i)

theorem ofNat_read32_write32 (v : BitVec 32) :
    BitVec.ofNat 32 ((m.write32 a v.toNat).read32 a) = v := by
  rw [read32_write32_self v.isLt, BitVec.ofNat_toNat, BitVec.setWidth_eq]

/-- The structure that was written is read. -/
theorem load_store (m : Bytes) (a : ℕ) (g : GuestTermios) :
    GuestTermios.load (g.store m a) a = g := by
  obtain ⟨iflag, oflag, cflag, lflag, cc, ispeed, ospeed⟩ := g
  simp only [GuestTermios.load, GuestTermios.store, GuestTermios.mk.injEq]
  refine ⟨?_, ?_, ?_, ?_, funext fun i => ?_, ?_, ?_⟩
  case refine_5 =>
    have lt := i.isLt
    rw [write32_apply_of_disjoint (by omega), write32_apply_of_disjoint (by omega), putCc_apply]
  all_goals
    simp (disch := omega) only [read32_write32_disjoint, read32_putCc, ofNat_read32_write32]

end Memory

/-! ## The flag words there and back -/

/-- The flags of the guest that a table has. -/
def FlagTable.guestMask (t : FlagTable) : BitVec 32 := t.foldl (fun r e => r ||| e.1) 0

/-- The flags of the host that a table has. -/
def FlagTable.hostMask (t : FlagTable) : BitVec 32 := t.foldl (fun r e => r ||| e.2) 0

/-- The character size in the guest's control flags. -/
def guestCsize : BitVec 32 := 0x300

/-- The character size in the host's control flags. -/
def hostCsize : BitVec 32 := 0x30

/-- The tables whose entries are pairs of single flags. -/
def singleTables : List FlagTable := [iflagMap, oflagMap, lflagMap]

theorem toGuest_toHost {t : FlagTable} (single : t ∈ singleTables) (v : BitVec 32) :
    t.toGuest (t.toHost v) = v &&& t.guestMask := by
  refine mapFlags_mapFlags_eq_and ?_ v
  simp only [singleTables, List.mem_cons, List.not_mem_nil, or_false] at single
  rcases single with rfl | rfl | rfl <;> decide

theorem toHost_toGuest {t : FlagTable} (single : t ∈ singleTables) (v : BitVec 32) :
    t.toHost (t.toGuest v) = v &&& t.hostMask := by
  refine mapFlags_mapFlags_eq_and ?_ v
  simp only [singleTables, List.mem_cons, List.not_mem_nil, or_false] at single
  rcases single with rfl | rfl | rfl <;> decide

/-- The control flags of the guest come back if the size is CS5 or CS8. -/
theorem cflag_toGuest_toHost_eq_iff (v : BitVec 32) :
    cflagMap.toGuest (cflagMap.toHost v) = v ↔
      v &&& cflagMap.guestMask = v ∧ (v &&& guestCsize = 0 ∨ v &&& guestCsize = guestCsize) := by
  have rest : cflagMap.guestMask = 0xfc00 ||| guestCsize := by decide
  have back : cflagMap.toGuest (cflagMap.toHost v) =
      v &&& 0xfc00 ||| mapFlags [(guestCsize, guestCsize)] v :=
    mapFlags_mapFlags_eq_group (by decide) v
  rw [back, rest]
  exact group_eq_iff

/-- The control flags of the host come back if the table has them and the size is CS5 or CS8. -/
theorem cflag_toHost_toGuest_eq_iff (v : BitVec 32) :
    cflagMap.toHost (cflagMap.toGuest v) = v ↔
      v &&& cflagMap.hostMask = v ∧ (v &&& hostCsize = 0 ∨ v &&& hostCsize = hostCsize) := by
  have rest : cflagMap.hostMask = 0xfc0 ||| hostCsize := by decide
  have back : cflagMap.toHost (cflagMap.toGuest v) =
      v &&& 0xfc0 ||| mapFlags [(hostCsize, hostCsize)] v :=
    mapFlags_mapFlags_eq_group (by decide) v
  rw [back, rest]
  exact group_eq_iff

/-! ## The control characters there and back -/

theorem ccFbToLx_injective {i j : Fin 20} {li : Fin 32} (left : ccFbToLx i = some li)
    (right : ccFbToLx j = some li) : i = j := by
  have all : ∀ i j : Fin 20, ccFbToLx i = ccFbToLx j → ccFbToLx i ≠ none → i = j := by decide
  exact all i j (left.trans right.symm) (by rw [left]; exact Option.some_ne_none li)

theorem putHostCc_of_ne {cc : Fin 20 → UInt8} {c : Fin 32 → UInt8} {i : Fin 20} {li : Fin 32}
    (ne : ccFbToLx i ≠ some li) : putHostCc cc c i li = c li := by
  rw [putHostCc]
  cases mapped : ccFbToLx i with
  | some lj =>
    refine Function.update_of_ne ?_ _ _
    rintro rfl
    exact ne mapped
  | none => rfl

theorem putHostCc_of_eq {cc : Fin 20 → UInt8} {c : Fin 32 → UInt8} {i : Fin 20} {li : Fin 32}
    (mapped : ccFbToLx i = some li) : putHostCc cc c i li = cc i := by
  rw [putHostCc, mapped]
  exact Function.update_self _ _ _

/-- A control character of the host is the guest's that is mapped to it. -/
theorem ccToHost_of_mapped {cc : Fin 20 → UInt8} {i : Fin 20} {li : Fin 32}
    (mapped : ccFbToLx i = some li) : ccToHost cc li = cc i := by
  have loop : ∀ (l : List (Fin 20)) (c : Fin 32 → UInt8), i ∈ l ∨ c li = cc i →
      l.foldl (putHostCc cc) c li = cc i := by
    intro l
    induction l with
    | nil => exact fun c h => h.resolve_left List.not_mem_nil
    | cons j l ih =>
      intro c h
      rw [List.foldl_cons]
      apply ih
      by_cases same : ccFbToLx j = some li
      · rw [putHostCc_of_eq same, ccFbToLx_injective same mapped]
        exact Or.inr rfl
      · have ne : i ≠ j := fun eq => same (eq ▸ mapped)
        rw [putHostCc_of_ne same]
        exact h.imp_left fun mem => (List.mem_cons.1 mem).resolve_left ne
  rw [ccToHost]
  exact loop _ _ (Or.inl (List.mem_finRange i))

theorem ccToHost_of_not_mapped {cc : Fin 20 → UInt8} {li : Fin 32}
    (free : ∀ i, ccFbToLx i ≠ some li) : ccToHost cc li = 0 := by
  have loop : ∀ (l : List (Fin 20)) (c : Fin 32 → UInt8), l.foldl (putHostCc cc) c li = c li := by
    intro l
    induction l with
    | nil => exact fun _ => rfl
    | cons j l ih =>
      intro c
      rw [List.foldl_cons, ih, putHostCc_of_ne (free j)]
  rw [ccToHost, loop]

theorem ccToHost_ccToGuest_eq_iff (cc : Fin 32 → UInt8) :
    ccToHost (ccToGuest cc) = cc ↔ ∀ li, (∀ i, ccFbToLx i ≠ some li) → cc li = 0 := by
  constructor
  · intro same li free
    rw [← same, ccToHost_of_not_mapped free]
  · intro zero
    funext li
    by_cases free : ∀ i, ccFbToLx i ≠ some li
    · rw [ccToHost_of_not_mapped free, zero li free]
    · obtain ⟨i, mapped⟩ := not_forall_not.1 free
      rw [ccToHost_of_mapped mapped, ccToGuest, mapped]

theorem ccToGuest_ccToHost {cc : Fin 20 → UInt8} (zero : ∀ i, ccFbToLx i = none → cc i = 0) :
    ccToGuest (ccToHost cc) = cc := by
  funext i
  rw [ccToGuest]
  split
  case h_1 li mapped => exact ccToHost_of_mapped mapped
  case h_2 free => exact (zero i free).symm

/-! ## Round trips -/

/-- What a host's structure may have: flags with a counterpart, CS5 or CS8, no line discipline, no
control characters without a counterpart, and speeds that can be set. -/
structure HostKept (supported : BitVec 32 → Bool) (h : HostTermios) : Prop where
  iflag : h.iflag &&& iflagMap.hostMask = h.iflag
  oflag : h.oflag &&& oflagMap.hostMask = h.oflag
  cflag : h.cflag &&& cflagMap.hostMask = h.cflag
  size : h.cflag &&& hostCsize = 0 ∨ h.cflag &&& hostCsize = hostCsize
  lflag : h.lflag &&& lflagMap.hostMask = h.lflag
  line : h.line = 0
  cc : ∀ li, (∀ i, ccFbToLx i ≠ some li) → h.cc li = 0
  ispeed : supported h.ispeed = true ∨ h.ispeed = 0
  ospeed : supported h.ospeed = true ∨ h.ospeed = 0

/-- The host supports all that a guest's structure has. -/
structure GuestSupported (supported : BitVec 32 → Bool) (g : GuestTermios) : Prop where
  iflag : g.iflag &&& iflagMap.guestMask = g.iflag
  oflag : g.oflag &&& oflagMap.guestMask = g.oflag
  cflag : g.cflag &&& cflagMap.guestMask = g.cflag
  lflag : g.lflag &&& lflagMap.guestMask = g.lflag
  cc : ∀ i, ccFbToLx i = none → g.cc i = 0
  ispeed : supported g.ispeed = true
  ospeed : supported g.ospeed = true

/-- The character size of a guest's structure is CS5 or CS8. -/
def SizeKept (g : GuestTermios) : Prop :=
  g.cflag &&& guestCsize = 0 ∨ g.cflag &&& guestCsize = guestCsize

theorem cfsetSpeed_eq_iff {supported : BitVec 32 → Bool} {speed : BitVec 32} :
    cfsetSpeed supported speed = speed ↔ supported speed = true ∨ speed = 0 := by
  rw [cfsetSpeed]
  split_ifs with ok
  · exact iff_of_true rfl (Or.inl ok)
  · rw [or_iff_right ok, eq_comm]

theorem toHost_toGuest_eq_iff (supported : BitVec 32 → Bool) (h : HostTermios) :
    termiosFbToLx supported (termiosLxToFb h) = h ↔ HostKept supported h := by
  obtain ⟨iflag, oflag, cflag, lflag, line, cc, ispeed, ospeed⟩ := h
  simp only [termiosFbToLx, termiosLxToFb, HostTermios.mk.injEq, ccToHost_ccToGuest_eq_iff,
    cfsetSpeed_eq_iff, cflag_toHost_toGuest_eq_iff,
    toHost_toGuest (t := iflagMap) (by decide), toHost_toGuest (t := oflagMap) (by decide),
    toHost_toGuest (t := lflagMap) (by decide)]
  constructor
  · rintro ⟨iflag, oflag, ⟨cflag, size⟩, lflag, line, cc, ispeed, ospeed⟩
    exact ⟨iflag, oflag, cflag, size, lflag, line.symm, cc, ispeed, ospeed⟩
  · rintro ⟨iflag, oflag, cflag, size, lflag, line, cc, ispeed, ospeed⟩
    exact ⟨iflag, oflag, ⟨cflag, size⟩, lflag, line.symm, cc, ispeed, ospeed⟩

theorem toGuest_toHost_eq_iff {supported : BitVec 32 → Bool} {g : GuestTermios}
    (ok : GuestSupported supported g) :
    termiosLxToFb (termiosFbToLx supported g) = g ↔ SizeKept g := by
  obtain ⟨iflag, oflag, cflag, lflag, cc, ispeed, ospeed⟩ := g
  have cc := ccToGuest_ccToHost ok.cc
  simp only [termiosFbToLx, termiosLxToFb, GuestTermios.mk.injEq, cfsetSpeed_eq_iff,
    cflag_toGuest_toHost_eq_iff, toGuest_toHost (t := iflagMap) (by decide),
    toGuest_toHost (t := oflagMap) (by decide), toGuest_toHost (t := lflagMap) (by decide)]
  constructor
  · rintro ⟨-, -, ⟨-, size⟩, -⟩
    exact size
  · intro size
    exact ⟨ok.iflag, ok.oflag, ⟨ok.cflag, size⟩, ok.lflag, cc, Or.inl ok.ispeed, Or.inl ok.ospeed⟩

section Calls

variable {isPty : ℤ → Bool} {supported : BitVec 32 → Bool} {e : Errno} {s : TermState}
  {wfd hfd actions : ℤ} {off : ℕ} {h : HostTermios}

/-- `yosTcgetattr` writes the terminal's attributes and keeps them. -/
theorem yosTcgetattr_eq (e : Errno) (range : wptrRange s.ctx off fbsdTermiosSize = true)
    (get : (yosFdGet s.ctx wfd).value = hfd) (nonneg : 0 ≤ hfd)
    (terminal : s.termios isPty hfd = some h) :
    (yosTcgetattr isPty e s wfd off).2 = ⟨0, none⟩ ∧
      (yosTcgetattr isPty e s wfd off).1.ctx =
        { s.ctx with memory := (termiosLxToFb h).store s.ctx.memory off } ∧
      (yosTcgetattr isPty e s wfd off).1.termios isPty hfd = some h := by
  rw [TermState.termios] at terminal
  rw [yosTcgetattr, range]
  dsimp only
  rw [get, if_neg (by decide), if_neg (by omega)]
  by_cases pty : isPty hfd = true
  · rw [if_pos pty] at terminal ⊢
    cases terminal
    exact ⟨rfl, rfl, by rw [TermState.termios, if_pos pty]; rfl⟩
  · rw [if_neg pty] at terminal ⊢
    rw [terminal]
    exact ⟨rfl, rfl, by rw [TermState.termios, if_neg pty]; exact terminal⟩

/-- `yosTcsetattr` sets the terminal's attributes from those in memory. -/
theorem yosTcsetattr_eq (supported : BitVec 32 → Bool) (e : Errno)
    (range : wptrRange s.ctx off fbsdTermiosSize = true)
    (get : (yosFdGet s.ctx wfd).value = hfd) (nonneg : 0 ≤ hfd)
    (terminal : s.termios isPty hfd = some h) (known : 0 ≤ actions ∧ actions ≤ 2) :
    (yosTcsetattr isPty supported e s wfd actions off).2 = ⟨0, none⟩ ∧
      (yosTcsetattr isPty supported e s wfd actions off).1.ctx = s.ctx ∧
      (yosTcsetattr isPty supported e s wfd actions off).1.termios isPty hfd =
        some (termiosFbToLx supported (GuestTermios.load s.ctx.memory off)) := by
  rw [TermState.termios] at terminal
  rw [yosTcsetattr, range]
  dsimp only
  rw [get, if_neg (by decide), if_neg (by omega)]
  by_cases pty : isPty hfd = true
  · rw [if_pos pty]
    exact ⟨rfl, rfl, by rw [TermState.termios, if_pos pty]; rfl⟩
  · rw [if_neg pty] at terminal ⊢
    rw [terminal]
    dsimp only
    rw [if_neg (by omega)]
    exact ⟨rfl, rfl, by rw [TermState.termios, if_neg pty]; exact Function.update_self _ _ _⟩

end Calls

/-- The speeds of Linux: the codes B0 to B38400 and B57600 to B4000000. -/
def linuxSpeed (speed : BitVec 32) : Bool := speed ≤ 0xf || 0x1001 ≤ speed && speed ≤ 0x100f

/-- Descriptor 3 is a terminal with the given control flags; the structure at address 64 is empty. -/
def ttyState (cflag : BitVec 32) : TermState where
  ctx := ⟨fun _ => 0, 4096, fun w => if w = 3 then 9 else -1, none⟩
  fakePty := none
  host := fun hfd => if hfd = 9 then some { fakePtyTermiosDefaults with cflag := cflag } else none
  onlcr := fun _ => true

end Yos
