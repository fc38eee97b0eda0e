import Yos.Io.Fd
import Yos.Lib.Orbit
import Yos.Lib.Spans
import Yos.Libc.SockAddr

/-!
# Control messages of `sendmsg` (`impl/libc/posix.c`)

`yos_sendmsg` copies the `SCM_RIGHTS` records of the guest's control buffer into a buffer of its own,
which has room for one record of 64 descriptors.  It finds the next record by adding the aligned
length of the last one, in 32 bits; the end of a record is compared with the end of the buffer in 32
bits as well, and the room in its own buffer is not tested.  `ctrl_walk_iff` says for which control
buffers the walk ends and stays inside both buffers.

Pointers and lengths of the guest are `UInt32`, so sums wrap as they do in the source.  `CtrlWalk`
records the accesses of the walk.
-/

namespace Yos.Msg

open SockAddr

/-! ## The message of the guest -/

/-- The fields of `struct yos_exec_ctx` that `yos_sendmsg` and `yos_recvmsg` use. -/
structure MsgCtx where
  memory : Bytes
  memorySize : UInt32
  fdMap : ℕ → ℤ

namespace MsgCtx

/-- The part of the context the descriptor table functions see. -/
def fd (ctx : MsgCtx) : FdCtx := ⟨ctx.memory, ctx.memorySize.toNat, ctx.fdMap, none⟩

/-- `yos_g_u32`. -/
def g32 (ctx : MsgCtx) (off : UInt32) : UInt32 := UInt32.ofNat (ctx.memory.read32 off.toNat)

/-- `posix_wptr_range`. -/
def range (ctx : MsgCtx) (off : UInt32) (len : ℕ) : Bool := wptrRange ctx.fd off.toNat len

/-- The bytes of a range of the memory. -/
def bytes (ctx : MsgCtx) (off : UInt32) (len : ℕ) : List UInt8 :=
  (List.range len).map fun i => ctx.memory (off.toNat + i)

end MsgCtx

/-- `YOS_MSG_MAX_IOV`, which is the host's `IOV_MAX`. -/
def msgMaxIov : UInt32 := 1024

/-- `YOS_MSG_MAX_FDS`. -/
def msgMaxFds : ℕ := 64

/-- `CMSG_SPACE` of the host. -/
def cmsgSpace (n : ℕ) : ℕ := (n + 7) / 8 * 8 + 16

/-- `YOS_MSG_CTRL_BUF`. -/
def msgCtrlBuf : ℕ := cmsgSpace (msgMaxFds * 4)

/-- `yos_fbsd_cmsg_align`. -/
def fbsdCmsgAlign (n : UInt32) : UInt32 := (n + 3) &&& ~~~3

/-- `yos_msg_build_iov`: the address and the length of each vector. -/
def yosMsgBuildIov (ctx : MsgCtx) (iovOff iovLen : UInt32) : Option (List (UInt32 × UInt32)) :=
  if msgMaxIov < iovLen then none
  else
    (List.range iovLen.toNat).mapM fun i =>
      let entry := iovOff + UInt32.ofNat i * 8
      if !ctx.range entry 8 then none
      else
        let base := ctx.g32 entry
        let len := ctx.g32 (entry + 4)
        if len ≠ 0 ∧ !ctx.range base len.toNat then none
        else some (if len = 0 then 0 else base, len)

/-! ## The control walk -/

/-- The variables of the walk, the ranges of the guest's memory it has read and of its own buffer it
has written, and the descriptors of the records built. -/
structure CtrlWalk where
  pos : UInt32
  hpos : ℕ
  reads : List Span
  writes : List Span
  rights : List (List ℤ)

/-- The walk before its first test. -/
def CtrlWalk.start : CtrlWalk := ⟨0, 0, [], [], []⟩

/-- The body for a record with `SCM_RIGHTS`. -/
def CtrlWalk.copyRights (ctx : MsgCtx) (ctrlOff cmsgLen : UInt32) (w : CtrlWalk) : CtrlWalk :=
  let nfds := min ((cmsgLen - 12) / 4).toNat msgMaxFds
  let fd i := ctrlOff + w.pos + 12 + UInt32.ofNat i * 4
  { w with
    hpos := w.hpos + cmsgSpace (nfds * 4)
    reads := w.reads ++ (List.range nfds).map fun i => ⟨(fd i).toNat, 4⟩
    writes := w.writes ++ [⟨w.hpos + 8, 4⟩, ⟨w.hpos + 12, 4⟩, ⟨w.hpos, 8⟩] ++
      (List.range nfds).map fun i => ⟨w.hpos + 16 + i * 4, 4⟩
    rights := w.rights ++
      [(List.range nfds).map fun i => (yosFdGet ctx.fd (ctx.g32 (fd i)).toInt32.toInt).value] }

/-- One test of the loop condition and one pass through the body; `false` when the loop is left. -/
def ctrlPass (ctx : MsgCtx) (ctrlOff ctrlLen : UInt32) (w : CtrlWalk) : CtrlWalk × Bool :=
  if ¬ w.pos + 12 ≤ ctrlLen then (w, false)
  else
    let cmsgLen := ctx.g32 (ctrlOff + w.pos)
    let cmsgLevel := ctx.g32 (ctrlOff + w.pos + 4)
    let cmsgType := ctx.g32 (ctrlOff + w.pos + 8)
    let w := { w with
      reads := w.reads ++ [⟨(ctrlOff + w.pos).toNat, 4⟩, ⟨(ctrlOff + w.pos + 4).toNat, 4⟩,
        ⟨(ctrlOff + w.pos + 8).toNat, 4⟩] }
    if cmsgLen < 12 ∨ ctrlLen < w.pos + cmsgLen then (w, false)
    else
      let w := if cmsgLevel = 0xffff ∧ cmsgType = 1 then w.copyRights ctx ctrlOff cmsgLen else w
      ({ w with pos := w.pos + fbsdCmsgAlign cmsgLen }, true)

/-- The walk after at most `n` passes, and whether it goes on. -/
def ctrlRun (ctx : MsgCtx) (ctrlOff ctrlLen : UInt32) : ℕ → CtrlWalk × Bool
  | 0 => (.start, true)
  | n + 1 =>
    let (w, going) := ctrlRun ctx ctrlOff ctrlLen n
    if going then ctrlPass ctx ctrlOff ctrlLen w else (w, false)

/-! ## `yos_sendmsg` -/

/-- What `yos_sendmsg` knows before the walk: the host descriptor, the vectors, the address, and the
control buffer, if there is one to walk through. -/
structure SendHead where
  hfd : ℤ
  iov : List (UInt32 × UInt32)
  name : Option (List UInt8)
  control : Option (UInt32 × UInt32)
deriving DecidableEq

/-- `yos_sendmsg` up to the walk. -/
def sendHead (ctx : MsgCtx) (fd : ℤ) (msgOff : UInt32) : Except Ret SendHead := do
  let hfd := yosFdGet ctx.fd fd
  if hfd.value < 0 then throw hfd
  if !ctx.range msgOff 28 then throw (yosErrnoNeg .EFAULT)
  let nameOff := ctx.g32 msgOff
  let nameLen := ctx.g32 (msgOff + 4)
  let iovOff := ctx.g32 (msgOff + 8)
  let iovLen := ctx.g32 (msgOff + 12)
  let ctrlOff := ctx.g32 (msgOff + 16)
  let ctrlLen := ctx.g32 (msgOff + 20)
  let some iov := yosMsgBuildIov ctx iovOff iovLen | throw (yosErrnoNeg .EINVAL)
  if nameOff ≠ 0 ∧ nameLen ≠ 0 ∧ nameLen ≤ 256 ∧ !ctx.range nameOff nameLen.toNat then
    throw (yosErrnoNeg .EFAULT)
  let name :=
    if nameOff ≠ 0 ∧ nameLen ≠ 0 then yosSendmsgName (ctx.bytes nameOff nameLen.toNat) else none
  if ctrlOff ≠ 0 ∧ 12 ≤ ctrlLen then
    if !ctx.range ctrlOff ctrlLen.toNat then throw (yosErrnoNeg .EFAULT)
    return ⟨hfd.value, iov, name, some (ctrlOff, ctrlLen)⟩
  return ⟨hfd.value, iov, name, none⟩

/-- The message handed to the host's `sendmsg`. -/
structure HostMsg where
  hfd : ℤ
  iov : List (UInt32 × UInt32)
  name : Option (List UInt8)
  /-- The descriptors of the `SCM_RIGHTS` records. -/
  control : List (List ℤ)

/-- `yos_sendmsg` up to the host call; `none` while the walk goes on after `n` passes. -/
def yosSendmsg (n : ℕ) (ctx : MsgCtx) (fd : ℤ) (msgOff : UInt32) : Option (Except Ret HostMsg) :=
  match sendHead ctx fd msgOff with
  | .error r => some (.error r)
  | .ok head =>
    match head.control with
    | none => some (.ok ⟨head.hfd, head.iov, head.name, []⟩)
    | some (ctrlOff, ctrlLen) =>
      let (w, going) := ctrlRun ctx ctrlOff ctrlLen n
      if going then none else some (.ok ⟨head.hfd, head.iov, head.name, w.rights⟩)

/-! ## What the walk should keep -/

/-- A read lies inside the control buffer of the guest. -/
def InCtrl (ctrlOff ctrlLen : UInt32) (s : Span) : Prop :=
  ctrlOff.toNat ≤ s.addr ∧ s.fin ≤ ctrlOff.toNat + ctrlLen.toNat

/-- The walk ends, reads only the control buffer of the guest, and writes only its own buffer. -/
structure WalkBounded (ctx : MsgCtx) (ctrlOff ctrlLen : UInt32) : Prop where
  ends : ∃ n, (ctrlRun ctx ctrlOff ctrlLen n).2 = false
  reads : ∀ n, ∀ s ∈ (ctrlRun ctx ctrlOff ctrlLen n).1.reads, InCtrl ctrlOff ctrlLen s
  writes : ∀ n, ∀ s ∈ (ctrlRun ctx ctrlOff ctrlLen n).1.writes, s.fin ≤ msgCtrlBuf

/-- The walk of every call that comes to it is bounded. -/
def SendmsgBounded (ctx : MsgCtx) (fd : ℤ) (msgOff : UInt32) : Prop :=
  ∀ head ctrlOff ctrlLen, sendHead ctx fd msgOff = .ok head →
    head.control = some (ctrlOff, ctrlLen) → WalkBounded ctx ctrlOff ctrlLen

/-! ## The records of a control buffer -/

section Records

variable (ctx : MsgCtx) (ctrlOff ctrlLen : UInt32)

/-- `cmsg_len` of the record at `pos`. -/
def recordLen (pos : UInt32) : UInt32 := ctx.g32 (ctrlOff + pos)

/-- The record at `pos` is one of `SCM_RIGHTS`. -/
def isRights (pos : UInt32) : Bool :=
  ctx.g32 (ctrlOff + pos + 4) = 0xffff ∧ ctx.g32 (ctrlOff + pos + 8) = 1

/-- The number of its descriptors, up to `YOS_MSG_MAX_FDS`. -/
def fdCount (pos : UInt32) : ℕ := min ((recordLen ctx ctrlOff pos - 12) / 4).toNat msgMaxFds

/-- The position after the record at `pos`, if there is a record: its header fits, and its length is
at least that of the header and at most what is left, both computed in 32 bits. -/
def nextRecord (pos : UInt32) : Option UInt32 :=
  if pos + 12 ≤ ctrlLen ∧ 12 ≤ recordLen ctx ctrlOff pos ∧ pos + recordLen ctx ctrlOff pos ≤ ctrlLen then
    some (pos + fbsdCmsgAlign (recordLen ctx ctrlOff pos))
  else none

/-- The position reached after `n` records. -/
def recordPos (n : ℕ) : Option UInt32 := Orbit.after (nextRecord ctx ctrlOff ctrlLen) 0 n

/-- The room the record at `pos` takes in the buffer of the host. -/
def recordSpace (pos : UInt32) : ℕ :=
  if (nextRecord ctx ctrlOff ctrlLen pos).isSome ∧ isRights ctx ctrlOff pos then
    cmsgSpace (fdCount ctx ctrlOff pos * 4)
  else 0

/-- The room the first `n` records take. -/
def spaceBefore : ℕ → ℕ
  | 0 => 0
  | n + 1 => spaceBefore n + ((recordPos ctx ctrlOff ctrlLen n).map (recordSpace ctx ctrlOff ctrlLen)).getD 0

/-- The walk comes to no position twice; where it reads a header, the header lies inside the buffer,
and so do the descriptors it copies; and the copies fit into the buffer of the host. -/
structure CtrlOk : Prop where
  once : Orbit.NoRepeat (nextRecord ctx ctrlOff ctrlLen) 0
  header : ∀ n pos, recordPos ctx ctrlOff ctrlLen n = some pos → pos + 12 ≤ ctrlLen →
    pos.toNat + 12 ≤ ctrlLen.toNat
  fds : ∀ n pos, recordPos ctx ctrlOff ctrlLen n = some pos →
    (nextRecord ctx ctrlOff ctrlLen pos).isSome → isRights ctx ctrlOff pos →
    pos.toNat + 12 + fdCount ctx ctrlOff pos * 4 ≤ ctrlLen.toNat
  room : ∀ n, spaceBefore ctx ctrlOff ctrlLen n ≤ msgCtrlBuf

/-- What one pass at `pos` reads. -/
def passReads (pos : UInt32) : List Span :=
  if pos + 12 ≤ ctrlLen then
    [⟨(ctrlOff + pos).toNat, 4⟩, ⟨(ctrlOff + pos + 4).toNat, 4⟩, ⟨(ctrlOff + pos + 8).toNat, 4⟩] ++
      if (nextRecord ctx ctrlOff ctrlLen pos).isSome ∧ isRights ctx ctrlOff pos then
        (List.range (fdCount ctx ctrlOff pos)).map fun i =>
          ⟨(ctrlOff + pos + 12 + UInt32.ofNat i * 4).toNat, 4⟩
      else []
  else []

/-- What it writes when the buffer of the host is filled up to `hpos`. -/
def passWrites (pos : UInt32) (hpos : ℕ) : List Span :=
  if (nextRecord ctx ctrlOff ctrlLen pos).isSome ∧ isRights ctx ctrlOff pos then
    [⟨hpos + 8, 4⟩, ⟨hpos + 12, 4⟩, ⟨hpos, 8⟩] ++
      (List.range (fdCount ctx ctrlOff pos)).map fun i => ⟨hpos + 16 + i * 4, 4⟩
  else []

/-- The record it builds. -/
def passRights (pos : UInt32) : List (List ℤ) :=
  if (nextRecord ctx ctrlOff ctrlLen pos).isSome ∧ isRights ctx ctrlOff pos then
    [(List.range (fdCount ctx ctrlOff pos)).map fun i =>
      (yosFdGet ctx.fd (ctx.g32 (ctrlOff + pos + 12 + UInt32.ofNat i * 4)).toInt32.toInt).value]
  else []

end Records

/-! ## One pass and whole walks -/

section Walk

variable {ctx : MsgCtx} {ctrlOff ctrlLen pos : UInt32} {w : CtrlWalk} {n : ℕ}

/-- What one pass does. -/
theorem ctrlPass_spec (ctx : MsgCtx) (ctrlOff ctrlLen : UInt32) (w : CtrlWalk) :
    let next := nextRecord ctx ctrlOff ctrlLen w.pos
    let r := ctrlPass ctx ctrlOff ctrlLen w
    r.2 = next.isSome ∧ (∀ pos, next = some pos → r.1.pos = pos) ∧
      r.1.hpos = w.hpos + recordSpace ctx ctrlOff ctrlLen w.pos ∧
      r.1.reads = w.reads ++ passReads ctx ctrlOff ctrlLen w.pos ∧
      r.1.writes = w.writes ++ passWrites ctx ctrlOff ctrlLen w.pos w.hpos ∧
      r.1.rights = w.rights ++ passRights ctx ctrlOff ctrlLen w.pos := by
  unfold ctrlPass recordSpace passReads passWrites passRights nextRecord isRights fdCount recordLen
  by_cases fits : w.pos + 12 ≤ ctrlLen
  · rw [if_neg (not_not.mpr fits), if_pos fits]
    by_cases good : 12 ≤ ctx.g32 (ctrlOff + w.pos) ∧ w.pos + ctx.g32 (ctrlOff + w.pos) ≤ ctrlLen
    · have keeps : ¬ (ctx.g32 (ctrlOff + w.pos) < 12 ∨ ctrlLen < w.pos + ctx.g32 (ctrlOff + w.pos)) := by
        rintro (short | long)
        · exact UInt32.not_le.mpr short good.1
        · exact UInt32.not_le.mpr long good.2
      rw [if_pos ⟨fits, good⟩]
      dsimp only
      rw [if_neg keeps]
      by_cases rights :
          ctx.g32 (ctrlOff + w.pos + 4) = 0xffff ∧ ctx.g32 (ctrlOff + w.pos + 8) = 1
      · simp [rights, CtrlWalk.copyRights, List.append_assoc]
      · simp [rights]
    · have leaves : ctx.g32 (ctrlOff + w.pos) < 12 ∨ ctrlLen < w.pos + ctx.g32 (ctrlOff + w.pos) := by
        by_contra stays
        rw [not_or, UInt32.not_lt, UInt32.not_lt] at stays
        exact good stays
      rw [if_neg fun all => good all.2]
      dsimp only
      rw [if_pos leaves]
      simp
  · rw [if_pos fits, if_neg fits, if_neg fun all => fits all.1]
    simp

theorem ctrlRun_succ (n : ℕ) : ctrlRun ctx ctrlOff ctrlLen (n + 1) =
    if (ctrlRun ctx ctrlOff ctrlLen n).2 then ctrlPass ctx ctrlOff ctrlLen (ctrlRun ctx ctrlOff ctrlLen n).1
    else ((ctrlRun ctx ctrlOff ctrlLen n).1, false) := rfl

/-- Whether the walk goes on after `n` passes, and where it is then. -/
theorem ctrlRun_pos (ctx : MsgCtx) (ctrlOff ctrlLen : UInt32) (n : ℕ) :
    (ctrlRun ctx ctrlOff ctrlLen n).2 = (recordPos ctx ctrlOff ctrlLen n).isSome ∧
      ∀ pos, recordPos ctx ctrlOff ctrlLen n = some pos → (ctrlRun ctx ctrlOff ctrlLen n).1.pos = pos := by
  induction n with
  | zero => exact ⟨rfl, fun pos h => Option.some.inj h⟩
  | succ n ih =>
    obtain ⟨going, place⟩ := ih
    have step : recordPos ctx ctrlOff ctrlLen (n + 1) =
        (recordPos ctx ctrlOff ctrlLen n).bind (nextRecord ctx ctrlOff ctrlLen) := rfl
    rw [step, ctrlRun_succ, going]
    cases here : recordPos ctx ctrlOff ctrlLen n with
    | none => exact ⟨rfl, fun pos h => nomatch h⟩
    | some pos =>
      have pass := ctrlPass_spec ctx ctrlOff ctrlLen (ctrlRun ctx ctrlOff ctrlLen n).1
      rw [place pos here] at pass
      exact ⟨pass.1, pass.2.1⟩

theorem ctrlRun_hpos (n : ℕ) :
    (ctrlRun ctx ctrlOff ctrlLen n).1.hpos = spaceBefore ctx ctrlOff ctrlLen n := by
  induction n with
  | zero => rfl
  | succ n ih =>
    obtain ⟨going, place⟩ := ctrlRun_pos ctx ctrlOff ctrlLen n
    rw [spaceBefore, ctrlRun_succ, going]
    cases here : recordPos ctx ctrlOff ctrlLen n with
    | none => exact ih
    | some pos =>
      have pass := ctrlPass_spec ctx ctrlOff ctrlLen (ctrlRun ctx ctrlOff ctrlLen n).1
      rw [place pos here, ih] at pass
      exact pass.2.2.1

/-- The accesses of a walk are those of its passes. -/
theorem mem_ctrlRun_reads {s : Span} : s ∈ (ctrlRun ctx ctrlOff ctrlLen n).1.reads ↔
    ∃ i < n, ∃ pos, recordPos ctx ctrlOff ctrlLen i = some pos ∧
      s ∈ passReads ctx ctrlOff ctrlLen pos := by
  induction n with
  | zero => exact iff_of_false (fun h => nomatch h) fun ⟨i, lt, _⟩ => absurd lt (Nat.not_lt_zero i)
  | succ n ih =>
    simp only [Nat.lt_succ_iff_lt_or_eq, or_and_right, exists_or, exists_eq_left]
    rw [← ih]
    obtain ⟨going, place⟩ := ctrlRun_pos ctx ctrlOff ctrlLen n
    rw [ctrlRun_succ, going]
    cases here : recordPos ctx ctrlOff ctrlLen n with
    | none => simp
    | some pos =>
      have pass := ctrlPass_spec ctx ctrlOff ctrlLen (ctrlRun ctx ctrlOff ctrlLen n).1
      rw [place pos here] at pass
      simp [pass.2.2.2.1]

theorem mem_ctrlRun_writes {s : Span} : s ∈ (ctrlRun ctx ctrlOff ctrlLen n).1.writes ↔
    ∃ i < n, ∃ pos, recordPos ctx ctrlOff ctrlLen i = some pos ∧
      s ∈ passWrites ctx ctrlOff ctrlLen pos (spaceBefore ctx ctrlOff ctrlLen i) := by
  induction n with
  | zero => exact iff_of_false (fun h => nomatch h) fun ⟨i, lt, _⟩ => absurd lt (Nat.not_lt_zero i)
  | succ n ih =>
    simp only [Nat.lt_succ_iff_lt_or_eq, or_and_right, exists_or, exists_eq_left]
    rw [← ih]
    obtain ⟨going, place⟩ := ctrlRun_pos ctx ctrlOff ctrlLen n
    rw [ctrlRun_succ, going]
    cases here : recordPos ctx ctrlOff ctrlLen n with
    | none => simp
    | some pos =>
      have pass := ctrlPass_spec ctx ctrlOff ctrlLen (ctrlRun ctx ctrlOff ctrlLen n).1
      rw [place pos here, ctrlRun_hpos] at pass
      simp [pass.2.2.2.2.1]

/-- The records built by a walk. -/
theorem ctrlRun_rights (n : ℕ) : (ctrlRun ctx ctrlOff ctrlLen n).1.rights =
    (List.range n).flatMap fun i =>
      (recordPos ctx ctrlOff ctrlLen i).elim [] (passRights ctx ctrlOff ctrlLen) := by
  induction n with
  | zero => rfl
  | succ n ih =>
    rw [List.range_succ, List.flatMap_append, ← ih]
    obtain ⟨going, place⟩ := ctrlRun_pos ctx ctrlOff ctrlLen n
    rw [ctrlRun_succ, going]
    cases here : recordPos ctx ctrlOff ctrlLen n with
    | none => simp [here]
    | some pos =>
      have pass := ctrlPass_spec ctx ctrlOff ctrlLen (ctrlRun ctx ctrlOff ctrlLen n).1
      rw [place pos here] at pass
      simp [pass.2.2.2.2.2, here]

/-- The walk ends exactly when it comes to no position twice. -/
theorem walk_ends_iff : (∃ n, (ctrlRun ctx ctrlOff ctrlLen n).2 = false) ↔
    Orbit.NoRepeat (nextRecord ctx ctrlOff ctrlLen) 0 := by
  have finite : Finite UInt32 := Finite.of_injective UInt32.toFin fun _ _ same => UInt32.toFin_inj.mp same
  rw [← Orbit.ends_iff]
  apply exists_congr
  intro n
  rw [(ctrlRun_pos _ _ _ n).1, Option.isSome_eq_false_iff, Option.isNone_iff_eq_none]
  rfl

/-- A word of the control buffer lies inside it. -/
theorem inCtrl_iff {d : ℕ} (memory : ctrlOff.toNat + ctrlLen.toNat < 2 ^ 32)
    (small : pos.toNat + d < 2 ^ 32) :
    InCtrl ctrlOff ctrlLen ⟨(ctrlOff.toNat + pos.toNat + d) % 2 ^ 32, 4⟩ ↔
      pos.toNat + d + 4 ≤ ctrlLen.toNat := by
  simp only [InCtrl, Span.fin]
  omega

theorem fdCount_le (pos : UInt32) : fdCount ctx ctrlOff pos ≤ 64 := Nat.min_le_right _ _

theorem nextRecord_fits (record : (nextRecord ctx ctrlOff ctrlLen pos).isSome) : pos + 12 ≤ ctrlLen := by
  by_contra short
  rw [nextRecord, if_neg fun all => short all.1] at record
  cases record

/-- The three words of a header lie inside the buffer when the header does. -/
theorem header_inCtrl_iff (pos : UInt32) (memory : ctrlOff.toNat + ctrlLen.toNat < 2 ^ 32) :
    InCtrl ctrlOff ctrlLen ⟨(ctrlOff + pos).toNat, 4⟩ ∧
        InCtrl ctrlOff ctrlLen ⟨(ctrlOff + pos + 4).toNat, 4⟩ ∧
        InCtrl ctrlOff ctrlLen ⟨(ctrlOff + pos + 8).toNat, 4⟩ ↔
      pos.toNat + 12 ≤ ctrlLen.toNat := by
  have place := pos.toNat_lt
  have first : (ctrlOff + pos).toNat = (ctrlOff.toNat + pos.toNat + 0) % 2 ^ 32 := UInt32.toNat_add _ _
  have second : (ctrlOff + pos + 4).toNat = (ctrlOff.toNat + pos.toNat + 4) % 2 ^ 32 := by
    simp only [UInt32.toNat_add, UInt32.reduceToNat]
    omega
  have third : (ctrlOff + pos + 8).toNat = (ctrlOff.toNat + pos.toNat + 8) % 2 ^ 32 := by
    simp only [UInt32.toNat_add, UInt32.reduceToNat]
    omega
  rw [first, second, third]
  constructor
  · rintro ⟨one, two, three⟩
    have one := (inCtrl_iff memory (by omega)).mp one
    have two := (inCtrl_iff memory (by omega)).mp two
    have three := (inCtrl_iff memory (by omega)).mp three
    exact three
  · intro inside
    exact ⟨(inCtrl_iff memory (by omega)).mpr (by omega), (inCtrl_iff memory (by omega)).mpr (by omega),
      (inCtrl_iff memory (by omega)).mpr (by omega)⟩

/-- The descriptors after a header inside the buffer lie inside when the last one does. -/
theorem fds_inCtrl_iff {k : ℕ} (memory : ctrlOff.toNat + ctrlLen.toNat < 2 ^ 32) (few : k ≤ 64)
    (header : pos.toNat + 12 ≤ ctrlLen.toNat) :
    (∀ i < k, InCtrl ctrlOff ctrlLen ⟨(ctrlOff + pos + 12 + UInt32.ofNat i * 4).toNat, 4⟩) ↔
      pos.toNat + 12 + k * 4 ≤ ctrlLen.toNat := by
  have place := pos.toNat_lt
  have word (i : ℕ) : (ctrlOff + pos + 12 + UInt32.ofNat i * 4).toNat =
      (ctrlOff.toNat + pos.toNat + (12 + i * 4)) % 2 ^ 32 := by
    simp only [UInt32.toNat_add, UInt32.toNat_mul, UInt32.toNat_ofNat', UInt32.reduceToNat]
    omega
  simp only [word]
  constructor
  · -- each descriptor shows that the next one does not wrap
    intro all
    induction k with
    | zero => omega
    | succ k ih =>
      have before := ih (by omega) fun i lt => all i (by omega)
      have here := (inCtrl_iff memory (by omega)).mp (all k (by omega))
      omega
  · intro inside i lt
    exact (inCtrl_iff memory (by omega)).mpr (by omega)

/-- The reads of a pass stay inside when the header and the descriptors do. -/
theorem passReads_iff (memory : ctrlOff.toNat + ctrlLen.toNat < 2 ^ 32) :
    (∀ s ∈ passReads ctx ctrlOff ctrlLen pos, InCtrl ctrlOff ctrlLen s) ↔
      (pos + 12 ≤ ctrlLen → pos.toNat + 12 ≤ ctrlLen.toNat) ∧
      ((nextRecord ctx ctrlOff ctrlLen pos).isSome → isRights ctx ctrlOff pos →
        pos.toNat + 12 + fdCount ctx ctrlOff pos * 4 ≤ ctrlLen.toNat) := by
  by_cases fits : pos + 12 ≤ ctrlLen
  · have header := header_inCtrl_iff pos memory
    rw [passReads, if_pos fits]
    by_cases rights : (nextRecord ctx ctrlOff ctrlLen pos).isSome ∧ isRights ctx ctrlOff pos
    · rw [if_pos rights]
      simp only [List.forall_mem_append, List.forall_mem_cons, List.forall_mem_map, List.mem_range,
        List.not_mem_nil, false_imp_iff, implies_true, and_true, header, fits, true_imp_iff, rights.1,
        rights.2]
      exact and_congr_right fun inside => fds_inCtrl_iff memory (fdCount_le pos) inside
    · have none : (nextRecord ctx ctrlOff ctrlLen pos).isSome → isRights ctx ctrlOff pos →
          pos.toNat + 12 + fdCount ctx ctrlOff pos * 4 ≤ ctrlLen.toNat :=
        fun record isRight => absurd ⟨record, isRight⟩ rights
      rw [if_neg rights]
      simp only [List.append_nil, List.forall_mem_cons, List.not_mem_nil, false_imp_iff, implies_true,
        and_true, header, fits, true_imp_iff]
      exact (and_iff_left none).symm
  · rw [passReads, if_neg fits]
    refine iff_of_true (fun s h => nomatch h) ⟨fun h => absurd h fits, fun record _ => ?_⟩
    exact absurd (nextRecord_fits record) fits

/-- The room taken is a multiple of eight. -/
theorem eight_dvd_spaceBefore (n : ℕ) : 8 ∣ spaceBefore ctx ctrlOff ctrlLen n := by
  induction n with
  | zero => exact Nat.dvd_zero 8
  | succ n ih =>
    apply Nat.dvd_add ih
    cases recordPos ctx ctrlOff ctrlLen n with
    | none => exact Nat.dvd_zero 8
    | some pos =>
      simp only [Option.map_some, Option.getD_some, recordSpace, cmsgSpace]
      split <;> omega

/-- The writes of a pass stay inside when the record fits. -/
theorem passWrites_iff {hpos : ℕ} (aligned : 8 ∣ hpos) (before : hpos ≤ msgCtrlBuf) :
    (∀ s ∈ passWrites ctx ctrlOff ctrlLen pos hpos, s.fin ≤ msgCtrlBuf) ↔
      hpos + recordSpace ctx ctrlOff ctrlLen pos ≤ msgCtrlBuf := by
  have size : msgCtrlBuf = 272 := rfl
  unfold passWrites recordSpace
  by_cases rights : (nextRecord ctx ctrlOff ctrlLen pos).isSome ∧ isRights ctx ctrlOff pos
  · simp only [if_pos rights, List.forall_mem_append, List.forall_mem_cons, List.forall_mem_map,
      List.mem_range, List.not_mem_nil, false_imp_iff, implies_true, and_true, Span.fin, cmsgSpace]
    constructor
    · rintro ⟨⟨-, header, -⟩, fds⟩
      rcases Nat.eq_zero_or_pos (fdCount ctx ctrlOff pos) with none | some
      · rw [none]
        omega
      · have last := fds (fdCount ctx ctrlOff pos - 1) (by omega)
        omega
    · intro fits
      exact ⟨⟨by omega, by omega, by omega⟩, fun i lt => by omega⟩
  · simp only [if_neg rights, List.not_mem_nil, false_imp_iff, implies_true, true_iff]
    exact before

/-- All copies fit exactly when every write of the walk stays inside. -/
theorem walk_writes_iff :
    (∀ n, ∀ s ∈ (ctrlRun ctx ctrlOff ctrlLen n).1.writes, s.fin ≤ msgCtrlBuf) ↔
      ∀ n, spaceBefore ctx ctrlOff ctrlLen n ≤ msgCtrlBuf := by
  constructor
  · intro inside n
    induction n with
    | zero => exact Nat.zero_le _
    | succ n ih =>
      rw [spaceBefore]
      cases here : recordPos ctx ctrlOff ctrlLen n with
      | none => exact ih
      | some pos =>
        apply (passWrites_iff (eight_dvd_spaceBefore n) ih).mp
        intro s written
        exact inside (n + 1) s (mem_ctrlRun_writes.mpr ⟨n, Nat.lt_succ_self n, pos, here, written⟩)
  · intro fits n s written
    obtain ⟨i, -, pos, here, written⟩ := mem_ctrlRun_writes.mp written
    have next := fits (i + 1)
    rw [spaceBefore, here] at next
    exact (passWrites_iff (eight_dvd_spaceBefore i) (fits i)).mpr next s written

/-- Every read of the walk stays inside exactly when the headers and descriptors it comes to do. -/
theorem walk_reads_iff (memory : ctrlOff.toNat + ctrlLen.toNat < 2 ^ 32) :
    (∀ n, ∀ s ∈ (ctrlRun ctx ctrlOff ctrlLen n).1.reads, InCtrl ctrlOff ctrlLen s) ↔
      ∀ n pos, recordPos ctx ctrlOff ctrlLen n = some pos →
        (pos + 12 ≤ ctrlLen → pos.toNat + 12 ≤ ctrlLen.toNat) ∧
        ((nextRecord ctx ctrlOff ctrlLen pos).isSome → isRights ctx ctrlOff pos →
          pos.toNat + 12 + fdCount ctx ctrlOff pos * 4 ≤ ctrlLen.toNat) := by
  constructor
  · intro inside n pos here
    apply (passReads_iff memory).mp
    intro s read
    exact inside (n + 1) s (mem_ctrlRun_reads.mpr ⟨n, Nat.lt_succ_self n, pos, here, read⟩)
  · intro all n s read
    obtain ⟨i, -, pos, here, read⟩ := mem_ctrlRun_reads.mp read
    exact (passReads_iff memory).mpr (all i pos here) s read

/-- The walk through a control buffer inside the memory is bounded exactly when its records are in
order. -/
theorem walkBounded_iff (memory : ctrlOff.toNat + ctrlLen.toNat < 2 ^ 32) :
    WalkBounded ctx ctrlOff ctrlLen ↔ CtrlOk ctx ctrlOff ctrlLen := by
  constructor
  · rintro ⟨ends, reads, writes⟩
    have inside := (walk_reads_iff memory).mp reads
    exact ⟨walk_ends_iff.mp ends, fun n pos here => (inside n pos here).1,
      fun n pos here => (inside n pos here).2, walk_writes_iff.mp writes⟩
  · rintro ⟨once, header, fds, room⟩
    exact ⟨walk_ends_iff.mpr once,
      (walk_reads_iff memory).mpr fun n pos here => ⟨header n pos here, fds n pos here⟩,
      walk_writes_iff.mpr room⟩

/-- The walk is only made through a buffer inside the memory. -/
theorem sendHead_control {fd : ℤ} {msgOff : UInt32} {head : SendHead}
    (ok : sendHead ctx fd msgOff = .ok head) (control : head.control = some (ctrlOff, ctrlLen)) :
    ctx.range ctrlOff ctrlLen.toNat = true := by
  unfold sendHead at ok
  dsimp only [bind, Except.bind, throw, throwThe, MonadExceptOf.throw, pure, Except.pure] at ok
  split at ok
  · cases ok
  split at ok
  · cases ok
  split at ok
  · split at ok
    · cases ok
    split at ok
    · split at ok
      · cases ok
      · next range =>
        cases ok
        cases control
        simpa using range
    · cases ok
      cases control
  · cases ok

theorem range_lt (inside : ctx.range ctrlOff ctrlLen.toNat = true) :
    ctrlOff.toNat + ctrlLen.toNat < 2 ^ 32 := by
  have size := ctx.memorySize.toNat_lt
  have off := ctrlOff.toNat_lt
  simp only [MsgCtx.range, MsgCtx.fd, wptrRange] at inside
  split at inside
  · omega
  · have all := of_decide_eq_true inside
    omega

end Walk

/-- The walk of `yos_sendmsg` ends and stays inside both buffers exactly when the records of the
control buffer are in order. -/
theorem sendmsg_bounded_iff (ctx : MsgCtx) (fd : ℤ) (msgOff : UInt32) :
    SendmsgBounded ctx fd msgOff ↔
      ∀ head ctrlOff ctrlLen, sendHead ctx fd msgOff = .ok head →
        head.control = some (ctrlOff, ctrlLen) → CtrlOk ctx ctrlOff ctrlLen := by
  refine forall_congr' fun head => forall_congr' fun ctrlOff => forall_congr' fun ctrlLen => ?_
  refine forall_congr' fun ok => forall_congr' fun control => ?_
  exact walkBounded_iff (range_lt (sendHead_control ok control))

/-- A message without data and address at 64 whose control buffer of `len` bytes at 256 has the words
`words`. -/
def ctrlExample (len : ℕ) (words : List ℕ) : MsgCtx where
  memory := fun a =>
    if a < 256 then Bytes.write32 (Bytes.write32 (fun _ => 0) 80 256) 84 len a
    else UInt8.ofNat (words.getD ((a - 256) / 4) 0 / 256 ^ ((a - 256) % 4))
  memorySize := 65536
  fdMap := fun i => if i = 3 then 7 else -1

/-- A second record with the length `0xffffffff` sends the walk back to itself; and eighteen records
without descriptors do not fit into the buffer of the host. -/
theorem sendmsg_walk_unbounded :
    ¬ SendmsgBounded (ctrlExample 24 [12, 0, 0, 0xffffffff, 0, 0]) 3 64 ∧
    ¬ SendmsgBounded (ctrlExample 216 ((List.replicate 18 [12, 0xffff, 1]).flatten)) 3 64 := by
  constructor
  · intro bounded
    obtain ⟨head, ok, control⟩ : ∃ head,
        sendHead (ctrlExample 24 [12, 0, 0, 0xffffffff, 0, 0]) 3 64 = .ok head ∧
          head.control = some (256, 24) :=
      ⟨⟨7, [], none, some (256, 24)⟩, by decide +kernel, rfl⟩
    have ok := (walkBounded_iff (range_lt (sendHead_control ok control))).mp (bounded head 256 24 ok control)
    exact ok.once 1 2 12 (by decide) (by decide +kernel) (by decide +kernel)
  · intro bounded
    obtain ⟨head, ok, control⟩ : ∃ head,
        sendHead (ctrlExample 216 ((List.replicate 18 [12, 0xffff, 1]).flatten)) 3 64 = .ok head ∧
          head.control = some (256, 216) :=
      ⟨⟨7, [], none, some (256, 216)⟩, by decide +kernel, rfl⟩
    have ok := (walkBounded_iff (range_lt (sendHead_control ok control))).mp (bounded head 256 216 ok control)
    have room := ok.room 18
    revert room
    decide +kernel

end Yos.Msg
