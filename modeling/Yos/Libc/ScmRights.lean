import Yos.Libc.SendMsg
import Mathlib.Algebra.BigOperators.Group.List.Basic
import Mathlib.Data.Finset.Card
import Mathlib.Data.List.Forall2

/-!
# Passing descriptors (`yos_sendmsg`, `yos_recvmsg`)

`yos_sendmsg` hands at most 64 descriptors of a record to the host and says nothing of the others.
`yos_recvmsg` gives the guest descriptors for those the host has delivered, if the record fits into
the control buffer of the guest, and forgets them otherwise; a descriptor for which there is no free
slot arrives as -1.  The flags of the host are passed on with the host's numbers.
`rights_kept_iff` says when all descriptors arrive, or the guest is told that they do not.

The host delivers the files in one record, with new numbers, and may deliver only the first ones; what
is needed of it is in `HostRecv`.
-/

namespace Yos.Msg

variable {φ : Type}

/-! ## The sender -/

/-- The words of a control buffer from `pos` on: records of `SCM_RIGHTS` up to `stop`. -/
def RecordsAt (ctx : MsgCtx) (ctrlOff : UInt32) : ℕ → List (List UInt32) → ℕ → Prop
  | pos, [], stop => pos = stop
  | pos, r :: rs, stop =>
    ctx.g32 (ctrlOff + UInt32.ofNat pos) = UInt32.ofNat (12 + r.length * 4) ∧
    ctx.g32 (ctrlOff + UInt32.ofNat pos + 4) = 0xffff ∧
    ctx.g32 (ctrlOff + UInt32.ofNat pos + 8) = 1 ∧
    (∀ i (lt : i < r.length),
      ctx.g32 (ctrlOff + UInt32.ofNat pos + 12 + UInt32.ofNat i * 4) = r.get ⟨i, lt⟩) ∧
    RecordsAt ctx ctrlOff (pos + 12 + r.length * 4) rs stop

/-- A call of `sendmsg` whose control buffer holds the records `records`. -/
structure RightsMsg where
  ctx : MsgCtx
  fd : ℤ
  msgOff : UInt32
  records : List (List UInt32)
  present : ctx.g32 (msgOff + 16) ≠ 0
  encoded : RecordsAt ctx (ctx.g32 (msgOff + 16)) 0 records (ctx.g32 (msgOff + 20)).toNat

namespace RightsMsg

/-- The control buffer. -/
def ctrlOff (s : RightsMsg) : UInt32 := s.ctx.g32 (s.msgOff + 16)

/-- Its length. -/
def ctrlLen (s : RightsMsg) : UInt32 := s.ctx.g32 (s.msgOff + 20)

/-- The descriptors the guest passes. -/
def guestFds (s : RightsMsg) : List UInt32 := s.records.flatten

/-- The walk of `yos_sendmsg` through the control buffer, if it comes to it, is in order. -/
def InOrder (s : RightsMsg) : Prop :=
  ∀ head ctrlOff ctrlLen, sendHead s.ctx s.fd s.msgOff = .ok head →
    head.control = some (ctrlOff, ctrlLen) → CtrlOk s.ctx ctrlOff ctrlLen

/-- What `yos_fd_get` makes of one of them. -/
def hostFdOf (s : RightsMsg) (g : UInt32) : ℤ := (yosFdGet s.ctx.fd g.toInt32.toInt).value

end RightsMsg

/-- The file behind a descriptor of the host. -/
def hostFile (files : ℕ → Option φ) (h : ℤ) : Option φ := if h < 0 then none else files h.toNat

/-- The host accepts the control data of a message: all descriptors are open, and the message carries
their files. -/
def HostSends (files : ℕ → Option φ) (control : List (List ℤ)) (sent : List φ) : Prop :=
  control.flatten.map (hostFile files) = sent.map some

/-! ## The receiver -/

/-- `MSG_CTRUNC` on a Linux host. -/
def hostMsgCtrunc : UInt32 := 0x8

/-- `MSG_CTRUNC` of the guest. -/
def guestMsgCtrunc : UInt32 := 0x20

/-- The answer of the host to a `recvmsg` for a message that carries the files `sent`: it opens the
first of them under new numbers, as many as fit into the control buffer, and sets `MSG_CTRUNC` when
these are not all. -/
structure HostRecv (sent : List φ) (wantCtrl : Bool) where
  fds : List ℕ
  flags : UInt32
  distinct : fds.Nodup
  carried : fds.length ≤ sent.length
  room : cmsgSpace (fds.length * 4) ≤ (if wantCtrl then msgCtrlBuf else 0) ∨ fds = []
  ctrunc : flags &&& hostMsgCtrunc ≠ 0 ↔ fds.length < sent.length

/-- The file behind a descriptor the host has delivered. -/
def HostRecv.file {sent : List φ} {wantCtrl : Bool} (d : HostRecv sent wantCtrl) (h : ℤ) : Option φ :=
  (d.fds.zip sent).lookup h.toNat

/-- What `yos_recvmsg` knows before the host call: the host descriptor, the vectors, and the control
buffer, if it asks the host for control data. -/
structure RecvHead where
  hfd : ℤ
  iov : List (UInt32 × UInt32)
  control : Option (UInt32 × UInt32)
deriving DecidableEq

/-- `yos_recvmsg` up to the host call. -/
def recvHead (ctx : MsgCtx) (fd : ℤ) (msgOff : UInt32) : Except Ret RecvHead := do
  let hfd := yosFdGet ctx.fd fd
  if hfd.value < 0 then throw hfd
  if !ctx.range msgOff 28 then throw (yosErrnoNeg .EFAULT)
  let iovOff := ctx.g32 (msgOff + 8)
  let iovLen := ctx.g32 (msgOff + 12)
  let ctrlOff := ctx.g32 (msgOff + 16)
  let ctrlLen := ctx.g32 (msgOff + 20)
  let some iov := yosMsgBuildIov ctx iovOff iovLen | throw (yosErrnoNeg .EINVAL)
  if ctrlOff ≠ 0 ∧ 12 ≤ ctrlLen then
    if !ctx.range ctrlOff ctrlLen.toNat then throw (yosErrnoNeg .EFAULT)
    return ⟨hfd.value, iov, some (ctrlOff, ctrlLen)⟩
  return ⟨hfd.value, iov, none⟩

/-- The descriptors stored for the guest, the table after it, and the host descriptors closed. -/
structure FdAllocs where
  fdMap : ℕ → ℤ
  wfds : List ℤ
  closes : List ℤ

/-- The loop over the descriptors of a record. -/
def allocFds (fdMap : ℕ → ℤ) : List ℕ → FdAllocs
  | [] => ⟨fdMap, [], []⟩
  | h :: hs =>
    let a := yosFdAlloc fdMap h
    let rest := allocFds a.fdMap hs
    if a.wfd < 0 then ⟨rest.fdMap, -1 :: rest.wfds, a.closes ++ (h : ℤ) :: rest.closes⟩
    else ⟨rest.fdMap, a.wfd :: rest.wfds, a.closes ++ rest.closes⟩

/-- What `yos_recvmsg` leaves: the table, the descriptors in the guest's control buffer, the host
descriptors closed, `msg_controllen` and `msg_flags`. -/
structure Received where
  fdMap : ℕ → ℤ
  wfds : List ℤ
  closes : List ℤ
  controllen : UInt32
  flags : UInt32

/-- `yos_recvmsg` after a host call that delivers `fds` in one record, or no record if there are
none. -/
def recvTail (ctx : MsgCtx) (control : Option (UInt32 × UInt32)) (fds : List ℕ) (flags : UInt32) :
    Received :=
  match control with
  | none => ⟨ctx.fdMap, [], [], 0, flags⟩
  | some (_, ctrlLen) =>
    if fds = [] then ⟨ctx.fdMap, [], [], 0, flags⟩
    else
      let need := 12 + UInt32.ofNat fds.length * 4
      if ctrlLen < 0 + need then ⟨ctx.fdMap, [], [], 0, flags⟩
      else
        let a := allocFds ctx.fdMap fds
        ⟨a.fdMap, a.wfds, a.closes, fbsdCmsgAlign need, flags⟩

/-! ## What should hold -/

/-- A message from one guest to another, with what the host does. -/
structure Transfer (φ : Type) where
  files : ℕ → Option φ
  sender : RightsMsg
  sent : List φ
  receiver : MsgCtx
  fd : ℤ
  msgOff : UInt32
  head : RecvHead
  answer : HostRecv sent head.control.isSome

namespace Transfer

variable (t : Transfer φ)

/-- What `yos_recvmsg` leaves. -/
def received : Received := recvTail t.receiver t.head.control t.answer.fds t.answer.flags

/-- The guest has a new descriptor `w` for the file behind the descriptor `g` of the sender. -/
def Arrives (w : ℤ) (g : UInt32) : Prop :=
  0 ≤ w ∧ t.receiver.fdMap w.toNat = -1 ∧ 0 ≤ t.received.fdMap w.toNat ∧
    (t.answer.file (t.received.fdMap w.toNat)).isSome ∧
    t.answer.file (t.received.fdMap w.toNat) = hostFile t.files (t.sender.hostFdOf g)

/-- The host sent the message and delivered it. -/
def Succeeds : Prop :=
  (∃ n msg, yosSendmsg n t.sender.ctx t.sender.fd t.sender.msgOff = some (.ok msg) ∧
    HostSends t.files msg.control t.sent) ∧
  recvHead t.receiver t.fd t.msgOff = .ok t.head

/-- The walk of the sender is defined; and when both calls succeed, all descriptors arrive in their
order, or the guest is told that they do not, and no descriptor of the host is lost. -/
def RightsKept : Prop :=
  SendmsgBounded t.sender.ctx t.sender.fd t.sender.msgOff ∧
  (t.Succeeds →
    (List.Forall₂ t.Arrives t.received.wfds t.sender.guestFds ∨ t.received.flags &&& guestMsgCtrunc ≠ 0) ∧
    ∀ h ∈ t.answer.fds, (∃ w, t.receiver.fdMap w = -1 ∧ t.received.fdMap w = h) ∨
      (h : ℤ) ∈ t.received.closes)

end Transfer

/-! ## What the sender passes on -/

section Sender

variable {ctx : MsgCtx} {ctrlOff ctrlLen : UInt32} {pos stop : ℕ} {r : List UInt32}
  {rs : List (List UInt32)}

theorem toNat_ofNat {n : ℕ} (small : n < 2 ^ 32) : (UInt32.ofNat n).toNat = n :=
  UInt32.toNat_ofNat_of_lt' small

theorem and_neg_four (x : ℕ) : x &&& 4294967292 = x / 4 % 2 ^ 30 * 4 := by
  have high : (x &&& 4294967292) / 2 ^ 2 = x / 4 % 2 ^ 30 := by
    rw [Nat.and_div_two_pow]
    exact Nat.and_two_pow_sub_one_eq_mod (x / 4) 30
  have low : (x &&& 4294967292) % 2 ^ 2 = 0 := by
    rw [Nat.and_mod_two_pow]
    exact Nat.and_zero _
  omega

theorem fbsdCmsgAlign_toNat {n : UInt32} (small : n.toNat + 3 < 2 ^ 32) :
    (fbsdCmsgAlign n).toNat = (n.toNat + 3) / 4 * 4 := by
  have mask : (~~~3 : UInt32).toNat = 4294967292 := rfl
  rw [fbsdCmsgAlign, UInt32.toNat_and, mask, and_neg_four, UInt32.toNat_add]
  simp only [UInt32.reduceToNat]
  omega

theorem RecordsAt.le (at' : RecordsAt ctx ctrlOff pos rs stop) : pos ≤ stop := by
  induction rs generalizing pos with
  | nil => exact Nat.le_of_eq at'
  | cons r rs ih =>
    have rest := ih at'.2.2.2.2
    omega

/-- What `yos_sendmsg` takes of a record. -/
def cappedFds (ctx : MsgCtx) (r : List UInt32) : List ℤ :=
  (r.take msgMaxFds).map fun g => (yosFdGet ctx.fd g.toInt32.toInt).value

/-- The walk finds a record and passes its first descriptors on. -/
theorem RecordsAt.pass (at' : RecordsAt ctx ctrlOff pos (r :: rs) ctrlLen.toNat) :
    nextRecord ctx ctrlOff ctrlLen (UInt32.ofNat pos) = some (UInt32.ofNat (pos + 12 + r.length * 4)) ∧
      passRights ctx ctrlOff ctrlLen (UInt32.ofNat pos) = [cappedFds ctx r] := by
  obtain ⟨len, level, type, words, rest⟩ := at'
  have fits := rest.le
  have small := ctrlLen.toNat_lt
  have lenNat : (UInt32.ofNat (12 + r.length * 4)).toNat = 12 + r.length * 4 :=
    toNat_ofNat (by omega)
  have posNat : (UInt32.ofNat pos).toNat = pos := toNat_ofNat (by omega)
  have count : fdCount ctx ctrlOff (UInt32.ofNat pos) = min r.length msgMaxFds := by
    rw [fdCount, recordLen, len]
    congr 1
    rw [UInt32.toNat_div, UInt32.toNat_sub_of_le _ _ (by
      rw [UInt32.le_iff_toNat_le, lenNat]
      exact Nat.le_add_right 12 _), lenNat]
    simp only [UInt32.reduceToNat]
    omega
  have next : nextRecord ctx ctrlOff ctrlLen (UInt32.ofNat pos) =
      some (UInt32.ofNat (pos + 12 + r.length * 4)) := by
    have header : UInt32.ofNat pos + 12 ≤ ctrlLen := by
      rw [UInt32.le_iff_toNat_le, UInt32.toNat_add, posNat]
      simp only [UInt32.reduceToNat]
      omega
    have whole : UInt32.ofNat pos + UInt32.ofNat (12 + r.length * 4) ≤ ctrlLen := by
      rw [UInt32.le_iff_toNat_le, UInt32.toNat_add, posNat, lenNat]
      omega
    have least : 12 ≤ UInt32.ofNat (12 + r.length * 4) := by
      rw [UInt32.le_iff_toNat_le, lenNat]
      exact Nat.le_add_right 12 _
    rw [nextRecord, recordLen, len, if_pos ⟨header, least, whole⟩]
    congr 1
    rw [← UInt32.toNat_inj, UInt32.toNat_add, fbsdCmsgAlign_toNat (by omega), posNat, lenNat,
      toNat_ofNat (by omega)]
    omega
  refine ⟨next, ?_⟩
  have rights : isRights ctx ctrlOff (UInt32.ofNat pos) = true := by
    rw [isRights, level, type]
    rfl
  rw [passRights, if_pos ⟨by rw [next]; rfl, rights⟩, count, cappedFds]
  congr 1
  apply List.ext_getElem
  · simp [Nat.min_comm]
  · intro i one two
    simp only [List.length_map, List.length_range] at one
    simp only [List.getElem_map, List.getElem_range, List.getElem_take]
    rw [words i (by omega)]
    rfl

/-- The walk comes to the end of the records. -/
theorem RecordsAt.after (at' : RecordsAt ctx ctrlOff pos rs ctrlLen.toNat) :
    Orbit.after (nextRecord ctx ctrlOff ctrlLen) (UInt32.ofNat pos) rs.length = some ctrlLen := by
  induction rs generalizing pos with
  | nil =>
    rw [show pos = ctrlLen.toNat from at']
    exact congrArg some (UInt32.ofNat_toNat)
  | cons r rs ih =>
    rw [List.length_cons, Nat.add_comm, Orbit.after_add]
    have first : Orbit.after (nextRecord ctx ctrlOff ctrlLen) (UInt32.ofNat pos) 1 =
        some (UInt32.ofNat (pos + 12 + r.length * 4)) := at'.pass.1
    rw [first]
    exact ih at'.2.2.2.2

/-- A walk that has ended has passed on all records. -/
theorem RecordsAt.rights {n : ℕ} (at' : RecordsAt ctx ctrlOff pos rs ctrlLen.toNat)
    (stops : nextRecord ctx ctrlOff ctrlLen ctrlLen = none)
    (ended : Orbit.after (nextRecord ctx ctrlOff ctrlLen) (UInt32.ofNat pos) n = none) :
    ((List.range n).flatMap fun i =>
      (Orbit.after (nextRecord ctx ctrlOff ctrlLen) (UInt32.ofNat pos) i).elim []
        (passRights ctx ctrlOff ctrlLen)) = rs.map (cappedFds ctx) := by
  induction rs generalizing pos n with
  | nil =>
    rw [show UInt32.ofNat pos = ctrlLen from (congrArg UInt32.ofNat at').trans UInt32.ofNat_toNat]
    have nothing : ∀ i, (Orbit.after (nextRecord ctx ctrlOff ctrlLen) ctrlLen i).elim []
        (passRights ctx ctrlOff ctrlLen) = [] := by
      intro i
      cases i with
      | zero => simp [Orbit.after, passRights, stops]
      | succ i =>
        have first : Orbit.after (nextRecord ctx ctrlOff ctrlLen) ctrlLen 1 = none := stops
        rw [Orbit.after_none_of_le first (Nat.le_add_left 1 i)]
        rfl
    simp only [nothing]
    exact List.flatMap_eq_nil_iff.mpr fun i _ => rfl
  | cons r rs ih =>
    obtain ⟨next, passed⟩ := at'.pass
    have later : ∀ i, Orbit.after (nextRecord ctx ctrlOff ctrlLen) (UInt32.ofNat pos) (i + 1) =
        Orbit.after (nextRecord ctx ctrlOff ctrlLen) (UInt32.ofNat (pos + 12 + r.length * 4)) i := by
      intro i
      have first : Orbit.after (nextRecord ctx ctrlOff ctrlLen) (UInt32.ofNat pos) 1 = some _ := next
      rw [Nat.add_comm, Orbit.after_add, first]
      rfl
    cases n with
    | zero => cases ended
    | succ n =>
      rw [later] at ended
      rw [List.range_succ_eq_map, List.flatMap_cons, List.flatMap_map]
      simp only [later]
      rw [ih at'.2.2.2.2 ended]
      exact congrArg (· ++ rs.map (cappedFds ctx)) passed

end Sender

/-- Which control buffer `yos_sendmsg` walks through. -/
theorem sendHead_control_eq {ctx : MsgCtx} {fd : ℤ} {msgOff : UInt32} {head : SendHead}
    (ok : sendHead ctx fd msgOff = .ok head) :
    head.control = if ctx.g32 (msgOff + 16) ≠ 0 ∧ 12 ≤ ctx.g32 (msgOff + 20) then
      some (ctx.g32 (msgOff + 16), ctx.g32 (msgOff + 20)) else none := by
  unfold sendHead at ok
  dsimp only [bind, Except.bind, throw, throwThe, MonadExceptOf.throw, pure, Except.pure] at ok
  split at ok
  · cases ok
  split at ok
  · cases ok
  split at ok
  · split at ok
    · cases ok
    split at ok
    · next present =>
      split at ok
      · cases ok
      · cases ok
        exact (if_pos present).symm
    · next absent =>
      cases ok
      exact (if_neg absent).symm
  · cases ok

/-- The message of a call with bounded walk carries the first descriptors of each record. -/
theorem RightsMsg.control {s : RightsMsg} {n : ℕ} {msg : HostMsg}
    (ok : s.InOrder)
    (sent : yosSendmsg n s.ctx s.fd s.msgOff = some (.ok msg)) :
    msg.control = s.records.map (cappedFds s.ctx) := by
  unfold yosSendmsg at sent
  cases headOf : sendHead s.ctx s.fd s.msgOff with
  | error r =>
    rw [headOf] at sent
    cases sent
  | ok head =>
    have control := sendHead_control_eq headOf
    rw [headOf] at sent
    by_cases long : 12 ≤ s.ctx.g32 (s.msgOff + 20)
    · rw [if_pos ⟨s.present, long⟩] at control
      have ctrl := ok head _ _ headOf control
      simp only [control] at sent
      have stops : nextRecord s.ctx (s.ctx.g32 (s.msgOff + 16)) (s.ctx.g32 (s.msgOff + 20))
          (s.ctx.g32 (s.msgOff + 20)) = none := by
        by_contra record
        have fits := nextRecord_fits (Option.isSome_iff_ne_none.mpr record)
        have inside := ctrl.header s.records.length _ s.encoded.after fits
        omega
      split at sent
      · cases sent
      · next ended =>
        rw [Bool.not_eq_true, (ctrlRun_pos _ _ _ n).1, Option.isSome_eq_false_iff,
          Option.isNone_iff_eq_none] at ended
        cases sent
        rw [ctrlRun_rights]
        exact s.encoded.rights stops ended
    · rw [if_neg fun both => long both.2] at control
      simp only [control] at sent
      cases sent
      -- a shorter buffer holds no record
      cases records : s.records with
      | nil => rfl
      | cons r rs =>
        have encoded := s.encoded
        rw [records] at encoded
        have fits := encoded.2.2.2.2.le
        rw [UInt32.le_iff_toNat_le] at long
        exact absurd (by simp only [UInt32.reduceToNat]; omega) long

/-! ## What the receiver stores -/

/-- The free slots of a table. -/
def freeSlots (fdMap : ℕ → ℤ) : Finset ℕ := (Finset.range fdMax).filter fun i => fdMap i = -1

theorem mem_freeSlots {fdMap : ℕ → ℤ} {i : ℕ} : i ∈ freeSlots fdMap ↔ i < fdMax ∧ fdMap i = -1 := by
  rw [freeSlots, Finset.mem_filter, Finset.mem_range]

theorem freeSlots_update {fdMap : ℕ → ℤ} {i : ℕ} {h : ℤ} (nonneg : 0 ≤ h) :
    freeSlots (Function.update fdMap i h) = (freeSlots fdMap).erase i := by
  ext j
  rw [Finset.mem_erase, mem_freeSlots, mem_freeSlots]
  by_cases same : j = i
  · subst same
    rw [Function.update_self]
    exact iff_of_false (fun both => by omega) fun both => both.1 rfl
  · rw [Function.update_of_ne same]
    exact (and_iff_right same).symm

/-- One descriptor of the host: it takes the first free slot, or is closed. -/
theorem allocFds_cons (fdMap : ℕ → ℤ) (h : ℕ) (hs : List ℕ) :
    (∃ i ∈ freeSlots fdMap, allocFds fdMap (h :: hs) =
      { allocFds (Function.update fdMap i h) hs with
        wfds := (i : ℤ) :: (allocFds (Function.update fdMap i h) hs).wfds }) ∨
    (freeSlots fdMap = ∅ ∧ allocFds fdMap (h :: hs) =
      { allocFds fdMap hs with
        wfds := -1 :: (allocFds fdMap hs).wfds
        closes := (h : ℤ) :: h :: (allocFds fdMap hs).closes }) := by
  cases found : firstFree fdMap with
  | some i =>
    refine .inl ⟨i, mem_freeSlots.mpr (firstFree_spec found), ?_⟩
    rw [allocFds, yosFdAlloc_of_free (Int.natCast_nonneg h) found]
    exact if_neg (Int.not_lt.mpr (Int.natCast_nonneg i))
  | none =>
    refine .inr ⟨?_, ?_⟩
    · apply Finset.eq_empty_of_forall_notMem
      intro i free
      have free := mem_freeSlots.mp free
      exact firstFree_eq_none.mp found i free.1 free.2
    · rw [allocFds, yosFdAlloc_of_full (Int.natCast_nonneg h) found]
      exact if_pos (show -emfile < 0 by decide)

/-- Entries in use stay as they are. -/
theorem allocFds_fdMap_of_ne {fdMap : ℕ → ℤ} {hs : List ℕ} {w : ℕ} (used : fdMap w ≠ -1) :
    (allocFds fdMap hs).fdMap w = fdMap w := by
  induction hs generalizing fdMap with
  | nil => rfl
  | cons h hs ih =>
    obtain ⟨i, free, eq⟩ | ⟨-, eq⟩ := allocFds_cons fdMap h hs
    · have other : w ≠ i := by
        rintro rfl
        exact used (mem_freeSlots.mp free).2
      have same : Function.update fdMap i (h : ℤ) w = fdMap w := Function.update_of_ne other _ _
      rw [eq]
      exact (ih (same.symm ▸ used)).trans same
    · rw [eq]
      exact ih used

/-- Each descriptor of the host has a slot that was free before, or the guest reads -1 and it is
closed. -/
theorem allocFds_forall₂ (fdMap : ℕ → ℤ) (hs : List ℕ) :
    List.Forall₂ (fun w (h : ℕ) =>
      (0 ≤ w ∧ fdMap w.toNat = -1 ∧ (allocFds fdMap hs).fdMap w.toNat = h) ∨
        (w = -1 ∧ (h : ℤ) ∈ (allocFds fdMap hs).closes)) (allocFds fdMap hs).wfds hs := by
  induction hs generalizing fdMap with
  | nil => exact .nil
  | cons h hs ih =>
    obtain ⟨i, free, eq⟩ | ⟨-, eq⟩ := allocFds_cons fdMap h hs
    · have here := (mem_freeSlots.mp free).2
      have set : Function.update fdMap i (h : ℤ) i = h := Function.update_self _ _ _
      rw [eq]
      refine .cons (.inl ⟨Int.natCast_nonneg i, here, ?_⟩) ((ih (Function.update fdMap i h)).imp ?_)
      · exact (allocFds_fdMap_of_ne (by rw [Int.toNat_natCast, set]; omega)).trans set
      · rintro w k (⟨nonneg, free, mapped⟩ | closed)
        · refine .inl ⟨nonneg, ?_, mapped⟩
          by_cases same : w.toNat = i
          · rw [same]
            exact here
          · rwa [Function.update_of_ne same] at free
        · exact .inr closed
    · rw [eq]
      refine .cons (.inr ⟨rfl, List.mem_cons_self⟩) ((ih fdMap).imp ?_)
      rintro w k (mapped | ⟨none, closed⟩)
      · exact .inl mapped
      · exact .inr ⟨none, List.mem_cons_of_mem _ (List.mem_cons_of_mem _ closed)⟩

theorem allocFds_of_mem (fdMap : ℕ → ℤ) {hs : List ℕ} {h : ℕ} (mem : h ∈ hs) :
    ∃ w : ℤ, (0 ≤ w ∧ fdMap w.toNat = -1 ∧ (allocFds fdMap hs).fdMap w.toNat = h) ∨
      (w = -1 ∧ (h : ℤ) ∈ (allocFds fdMap hs).closes) := by
  obtain ⟨same, each⟩ := List.forall₂_iff_get.mp (allocFds_forall₂ fdMap hs)
  obtain ⟨i, lt, rfl⟩ := List.mem_iff_getElem.mp mem
  exact ⟨_, each i (same ▸ lt) lt⟩

/-- All descriptors get a slot exactly when there are enough free ones. -/
theorem allocFds_wfds_nonneg_iff (fdMap : ℕ → ℤ) (hs : List ℕ) :
    (∀ w ∈ (allocFds fdMap hs).wfds, 0 ≤ w) ↔ hs.length ≤ (freeSlots fdMap).card := by
  induction hs generalizing fdMap with
  | nil => exact iff_of_true (fun w mem => nomatch mem) (Nat.zero_le _)
  | cons h hs ih =>
    obtain ⟨i, free, eq⟩ | ⟨full, eq⟩ := allocFds_cons fdMap h hs
    · have some := Finset.card_pos.mpr ⟨i, free⟩
      rw [eq, List.forall_mem_cons, ih, freeSlots_update (Int.natCast_nonneg h),
        Finset.card_erase_of_mem free, List.length_cons]
      constructor
      · rintro ⟨-, fits⟩
        omega
      · intro fits
        exact ⟨Int.natCast_nonneg i, by omega⟩
    · rw [eq, List.forall_mem_cons, full, Finset.card_empty, List.length_cons]
      exact iff_of_false (fun all => absurd all.1 (by decide)) (by omega)

/-- The host can tell the descriptors it has delivered apart. -/
theorem lookup_zip {hs : List ℕ} {fs : List φ} (distinct : hs.Nodup) {i : ℕ} (lt : i < hs.length)
    (lt' : i < fs.length) : (hs.zip fs).lookup (hs.get ⟨i, lt⟩) = some (fs.get ⟨i, lt'⟩) := by
  induction hs generalizing fs i with
  | nil => cases lt
  | cons h hs ih =>
    obtain ⟨fresh, distinct⟩ := List.nodup_cons.mp distinct
    cases fs with
    | nil => cases lt'
    | cons f fs =>
      cases i with
      | zero => simp
      | succ i =>
        have other : (hs.get ⟨i, Nat.lt_of_succ_lt_succ lt⟩ == h) = false := by
          rw [beq_eq_false_iff_ne]
          intro same
          exact fresh (same ▸ List.get_mem _ _)
        have rest := ih distinct (Nat.lt_of_succ_lt_succ lt) (Nat.lt_of_succ_lt_succ lt')
        simp only [List.zip_cons_cons, List.get_cons_succ, List.lookup_cons, other]
        exact rest

theorem flatten_take_sublist (k : ℕ) (rs : List (List UInt32)) :
    ((rs.map (List.take k)).flatten).Sublist rs.flatten := by
  induction rs with
  | nil => exact .slnil
  | cons r rs ih => exact (List.take_sublist k r).append ih

section Tail

variable {ctx : MsgCtx} {control : Option (UInt32 × UInt32)} {ctrlOff ctrlLen flags : UInt32}
  {fds : List ℕ}

theorem need_toNat (few : fds.length ≤ msgMaxFds) :
    (0 + (12 + UInt32.ofNat fds.length * 4)).toNat = 12 + fds.length * 4 := by
  have most : msgMaxFds = 64 := rfl
  simp only [UInt32.toNat_add, UInt32.toNat_mul, UInt32.reduceToNat, UInt32.toNat_ofNat']
  omega

/-- What `yos_recvmsg` leaves when it stores the record. -/
theorem recvTail_of_fits (wants : control = some (ctrlOff, ctrlLen)) (some : fds ≠ [])
    (few : fds.length ≤ msgMaxFds) (fits : 12 + fds.length * 4 ≤ ctrlLen.toNat) :
    recvTail ctx control fds flags =
      ⟨(allocFds ctx.fdMap fds).fdMap, (allocFds ctx.fdMap fds).wfds, (allocFds ctx.fdMap fds).closes,
        fbsdCmsgAlign (12 + UInt32.ofNat fds.length * 4), flags⟩ := by
  have stays : ¬ ctrlLen < 0 + (12 + UInt32.ofNat fds.length * 4) := by
    rw [UInt32.lt_iff_toNat_lt, need_toNat few]
    omega
  subst wants
  simp only [recvTail, if_neg some, if_neg stays]

/-- What it leaves when there is nothing to store or no room for it. -/
theorem recvTail_of_lost (few : fds.length ≤ msgMaxFds)
    (lost : fds = [] ∨ ∃ ctrlOff ctrlLen, control = some (ctrlOff, ctrlLen) ∧
      ctrlLen.toNat < 12 + fds.length * 4) :
    recvTail ctx control fds flags = ⟨ctx.fdMap, [], [], 0, flags⟩ := by
  unfold recvTail
  cases control with
  | none => rfl
  | some c =>
    by_cases none : fds = []
    · simp only [if_pos none]
    · obtain ⟨off, len, same, long⟩ := lost.resolve_left none
      cases same
      have breaks : len < 0 + (12 + UInt32.ofNat fds.length * 4) := by
        rw [UInt32.lt_iff_toNat_lt, need_toNat few]
        exact long
      simp only [if_neg none, if_pos breaks]

theorem recvTail_flags : (recvTail ctx control fds flags).flags = flags := by
  unfold recvTail
  cases control with
  | none => rfl
  | some c =>
    simp only
    split
    · rfl
    split <;> rfl

end Tail

namespace Transfer

variable {t : Transfer φ}

/-- The record fits into the control buffer of the guest. -/
def Fits (t : Transfer φ) : Prop :=
  ∀ ctrlOff ctrlLen, t.head.control = some (ctrlOff, ctrlLen) →
    12 + t.answer.fds.length * 4 ≤ ctrlLen.toNat

theorem fds_length_le : t.answer.fds.length ≤ msgMaxFds := by
  have size : msgCtrlBuf = 272 := rfl
  have most : msgMaxFds = 64 := rfl
  obtain room | none := t.answer.room
  · rw [cmsgSpace] at room
    split at room <;> omega
  · rw [none]
    exact Nat.zero_le _

theorem exists_control (some : t.answer.fds ≠ []) :
    ∃ ctrlOff ctrlLen, t.head.control = Option.some (ctrlOff, ctrlLen) := by
  have room := t.answer.room.resolve_right some
  by_cases wants : t.head.control.isSome = true
  · obtain ⟨c, control⟩ := Option.isSome_iff_exists.mp wants
    exact ⟨c.1, c.2, control⟩
  · rw [if_neg wants, cmsgSpace] at room
    omega

theorem received_of_fits (some : t.answer.fds ≠ []) (fits : t.Fits) :
    t.received.fdMap = (allocFds t.receiver.fdMap t.answer.fds).fdMap ∧
      t.received.wfds = (allocFds t.receiver.fdMap t.answer.fds).wfds ∧
      t.received.closes = (allocFds t.receiver.fdMap t.answer.fds).closes := by
  obtain ⟨ctrlOff, ctrlLen, control⟩ := t.exists_control some
  rw [received, recvTail_of_fits control some t.fds_length_le (fits ctrlOff ctrlLen control)]
  exact ⟨rfl, rfl, rfl⟩

theorem received_of_lost (lost : t.answer.fds = [] ∨ ¬ t.Fits) :
    t.received.fdMap = t.receiver.fdMap ∧ t.received.wfds = [] ∧ t.received.closes = [] := by
  have nothing : t.received = ⟨t.receiver.fdMap, [], [], 0, t.answer.flags⟩ := by
    rw [received]
    refine recvTail_of_lost t.fds_length_le (lost.imp id fun long => ?_)
    simp only [Fits, not_forall, not_le] at long
    obtain ⟨ctrlOff, ctrlLen, control, long⟩ := long
    exact ⟨ctrlOff, ctrlLen, control, long⟩
  rw [nothing]
  exact ⟨rfl, rfl, rfl⟩

/-- No descriptor of the host is lost exactly when the record is stored or there is none. -/
theorem kept_iff :
    (∀ h ∈ t.answer.fds, (∃ w, t.receiver.fdMap w = -1 ∧ t.received.fdMap w = h) ∨
      (h : ℤ) ∈ t.received.closes) ↔ t.answer.fds = [] ∨ t.Fits := by
  by_cases stored : t.answer.fds ≠ [] ∧ t.Fits
  · obtain ⟨map, -, closes⟩ := received_of_fits stored.1 stored.2
    refine iff_of_true (fun h mem => ?_) (.inr stored.2)
    rw [map, closes]
    obtain ⟨w, mapped | closed⟩ := allocFds_of_mem t.receiver.fdMap mem
    · exact .inl ⟨w.toNat, mapped.2⟩
    · exact .inr closed.2
  · have lost : t.answer.fds = [] ∨ ¬ t.Fits := by
      rwa [ne_eq, not_and_or, not_not] at stored
    obtain ⟨map, -, closes⟩ := received_of_lost lost
    constructor
    · intro kept
      refine .inl (List.eq_nil_iff_forall_not_mem.mpr fun h mem => ?_)
      obtain ⟨w, free, mapped⟩ | closed := kept h mem
      · rw [map] at mapped
        omega
      · rw [closes] at closed
        cases closed
    · rintro (none | fits) h mem
      · rw [none] at mem
        cases mem
      · have none := lost.resolve_right (not_not.mpr fits)
        rw [none] at mem
        cases mem

/-- The host can only deliver what `yos_sendmsg` has passed on. -/
theorem sent_le (ok : t.sender.InOrder) (done : t.Succeeds) :
    ∃ guest : List UInt32, guest.Sublist t.sender.guestFds ∧
      guest.map (fun g => hostFile t.files (t.sender.hostFdOf g)) = t.sent.map some := by
  obtain ⟨⟨n, msg, sent, carried⟩, -⟩ := done
  refine ⟨_, flatten_take_sublist msgMaxFds t.sender.records, ?_⟩
  rw [HostSends, RightsMsg.control ok sent] at carried
  rw [← carried, List.map_flatten, List.map_flatten, List.map_map, List.map_map]
  congr 2
  funext r
  show (r.take msgMaxFds).map (fun g => hostFile t.files (t.sender.hostFdOf g)) =
    ((r.take msgMaxFds).map t.sender.hostFdOf).map (hostFile t.files)
  simp only [List.map_map, Function.comp_def]

/-- When the record is stored, all descriptors arrive exactly when none was left out and there were
enough free slots. -/
theorem arrive_iff (ok : t.sender.InOrder) (done : t.Succeeds) (some : t.answer.fds ≠ []) (fits : t.Fits) :
    List.Forall₂ t.Arrives t.received.wfds t.sender.guestFds ↔
      t.answer.fds.length = t.sender.guestFds.length ∧
        t.answer.fds.length ≤ (freeSlots t.receiver.fdMap).card := by
  obtain ⟨map, wfds, -⟩ := received_of_fits some fits
  have each := allocFds_forall₂ t.receiver.fdMap t.answer.fds
  rw [wfds]
  constructor
  · intro arrive
    refine ⟨each.length_eq.symm.trans arrive.length_eq, ?_⟩
    rw [← allocFds_wfds_nonneg_iff]
    intro w mem
    obtain ⟨i, lt, rfl⟩ := List.mem_iff_getElem.mp mem
    exact ((List.forall₂_iff_get.mp arrive).2 i lt (arrive.length_eq ▸ lt)).1
  · rintro ⟨all, room⟩
    obtain ⟨guest, sub, files⟩ := sent_le ok done
    have count := congrArg List.length files
    rw [List.length_map, List.length_map] at count
    have whole : guest = t.sender.guestFds := by
      apply sub.eq_of_length
      have some := sub.length_le
      have carried := t.answer.carried
      omega
    subst whole
    refine List.forall₂_iff_get.mpr ⟨each.length_eq.trans all, fun i lt lt' => ?_⟩
    have here : i < t.answer.fds.length := all ▸ lt'
    have there : i < t.sent.length := count ▸ lt'
    have nonneg := (allocFds_wfds_nonneg_iff _ _).mpr room _ (List.get_mem _ ⟨i, lt⟩)
    have delivered : t.answer.file (t.answer.fds.get ⟨i, here⟩) = .some (t.sent.get ⟨i, there⟩) :=
      lookup_zip t.answer.distinct here there
    have passed : hostFile t.files (t.sender.hostFdOf (t.sender.guestFds.get ⟨i, lt'⟩)) =
        .some (t.sent.get ⟨i, there⟩) := by
      have both := List.getElem_of_eq files (i := i) (by rwa [List.length_map])
      rw [List.getElem_map, List.getElem_map] at both
      exact both
    obtain ⟨-, free, mapped⟩ | ⟨none, -⟩ := (List.forall₂_iff_get.mp each).2 i lt here
    · refine ⟨nonneg, free, ?_, ?_, ?_⟩
      · rw [map, mapped]
        exact Int.natCast_nonneg _
      · rw [map, mapped, delivered]
        rfl
      · rw [map, mapped, delivered, passed]
    · omega

/-- The condition under which descriptors are passed as they should be. -/
structure RightsOk (t : Transfer φ) : Prop where
  /-- The records of the sender are in order and fit into the buffer of the host. -/
  inOrder : t.sender.InOrder
  /-- What the host delivers fits into the buffer of the receiver. -/
  fits : t.Succeeds → t.answer.fds = [] ∨ t.Fits
  /-- The host delivers as many descriptors as were to be passed, and there is a slot for each of them;
  or the host's flags contain what is `MSG_CTRUNC` for the guest. -/
  told : t.Succeeds → (t.answer.fds.length = t.sender.guestFds.length ∧
      t.answer.fds.length ≤ (freeSlots t.receiver.fdMap).card) ∨
    t.answer.flags &&& guestMsgCtrunc ≠ 0

end Transfer

/-- Descriptors are passed as they should be exactly under `RightsOk`. -/
theorem rights_kept_iff (t : Transfer φ) : t.RightsKept ↔ t.RightsOk := by
  have flags : t.received.flags = t.answer.flags := recvTail_flags
  rw [Transfer.RightsKept, sendmsg_bounded_iff, flags]
  have arrives (inOrder : t.sender.InOrder) (done : t.Succeeds) (fits : t.answer.fds = [] ∨ t.Fits) :
      List.Forall₂ t.Arrives t.received.wfds t.sender.guestFds ↔
        t.answer.fds.length = t.sender.guestFds.length ∧
          t.answer.fds.length ≤ (freeSlots t.receiver.fdMap).card := by
    by_cases none : t.answer.fds = []
    · rw [(Transfer.received_of_lost (.inl none)).2.1, none, List.forall₂_nil_left_iff, List.length_nil]
      constructor
      · intro nothing
        exact ⟨nothing ▸ rfl, Nat.zero_le _⟩
      · intro same
        exact List.length_eq_zero_iff.mp same.1.symm
    · exact Transfer.arrive_iff inOrder done none (fits.resolve_left none)
  constructor
  · rintro ⟨inOrder, kept⟩
    refine ⟨inOrder, fun done => Transfer.kept_iff.mp (kept done).2, fun done => ?_⟩
    have fits := Transfer.kept_iff.mp (kept done).2
    exact (kept done).1.imp (arrives inOrder done fits).mp id
  · rintro ⟨inOrder, fits, told⟩
    refine ⟨inOrder, fun done => ⟨?_, Transfer.kept_iff.mpr (fits done)⟩⟩
    exact (told done).imp (arrives inOrder done (fits done)).mpr id

deriving instance DecidableEq for HostMsg

/-- A guest with the descriptors 3 and 4 and a message at 64 whose control buffer of `len` bytes holds
the record of `k` times the descriptor 4. -/
def rightsExample (k len : ℕ) : MsgCtx :=
  { ctrlExample len ([12 + k * 4, 0xffff, 1] ++ List.replicate k 4) with
    fdMap := fun i => if i = 3 then 7 else if i = 4 then 8 else -1 }

/-- One descriptor for a receiver whose control buffer has only room for the header. -/
def shortBuffer : Transfer Unit where
  files := fun h => if h = 8 then some () else none
  sender := ⟨rightsExample 1 16, 3, 64, [[4]], by decide, by decide, by decide, by decide, by decide, rfl⟩
  sent := [()]
  receiver := rightsExample 0 12
  fd := 3
  msgOff := 64
  head := ⟨7, [], some (256, 12)⟩
  answer := ⟨[9], 0, by decide, by decide, by decide, by decide⟩

/-- One descriptor more than `yos_sendmsg` passes on. -/
def manyFds : Transfer Unit where
  files := fun h => if h = 8 then some () else none
  sender := ⟨rightsExample 65 272, 3, 64, [List.replicate 65 4], by decide +kernel, by decide +kernel,
    by decide +kernel, by decide +kernel, by decide +kernel, rfl⟩
  sent := List.replicate 64 ()
  receiver := rightsExample 0 512
  fd := 3
  msgOff := 64
  head := ⟨7, [], some (256, 512)⟩
  answer := ⟨(List.range 64).map (· + 20), 0, by decide +kernel, by decide, by decide, by decide⟩

/-- A record that does not fit into the buffer of the receiver is lost together with the descriptor the
host has opened; and the sixty-fifth descriptor of a record is lost although there is room for it. -/
theorem scm_rights_lost : ¬ shortBuffer.RightsKept ∧ ¬ manyFds.RightsKept := by
  constructor
  · rintro ⟨-, kept⟩
    have done : shortBuffer.Succeeds :=
      ⟨⟨2, ⟨7, [], none, [[8]]⟩, by decide +kernel, rfl⟩, by decide +kernel⟩
    have lost := Transfer.kept_iff.mp (kept done).2
    exact absurd (lost.resolve_left (by decide) 256 12 rfl) (by decide)
  · rintro ⟨-, kept⟩
    have carried : HostSends manyFds.files [List.replicate 64 8] manyFds.sent := by
      unfold HostSends
      decide +kernel
    have done : manyFds.Succeeds :=
      ⟨⟨2, ⟨7, [], none, [List.replicate 64 8]⟩, by decide +kernel, carried⟩, by decide +kernel⟩
    obtain arrived | told := (kept done).1
    · exact absurd arrived.length_eq (by decide +kernel)
    · exact told (by decide +kernel)

end Yos.Msg
