import Yos.Io.Fd

/-!
# Descriptor filters of `kevent` (`impl/libc/kqueue-linux.c`)

A kqueue is a host epoll instance.  `kevent` turns a change for `EVFILT_READ` or `EVFILT_WRITE` into
one `epoll_ctl` call on the host descriptor behind `ident`, and packs `ident`, the filter and the low
half of `udata` into the 64 bits that epoll hands back with an event.

kqueue has a registration for each `ident` and filter (`register`), epoll one for each host
descriptor.  The two agree after every change iff each change meets `ChangeOk`
(`kevent_refines_iff`).
-/

namespace Yos

/-! ## Constants -/

/-- `EVFILT_READ`. -/
def evfiltRead : BitVec 16 := BitVec.ofInt 16 (-1)

/-- `EVFILT_WRITE`. -/
def evfiltWrite : BitVec 16 := BitVec.ofInt 16 (-2)

/-- `EV_ADD`. -/
def evAdd : BitVec 16 := 0x0001#16

/-- `EV_DELETE`. -/
def evDelete : BitVec 16 := 0x0002#16

/-- `EV_ENABLE`. -/
def evEnable : BitVec 16 := 0x0004#16

/-- `EV_DISABLE`. -/
def evDisable : BitVec 16 := 0x0008#16

/-- `EV_CLEAR`. -/
def evClear : BitVec 16 := 0x0020#16

/-- `EPOLLIN`. -/
def epollIn : BitVec 32 := 0x1#32

/-- `EPOLLOUT`. -/
def epollOut : BitVec 32 := 0x4#32

/-- `EPOLLET`. -/
def epollEt : BitVec 32 := 0x80000000#32

/-! ## The tag of an event -/

/-- `epoll_event.data.u64`. -/
def packTag (ident : BitVec 32) (filter : BitVec 16) (udata : BitVec 32) : BitVec 64 :=
  ((udata.setWidth 16).setWidth 64 <<< 48) ||| (filter.setWidth 64 <<< 32) ||| ident.setWidth 64

/-- The `ident` of a reported event. -/
def tagIdent (tag : BitVec 64) : BitVec 32 := tag.setWidth 32

/-- The filter of a reported event. -/
def tagFilter (tag : BitVec 64) : BitVec 16 := (tag >>> 32).setWidth 16

/-- The `udata` of a reported event. -/
def tagUdata (tag : BitVec 64) : BitVec 32 := (tag >>> 48).setWidth 32

section Tag

variable (ident : BitVec 32) (filter : BitVec 16) (udata : BitVec 32)

theorem tagIdent_packTag : tagIdent (packTag ident filter udata) = ident := by
  apply BitVec.eq_of_getLsbD_eq
  intro i hi
  simp [tagIdent, packTag]

theorem tagFilter_packTag : tagFilter (packTag ident filter udata) = filter := by
  apply BitVec.eq_of_getLsbD_eq
  intro i hi
  simp [tagFilter, packTag, hi, show 32 + i < 64 by omega, show 32 + i < 48 by omega,
    show i < 64 by omega]

/-- The upper half of `udata` is lost. -/
theorem tagUdata_packTag :
    tagUdata (packTag ident filter udata) = (udata.setWidth 16).setWidth 32 := by
  apply BitVec.eq_of_getLsbD_eq
  intro i hi
  rcases Nat.lt_or_ge i 16 with low | high
  · have noFilter : filter.getLsbD (48 + i - 32) = false := filter.getLsbD_of_ge _ (by omega)
    have noIdent : ident.getLsbD (48 + i) = false := ident.getLsbD_of_ge _ (by omega)
    simp [tagUdata, packTag, hi, low, noFilter, noIdent, show 48 + i < 64 by omega,
      show i < 64 by omega]
  · simp [tagUdata, packTag, hi, show ¬ i < 16 by omega, show ¬ 48 + i < 64 by omega]

theorem setWidth_eq_self_iff : (udata.setWidth 16).setWidth 32 = udata ↔ udata.toNat < 2 ^ 16 := by
  rw [← BitVec.toNat_inj]
  simp
  omega

end Tag

/-! ## epoll -/

/-- `struct epoll_event`. -/
structure EpollEvent where
  events : BitVec 32
  data : BitVec 64
deriving DecidableEq, Repr

/-- The operations of `epoll_ctl`. -/
inductive EpollOp where
  | add
  | del
  | mod
deriving DecidableEq, Repr

/-- The errors of `epoll_ctl`: the descriptor cannot be polled, is registered already, or is not
registered. -/
inductive EpollError where
  | perm
  | exist
  | noent
deriving DecidableEq, Repr

/-- `epoll_ctl` on the registrations of an epoll instance; `pollable` says which host descriptors it
accepts. -/
def epollCtl (pollable : ℤ → Bool) (table : ℤ → Option EpollEvent) (op : EpollOp) (fd : ℤ)
    (ev : EpollEvent) : Except EpollError (ℤ → Option EpollEvent) :=
  if pollable fd = false then .error .perm
  else
    match op, table fd with
    | .add, none => .ok (Function.update table fd (some ev))
    | .add, some _ => .error .exist
    | .mod, some _ => .ok (Function.update table fd (some ev))
    | .del, some _ => .ok (Function.update table fd none)
    | .mod, none | .del, none => .error .noent

/-! ## Changes -/

/-- The fields of `struct kevent` that a change for a descriptor uses. -/
structure Kevent where
  ident : BitVec 32
  filter : BitVec 16
  flags : BitVec 16
  udata : BitVec 32
deriving DecidableEq, Repr

namespace Kevent

/-- `flags & bit`. -/
def has (ke : Kevent) (bit : BitVec 16) : Bool := ke.flags &&& bit ≠ 0#16

/-- `ev_mask`. -/
def evMask (ke : Kevent) : BitVec 32 :=
  (if ke.filter = evfiltRead then epollIn else if ke.filter = evfiltWrite then epollOut else 0#32) |||
    (if ke.has evClear then epollEt else 0#32)

/-- The `epoll_event` of a change. -/
def eev (ke : Kevent) : EpollEvent := ⟨ke.evMask, packTag ke.ident ke.filter ke.udata⟩

/-- `op`. -/
def op (ke : Kevent) : Option EpollOp :=
  if ke.has evAdd then some .add
  else if ke.has evDelete then some .del
  else if ke.has evEnable then some .mod
  else if ke.has evDisable then some .del
  else none

end Kevent

/-- An event as `kevent` reports it: `ident`, filter and `udata`. -/
def EpollEvent.report (ev : EpollEvent) : BitVec 32 × BitVec 16 × BitVec 32 :=
  (tagIdent ev.data, tagFilter ev.data, tagUdata ev.data)

section Changes

variable (pollable : ℤ → Bool) (ctx : FdCtx)

/-- The host descriptor behind an `ident`. -/
def targetHfd (ident : BitVec 32) : Option ℤ :=
  let hfd := (yosFdGet ctx ident.toInt).value
  if hfd < 0 then none else some hfd

/-- The `epoll_ctl` calls for a change: an addition that finds a registration modifies it, and other
errors are ignored. -/
def changeEpoll (table : ℤ → Option EpollEvent) (op : EpollOp) (hfd : ℤ) (ev : EpollEvent) :
    ℤ → Option EpollEvent :=
  match epollCtl pollable table op hfd ev with
  | .ok table' => table'
  | .error e =>
    if e = .exist ∧ op = .add then
      match epollCtl pollable table .mod hfd ev with
      | .ok table' => table'
      | .error _ => table
    else table

/-- What `kevent` does with one change.  The changes for other filters leave the descriptors of the
guest alone. -/
def applyChange (table : ℤ → Option EpollEvent) (ke : Kevent) : ℤ → Option EpollEvent :=
  if ke.filter = evfiltRead ∨ ke.filter = evfiltWrite then
    match targetHfd ctx ke.ident, ke.op with
    | some hfd, some op => changeEpoll pollable table op hfd ke.eev
    | _, _ => table
  else table

/-- The loop of `kevent` over the changes. -/
def applyChanges (table : ℤ → Option EpollEvent) (changes : List Kevent) : ℤ → Option EpollEvent :=
  changes.foldl (applyChange pollable ctx) table

end Changes

/-- What a kqueue with these epoll registrations can report. -/
def reported (table : ℤ → Option EpollEvent) : Set (BitVec 32 × BitVec 16 × BitVec 32) :=
  {r | ∃ hfd ev, table hfd = some ev ∧ ev.report = r}

/-! ## The registrations of a kqueue -/

/-- The registrations of a kqueue: `udata` for `ident` and filter. -/
abbrev Knotes := BitVec 32 × BitVec 16 → Option (BitVec 32)

/-- What the registrations say should be reported. -/
def Knotes.content (m : Knotes) : Set (BitVec 32 × BitVec 16 × BitVec 32) :=
  {r | m (r.1, r.2.1) = some r.2.2}

section Knotes

variable (ctx : FdCtx)

/-- What a change does to the registrations; a change for a descriptor that is not open is refused. -/
def register (m : Knotes) (ke : Kevent) : Knotes :=
  if targetHfd ctx ke.ident = none then m
  else Function.update m (ke.ident, ke.filter) (if ke.has evAdd then some ke.udata else none)

/-- The registrations after a list of changes. -/
def registerAll (m : Knotes) (changes : List Kevent) : Knotes := changes.foldl (register ctx) m

end Knotes

/-- A change that adds or deletes a registration of a descriptor. -/
def Kevent.Plain (ke : Kevent) : Prop :=
  (ke.filter = evfiltRead ∨ ke.filter = evfiltWrite) ∧
    (ke.flags &&& ~~~evClear = evAdd ∨ ke.flags &&& ~~~evClear = evDelete)

instance (ke : Kevent) : Decidable ke.Plain :=
  inferInstanceAs (Decidable (_ ∧ _))

section Condition

variable (pollable : ℤ → Bool) (ctx : FdCtx)

/-- The host descriptor has no registration but the one the change is about; what is added can be
polled, and its `udata` fits 16 bits. -/
def ChangeOk (m : Knotes) (ke : Kevent) : Prop :=
  ∀ hfd, targetHfd ctx ke.ident = some hfd →
    (ke.has evAdd = true → pollable hfd = true ∧ ke.udata.toNat < 2 ^ 16) ∧
      ∀ ident filter udata, m (ident, filter) = some udata → targetHfd ctx ident = some hfd →
        ident = ke.ident ∧ filter = ke.filter

/-- Every change meets `ChangeOk` when its turn comes. -/
def ChangesOk (m : Knotes) : List Kevent → Prop
  | [] => True
  | ke :: rest => ChangeOk pollable ctx m ke ∧ ChangesOk (register ctx m ke) rest

end Condition

/-! ## One change -/

theorem Kevent.has_of_masked {ke : Kevent} {bit : BitVec 16} (kept : ~~~evClear &&& bit = bit) :
    ke.has bit = decide ((ke.flags &&& ~~~evClear) &&& bit ≠ 0#16) := by
  rw [BitVec.and_assoc, kept]
  rfl

/-- A plain change adds or deletes. -/
theorem Kevent.Plain.op_eq {ke : Kevent} (plain : ke.Plain) :
    (ke.has evAdd = true ∧ ke.op = some .add) ∨ (ke.has evAdd = false ∧ ke.op = some .del) := by
  have add := ke.has_of_masked (show ~~~evClear &&& evAdd = evAdd by decide)
  have del := ke.has_of_masked (show ~~~evClear &&& evDelete = evDelete by decide)
  rcases plain.2 with flags | flags
  · left
    rw [flags] at add
    simp only [op, show ke.has evAdd = true from add]
    exact ⟨trivial, rfl⟩
  · right
    rw [flags] at add del
    simp only [op, show ke.has evAdd = false from add, show ke.has evDelete = true from del]
    exact ⟨trivial, rfl⟩

section Step

variable {pollable : ℤ → Bool} {ctx : FdCtx} {table : ℤ → Option EpollEvent} {m : Knotes}
  {ke : Kevent} {hfd : ℤ} {ev : EpollEvent}

theorem changeEpoll_refused (op : EpollOp) (refused : pollable hfd = false) :
    changeEpoll pollable table op hfd ev = table := by
  simp [changeEpoll, epollCtl, refused]

theorem changeEpoll_add (accepted : pollable hfd = true) :
    changeEpoll pollable table .add hfd ev = Function.update table hfd (some ev) := by
  cases here : table hfd <;> simp [changeEpoll, epollCtl, accepted, here]

/-- A registration stands at the host descriptor of its `ident`, which can be polled. -/
def Placed (pollable : ℤ → Bool) (ctx : FdCtx) (table : ℤ → Option EpollEvent) : Prop :=
  ∀ hfd ev, table hfd = some ev →
    targetHfd ctx ev.report.1 = some hfd ∧ pollable hfd = true

theorem changeEpoll_del (placed : Placed pollable ctx table) :
    changeEpoll pollable table .del hfd ev = Function.update table hfd none := by
  cases here : table hfd with
  | none =>
    have same : Function.update table hfd none = table := by rw [← here, Function.update_eq_self]
    rw [same]
    cases accepted : pollable hfd <;> simp [changeEpoll, epollCtl, accepted, here]
  | some old =>
    obtain ⟨-, accepted⟩ := placed hfd old here
    simp [changeEpoll, epollCtl, accepted, here]

theorem Placed.set (placed : Placed pollable ctx table) (target : targetHfd ctx ev.report.1 = some hfd)
    (accepted : pollable hfd = true) : Placed pollable ctx (Function.update table hfd (some ev)) := by
  intro h old here
  by_cases same : h = hfd
  · subst same
    rw [Function.update_self] at here
    cases here
    exact ⟨target, accepted⟩
  · rw [Function.update_of_ne same] at here
    exact placed h old here

theorem Placed.erase (placed : Placed pollable ctx table) :
    Placed pollable ctx (Function.update table hfd none) := by
  intro h old here
  by_cases same : h = hfd
  · subst same
    rw [Function.update_self] at here
    cases here
  · rw [Function.update_of_ne same] at here
    exact placed h old here

theorem Kevent.report_eev (ke : Kevent) :
    ke.eev.report = (ke.ident, ke.filter, (ke.udata.setWidth 16).setWidth 32) := by
  simp only [eev, EpollEvent.report, tagIdent_packTag, tagFilter_packTag, tagUdata_packTag]

theorem applyChange_of_plain (plain : ke.Plain) {op : EpollOp}
    (target : targetHfd ctx ke.ident = some hfd) (does : ke.op = some op) :
    applyChange pollable ctx table ke = changeEpoll pollable table op hfd ke.eev := by
  rw [applyChange, if_pos plain.1, target, does]

theorem applyChange_of_closed (closed : targetHfd ctx ke.ident = none) :
    applyChange pollable ctx table ke = table := by
  simp [applyChange, closed]

/-- Registrations stay where they belong. -/
theorem Placed.change (placed : Placed pollable ctx table) (plain : ke.Plain) :
    Placed pollable ctx (applyChange pollable ctx table ke) := by
  cases target : targetHfd ctx ke.ident with
  | none => rwa [applyChange_of_closed target]
  | some hfd =>
    rcases plain.op_eq with ⟨-, does⟩ | ⟨-, does⟩
    · rw [applyChange_of_plain plain target does]
      cases accepted : pollable hfd with
      | false => rwa [changeEpoll_refused _ accepted]
      | true =>
        rw [changeEpoll_add accepted]
        refine placed.set ?_ accepted
        rw [ke.report_eev]
        exact target
    · rw [applyChange_of_plain plain target does, changeEpoll_del placed]
      exact placed.erase

/-- Of a placed registration, `ident` tells the host descriptor. -/
theorem Placed.at_target (placed : Placed pollable ctx table)
    {r : BitVec 32 × BitVec 16 × BitVec 32} (mem : r ∈ reported table)
    (target : targetHfd ctx r.1 = some hfd) : ∃ ev, table hfd = some ev ∧ ev.report = r := by
  obtain ⟨h, ev, here, rfl⟩ := mem
  obtain ⟨placedAt, -⟩ := placed h ev here
  rw [target] at placedAt
  cases placedAt
  exact ⟨ev, here, rfl⟩

theorem register_of_target (target : targetHfd ctx ke.ident = some hfd) :
    register ctx m ke = Function.update m (ke.ident, ke.filter)
      (if ke.has evAdd then some ke.udata else none) := by
  have known : targetHfd ctx ke.ident ≠ none := by simp [target]
  rw [register, if_neg known]

/-- The registrations other than the one a change is about stay. -/
theorem mem_register {ident : BitVec 32} {filter : BitVec 16} {udata : BitVec 32}
    (target : targetHfd ctx ke.ident = some hfd) (other : ¬ (ident = ke.ident ∧ filter = ke.filter)) :
    (ident, filter, udata) ∈ (register ctx m ke).content ↔ m (ident, filter) = some udata := by
  have ne : (ident, filter) ≠ (ke.ident, ke.filter) := by
    intro same
    exact other (by simpa using same)
  show register ctx m ke (ident, filter) = some udata ↔ _
  rw [register_of_target target, Function.update_of_ne ne]

/-- The registration a change is about. -/
theorem mem_register_self {udata : BitVec 32} (target : targetHfd ctx ke.ident = some hfd) :
    (ke.ident, ke.filter, udata) ∈ (register ctx m ke).content ↔
      ke.has evAdd = true ∧ udata = ke.udata := by
  show register ctx m ke (ke.ident, ke.filter) = some udata ↔ _
  rw [register_of_target target, Function.update_self]
  split_ifs with adds
  · simp [adds, eq_comm]
  · simp [adds]

/-- Epoll agrees with the registrations. -/
def Agrees (table : ℤ → Option EpollEvent) (m : Knotes) : Prop := reported table = m.content

theorem Agrees.mem_iff (agrees : Agrees table m) {r : BitVec 32 × BitVec 16 × BitVec 32} :
    r ∈ reported table ↔ m (r.1, r.2.1) = some r.2.2 := by
  unfold Agrees at agrees
  rw [agrees]
  rfl

/-- An addition keeps the agreement iff it meets the condition. -/
theorem agrees_add_iff (placed : Placed pollable ctx table) (agrees : Agrees table m)
    (target : targetHfd ctx ke.ident = some hfd) (adds : ke.has evAdd = true)
    (accepted : pollable hfd = true) :
    Agrees (Function.update table hfd (some ke.eev)) (register ctx m ke) ↔
      ChangeOk pollable ctx m ke := by
  have placed' : Placed pollable ctx (Function.update table hfd (some ke.eev)) :=
    placed.set (by rw [ke.report_eev]; exact target) accepted
  constructor
  · intro agrees' h target'
    rw [target] at target'
    cases target'
    have only : ∀ r, r ∈ (register ctx m ke).content → targetHfd ctx r.1 = some hfd →
        r = ke.eev.report := by
      intro r mem at_
      rw [← show reported _ = _ from agrees'] at mem
      obtain ⟨ev, here, rfl⟩ := placed'.at_target mem at_
      rw [Function.update_self] at here
      cases here
      rfl
    rw [ke.report_eev] at only
    refine ⟨fun _ => ⟨accepted, ?_⟩, fun ident filter udata known at_ => ?_⟩
    · have same := only (ke.ident, ke.filter, ke.udata)
        ((mem_register_self target).2 ⟨adds, rfl⟩) target
      rw [← setWidth_eq_self_iff]
      exact (congrArg (fun r => r.2.2) same).symm
    · by_contra other
      have same := only (ident, filter, udata) ((mem_register target other).2 known) at_
      simp only [Prod.mk.injEq] at same
      exact other ⟨same.1, same.2.1⟩
  · intro ok
    obtain ⟨fits, alone⟩ := ok hfd target
    have whole : ke.eev.report = (ke.ident, ke.filter, ke.udata) := by
      rw [ke.report_eev, (setWidth_eq_self_iff ke.udata).2 (fits adds).2]
    ext ⟨ident, filter, udata⟩
    by_cases about : ident = ke.ident ∧ filter = ke.filter
    · obtain ⟨rfl, rfl⟩ := about
      rw [mem_register_self target]
      constructor
      · intro mem
        obtain ⟨ev, here, same⟩ := placed'.at_target mem target
        rw [Function.update_self] at here
        cases here
        rw [whole] at same
        simp only [Prod.mk.injEq, true_and] at same
        exact ⟨adds, same.symm⟩
      · rintro ⟨-, rfl⟩
        exact ⟨hfd, ke.eev, Function.update_self .., whole⟩
    · rw [mem_register target about, ← agrees.mem_iff (r := (ident, filter, udata))]
      constructor
      · rintro ⟨h, ev, here, same⟩
        by_cases mine : h = hfd
        · subst mine
          rw [Function.update_self] at here
          cases here
          rw [whole] at same
          simp only [Prod.mk.injEq] at same
          exact absurd ⟨same.1.symm, same.2.1.symm⟩ about
        · rw [Function.update_of_ne mine] at here
          exact ⟨h, ev, here, same⟩
      · rintro ⟨h, ev, here, same⟩
        refine ⟨h, ev, ?_, same⟩
        rw [Function.update_of_ne]
        · exact here
        · rintro rfl
          have known := agrees.mem_iff.1 ⟨h, ev, here, same⟩
          obtain ⟨at_, -⟩ := placed h ev here
          rw [same] at at_
          exact about (alone _ _ _ known at_)

/-- A deletion keeps the agreement iff it meets the condition. -/
theorem agrees_del_iff (placed : Placed pollable ctx table) (agrees : Agrees table m)
    (target : targetHfd ctx ke.ident = some hfd) (deletes : ke.has evAdd = false) :
    Agrees (Function.update table hfd none) (register ctx m ke) ↔ ChangeOk pollable ctx m ke := by
  have gone : ∀ r, r ∈ reported (Function.update table hfd none) →
      targetHfd ctx r.1 ≠ some hfd := by
    intro r mem at_
    obtain ⟨ev, here, -⟩ := placed.erase.at_target mem at_
    rw [Function.update_self] at here
    cases here
  constructor
  · intro agrees' h target'
    rw [target] at target'
    cases target'
    refine ⟨fun adds => by simp [deletes] at adds, fun ident filter udata known at_ => ?_⟩
    by_contra other
    refine gone (ident, filter, udata) ?_ at_
    rw [show reported _ = _ from agrees']
    exact (mem_register target other).2 known
  · intro ok
    obtain ⟨-, alone⟩ := ok hfd target
    ext ⟨ident, filter, udata⟩
    by_cases about : ident = ke.ident ∧ filter = ke.filter
    · obtain ⟨rfl, rfl⟩ := about
      rw [mem_register_self target, deletes]
      refine ⟨fun mem => absurd target (gone (ke.ident, ke.filter, udata) mem), fun adds => ?_⟩
      simp at adds
    · rw [mem_register target about, ← agrees.mem_iff (r := (ident, filter, udata))]
      constructor
      · rintro ⟨h, ev, here, same⟩
        have elsewhere : h ≠ hfd := by
          rintro rfl
          rw [Function.update_self] at here
          cases here
        rw [Function.update_of_ne elsewhere] at here
        exact ⟨h, ev, here, same⟩
      · rintro ⟨h, ev, here, same⟩
        have elsewhere : h ≠ hfd := by
          rintro rfl
          have known := agrees.mem_iff.1 ⟨h, ev, here, same⟩
          obtain ⟨at_, -⟩ := placed h ev here
          rw [same] at at_
          exact about (alone _ _ _ known at_)
        exact ⟨h, ev, by rwa [Function.update_of_ne elsewhere], same⟩

/-- An addition that epoll refuses breaks the agreement. -/
theorem not_agrees_refused (placed : Placed pollable ctx table)
    (target : targetHfd ctx ke.ident = some hfd) (adds : ke.has evAdd = true)
    (refused : pollable hfd = false) : ¬ Agrees table (register ctx m ke) := by
  intro agrees'
  have mem : (ke.ident, ke.filter, ke.udata) ∈ reported table := by
    rw [show reported _ = _ from agrees']
    exact (mem_register_self target).2 ⟨adds, rfl⟩
  obtain ⟨ev, here, -⟩ := placed.at_target mem target
  obtain ⟨-, accepted⟩ := placed hfd ev here
  simp [refused] at accepted

/-- A change keeps the agreement iff it meets the condition. -/
theorem agrees_change_iff (placed : Placed pollable ctx table) (agrees : Agrees table m)
    (plain : ke.Plain) :
    Agrees (applyChange pollable ctx table ke) (register ctx m ke) ↔ ChangeOk pollable ctx m ke := by
  cases target : targetHfd ctx ke.ident with
  | none =>
    have same : register ctx m ke = m := if_pos target
    rw [applyChange_of_closed target, same]
    refine iff_of_true agrees fun h open_ => ?_
    rw [target] at open_
    cases open_
  | some hfd =>
    rcases plain.op_eq with ⟨adds, does⟩ | ⟨deletes, does⟩
    · rw [applyChange_of_plain plain target does]
      cases accepted : pollable hfd with
      | false =>
        rw [changeEpoll_refused _ accepted]
        refine iff_of_false (not_agrees_refused placed target adds accepted) fun ok => ?_
        obtain ⟨polls, -⟩ := (ok hfd target).1 adds
        simp [accepted] at polls
      | true =>
        rw [changeEpoll_add accepted]
        exact agrees_add_iff placed agrees target adds accepted
    · rw [applyChange_of_plain plain target does, changeEpoll_del placed]
      exact agrees_del_iff placed agrees target deletes

end Step

/-! ## Histories -/

section Histories

variable {pollable : ℤ → Bool} {ctx : FdCtx}

/-- From an agreement on, it holds after every prefix iff every change meets its condition. -/
theorem agrees_prefixes_iff {changes : List Kevent} (plain : ∀ ke ∈ changes, ke.Plain)
    {table : ℤ → Option EpollEvent} {m : Knotes} (placed : Placed pollable ctx table)
    (agrees : Agrees table m) :
    (∀ done, done <+: changes →
      Agrees (applyChanges pollable ctx table done) (registerAll ctx m done)) ↔
      ChangesOk pollable ctx m changes := by
  induction changes generalizing table m with
  | nil =>
    refine iff_of_true (fun done initial => ?_) trivial
    rw [List.prefix_nil.1 initial]
    exact agrees
  | cons ke rest ih =>
    have here := plain ke List.mem_cons_self
    have later : ∀ ke ∈ rest, ke.Plain := fun c mem => plain c (List.mem_cons_of_mem ke mem)
    have step := agrees_change_iff placed agrees here
    constructor
    · intro all
      have first := all [ke] (by simp)
      refine ⟨step.1 first, (ih later (placed.change here) first).1 fun done initial => ?_⟩
      exact all (ke :: done) (by simpa using initial)
    · rintro ⟨ok, oks⟩ done initial
      rcases List.prefix_cons_iff.1 initial with rfl | ⟨done, rfl, within⟩
      · exact agrees
      · exact (ih later (placed.change here) (step.2 ok)).2 oks done within

/-- A new kqueue. -/
def noKnotes : Knotes := fun _ => none

/-- For every history of additions and deletions on a new kqueue: what it can report is what is
registered, after every change, iff every change meets its condition. -/
theorem kevent_refines_iff (pollable : ℤ → Bool) (ctx : FdCtx) {changes : List Kevent}
    (plain : ∀ ke ∈ changes, ke.Plain) :
    (∀ done, done <+: changes →
      reported (applyChanges pollable ctx (fun _ => none) done) =
        (registerAll ctx noKnotes done).content) ↔
      ChangesOk pollable ctx noKnotes changes := by
  refine agrees_prefixes_iff plain (fun hfd ev here => by cases here) ?_
  ext r
  refine iff_of_false ?_ ?_
  · rintro ⟨hfd, ev, here, -⟩
    cases here
  · intro mem
    cases mem

end Histories

/-- A guest whose descriptor 5 is the host descriptor 7. -/
def oneFd : FdCtx := ⟨fun _ => 0, 0, fun wfd => if wfd = 5 then 7 else -1, none⟩

/-- Read events of descriptor 5 are added and deleted again. -/
theorem kevent_refines_iff_add_delete :
    ∃ changes : List Kevent, changes = [⟨5#32, evfiltRead, evAdd, 1#32⟩, ⟨5#32, evfiltRead, evDelete, 0#32⟩] ∧
      (∀ ke ∈ changes, ke.Plain) ∧
      ∀ done, done <+: changes →
        reported (applyChanges (fun _ => true) oneFd (fun _ => none) done) =
          (registerAll oneFd noKnotes done).content := by
  refine ⟨_, rfl, by decide, ?_⟩
  refine (kevent_refines_iff (fun _ => true) oneFd (by decide)).2 ⟨?_, ?_, trivial⟩
  · intro hfd _
    exact ⟨fun _ => ⟨rfl, by decide⟩, fun ident filter udata known => by cases known⟩
  · intro hfd _
    refine ⟨fun adds => absurd adds (by decide), fun ident filter udata known _ => ?_⟩
    by_contra other
    have only : (ident, filter) ≠ (5#32, evfiltRead) := fun same => other (by simpa using same)
    have none_ : register oneFd noKnotes ⟨5#32, evfiltRead, evAdd, 1#32⟩ (ident, filter) = none :=
      Function.update_of_ne only _ _
    rw [none_] at known
    cases known

/-- Write events of descriptor 5 replace its read events. -/
theorem write_replaces_read :
    ∃ changes : List Kevent, (∀ ke ∈ changes, ke.Plain) ∧
      (5#32, evfiltRead, 1#32) ∈ (registerAll oneFd noKnotes changes).content ∧
      reported (applyChanges (fun _ => true) oneFd (fun _ => none) changes) ≠
        (registerAll oneFd noKnotes changes).content := by
  refine ⟨[⟨5#32, evfiltRead, evAdd, 1#32⟩, ⟨5#32, evfiltWrite, evAdd, 2#32⟩], by decide, rfl,
    fun agrees => ?_⟩
  have empty : Placed (fun _ => true) oneFd fun _ => none := fun hfd ev here => by cases here
  have placed := (empty.change (show Kevent.Plain ⟨5#32, evfiltRead, evAdd, 1#32⟩ by decide)).change
    (show Kevent.Plain ⟨5#32, evfiltWrite, evAdd, 2#32⟩ by decide)
  have registered : (5#32, evfiltRead, 1#32) ∈ (registerAll oneFd noKnotes
      [⟨5#32, evfiltRead, evAdd, 1#32⟩, ⟨5#32, evfiltWrite, evAdd, 2#32⟩]).content := rfl
  rw [← agrees] at registered
  obtain ⟨ev, here, same⟩ := placed.at_target registered (show targetHfd oneFd 5#32 = some 7 from rfl)
  cases here
  cases same

end Yos
