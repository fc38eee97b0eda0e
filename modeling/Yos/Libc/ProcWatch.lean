import Mathlib.Algebra.GroupWithZero.Nat
import Mathlib.Data.Int.Notation
import Mathlib.Data.Fintype.Basic
import Mathlib.Logic.Function.Basic
import Yos.Lib.System

/-!
# Process filters of `kevent` (`impl/libc/kqueue-linux.c`)

`EVFILT_PROC` registrations of all guests share one table of 64 slots.  A registration takes a slot
and an eventfd, which it puts into the epoll instance of the kqueue; the exit of the process writes to
the eventfds of its slots; `kevent` looks the slot up by the host descriptor of the kqueue and the
pid of the event, and releases it.

Kqueues are numbered as they are created, and a descriptor may be a new kqueue after a close.  The
registrations as the guest sees them are `regs`; an event is right if it reports a registration that
has not been reported, with its `udata`.  In runs of the steps `WatchOk` allows the table keeps what
the registrations say (`proc_watch_conserved`).
-/

namespace Yos

/-- `MAX_PROC_WATCH`. -/
def maxProcWatch : ℕ := 64

/-- `struct proc_watch`. -/
structure ProcWatch where
  kq : ℤ
  eventfd : ℤ
  pid : ℕ
  udata : ℕ
deriving DecidableEq, Repr

namespace ProcWatch

/-- The slot is in use. -/
def Used (w : ProcWatch) : Prop := 0 < w.eventfd

/-- The slot is in use for this kqueue and process. -/
def Watches (w : ProcWatch) (kq : ℤ) (pid : ℕ) : Prop := w.kq = kq ∧ w.pid = pid ∧ w.Used

/-- The slot after its release. -/
def released (w : ProcWatch) : ProcWatch := { w with kq := -1, eventfd := -1, pid := 0 }

instance (w : ProcWatch) : Decidable w.Used := inferInstanceAs (Decidable (_ < _))

instance (w : ProcWatch) (kq : ℤ) (pid : ℕ) : Decidable (w.Watches kq pid) :=
  inferInstanceAs (Decidable (_ ∧ _))

end ProcWatch

/-- An open eventfd: the kqueue it is registered with, the pid and the half of `udata` in its tag, and
whether it has been written to. -/
structure EventFd where
  kq : ℕ
  pid : ℕ
  udata : ℕ
  ready : Bool
deriving DecidableEq, Repr

/-- A call of `kevent` after its `epoll_wait`: the kqueue, and the tags it has not reported yet. -/
structure Poll where
  fd : ℤ
  kq : ℕ
  events : List (ℕ × ℕ)
deriving DecidableEq, Repr

/-- The table, the host descriptors that are kqueues or eventfds, the calls of `kevent` that are under
way, and the registrations as the guest sees them. -/
structure WatchState where
  watches : Fin maxProcWatch → ProcWatch
  /-- The kqueue a host descriptor refers to. -/
  kqs : ℤ → Option ℕ
  /-- How many kqueues have been created. -/
  created : ℕ
  eventfds : ℤ → Option EventFd
  polls : ℕ → Option Poll
  /-- The `udata` of a kqueue and a pid. -/
  regs : ℕ × ℕ → Option ℕ
  /-- Every event so far was right. -/
  right : Bool

/-- What happens to the table; `efd` is the result of `eventfd` and `epoll_ctl`, and `ready` of
`epoll_wait`. -/
inductive WatchOp where
  | create (fd : ℤ)
  | close (fd : ℤ)
  | add (fd : ℤ) (pid udata : ℕ) (efd : Option ℤ)
  | remove (fd : ℤ) (pid : ℕ)
  | exit (pid : ℕ)
  | wait (caller : ℕ) (fd : ℤ) (ready : List ℤ)
  | report (caller : ℕ)

namespace WatchState

variable (s : WatchState)

/-- The host descriptor is free. -/
def Unopened (fd : ℤ) : Prop := 0 ≤ fd ∧ s.kqs fd = none ∧ s.eventfds fd = none

/-- `epoll_create1`. -/
def create (fd : ℤ) : WatchState :=
  { s with kqs := Function.update s.kqs fd (some s.created), created := s.created + 1 }

/-- `close` of a kqueue; the table is not told. -/
def close (fd : ℤ) (kq : ℕ) : WatchState :=
  { s with
    kqs := Function.update s.kqs fd none
    regs := fun r => if r.1 = kq then none else s.regs r }

/-- The slot `proc_watch_add` takes. -/
def freeWatch : Option (Fin maxProcWatch) :=
  (List.finRange maxProcWatch).find? fun i => ¬ (s.watches i).Used

/-- `EV_ADD`: `proc_watch_add`, whose failure `kevent` does not report. -/
def add (fd : ℤ) (kq pid udata : ℕ) (efd : Option ℤ) : WatchState :=
  let s := { s with regs := Function.update s.regs (kq, pid) (some udata) }
  match s.freeWatch, efd with
  | some i, some e =>
    { s with
      watches := Function.update s.watches i ⟨fd, e, pid, udata⟩
      eventfds := Function.update s.eventfds e (some ⟨kq, pid, udata % 2 ^ 16, false⟩) }
  | _, _ => s

/-- `EV_DELETE`: `proc_watch_remove`. -/
def remove (fd : ℤ) (kq pid : ℕ) : WatchState :=
  { s with
    watches := fun i => if (s.watches i).Watches fd pid then (s.watches i).released else s.watches i
    eventfds := fun e =>
      if ∃ i, (s.watches i).Watches fd pid ∧ (s.watches i).eventfd = e then none else s.eventfds e
    regs := Function.update s.regs (kq, pid) none }

/-- `yos_kqueue_notify_exit`. -/
def notifyExit (pid : ℕ) : WatchState :=
  { s with
    eventfds := fun e =>
      if ∃ i, (s.watches i).pid = pid ∧ (s.watches i).Used ∧ (s.watches i).eventfd = e then
        (s.eventfds e).map fun ef => { ef with ready := true }
      else s.eventfds e }

/-- The tags of ready eventfds. -/
def tags (ready : List ℤ) : List (ℕ × ℕ) :=
  ready.filterMap fun e => (s.eventfds e).map fun ef => (ef.pid, ef.udata)

/-- The slot `kevent` finds for an event. -/
def findWatch (fd : ℤ) (pid : ℕ) : Option (Fin maxProcWatch) :=
  (List.finRange maxProcWatch).find? fun i => (s.watches i).Watches fd pid

/-- The guest sees an event of the kqueue `kq`. -/
def reportTo (kq pid udata : ℕ) : WatchState :=
  if s.regs (kq, pid) = some udata then { s with regs := Function.update s.regs (kq, pid) none }
  else { s with right := false }

/-- `kevent` reports an event: it releases the slot it finds and takes `udata` from there, and else
from the tag. -/
def harvest (fd : ℤ) (kq pid udata : ℕ) : WatchState :=
  match s.findWatch fd pid with
  | some i =>
    { s.reportTo kq pid (s.watches i).udata with
      watches := Function.update s.watches i (s.watches i).released
      eventfds := Function.update s.eventfds (s.watches i).eventfd none }
  | none => s.reportTo kq pid udata

/-- The call goes on with these events. -/
def goOn (caller : ℕ) (poll : Option Poll) : WatchState :=
  { s with polls := Function.update s.polls caller poll }

end WatchState

/-- The steps; `wait` and each `report` of a call of `kevent` are steps of their own. -/
inductive WatchStep (s : WatchState) : WatchOp → WatchState → Prop where
  | create {fd : ℤ} (fresh : s.Unopened fd) : WatchStep s (.create fd) (s.create fd)
  | close {fd : ℤ} {kq : ℕ} (open_ : s.kqs fd = some kq) : WatchStep s (.close fd) (s.close fd kq)
  | add {fd : ℤ} {kq : ℕ} (pid udata : ℕ) {efd : Option ℤ} (open_ : s.kqs fd = some kq)
      (fresh : ∀ e, efd = some e → s.Unopened e) :
      WatchStep s (.add fd pid udata efd) (s.add fd kq pid udata efd)
  | remove {fd : ℤ} {kq : ℕ} (pid : ℕ) (open_ : s.kqs fd = some kq) :
      WatchStep s (.remove fd pid) (s.remove fd kq pid)
  | exit (pid : ℕ) : WatchStep s (.exit pid) (s.notifyExit pid)
  | wait {caller : ℕ} {fd : ℤ} {kq : ℕ} {ready : List ℤ} (open_ : s.kqs fd = some kq)
      (idle : s.polls caller = none) (nodup : ready.Nodup)
      (written : ∀ e ∈ ready, ∃ ef, s.eventfds e = some ef ∧ ef.kq = kq ∧ ef.ready = true) :
      WatchStep s (.wait caller fd ready) (s.goOn caller (some ⟨fd, kq, s.tags ready⟩))
  | report {caller : ℕ} {fd : ℤ} {kq pid udata : ℕ} {rest : List (ℕ × ℕ)}
      (here : s.polls caller = some ⟨fd, kq, (pid, udata) :: rest⟩) :
      WatchStep s (.report caller) ((s.harvest fd kq pid udata).goOn caller (some ⟨fd, kq, rest⟩))
  | finish {caller : ℕ} {fd : ℤ} {kq : ℕ} (here : s.polls caller = some ⟨fd, kq, []⟩) :
      WatchStep s (.report caller) (s.goOn caller none)

/-- The table before any kqueue is created. -/
def WatchState.initial : WatchState where
  watches _ := ⟨0, 0, 0, 0⟩
  kqs _ := none
  created := 0
  eventfds _ := none
  polls _ := none
  regs _ := none
  right := true

/-- Any run of kqueues, registrations, exits and polls. -/
def watchSystem : System WatchState WatchOp where
  init s := s = .initial
  step := WatchStep

/-! ## The condition on the steps -/

/-- A kqueue is closed only when no slot is in use for it; a process is watched once; a registration
is not deleted while a call is about to report it; and no event is taken by two calls. -/
def WatchOk (s : WatchState) : WatchOp → Prop
  | .close fd => ∀ i, (s.watches i).Used → (s.watches i).kq ≠ fd
  | .add fd pid _ _ => ∀ i, ¬ (s.watches i).Watches fd pid
  | .remove fd pid => ∀ caller p, s.polls caller = some p → p.fd = fd → pid ∉ p.events.map Prod.fst
  | .wait _ fd ready => ∀ other p, s.polls other = some p → p.fd = fd →
    ∀ pid ∈ (s.tags ready).map Prod.fst, pid ∉ p.events.map Prod.fst
  | _ => True

/-! ## The invariant -/

/-- A slot in use belongs to the kqueue that is open at its descriptor, has its eventfd there, and
keeps the `udata` of the registration. -/
structure WatchFits (s : WatchState) (w : ProcWatch) (kq : ℕ) : Prop where
  open_ : s.kqs w.kq = some kq
  eventfd : ∃ ef, s.eventfds w.eventfd = some ef ∧ ef.kq = kq ∧ ef.pid = w.pid
  reg : s.regs (kq, w.pid) = some w.udata

/-- A call of `kevent` finds a slot for each of its events. -/
structure PollFits (s : WatchState) (p : Poll) : Prop where
  nodup : (p.events.map Prod.fst).Nodup
  found : ∀ pid ∈ p.events.map Prod.fst,
    s.kqs p.fd = some p.kq ∧ ∃ i, (s.watches i).Watches p.fd pid

/-- The invariant of the table. -/
structure WatchInv (s : WatchState) : Prop where
  fits : ∀ i, (s.watches i).Used → ∃ kq, WatchFits s (s.watches i) kq
  single : ∀ i j, (s.watches i).Used → (s.watches j).Used → (s.watches i).kq = (s.watches j).kq →
    (s.watches i).pid = (s.watches j).pid → i = j
  eventfds : ∀ i j, (s.watches i).Used → (s.watches j).Used →
    (s.watches i).eventfd = (s.watches j).eventfd → i = j
  kqs : ∀ fd fd' kq, s.kqs fd = some kq → s.kqs fd' = some kq → fd = fd'
  created : ∀ fd kq, s.kqs fd = some kq → kq < s.created
  ready : ∀ e ef, s.eventfds e = some ef → ef.ready = true →
    ∃ i, (s.watches i).Used ∧ (s.watches i).eventfd = e
  polls : ∀ caller p, s.polls caller = some p → PollFits s p
  apart : ∀ c c' p p', c ≠ c' → s.polls c = some p → s.polls c' = some p' → p.fd = p'.fd →
    ∀ pid ∈ p.events.map Prod.fst, pid ∉ p'.events.map Prod.fst
  right : s.right = true

theorem ProcWatch.not_used_released (w : ProcWatch) : ¬ w.released.Used := by
  simp [released, Used]

theorem WatchState.not_used_initial (i : Fin maxProcWatch) : ¬ (WatchState.initial.watches i).Used :=
  Int.lt_irrefl 0

theorem WatchInv.initial : WatchInv .initial := by
  refine ⟨fun i used => ?_, fun i j used => ?_, fun i j used => ?_, fun fd fd' kq open_ => ?_,
    fun fd kq open_ => ?_, fun e ef open_ => ?_, fun caller p here => ?_,
    fun c c' p p' _ here => ?_, rfl⟩
  · exact absurd used (WatchState.not_used_initial i)
  · exact absurd used (WatchState.not_used_initial i)
  · exact absurd used (WatchState.not_used_initial i)
  · cases open_
  · cases open_
  · cases open_
  · cases here
  · cases here

section Steps

variable {s : WatchState}

/-- A slot of the kqueue `kq` has the descriptor of `kq`. -/
theorem WatchInv.kq_eq (inv : WatchInv s) {w : ProcWatch} {kq : ℕ} {fd : ℤ}
    (fits : WatchFits s w kq) (open_ : s.kqs fd = some kq) : w.kq = fd :=
  inv.kqs _ _ _ fits.open_ open_

/-- The kqueues after `epoll_create1`. -/
theorem WatchState.create_kqs {fd fd' : ℤ} {kq : ℕ} (open_ : (s.create fd).kqs fd' = some kq) :
    (fd' = fd ∧ kq = s.created) ∨ s.kqs fd' = some kq := by
  by_cases same : fd' = fd
  · subst same
    left
    have new : (s.create fd').kqs fd' = some s.created := Function.update_self ..
    rw [new] at open_
    exact ⟨rfl, (Option.some.inj open_).symm⟩
  · exact .inr ((Function.update_of_ne same _ _).symm.trans open_)

/-- The kqueues after `close`. -/
theorem WatchState.close_kqs {fd fd' : ℤ} {kq kq' : ℕ} (open_ : (s.close fd kq).kqs fd' = some kq') :
    s.kqs fd' = some kq' := by
  by_cases same : fd' = fd
  · subst same
    have gone : (s.close fd' kq).kqs fd' = none := Function.update_self ..
    rw [gone] at open_
    cases open_
  · exact (Function.update_of_ne same _ _).symm.trans open_

theorem WatchInv.create (inv : WatchInv s) {fd : ℤ} (fresh : s.Unopened fd) :
    WatchInv (s.create fd) := by
  obtain ⟨-, noKq, -⟩ := fresh
  have kept : ∀ {fd' : ℤ} {kq : ℕ}, s.kqs fd' = some kq → (s.create fd).kqs fd' = some kq := by
    intro fd' kq open_
    have other : fd' ≠ fd := by
      rintro rfl
      rw [noKq] at open_
      cases open_
    exact (Function.update_of_ne other _ _).trans open_
  refine ⟨fun i used => ?_, inv.single, inv.eventfds, fun fd₁ fd₂ kq open₁ open₂ => ?_,
    fun fd' kq open_ => ?_, inv.ready, fun caller p here => ?_, inv.apart, inv.right⟩
  · obtain ⟨kq, fits⟩ := inv.fits i used
    exact ⟨kq, kept fits.open_, fits.eventfd, fits.reg⟩
  · rcases WatchState.create_kqs open₁ with ⟨rfl, rfl⟩ | old₁
    · rcases WatchState.create_kqs open₂ with ⟨rfl, -⟩ | old₂
      · rfl
      · exact absurd (inv.created _ _ old₂) (Nat.lt_irrefl _)
    · rcases WatchState.create_kqs open₂ with ⟨rfl, rfl⟩ | old₂
      · exact absurd (inv.created _ _ old₁) (Nat.lt_irrefl _)
      · exact inv.kqs _ _ _ old₁ old₂
  · show kq < s.created + 1
    rcases WatchState.create_kqs open_ with ⟨-, rfl⟩ | old
    · exact Nat.lt_succ_self _
    · exact Nat.lt_succ_of_lt (inv.created _ _ old)
  · obtain ⟨nodup, found⟩ := inv.polls caller p here
    refine ⟨nodup, fun pid mem => ?_⟩
    obtain ⟨open_, slot⟩ := found pid mem
    exact ⟨kept open_, slot⟩

theorem WatchInv.close (inv : WatchInv s) {fd : ℤ} {kq : ℕ} (open_ : s.kqs fd = some kq)
    (unused : ∀ i, (s.watches i).Used → (s.watches i).kq ≠ fd) : WatchInv (s.close fd kq) := by
  have kept : ∀ {fd' : ℤ}, fd' ≠ fd → (s.close fd kq).kqs fd' = s.kqs fd' :=
    fun other => Function.update_of_ne other _ _
  refine ⟨fun i used => ?_, inv.single, inv.eventfds, fun fd₁ fd₂ kq' open₁ open₂ => ?_,
    fun fd' kq' open' => ?_, inv.ready, fun caller p here => ?_, inv.apart, inv.right⟩
  · obtain ⟨kq', fits⟩ := inv.fits i used
    have other : kq' ≠ kq := by
      rintro rfl
      exact unused i used (inv.kq_eq fits open_)
    exact ⟨kq', (kept (unused i used)).trans fits.open_, fits.eventfd, (if_neg other).trans fits.reg⟩
  · exact inv.kqs _ _ _ (WatchState.close_kqs open₁) (WatchState.close_kqs open₂)
  · exact inv.created _ _ (WatchState.close_kqs open')
  · obtain ⟨nodup, found⟩ := inv.polls caller p here
    refine ⟨nodup, fun pid mem => ?_⟩
    obtain ⟨live, i, watches⟩ := found pid mem
    have other : p.fd ≠ fd := by
      rw [← watches.1]
      exact unused i watches.2.2
    exact ⟨(kept other).trans live, i, watches⟩

/-- The registrations of others than the slots in use change freely. -/
theorem WatchInv.setReg (inv : WatchInv s) {fd : ℤ} {kq pid : ℕ} (open_ : s.kqs fd = some kq)
    (unwatched : ∀ i, ¬ (s.watches i).Watches fd pid) (udata : Option ℕ) :
    WatchInv { s with regs := Function.update s.regs (kq, pid) udata } := by
  refine ⟨fun i used => ?_, inv.single, inv.eventfds, inv.kqs, inv.created, inv.ready,
    fun caller p here => ⟨(inv.polls caller p here).nodup, (inv.polls caller p here).found⟩,
    inv.apart, inv.right⟩
  obtain ⟨kq', fits⟩ := inv.fits i used
  refine ⟨kq', fits.open_, fits.eventfd, ?_⟩
  have other : (kq', (s.watches i).pid) ≠ (kq, pid) := by
    intro same
    cases same
    exact unwatched i ⟨inv.kq_eq fits open_, rfl, used⟩
  exact (Function.update_of_ne other _ _).trans fits.reg

/-- A slot is taken for a registration. -/
theorem WatchInv.take (inv : WatchInv s) {fd e : ℤ} {kq pid udata half : ℕ} {i : Fin maxProcWatch}
    (open_ : s.kqs fd = some kq) (unwatched : ∀ i, ¬ (s.watches i).Watches fd pid)
    (reg : s.regs (kq, pid) = some udata) (free : ¬ (s.watches i).Used) (fresh : s.Unopened e) :
    WatchInv { s with
      watches := Function.update s.watches i ⟨fd, e, pid, udata⟩
      eventfds := Function.update s.eventfds e (some ⟨kq, pid, half, false⟩) } := by
  obtain ⟨-, -, noFd⟩ := fresh
  have old : ∀ j, (s.watches j).Used → j ≠ i ∧ (s.watches j).eventfd ≠ e := by
    intro j used
    refine ⟨fun same => free (same ▸ used), fun same => ?_⟩
    obtain ⟨kq', fits⟩ := inv.fits j used
    obtain ⟨ef, here, -⟩ := fits.eventfd
    rw [same, noFd] at here
    cases here
  have split : ∀ j, (Function.update s.watches i ⟨fd, e, pid, udata⟩ j).Used →
      j = i ∨ (j ≠ i ∧ Function.update s.watches i ⟨fd, e, pid, udata⟩ j = s.watches j ∧
        (s.watches j).Used) := by
    intro j used
    by_cases same : j = i
    · exact .inl same
    · rw [Function.update_of_ne same] at used ⊢
      exact .inr ⟨same, rfl, used⟩
  refine ⟨fun j used => ?_, fun j k usedJ usedK => ?_, fun j k usedJ usedK => ?_, inv.kqs,
    inv.created, fun e' ef here ready => ?_, fun caller p here => ?_, inv.apart, inv.right⟩
  · rcases split j used with rfl | ⟨-, same, was⟩
    · refine ⟨kq, ?_⟩
      dsimp only
      rw [Function.update_self]
      exact ⟨open_, ⟨_, Function.update_self .., rfl, rfl⟩, reg⟩
    · dsimp only
      rw [same]
      obtain ⟨kq', fits⟩ := inv.fits j was
      obtain ⟨ef, here, of⟩ := fits.eventfd
      exact ⟨kq', fits.open_, ⟨ef, (Function.update_of_ne (old j was).2 _ _).trans here, of⟩,
        fits.reg⟩
  · dsimp only
    rcases split j usedJ with rfl | ⟨-, sameJ, wasJ⟩
    · rcases split k usedK with rfl | ⟨-, sameK, wasK⟩
      · exact fun _ _ => rfl
      · rw [sameK, Function.update_self]
        exact fun kq_ pid_ => absurd ⟨kq_.symm, pid_.symm, wasK⟩ (unwatched k)
    · rcases split k usedK with rfl | ⟨-, sameK, wasK⟩
      · rw [sameJ, Function.update_self]
        exact fun kq_ pid_ => absurd ⟨kq_, pid_, wasJ⟩ (unwatched j)
      · rw [sameJ, sameK]
        exact inv.single j k wasJ wasK
  · dsimp only
    rcases split j usedJ with rfl | ⟨-, sameJ, wasJ⟩
    · rcases split k usedK with rfl | ⟨-, sameK, wasK⟩
      · exact fun _ => rfl
      · rw [sameK, Function.update_self]
        exact fun same => absurd same.symm (old k wasK).2
    · rcases split k usedK with rfl | ⟨-, sameK, wasK⟩
      · rw [sameJ, Function.update_self]
        exact fun same => absurd same (old j wasJ).2
      · rw [sameJ, sameK]
        exact inv.eventfds j k wasJ wasK
  · by_cases new : e' = e
    · subst new
      dsimp only at here
      rw [Function.update_self] at here
      cases here
      cases ready
    · obtain ⟨j, used, at_⟩ := inv.ready e' ef ((Function.update_of_ne new _ _).symm.trans here) ready
      refine ⟨j, ?_⟩
      dsimp only
      rw [Function.update_of_ne (old j used).1]
      exact ⟨used, at_⟩
  · obtain ⟨nodup, found⟩ := inv.polls caller p here
    refine ⟨nodup, fun pid' mem => ?_⟩
    obtain ⟨live, j, watches⟩ := found pid' mem
    refine ⟨live, j, ?_⟩
    dsimp only
    rw [Function.update_of_ne (old j watches.2.2).1]
    exact watches

theorem WatchState.freeWatch_spec {i : Fin maxProcWatch} (found : s.freeWatch = some i) :
    ¬ (s.watches i).Used := by
  simpa using List.find?_some found

theorem WatchState.findWatch_spec {fd : ℤ} {pid : ℕ} {i : Fin maxProcWatch}
    (found : s.findWatch fd pid = some i) : (s.watches i).Watches fd pid := by
  simpa using List.find?_some found

theorem WatchInv.add (inv : WatchInv s) {fd : ℤ} {kq : ℕ} (pid udata : ℕ) {efd : Option ℤ}
    (open_ : s.kqs fd = some kq) (fresh : ∀ e, efd = some e → s.Unopened e)
    (unwatched : ∀ i, ¬ (s.watches i).Watches fd pid) : WatchInv (s.add fd kq pid udata efd) := by
  have registered := inv.setReg open_ unwatched (some udata)
  unfold WatchState.add
  dsimp only
  split
  · next i e found =>
    exact registered.take open_ unwatched (Function.update_self ..) (WatchState.freeWatch_spec found)
      (fresh e rfl)
  · exact registered

/-- An eventfd after its process has ended. -/
theorem WatchState.notifyExit_eventfds (pid : ℕ) {e : ℤ} {ef : EventFd} (here : s.eventfds e = some ef) :
    ∃ ef', (s.notifyExit pid).eventfds e = some ef' ∧ ef'.kq = ef.kq ∧ ef'.pid = ef.pid ∧
      (ef.ready = true → ef'.ready = true) := by
  simp only [WatchState.notifyExit]
  split
  · rw [here]
    exact ⟨_, rfl, rfl, rfl, fun _ => rfl⟩
  · exact ⟨ef, here, rfl, rfl, id⟩

/-- A process ends, and its eventfds are written to. -/
theorem WatchInv.notifyExit (inv : WatchInv s) (pid : ℕ) : WatchInv (s.notifyExit pid) := by
  refine ⟨fun i used => ?_, inv.single, inv.eventfds, inv.kqs, inv.created,
    fun e ef here ready => ?_,
    fun caller p here => ⟨(inv.polls caller p here).nodup, (inv.polls caller p here).found⟩,
    inv.apart, inv.right⟩
  · obtain ⟨kq, fits⟩ := inv.fits i used
    obtain ⟨ef, here, kqEq, pidEq⟩ := fits.eventfd
    obtain ⟨ef', here', kqEq', pidEq', -⟩ := WatchState.notifyExit_eventfds pid here
    exact ⟨kq, fits.open_, ⟨ef', here', kqEq'.trans kqEq, pidEq'.trans pidEq⟩, fits.reg⟩
  · simp only [WatchState.notifyExit] at here
    split at here
    · next written =>
      obtain ⟨i, -, used, at_⟩ := written
      exact ⟨i, used, at_⟩
    · exact inv.ready e ef here ready

/-- A slot is released, and its registration is gone. -/
theorem WatchInv.release (inv : WatchInv s) {fd : ℤ} {kq pid : ℕ} {i : Fin maxProcWatch}
    (open_ : s.kqs fd = some kq) (watches : (s.watches i).Watches fd pid)
    (unpolled : ∀ caller p, s.polls caller = some p → p.fd = fd → pid ∉ p.events.map Prod.fst) :
    WatchInv { s with
      watches := Function.update s.watches i (s.watches i).released
      eventfds := Function.update s.eventfds (s.watches i).eventfd none
      regs := Function.update s.regs (kq, pid) none } := by
  obtain ⟨atFd, forPid, usedI⟩ := watches
  have kept : ∀ j, (Function.update s.watches i (s.watches i).released j).Used →
      j ≠ i ∧ Function.update s.watches i (s.watches i).released j = s.watches j ∧
        (s.watches j).Used := by
    intro j used
    by_cases same : j = i
    · subst same
      rw [Function.update_self] at used
      exact absurd used (s.watches j).not_used_released
    · rw [Function.update_of_ne same] at used ⊢
      exact ⟨same, rfl, used⟩
  refine ⟨fun j used => ?_, fun j k usedJ usedK => ?_, fun j k usedJ usedK => ?_, inv.kqs,
    inv.created, fun e ef here ready => ?_, fun caller p here => ?_, inv.apart, inv.right⟩
  · obtain ⟨other, same, was⟩ := kept j used
    dsimp only
    rw [same]
    obtain ⟨kq', fits⟩ := inv.fits j was
    obtain ⟨ef, here, of⟩ := fits.eventfd
    have otherFd : (s.watches j).eventfd ≠ (s.watches i).eventfd :=
      fun same => other (inv.eventfds j i was usedI same)
    have otherReg : (kq', (s.watches j).pid) ≠ (kq, pid) := by
      intro same
      cases same
      exact other (inv.single j i was usedI ((inv.kq_eq fits open_).trans atFd.symm) forPid.symm)
    exact ⟨kq', fits.open_, ⟨ef, (Function.update_of_ne otherFd _ _).trans here, of⟩,
      (Function.update_of_ne otherReg _ _).trans fits.reg⟩
  · obtain ⟨-, sameJ, wasJ⟩ := kept j usedJ
    obtain ⟨-, sameK, wasK⟩ := kept k usedK
    dsimp only
    rw [sameJ, sameK]
    exact inv.single j k wasJ wasK
  · obtain ⟨-, sameJ, wasJ⟩ := kept j usedJ
    obtain ⟨-, sameK, wasK⟩ := kept k usedK
    dsimp only
    rw [sameJ, sameK]
    exact inv.eventfds j k wasJ wasK
  · have other : e ≠ (s.watches i).eventfd := by
      rintro rfl
      dsimp only at here
      rw [Function.update_self] at here
      cases here
    obtain ⟨j, used, at_⟩ := inv.ready e ef ((Function.update_of_ne other _ _).symm.trans here) ready
    refine ⟨j, ?_⟩
    have otherJ : j ≠ i := by
      rintro rfl
      exact other at_.symm
    dsimp only
    rw [Function.update_of_ne otherJ]
    exact ⟨used, at_⟩
  · obtain ⟨nodup, found⟩ := inv.polls caller p here
    refine ⟨nodup, fun pid' mem => ?_⟩
    obtain ⟨live, j, watches⟩ := found pid' mem
    have otherJ : j ≠ i := by
      rintro rfl
      obtain ⟨atFd', forPid', -⟩ := watches
      refine unpolled caller p here (atFd'.symm.trans atFd) ?_
      rw [← forPid, forPid']
      exact mem
    refine ⟨live, j, ?_⟩
    dsimp only
    rw [Function.update_of_ne otherJ]
    exact watches

/-- At most one slot is in use for a kqueue and a process. -/
theorem WatchInv.watches_iff (inv : WatchInv s) {fd : ℤ} {pid : ℕ} {i j : Fin maxProcWatch}
    (watches : (s.watches i).Watches fd pid) : (s.watches j).Watches fd pid ↔ j = i := by
  constructor
  · intro watchesJ
    exact inv.single j i watchesJ.2.2 watches.2.2 (watchesJ.1.trans watches.1.symm)
      (watchesJ.2.1.trans watches.2.1.symm)
  · rintro rfl
    exact watches

theorem WatchInv.remove (inv : WatchInv s) {fd : ℤ} {kq : ℕ} (pid : ℕ) (open_ : s.kqs fd = some kq)
    (unpolled : ∀ caller p, s.polls caller = some p → p.fd = fd → pid ∉ p.events.map Prod.fst) :
    WatchInv (s.remove fd kq pid) := by
  by_cases watched : ∃ i, (s.watches i).Watches fd pid
  · obtain ⟨i, watches⟩ := watched
    have only : ∀ j, (s.watches j).Watches fd pid ↔ j = i := fun j => inv.watches_iff watches
    have same : s.remove fd kq pid = { s with
        watches := Function.update s.watches i (s.watches i).released
        eventfds := Function.update s.eventfds (s.watches i).eventfd none
        regs := Function.update s.regs (kq, pid) none } := by
      unfold WatchState.remove
      congr 1
      · funext j
        by_cases mine : j = i
        · rw [if_pos ((only j).2 mine), mine, Function.update_self]
        · rw [if_neg fun h => mine ((only j).1 h), Function.update_of_ne mine]
      · funext e
        by_cases mine : e = (s.watches i).eventfd
        · rw [if_pos ⟨i, watches, mine.symm⟩, mine, Function.update_self]
        · rw [Function.update_of_ne mine, if_neg]
          rintro ⟨j, watchesJ, at_⟩
          rw [(only j).1 watchesJ] at at_
          exact mine at_.symm
    rw [same]
    exact inv.release open_ watches unpolled
  · have unwatched : ∀ i, ¬ (s.watches i).Watches fd pid := fun i watches => watched ⟨i, watches⟩
    have same : s.remove fd kq pid = { s with regs := Function.update s.regs (kq, pid) none } := by
      simp [WatchState.remove, unwatched]
    rw [same]
    exact inv.setReg open_ unwatched none

/-- A call of `kevent` goes on with events it finds slots for. -/
theorem WatchInv.goOn (inv : WatchInv s) (caller : ℕ) {poll : Option Poll}
    (fits : ∀ p, poll = some p → PollFits s p)
    (apart : ∀ p, poll = some p → ∀ c p', c ≠ caller → s.polls c = some p' → p'.fd = p.fd →
      ∀ pid ∈ p.events.map Prod.fst, pid ∉ p'.events.map Prod.fst) :
    WatchInv (s.goOn caller poll) := by
  have split : ∀ c p, (s.goOn caller poll).polls c = some p →
      (c = caller ∧ poll = some p) ∨ (c ≠ caller ∧ s.polls c = some p) := by
    intro c p here
    by_cases mine : c = caller
    · subst mine
      have new : (s.goOn c poll).polls c = poll := Function.update_self ..
      exact .inl ⟨rfl, new.symm.trans here⟩
    · exact .inr ⟨mine, (Function.update_of_ne mine _ _).symm.trans here⟩
  refine ⟨fun i used => ?_, inv.single, inv.eventfds, inv.kqs, inv.created, inv.ready,
    fun c p here => ?_, fun c c' p p' other here here' sameFd pid mem mem' => ?_, inv.right⟩
  · obtain ⟨kq, fits⟩ := inv.fits i used
    exact ⟨kq, fits.open_, fits.eventfd, fits.reg⟩
  · rcases split c p here with ⟨-, now⟩ | ⟨-, before⟩
    · exact ⟨(fits p now).nodup, (fits p now).found⟩
    · exact ⟨(inv.polls c p before).nodup, (inv.polls c p before).found⟩
  · rcases split c p here with ⟨rfl, now⟩ | ⟨otherC, before⟩
    · rcases split c' p' here' with ⟨rfl, -⟩ | ⟨otherC', before'⟩
      · exact other rfl
      · exact apart p now c' p' otherC' before' sameFd.symm pid mem mem'
    · rcases split c' p' here' with ⟨rfl, now'⟩ | ⟨-, before'⟩
      · exact apart p' now' c p otherC before sameFd pid mem' mem
      · exact inv.apart c c' p p' other before before' sameFd pid mem mem'

/-- The eventfds `epoll_wait` returns are those of slots of the kqueue. -/
theorem WatchInv.slot_of_ready (inv : WatchInv s) {fd e : ℤ} {kq : ℕ} {ef : EventFd}
    (open_ : s.kqs fd = some kq) (here : s.eventfds e = some ef) (kqEq : ef.kq = kq)
    (ready : ef.ready = true) : ∃ i, (s.watches i).Watches fd ef.pid ∧ (s.watches i).eventfd = e := by
  obtain ⟨i, used, rfl⟩ := inv.ready e ef here ready
  obtain ⟨kq', fits⟩ := inv.fits i used
  obtain ⟨ef', here', kqEq', pidEq⟩ := fits.eventfd
  rw [here] at here'
  cases here'
  have sameKq : kq' = kq := kqEq'.symm.trans kqEq
  subst sameKq
  exact ⟨i, ⟨inv.kq_eq fits open_, pidEq.symm, used⟩, rfl⟩

theorem WatchState.mem_tags {ready : List ℤ} {pid : ℕ} :
    pid ∈ (s.tags ready).map Prod.fst ↔ ∃ e ∈ ready, ∃ ef, s.eventfds e = some ef ∧ ef.pid = pid := by
  simp [tags]

theorem WatchState.nodup_tags {ready : List ℤ} (nodup : ready.Nodup)
    (inj : ∀ e ∈ ready, ∀ e' ∈ ready, ∀ ef ef', s.eventfds e = some ef → s.eventfds e' = some ef' →
      ef.pid = ef'.pid → e = e') : ((s.tags ready).map Prod.fst).Nodup := by
  induction ready with
  | nil => exact List.nodup_nil
  | cons e rest ih =>
    obtain ⟨notMem, nodup⟩ := List.nodup_cons.1 nodup
    have later := ih nodup fun e₁ mem₁ e₂ mem₂ =>
      inj e₁ (List.mem_cons_of_mem e mem₁) e₂ (List.mem_cons_of_mem e mem₂)
    cases here : s.eventfds e with
    | none => simpa [tags, here] using later
    | some ef =>
      have head : s.tags (e :: rest) = (ef.pid, ef.udata) :: s.tags rest := by simp [tags, here]
      rw [head, List.map_cons, List.nodup_cons]
      refine ⟨fun mem => ?_, later⟩
      obtain ⟨e', mem', ef', here', samePid⟩ := WatchState.mem_tags.1 mem
      have same := inj e List.mem_cons_self e' (List.mem_cons_of_mem e mem') ef ef' here here'
        samePid.symm
      exact notMem (same ▸ mem')

theorem WatchInv.wait (inv : WatchInv s) {caller : ℕ} {fd : ℤ} {kq : ℕ} {ready : List ℤ}
    (open_ : s.kqs fd = some kq) (nodup : ready.Nodup)
    (written : ∀ e ∈ ready, ∃ ef, s.eventfds e = some ef ∧ ef.kq = kq ∧ ef.ready = true)
    (untaken : ∀ other p, s.polls other = some p → p.fd = fd →
      ∀ pid ∈ (s.tags ready).map Prod.fst, pid ∉ p.events.map Prod.fst) :
    WatchInv (s.goOn caller (some ⟨fd, kq, s.tags ready⟩)) := by
  have slot : ∀ e ∈ ready, ∀ ef, s.eventfds e = some ef →
      ∃ i, (s.watches i).Watches fd ef.pid ∧ (s.watches i).eventfd = e := by
    intro e mem ef here
    obtain ⟨ef', here', kqEq, isReady⟩ := written e mem
    rw [here] at here'
    cases here'
    exact inv.slot_of_ready open_ here kqEq isReady
  refine inv.goOn caller (fun p now => ?_) fun p now other p' _ here sameFd => ?_
  · cases now
    refine ⟨?_, fun pid mem => ?_⟩
    · -- two ready eventfds with one pid would be of one slot
      refine WatchState.nodup_tags nodup fun e mem e' mem' ef ef' here here' samePid => ?_
      obtain ⟨i, watches, rfl⟩ := slot e mem ef here
      obtain ⟨i', watches', rfl⟩ := slot e' mem' ef' here'
      rw [samePid] at watches
      rw [(inv.watches_iff watches').1 watches]
    · obtain ⟨e, taken, ef, here, rfl⟩ := WatchState.mem_tags.1 mem
      obtain ⟨i, watches, -⟩ := slot e taken ef here
      exact ⟨open_, i, watches⟩
  · cases now
    exact untaken other p' here sameFd

/-- A call of `kevent` reports an event, and it is right. -/
theorem WatchInv.report (inv : WatchInv s) {caller : ℕ} {fd : ℤ} {kq pid udata : ℕ}
    {rest : List (ℕ × ℕ)} (here : s.polls caller = some ⟨fd, kq, (pid, udata) :: rest⟩) :
    WatchInv ((s.harvest fd kq pid udata).goOn caller (some ⟨fd, kq, rest⟩)) := by
  obtain ⟨nodup, found⟩ := inv.polls caller _ here
  obtain ⟨notMem, nodup⟩ := List.nodup_cons.1 nodup
  obtain ⟨open_, i, watches⟩ := found pid List.mem_cons_self
  have atI : s.findWatch fd pid = some i := by
    cases find : s.findWatch fd pid with
    | none =>
      have none_ := List.find?_eq_none.1 find i (List.mem_finRange i)
      exact absurd watches (by simpa using none_)
    | some j =>
      rw [(inv.watches_iff watches).1 (WatchState.findWatch_spec find)]
  obtain ⟨kq', fits⟩ := inv.fits i watches.2.2
  have reg : s.regs (kq, pid) = some (s.watches i).udata := by
    have sameKq : kq' = kq := by
      have live := fits.open_
      rw [watches.1, open_] at live
      exact (Option.some.inj live).symm
    rw [← watches.2.1, ← sameKq]
    exact fits.reg
  -- the call drops the event first, so that no call is about to report it when its slot is released
  have dropped : WatchInv (s.goOn caller (some ⟨fd, kq, rest⟩)) := by
    refine inv.goOn caller (fun p now => ?_) fun p now c p' other before sameFd pid' mem => ?_
    · cases now
      exact ⟨nodup, fun pid' mem => found pid' (List.mem_cons_of_mem pid mem)⟩
    · cases now
      exact inv.apart caller c _ p' other.symm here before sameFd.symm pid'
        (List.mem_cons_of_mem pid mem)
  have released := dropped.release open_ watches fun c p before sameFd => ?_
  · have same : (s.harvest fd kq pid udata).goOn caller (some ⟨fd, kq, rest⟩) =
        { s.goOn caller (some ⟨fd, kq, rest⟩) with
          watches := Function.update s.watches i (s.watches i).released
          eventfds := Function.update s.eventfds (s.watches i).eventfd none
          regs := Function.update s.regs (kq, pid) none } := by
      simp only [WatchState.harvest, atI, WatchState.reportTo, if_pos reg, WatchState.goOn]
    rw [same]
    exact released
  · by_cases mine : c = caller
    · subst mine
      have now : (s.goOn c (some ⟨fd, kq, rest⟩)).polls c = some ⟨fd, kq, rest⟩ :=
        Function.update_self ..
      rw [now] at before
      cases before
      exact notMem
    · have was : s.polls c = some p := (Function.update_of_ne mine _ _).symm.trans before
      exact inv.apart caller c _ p (Ne.symm mine) here was sameFd.symm pid List.mem_cons_self

end Steps

/-! ## Conservation -/

/-- Every allowed step keeps the invariant. -/
theorem WatchInv.step {s s' : WatchState} {op : WatchOp} (inv : WatchInv s) (ok : WatchOk s op)
    (next : WatchStep s op s') : WatchInv s' := by
  cases next with
  | create fresh => exact inv.create fresh
  | close open_ => exact inv.close open_ ok
  | add pid udata open_ fresh => exact inv.add pid udata open_ fresh ok
  | remove pid open_ => exact inv.remove pid open_ ok
  | exit pid => exact inv.notifyExit pid
  | wait open_ idle nodup written => exact inv.wait open_ nodup written ok
  | report here => exact inv.report here
  | finish here =>
    refine inv.goOn _ (fun p now => ?_) fun p now => ?_
    · cases now
    · cases now

/-- What the table promises. -/
structure WatchesConserved (s : WatchState) : Prop where
  /-- A slot in use belongs to an open kqueue and has its eventfd in the epoll instance of that
  kqueue. -/
  live : ∀ i, (s.watches i).Used → ∃ kq ef, s.kqs (s.watches i).kq = some kq ∧
    s.eventfds (s.watches i).eventfd = some ef ∧ ef.kq = kq
  /-- Every event so far was of a registration of the kqueue it was reported on, had its `udata`, and
  was the first of that registration. -/
  right : s.right = true
  /-- The table is full only when that many registrations have not been reported. -/
  room : s.freeWatch = none →
    ∃ reg : Fin maxProcWatch → ℕ × ℕ, Function.Injective reg ∧ ∀ i, s.regs (reg i) ≠ none

/-- The registration of a slot. -/
def WatchState.regOf (s : WatchState) (i : Fin maxProcWatch) : ℕ × ℕ :=
  ((s.kqs (s.watches i).kq).getD 0, (s.watches i).pid)

theorem WatchInv.room {s : WatchState} (inv : WatchInv s) (full : s.freeWatch = none) :
    Function.Injective s.regOf ∧ ∀ i, s.regs (s.regOf i) ≠ none := by
  have used : ∀ i, (s.watches i).Used := by
    intro i
    simpa using List.find?_eq_none.1 full i (List.mem_finRange i)
  refine ⟨fun i j same => ?_, fun i => ?_⟩
  · obtain ⟨kqI, fitsI⟩ := inv.fits i (used i)
    obtain ⟨kqJ, fitsJ⟩ := inv.fits j (used j)
    unfold WatchState.regOf at same
    rw [fitsI.open_, fitsJ.open_] at same
    obtain ⟨rfl, samePid⟩ : kqI = kqJ ∧ (s.watches i).pid = (s.watches j).pid := by simpa using same
    exact inv.single i j (used i) (used j) (inv.kqs _ _ _ fitsI.open_ fitsJ.open_) samePid
  · obtain ⟨kq, fits⟩ := inv.fits i (used i)
    unfold WatchState.regOf
    rw [fits.open_]
    simp [fits.reg]

/-- The table keeps its promise in every run of allowed steps. -/
theorem proc_watch_conserved {s : WatchState} (run : watchSystem.ReachableIf WatchOk s) :
    WatchesConserved s := by
  have inv : WatchInv s := by
    refine run.invariant (fun s start => ?_) fun s op s' inv ok next => inv.step ok next
    rw [show s = .initial from start]
    exact .initial
  refine ⟨fun i used => ?_, inv.right, fun full => ⟨s.regOf, inv.room full⟩⟩
  obtain ⟨kq, fits⟩ := inv.fits i used
  obtain ⟨ef, here, kqEq, -⟩ := fits.eventfd
  exact ⟨kq, ef, fits.open_, here, kqEq⟩

set_option maxRecDepth 4000 in
/-- A kqueue on descriptor 7 has watched process 2 and reported its exit. -/
theorem proc_watch_conserved_one_exit :
    ∃ s : WatchState, watchSystem.ReachableIf WatchOk s ∧ s.regs (0, 2) = none ∧
      WatchesConserved s := by
  have start : watchSystem.ReachableIf WatchOk .initial := .init rfl
  have created := start.step (show WatchOk _ (.create 7) from trivial)
    (show WatchStep _ (.create 7) _ from .create ⟨by decide, rfl, rfl⟩)
  have added := created.step
    (show WatchOk _ (.add 7 2 100 (some 8)) from fun i watches => Int.lt_irrefl 0 watches.2.2)
    (show WatchStep _ (.add 7 2 100 (some 8)) _ from .add 2 100 rfl fun e given => by
      cases given
      exact ⟨by decide, rfl, rfl⟩)
  have exited := added.step (show WatchOk _ (.exit 2) from trivial)
    (show WatchStep _ (.exit 2) _ from .exit 2)
  have waited := exited.step
    (show WatchOk _ (.wait 1 7 [8]) from fun other p here => by cases here)
    (show WatchStep _ (.wait 1 7 [8]) _ from .wait rfl rfl (by decide) fun e mem => by
      rw [List.mem_singleton.1 mem]
      exact ⟨⟨0, 2, 100, true⟩, rfl, rfl, rfl⟩)
  have reported := waited.step (show WatchOk _ (.report 1) from trivial)
    (show WatchStep _ (.report 1) _ from .report rfl)
  exact ⟨_, reported, rfl, proc_watch_conserved reported⟩

set_option maxRecDepth 4000 in
/-- A kqueue on descriptor 7 is closed while it watches process 2.  The next kqueue gets the same
descriptor and watches process 2 with another `udata`, and reports that of the first. -/
theorem closed_kqueue_reports :
    ∃ s : WatchState, watchSystem.Reachable s ∧ s.right = false ∧ ¬ WatchesConserved s := by
  have start : watchSystem.Reachable .initial := .start rfl
  have created := start.next (show WatchStep _ (.create 7) _ from .create ⟨by decide, rfl, rfl⟩)
  have added := created.next
    (show WatchStep _ (.add 7 2 100 (some 8)) _ from .add 2 100 rfl fun e given => by
      cases given
      exact ⟨by decide, rfl, rfl⟩)
  have closed := added.next (show WatchStep _ (.close 7) _ from .close rfl)
  have again := closed.next (show WatchStep _ (.create 7) _ from .create ⟨by decide, rfl, rfl⟩)
  have second := again.next
    (show WatchStep _ (.add 7 2 200 (some 9)) _ from .add 2 200 rfl fun e given => by
      cases given
      exact ⟨by decide, rfl, rfl⟩)
  have exited := second.next (show WatchStep _ (.exit 2) _ from .exit 2)
  have waited := exited.next
    (show WatchStep _ (.wait 1 7 [9]) _ from .wait rfl rfl (by decide) fun e mem => by
      rw [List.mem_singleton.1 mem]
      exact ⟨⟨1, 2, 200, true⟩, rfl, rfl, rfl⟩)
  have reported := waited.next (show WatchStep _ (.report 1) _ from .report rfl)
  exact ⟨_, reported, rfl, fun promised => absurd promised.right (by decide)⟩

end Yos
