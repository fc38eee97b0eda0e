import Yos.Io.Fd
import Yos.Lib.Writes

/-!
# `poll` (`yos_poll`, `impl/io/dir.c`)

The bridge gives the entries to the host's `poll` with translated descriptors.  Regular files,
directories and the null device are always ready: the bridge answers them itself, and lets the host
skip them.  Of the promises of `poll` two fail.  An entry whose guest descriptor is not open is
skipped too, and gets no `POLLNVAL`; and an entry on a file that asks for none of the four kinds of
readiness gets `POLLIN`, which it has not asked for (`yosPoll_met_iff`).
-/

namespace Yos

open Bytes

/-! ## The bridge -/

/-- The bits of an event. -/
abbrev Events := BitVec 16

def pollIn : Events := 0x1
def pollOut : Events := 0x4
def pollErr : Events := 0x8
def pollHup : Events := 0x10
def pollNval : Events := 0x20
def pollRdnorm : Events := 0x40
def pollWrnorm : Events := 0x100

/-- An entry without its result. -/
structure PollFd where
  fd : ℤ
  events : Events
deriving DecidableEq, Repr

/-- What `fstat` says about a file. -/
inductive StatKind where
  | regular | directory | null | other
deriving DecidableEq, Repr

/-- What the host's `poll` returns, and what it stores in the entries. -/
structure PollAnswer where
  value : ℤ
  revents : ℕ → Events

/-- The host: what its files are, and its `poll` of some entries with a timeout. -/
structure PollHost where
  fstat : ℤ → Option StatKind
  poll : (entries : ℕ → PollFd) → (nfds : ℕ) → (timeout : ℤ) → PollAnswer

/-- The guest's entry `i`. -/
def pollFd (m : Bytes) (off i : ℕ) : PollFd :=
  ⟨readSigned (fun j => m (off + i * 8 + j)) 4,
    BitVec.ofNat 16 (readLE (fun j => m (off + i * 8 + 4 + j)) 2)⟩

/-- The result of the guest's entry `i`. -/
def revents (m : Bytes) (off i : ℕ) : Events :=
  BitVec.ofNat 16 (readLE (fun j => m (off + i * 8 + 6 + j)) 2)

/-- The files that are always ready. -/
def alwaysReady : Option StatKind → Bool
  | some .regular | some .directory | some .null => true
  | some .other | none => false

/-- The kinds of readiness the bridge knows. -/
def readiness : Events := pollIn ||| pollOut ||| pollRdnorm ||| pollWrnorm

/-- The events the bridge reports for a file that is always ready. -/
def synthRevents (events : Events) : Events :=
  let wanted := events &&& readiness
  if wanted = 0 ∧ events ≠ 0 then pollIn else wanted

/-- The translated descriptor of an entry. -/
def pollHostFd (ctx : FdCtx) (e : PollFd) : ℤ :=
  if e.fd < 0 then e.fd
  else
    let hfd := (yosFdGet ctx e.fd).value
    if hfd < 0 then -1 else hfd

/-- The entry is on a file that is always ready. -/
def PollHost.ready (host : PollHost) (ctx : FdCtx) (e : PollFd) : Bool :=
  0 ≤ pollHostFd ctx e && alwaysReady (host.fstat (pollHostFd ctx e))

/-- What an entry becomes for the host. -/
def PollHost.entry (host : PollHost) (ctx : FdCtx) (e : PollFd) : PollFd :=
  ⟨if host.ready ctx e then -1 else pollHostFd ctx e, e.events⟩

/-- `synth_revents`. -/
def PollHost.synth (host : PollHost) (ctx : FdCtx) (e : PollFd) : Events :=
  if host.ready ctx e then synthRevents e.events else 0

/-- The answer the bridge merges its own with; the host is asked only if there is an entry for
it. -/
def PollHost.answer (host : PollHost) (ctx : FdCtx) (off nfds : ℕ) (timeout : ℤ) : PollAnswer :=
  let guest := pollFd ctx.memory off
  if (List.range nfds).any fun i => 0 ≤ (host.entry ctx (guest i)).fd then
    let hasSynth := (List.range nfds).any fun i => host.synth ctx (guest i) ≠ 0
    host.poll (fun i => host.entry ctx (guest i)) nfds (if hasSynth then 0 else timeout)
  else ⟨0, fun _ => 0⟩

/-- The result of an entry. -/
def PollHost.merged (host : PollHost) (ctx : FdCtx) (off nfds : ℕ) (timeout : ℤ) (i : ℕ) : Events :=
  let synth := host.synth ctx (pollFd ctx.memory off i)
  if synth ≠ 0 then synth else (host.answer ctx off nfds timeout).revents i

/-- The loop that stores the results. -/
def storeRevents (m : Bytes) (off nfds : ℕ) (rev : ℕ → Events) : Bytes :=
  Write.runAll ((List.range nfds).map fun i => ⟨off + i * 8 + 6, 2, leByte (rev i).toNat⟩) m

/-- `yos_poll`; a failing host call sets the error `e`. -/
def yosPoll (host : PollHost) (e : Errno) (ctx : FdCtx) (off nfds : ℕ) (timeout : ℤ) :
    Bytes × Ret :=
  if nfds = 0 then (ctx.memory, ⟨(host.poll (fun _ => ⟨-1, 0⟩) 0 timeout).value, none⟩)
  else if 1024 < nfds then (ctx.memory, yosErrnoNeg .EINVAL)
  else if off = 0 ∨ ctx.memorySize < off + nfds * 8 then (ctx.memory, yosErrnoNeg .EFAULT)
  else
    let guest := pollFd ctx.memory off
    let answer := host.answer ctx off nfds timeout
    let memory := storeRevents ctx.memory off nfds (host.merged ctx off nfds timeout)
    let count := (List.range nfds).countP fun i => host.merged ctx off nfds timeout i ≠ 0
    if answer.value < 0 ∧ count = 0 then (memory, yosErrnoNeg e)
    else
      let r := if answer.value < 0 then 0 else answer.value
      let extra := (List.range nfds).countP fun i =>
        host.synth ctx (guest i) ≠ 0 && (host.entry ctx (guest i)).fd < 0
      (memory, ⟨r + extra, none⟩)

/-! ## What the bridge stores -/

section Store

variable {m : Bytes} {off n i : ℕ} {rev : ℕ → Events}

theorem storeRevents_succ :
    storeRevents m off (n + 1) rev =
      Write.run ⟨off + n * 8 + 6, 2, leByte (rev n).toNat⟩ (storeRevents m off n rev) := by
  rw [storeRevents, List.range_succ, List.map_append, Write.runAll_append]
  rfl

/-- Nothing outside the results changes. -/
theorem storeRevents_of_outside {x : ℕ}
    (outside : ∀ i < n, ¬ (off + i * 8 + 6 ≤ x ∧ x < off + i * 8 + 8)) :
    storeRevents m off n rev x = m x := by
  induction n with
  | zero => rfl
  | succ n ih =>
    have last := outside n (Nat.lt_succ_self n)
    rw [storeRevents_succ, Write.run]
    dsimp only
    rw [if_neg (by omega)]
    exact ih fun i lt => outside i (Nat.lt_succ_of_lt lt)

theorem storeRevents_apply {j : ℕ} (lt : i < n) (byte : j < 2) :
    storeRevents m off n rev (off + i * 8 + 6 + j) = leByte (rev i).toNat j := by
  induction n with
  | zero => exact absurd lt (Nat.not_lt_zero i)
  | succ n ih =>
    rw [storeRevents_succ, Write.run]
    dsimp only
    by_cases last : i = n
    · rw [last, if_pos (by omega), Nat.add_sub_cancel_left]
    · rw [if_neg (by omega)]
      exact ih (by omega)

theorem revents_storeRevents (lt : i < n) : revents (storeRevents m off n rev) off i = rev i := by
  have number : readLE (leByte (rev i).toNat) 2 = (rev i).toNat := by
    have small := (rev i).isLt
    have whole := readLE_leByte ((rev i).toNat : ℤ) 2
    omega
  rw [revents, readLE_congr fun j byte => storeRevents_apply lt byte, number, BitVec.ofNat_toNat,
    BitVec.setWidth_eq]

end Store

/-! ## The answers -/

/-- What the host's `poll` promises. -/
structure PollAnswer.Proper (a : PollAnswer) (entries : ℕ → PollFd) (nfds : ℕ) : Prop where
  within : ∀ i < nfds,
    a.revents i &&& ((entries i).events ||| pollErr ||| pollHup ||| pollNval) = a.revents i
  ignored : ∀ i < nfds, (entries i).fd < 0 → a.revents i = 0
  count : 0 ≤ a.value → a.value = (List.range nfds).countP fun i => a.revents i ≠ 0
  failed : a.value < 0 → ∀ i < nfds, a.revents i = 0

/-- Nothing is ready. -/
theorem nothing_proper (entries : ℕ → PollFd) (n : ℕ) :
    PollAnswer.Proper ⟨0, fun _ => 0⟩ entries n := by
  refine ⟨fun i _ => BitVec.zero_and, fun i _ _ => rfl, fun _ => ?_, fun _ i _ => rfl⟩
  have none : (List.range n).countP (fun _ => ((0 : Events) ≠ 0)) = 0 :=
    List.countP_eq_zero.2 fun i _ => by simp
  exact congrArg (Nat.cast : ℕ → ℤ) none.symm

theorem countP_or_of_disjoint {α : Type} {p q : α → Bool} {l : List α}
    (apart : ∀ a ∈ l, p a = true → q a = false) :
    l.countP (fun a => p a || q a) = l.countP p + l.countP q := by
  induction l with
  | nil => rfl
  | cons a l ih =>
    obtain ⟨first, rest⟩ := List.forall_mem_cons.1 apart
    rw [List.countP_cons, List.countP_cons, List.countP_cons, ih rest]
    cases at_a : p a with
    | true =>
      rw [first at_a]
      simp only [Bool.true_or, if_true, Bool.false_eq_true, if_false]
      omega
    | false =>
      simp only [Bool.false_or, Bool.false_eq_true, if_false]
      omega

section Answers

variable {host : PollHost} {ctx : FdCtx} {off nfds i : ℕ} {timeout : ℤ} {e : PollFd}

theorem answer_proper (proper : ∀ entries n t, (host.poll entries n t).Proper entries n) :
    (host.answer ctx off nfds timeout).Proper
      (fun i => host.entry ctx (pollFd ctx.memory off i)) nfds := by
  rw [PollHost.answer]
  dsimp only
  split
  case isTrue => exact proper _ _ _
  case isFalse => exact nothing_proper _ _

theorem synthRevents_eq_zero : synthRevents e.events = 0 ↔ e.events = 0 := by
  rw [synthRevents]
  by_cases nothing : e.events = 0
  · rw [nothing, if_neg fun h => h.2 rfl]
    exact iff_of_true BitVec.zero_and rfl
  · split_ifs with other
    · exact iff_of_false (by decide) nothing
    · refine iff_of_false (fun same => other ⟨same, nothing⟩) nothing

theorem synth_ne_zero : host.synth ctx e ≠ 0 ↔ host.ready ctx e = true ∧ e.events ≠ 0 := by
  rw [PollHost.synth]
  split_ifs with ready
  · rw [Ne, synthRevents_eq_zero]
    exact (and_iff_right ready).symm
  · exact iff_of_false (fun h => h rfl) fun h => ready h.1

theorem entry_events : (host.entry ctx e).events = e.events := rfl

/-- An entry that the bridge answers is skipped by the host. -/
theorem entry_of_ready (ready : host.ready ctx e = true) : (host.entry ctx e).fd = -1 := by
  rw [PollHost.entry, if_pos ready]

theorem entry_of_negative (negative : e.fd < 0) : (host.entry ctx e).fd < 0 := by
  rw [PollHost.entry]
  dsimp only
  split
  · decide
  · rwa [pollHostFd, if_pos negative]

theorem ready_of_negative (negative : pollHostFd ctx e < 0) : host.ready ctx e = false := by
  rw [PollHost.ready, decide_eq_false (by omega), Bool.false_and]

theorem pollHostFd_of_closed (closed : (yosFdGet ctx e.fd).value < 0) : pollHostFd ctx e < 0 := by
  rw [pollHostFd]
  dsimp only
  split_ifs with negative
  · exact negative
  · decide

theorem entry_of_not_ready (idle : host.ready ctx e = false) :
    (host.entry ctx e).fd = pollHostFd ctx e := by
  rw [PollHost.entry, idle]
  rfl

/-- The results that are not zero are those of the host and those of the bridge. -/
theorem count_merged (proper : ∀ entries n t, (host.poll entries n t).Proper entries n) :
    let answer := host.answer ctx off nfds timeout
    (if answer.value < 0 then 0 else answer.value) +
        ((List.range nfds).countP fun i => host.synth ctx (pollFd ctx.memory off i) ≠ 0 &&
          (host.entry ctx (pollFd ctx.memory off i)).fd < 0 : ℕ) =
      ((List.range nfds).countP fun i => host.merged ctx off nfds timeout i ≠ 0 : ℕ) := by
  intro answer
  have promises : answer.Proper _ nfds := answer_proper proper
  have skipped : ∀ i, host.synth ctx (pollFd ctx.memory off i) ≠ 0 →
      (host.entry ctx (pollFd ctx.memory off i)).fd = -1 :=
    fun i synth => entry_of_ready (synth_ne_zero.1 synth).1
  have own : (if answer.value < 0 then 0 else answer.value) =
      ((List.range nfds).countP fun i => answer.revents i ≠ 0 : ℕ) := by
    split_ifs with failed
    · have none : (List.range nfds).countP (fun i => answer.revents i ≠ 0) = 0 := by
        rw [List.countP_eq_zero]
        intro i mem
        simpa using promises.failed failed i (List.mem_range.1 mem)
      rw [none]
      rfl
    · exact promises.count (by omega)
  have sum : (List.range nfds).countP (fun i => host.merged ctx off nfds timeout i ≠ 0) =
      (List.range nfds).countP (fun i => answer.revents i ≠ 0) +
        (List.range nfds).countP fun i => host.synth ctx (pollFd ctx.memory off i) ≠ 0 &&
          (host.entry ctx (pollFd ctx.memory off i)).fd < 0 := by
    rw [← countP_or_of_disjoint]
    · apply List.countP_congr
      intro i _
      rw [PollHost.merged, Bool.or_eq_true, Bool.and_eq_true, decide_eq_true_iff,
        decide_eq_true_iff, decide_eq_true_iff, decide_eq_true_iff]
      by_cases synth : host.synth ctx (pollFd ctx.memory off i) = 0
      · rw [if_neg (not_not.2 synth), synth]
        exact ⟨Or.inl, fun h => h.resolve_right fun h => h.1 rfl⟩
      · rw [if_pos synth]
        exact iff_of_true synth (Or.inr ⟨synth, by rw [skipped i synth]; decide⟩)
    · intro i mem set
      refine Bool.and_eq_false_iff.2 (Or.inr (decide_eq_false fun negative => ?_))
      exact of_decide_eq_true set (promises.ignored i (List.mem_range.1 mem) negative)
  rw [own, sum, Int.natCast_add]

/-- The call fails exactly when the host's does and there is nothing to report for a file that is
always ready. -/
theorem merged_fails_iff (proper : ∀ entries n t, (host.poll entries n t).Proper entries n)
    (failed : (host.answer ctx off nfds timeout).value < 0) :
    (List.range nfds).countP (fun i => host.merged ctx off nfds timeout i ≠ 0) = 0 ↔
      ∀ i < nfds, host.ready ctx (pollFd ctx.memory off i) = true →
        (pollFd ctx.memory off i).events = 0 := by
  have answered : (host.answer ctx off nfds timeout).Proper _ nfds := answer_proper proper
  have silent := answered.failed failed
  rw [List.countP_eq_zero]
  have each : ∀ i < nfds, host.merged ctx off nfds timeout i = 0 ↔
      (host.ready ctx (pollFd ctx.memory off i) = true → (pollFd ctx.memory off i).events = 0) := by
    intro i lt
    rw [PollHost.merged]
    split_ifs with synth
    · refine iff_of_false synth fun quiet => ?_
      obtain ⟨ready, some⟩ := synth_ne_zero.1 synth
      exact some (quiet ready)
    · refine iff_of_true (silent i lt) fun ready => ?_
      by_contra some
      exact synth (synth_ne_zero.2 ⟨ready, some⟩)
  constructor
  · intro zero i lt
    exact (each i lt).1 (by simpa using zero i (List.mem_range.2 lt))
  · intro quiet i mem
    have lt := List.mem_range.1 mem
    simpa using (each i lt).2 (quiet i lt)

end Answers

/-! ## The call -/

/-- What a guest counts on.  If the call does not fail, it returns the number of entries with a
result, and each result is right for its entry; in any case nothing else in memory changes. -/
structure PollMet (ctx : FdCtx) (off nfds : ℕ) (out : Bytes × Ret) : Prop where
  count : 0 ≤ out.2.value →
    out.2.value = (List.range nfds).countP fun i => revents out.1 off i ≠ 0
  within : 0 ≤ out.2.value → ∀ i < nfds, revents out.1 off i &&&
    ((pollFd ctx.memory off i).events ||| pollErr ||| pollHup ||| pollNval) = revents out.1 off i
  ignored : 0 ≤ out.2.value → ∀ i < nfds,
    (pollFd ctx.memory off i).fd < 0 → revents out.1 off i = 0
  closed : 0 ≤ out.2.value → ∀ i < nfds, 0 ≤ (pollFd ctx.memory off i).fd →
    (yosFdGet ctx (pollFd ctx.memory off i).fd).value < 0 → revents out.1 off i = pollNval
  frame : ∀ x, (∀ i < nfds, ¬ (off + i * 8 + 6 ≤ x ∧ x < off + i * 8 + 8)) →
    out.1 x = ctx.memory x

/-- The entry is ignored or open, and if it is on a file that is always ready it asks for nothing or
for a kind of readiness the bridge knows. -/
def PollHost.Good (host : PollHost) (ctx : FdCtx) (e : PollFd) : Prop :=
  (0 ≤ e.fd → 0 ≤ (yosFdGet ctx e.fd).value) ∧
    (host.ready ctx e = true → e.events = 0 ∨ e.events &&& readiness ≠ 0)

/-- The host's `poll` fails, and the bridge has nothing of its own to report. -/
def PollHost.Fails (host : PollHost) (ctx : FdCtx) (off nfds : ℕ) (timeout : ℤ) : Prop :=
  (host.answer ctx off nfds timeout).value < 0 ∧
    ∀ i < nfds, host.ready ctx (pollFd ctx.memory off i) = true →
      (pollFd ctx.memory off i).events = 0

section Call

variable {host : PollHost} {ctx : FdCtx} {off nfds i : ℕ} {timeout : ℤ} {e : PollFd} {err : Errno}

/-- The two ways the call ends when its arguments are right. -/
theorem yosPoll_eq (proper : ∀ entries n t, (host.poll entries n t).Proper entries n)
    (some : nfds ≠ 0) (few : nfds ≤ 1024) (nonnull : off ≠ 0)
    (inside : off + nfds * 8 ≤ ctx.memorySize) :
    yosPoll host err ctx off nfds timeout =
      (storeRevents ctx.memory off nfds (host.merged ctx off nfds timeout),
        open Classical in
        if host.Fails ctx off nfds timeout then yosErrnoNeg err
        else ⟨((List.range nfds).countP fun i => host.merged ctx off nfds timeout i ≠ 0 : ℕ),
          none⟩) := by
  have bounds : ¬ (off = 0 ∨ ctx.memorySize < off + nfds * 8) := by omega
  rw [yosPoll, if_neg some, if_neg (by omega), if_neg bounds]
  dsimp only
  rw [count_merged proper]
  have same : host.Fails ctx off nfds timeout ↔
      (host.answer ctx off nfds timeout).value < 0 ∧
        (List.range nfds).countP (fun i => host.merged ctx off nfds timeout i ≠ 0) = 0 :=
    and_congr_right fun failed => (merged_fails_iff proper failed).symm
  by_cases fails : host.Fails ctx off nfds timeout
  · rw [if_pos (same.1 fails), if_pos fails]
  · rw [if_neg fun h => fails (same.2 h), if_neg fails]

theorem and_within {w : ℕ} (x m a b c : BitVec w) :
    x &&& m &&& (x ||| a ||| b ||| c) = x &&& m := by
  apply BitVec.eq_of_getLsbD_eq
  intro i _
  simp only [BitVec.getLsbD_and, BitVec.getLsbD_or]
  cases x.getLsbD i <;> simp

theorem merged_within (proper : ∀ entries n t, (host.poll entries n t).Proper entries n)
    (good : host.Good ctx (pollFd ctx.memory off i)) (lt : i < nfds) :
    host.merged ctx off nfds timeout i &&&
        ((pollFd ctx.memory off i).events ||| pollErr ||| pollHup ||| pollNval) =
      host.merged ctx off nfds timeout i := by
  rw [PollHost.merged]
  split_ifs with synth
  · obtain ⟨ready, some⟩ := synth_ne_zero.1 synth
    have known := (good.2 ready).resolve_left some
    rw [PollHost.synth, if_pos ready, synthRevents, if_neg fun h => known h.1]
    exact and_within _ _ _ _ _
  · have answered : (host.answer ctx off nfds timeout).Proper _ nfds := answer_proper proper
    have within := answered.within i lt
    rwa [entry_events] at within

/-- An entry without a host descriptor gets no result. -/
theorem merged_of_negative (proper : ∀ entries n t, (host.poll entries n t).Proper entries n)
    (lt : i < nfds) (negative : pollHostFd ctx (pollFd ctx.memory off i) < 0) :
    host.merged ctx off nfds timeout i = 0 := by
  have idle : host.ready ctx _ = false := ready_of_negative negative
  have synth : host.synth ctx (pollFd ctx.memory off i) = 0 := by
    rw [PollHost.synth, idle]
    rfl
  rw [PollHost.merged, if_neg (not_not.2 synth)]
  refine (answer_proper proper).ignored i lt ?_
  rw [entry_of_not_ready idle]
  exact negative

/-- A file that is always ready reports an event that was not asked for. -/
theorem merged_not_within (bad : ¬ (e.events = 0 ∨ e.events &&& readiness ≠ 0)) :
    synthRevents e.events &&& (e.events ||| pollErr ||| pollHup ||| pollNval) ≠
      synthRevents e.events := by
  rw [not_or, not_not] at bad
  rw [synthRevents, if_pos ⟨bad.2, bad.1⟩]
  have unasked : e.events.getLsbD 0 = false := by
    have bit := congrArg (BitVec.getLsbD · 0) bad.2
    simpa [readiness, pollIn, pollOut, pollRdnorm, pollWrnorm, -BitVec.getLsbD_eq_getElem] using bit
  intro same
  have bit := congrArg (BitVec.getLsbD · 0) same
  simp [unasked, pollIn, pollErr, pollHup, pollNval, -BitVec.getLsbD_eq_getElem] at bit

/-- `poll` keeps its promises exactly when the whole call fails, or each entry is ignored or open
and those on files that are always ready ask for nothing or for readiness. -/
theorem yosPoll_met_iff (proper : ∀ entries n t, (host.poll entries n t).Proper entries n)
    (few : nfds ≤ 1024) (inside : nfds ≠ 0 → off ≠ 0 ∧ off + nfds * 8 ≤ ctx.memorySize) :
    PollMet ctx off nfds (yosPoll host err ctx off nfds timeout) ↔
      host.Fails ctx off nfds timeout ∨
        ∀ i < nfds, host.Good ctx (pollFd ctx.memory off i) := by
  by_cases empty : nfds = 0
  · subst empty
    refine iff_of_true ?_ (Or.inr nofun)
    have promises := proper (fun _ => ⟨-1, 0⟩) 0 timeout
    rw [yosPoll, if_pos rfl]
    exact ⟨fun ok => promises.count ok, nofun, nofun, nofun, fun _ _ => rfl⟩
  obtain ⟨nonnull, inside⟩ := inside empty
  rw [yosPoll_eq proper empty few nonnull inside]
  have result (i : ℕ) (lt : i < nfds) :
      revents (storeRevents ctx.memory off nfds (host.merged ctx off nfds timeout)) off i =
        host.merged ctx off nfds timeout i := revents_storeRevents lt
  by_cases fails : host.Fails ctx off nfds timeout
  · rw [if_pos fails]
    have failed : ¬ 0 ≤ (yosErrnoNeg err).value := by
      change ¬ (0 : ℤ) ≤ -1
      decide
    refine iff_of_true ?_ (Or.inl fails)
    exact ⟨fun ok => absurd ok failed, fun ok => absurd ok failed, fun ok => absurd ok failed,
      fun ok => absurd ok failed, fun x outside => storeRevents_of_outside outside⟩
  · rw [if_neg fails, or_iff_right fails]
    constructor
    · intro met i lt
      have ok := Int.natCast_nonneg
        ((List.range nfds).countP fun i => host.merged ctx off nfds timeout i ≠ 0)
      refine ⟨fun nonneg => ?_, fun ready => ?_⟩
      · by_contra closed
        have gets := met.closed ok i lt nonneg (by omega)
        rw [result i lt, merged_of_negative proper lt (pollHostFd_of_closed (by omega))] at gets
        exact absurd gets (by decide)
      · by_contra bad
        have within := met.within ok i lt
        rw [not_or] at bad
        have synth := synth_ne_zero.2 ⟨ready, bad.1⟩
        rw [result i lt, PollHost.merged, if_pos synth, PollHost.synth, if_pos ready] at within
        exact merged_not_within (not_or.2 bad) within
    · intro good
      refine ⟨fun _ => ?_, fun _ i lt => ?_, fun _ i lt negative => ?_,
        fun _ i lt nonneg closed => absurd ((good i lt).1 nonneg) (by omega),
        fun x outside => storeRevents_of_outside outside⟩
      · refine congrArg (Nat.cast : ℕ → ℤ) (List.countP_congr fun i mem => ?_)
        rw [result i (List.mem_range.1 mem)]
      · rw [result i lt]
        exact merged_within proper (good i lt) lt
      · rw [result i lt]
        refine merged_of_negative proper lt ?_
        rwa [pollHostFd, if_pos negative]

end Call

/-- A host on which nothing becomes ready before the timeout. -/
def quietHost : PollHost where
  fstat _ := some .other
  poll _ _ _ := ⟨0, fun _ => 0⟩

theorem quietHost_proper (entries : ℕ → PollFd) (n : ℕ) (t : ℤ) :
    (quietHost.poll entries n t).Proper entries n := nothing_proper entries n

/-- At address 64 stands an entry that asks descriptor 5 for `POLLIN`; `fd` is the descriptor's
entry in `fd_map`. -/
def pollCtx (fd : ℤ) : FdCtx where
  memory x := if x = 64 then 5 else if x = 68 then 1 else 0
  memorySize := 4096
  fdMap w := if w = 5 then fd else -1
  procfsFds := none

theorem yosPoll_met_one :
    PollMet (pollCtx 7) 64 1 (yosPoll quietHost .EBADF (pollCtx 7) 64 1 0) :=
  (yosPoll_met_iff quietHost_proper (by decide) fun _ => by decide).2
    (Or.inr (by
      intro i lt
      obtain rfl : i = 0 := by omega
      exact ⟨fun _ => by decide, fun ready => absurd ready (by decide)⟩))

/-- An entry whose descriptor is not open gets no result, and the call returns 0. -/
theorem yosPoll_closed_not_met :
    (yosPoll quietHost .EBADF (pollCtx (-1)) 64 1 0).2 = ⟨0, none⟩ ∧
      (yosFdGet (pollCtx (-1)) 5).value < 0 ∧
      revents (yosPoll quietHost .EBADF (pollCtx (-1)) 64 1 0).1 64 0 = 0 ∧
      ¬ PollMet (pollCtx (-1)) 64 1 (yosPoll quietHost .EBADF (pollCtx (-1)) 64 1 0) := by
  have value : (yosPoll quietHost .EBADF (pollCtx (-1)) 64 1 0).2 = ⟨0, none⟩ := by decide
  have closed : (yosFdGet (pollCtx (-1)) 5).value < 0 := by decide
  have result : revents (yosPoll quietHost .EBADF (pollCtx (-1)) 64 1 0).1 64 0 = 0 := by decide
  refine ⟨value, closed, result, fun met => ?_⟩
  have fd : (pollFd (pollCtx (-1)).memory 64 0).fd = 5 := by decide
  have gets := met.closed (by rw [value]) 0 (by decide) (by rw [fd]; decide) (by rw [fd]; decide)
  rw [result] at gets
  exact absurd gets (by decide)

end Yos
