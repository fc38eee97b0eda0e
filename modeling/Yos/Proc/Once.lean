import Yos.Lib.Threads

/-!
# `pthread_once` (`impl/proc/pthread.c`)

The cell is 0 (new), 1 (in progress) or 2 (done).  The thread whose compare-exchange takes it from 0
to 1 looks the init routine up in its own runtime, compiles it if needed, calls it, stores 2 and
notifies; the others look at the cell until it is 2.  The lookup, the compilation and the call may
fail, and the cell becomes 2 all the same: the winner then returns -1, but every other call returns
0.  So a call that returns 0 has waited for the routine only if the winner could start it
(`once_correct`, `once_returns_without_start`).
-/

namespace Yos

open Threads

/-- What `fn_idx` leads to in the runtime of the caller. -/
structure InitFn where
  /-- The index is in the table, and the entry is not null. -/
  found : Bool
  compiled : Bool
  /-- `CompileFunction` succeeds. -/
  compiles : Bool
  /-- The routine takes no arguments; `m3_Call` refuses every other. -/
  nullary : Bool
deriving DecidableEq, Repr

/-- The routine can be started. -/
def InitFn.startable (fn : InitFn) : Bool := fn.found && ((fn.compiled || fn.compiles) && fn.nullary)

/-- The cell, how often the routine was started and has finished, and how many calls have returned
0. -/
structure OnceCells where
  cell : ℕ
  starts : ℕ
  finishes : ℕ
  zeros : ℕ
deriving DecidableEq, Repr

/-- Where a thread is; `failed` says that the winner has an error to return. -/
inductive OncePc where
  /-- Outside every call. -/
  | idle
  /-- Before the compare-exchange. -/
  | cas (fn : InitFn)
  /-- The winner, before it looks the routine up. -/
  | lookup (fn : InitFn)
  /-- The winner, before `CompileFunction`. -/
  | compile (fn : InitFn)
  /-- The winner, before `m3_Call`. -/
  | call (fn : InitFn)
  /-- The winner, in the routine. -/
  | running
  /-- The winner, before it stores 2. -/
  | store (failed : Bool)
  /-- The winner, before `m3Atomic_Notify`. -/
  | notify (failed : Bool)
  /-- Another call, before it looks at the cell. -/
  | load
  /-- Another call, before `m3Atomic_Wait32`. -/
  | wait
  | parked
deriving DecidableEq, Repr

/-- A call returns 0, or -1 if it has failed. -/
def OnceCells.return_ (s : OnceCells) (failed : Bool) : OnceCells :=
  if failed then s else { s with zeros := s.zeros + 1 }

/-- The atomic steps of a thread. -/
inductive OnceStep : OnceCells → OncePc → OnceCells → OncePc → Bool → Prop where
  | once {s} (fn) : OnceStep s .idle s (.cas fn) false
  | cas_ok {s} (fn) (new : s.cell = 0) : OnceStep s (.cas fn) { s with cell := 1 } (.lookup fn) false
  | cas_fail {s} (fn) (old : s.cell ≠ 0) : OnceStep s (.cas fn) s .load false
  | lookup {s} (fn : InitFn) :
      OnceStep s (.lookup fn) s
        (if fn.found then if fn.compiled then .call fn else .compile fn else .store true) false
  | compile {s} (fn : InitFn) :
      OnceStep s (.compile fn) s (if fn.compiles then .call fn else .store true) false
  | call_ok {s} (fn : InitFn) (nullary : fn.nullary = true) :
      OnceStep s (.call fn) { s with starts := s.starts + 1 } .running false
  | call_refused {s} (fn : InitFn) (args : fn.nullary = false) :
      OnceStep s (.call fn) s (.store true) false
  | finish {s} (failed) :
      OnceStep s .running { s with finishes := s.finishes + 1 } (.store failed) false
  | store {s} (failed) : OnceStep s (.store failed) { s with cell := 2 } (.notify failed) false
  | notify {s} (failed) : OnceStep s (.notify failed) (s.return_ failed) .idle true
  | load_done {s} (done : s.cell = 2) : OnceStep s .load (s.return_ false) .idle false
  | load_other {s} (busy : s.cell ≠ 2) : OnceStep s .load s .wait false
  | wait {s} : OnceStep s .wait s (if s.cell = 1 then .parked else .load) false
  | wake {s} : OnceStep s .parked s .load false

/-- What a notification does to a thread. -/
def OncePc.woken : OncePc → OncePc
  | .parked => .load
  | pc => pc

/-- The program of the threads that share one cell. -/
def onceProgram : Program OnceCells OncePc := ⟨OnceStep, OncePc.woken⟩

/-- Any number of threads from a zero-initialised cell. -/
def onceSystem (ι : Type) [DecidableEq ι] : System (State ι OnceCells OncePc) ι :=
  onceProgram.system fun s => s.shared = ⟨0, 0, 0, 0⟩ ∧ ∀ i, s.own i = .idle

/-- The call that wins can start its routine. -/
def OnceOk {ι : Type} (s : State ι OnceCells OncePc) (i : ι) : Prop :=
  ∀ fn, s.own i = .cas fn → s.shared.cell = 0 → fn.startable = true

/-! ## The invariant -/

/-- The thread has won and has not stored 2 yet. -/
def OncePc.Busy : OncePc → Prop
  | .lookup _ | .compile _ | .call _ | .running | .store _ => True
  | _ => False

/-- The thread is between its store and its notification. -/
def OncePc.Notifying : OncePc → Prop
  | .notify _ => True
  | _ => False

/-- What the cell says about the routine. -/
structure OnceCells.Fits (s : OnceCells) : Prop where
  once : s.starts ≤ 1
  new : s.cell = 0 → s.starts = 0 ∧ s.finishes = 0
  done : s.cell = 2 → s.starts = 1 ∧ s.finishes = 1
  waited : 0 < s.zeros → s.cell = 2

/-- What the place of a thread says about the routine. -/
def OnceCells.At (s : OnceCells) : OncePc → Prop
  | .lookup fn => fn.startable = true ∧ s.starts = 0 ∧ s.finishes = 0
  | .compile fn => (fn.compiles = true ∧ fn.nullary = true) ∧ s.starts = 0 ∧ s.finishes = 0
  | .call fn => fn.nullary = true ∧ s.starts = 0 ∧ s.finishes = 0
  | .running => s.starts = 1 ∧ s.finishes = 0
  | .store _ => s.starts = 1 ∧ s.finishes = 1
  | .notify _ => s.cell = 2
  | _ => True

theorem OncePc.busy_woken (pc : OncePc) : pc.woken.Busy ↔ pc.Busy := by
  cases pc <;> exact Iff.rfl

theorem OncePc.woken_ne_parked (pc : OncePc) : pc.woken ≠ .parked := by
  cases pc <;> simp [woken]

theorem OnceCells.at_woken {s : OnceCells} (pc : OncePc) (fits : s.At pc) : s.At pc.woken := by
  cases pc <;> exact fits

/-- A step wins the new cell, ends the work of the winner, or changes neither. -/
theorem OnceStep.exclusive {s s' : OnceCells} {pc pc' : OncePc} {n : Bool}
    (step : OnceStep s pc s' pc' n) :
    ExclusiveStep OncePc.Busy (fun s => s.cell ≠ 1) s pc s' pc' := by
  cases step with
  | cas_ok fn new => exact .inl ⟨id, by simp [new], trivial, fun free => free rfl⟩
  | store failed => exact .inr (.inl ⟨trivial, id, by simp⟩)
  | lookup fn | compile fn | wait =>
    right; right
    split_ifs <;> simp [OncePc.Busy]
  | notify failed =>
    right; right
    cases failed <;> simp [OncePc.Busy, OnceCells.return_]
  | _ =>
    right; right
    simp [OncePc.Busy, OnceCells.return_]

/-- A step keeps the parked threads in somebody's care. -/
theorem OnceStep.covered {s s' : OnceCells} {pc pc' : OncePc} {n : Bool}
    (step : OnceStep s pc s' pc' n) :
    CoveredStep (· = .parked) OncePc.Notifying (fun s => s.cell = 1) s pc s' pc' n := by
  by_cases busy : s.cell = 1
  · cases step with
    | cas_ok fn new => exact .inr (.inl rfl)
    | store failed => exact .inr (.inr (.inl trivial))
    | notify failed => exact .inl ⟨rfl, by simp⟩
    | load_done done => omega
    | _ => exact .inr (.inl busy)
  · cases step with
    | cas_ok fn new => exact .inr (.inl rfl)
    | store failed => exact .inr (.inr (.inl trivial))
    | notify failed => exact .inl ⟨rfl, by simp⟩
    | lookup fn | compile fn | wait =>
      right; right; right
      split_ifs <;> simp [busy, OncePc.Notifying]
    | _ =>
      right; right; right
      simp [busy, OncePc.Notifying]

theorem OnceCells.at_congr {s s' : OnceCells} {pc : OncePc} (fits : s.At pc)
    (starts : s'.starts = s.starts) (finishes : s'.finishes = s.finishes)
    (done : s.cell = 2 → s'.cell = 2) : s'.At pc := by
  cases pc with
  | notify failed => exact done fits
  | idle | cas | load | wait | parked => trivial
  | lookup | compile | call | running | store =>
    simpa only [OnceCells.At, starts, finishes] using fits

/-- Threads that have not won say nothing about the routine but that it is done. -/
theorem OnceCells.at_of_not_busy {s s' : OnceCells} {pc : OncePc} (idle : ¬ pc.Busy) (fits : s.At pc)
    (done : s.cell = 2 → s'.cell = 2) : s'.At pc := by
  cases pc with
  | lookup | compile | call | running | store => exact absurd trivial idle
  | notify failed => exact done fits
  | idle | cas | load | wait | parked => trivial

theorem OnceCells.Fits.return_ {s : OnceCells} (fits : s.Fits) (failed : Bool)
    (done : s.cell = 2) : (s.return_ failed).Fits := by
  cases failed with
  | true => exact fits
  | false => exact ⟨fits.once, fits.new, fits.done, fun _ => done⟩

/-- A step of a winner that could start its routine, or of another thread. -/
theorem OnceStep.fits {s s' : OnceCells} {pc pc' : OncePc} {n : Bool} (step : OnceStep s pc s' pc' n)
    (fits : s.Fits) (at_ : s.At pc) (busy : pc.Busy → s.cell = 1)
    (ok : ∀ fn, pc = .cas fn → s.cell = 0 → fn.startable = true) :
    s'.Fits ∧ s'.At pc' ∧ (s.cell = 2 → s'.cell = 2) ∧ (¬ pc.Busy → s'.starts = s.starts ∧ s'.finishes = s.finishes) := by
  cases step with
  | once fn => exact ⟨fits, trivial, id, fun _ => ⟨rfl, rfl⟩⟩
  | cas_ok fn new =>
    refine ⟨⟨fits.once, fun h => ?_, fun h => ?_, fun waited => ?_⟩, ⟨ok fn rfl new, fits.new new⟩, ?_,
      fun _ => ⟨rfl, rfl⟩⟩
    · cases h
    · cases h
    · have := fits.waited waited
      omega
    · intro done
      omega
  | cas_fail fn old => exact ⟨fits, trivial, id, fun _ => ⟨rfl, rfl⟩⟩
  | lookup fn =>
    obtain ⟨startable, fresh⟩ := at_
    simp only [InitFn.startable, Bool.and_eq_true, Bool.or_eq_true] at startable
    obtain ⟨found, able, nullary⟩ := startable
    refine ⟨fits, ?_, id, fun _ => ⟨rfl, rfl⟩⟩
    rw [if_pos found]
    split_ifs with compiled
    · exact ⟨nullary, fresh⟩
    · exact ⟨⟨able.resolve_left compiled, nullary⟩, fresh⟩
  | compile fn =>
    obtain ⟨⟨compiles, nullary⟩, fresh⟩ := at_
    rw [if_pos compiles]
    exact ⟨fits, ⟨nullary, fresh⟩, id, fun _ => ⟨rfl, rfl⟩⟩
  | call_ok fn nullary =>
    have one := busy trivial
    obtain ⟨-, starts, finishes⟩ := at_
    refine ⟨⟨?_, fun new => ?_, fun done => ?_, fits.waited⟩, ⟨?_, finishes⟩, id, fun idle => ?_⟩
    · dsimp only
      omega
    · dsimp only at new
      omega
    · dsimp only at done
      omega
    · dsimp only
      omega
    · exact absurd trivial idle
  | call_refused fn args =>
    rw [at_.1] at args
    cases args
  | finish failed =>
    have one := busy trivial
    obtain ⟨starts, finishes⟩ := at_
    refine ⟨⟨fits.once, fun new => ?_, fun done => ?_, fits.waited⟩, ⟨starts, ?_⟩, id,
      fun idle => ?_⟩
    · dsimp only at new
      omega
    · dsimp only at done
      omega
    · dsimp only
      omega
    · exact absurd trivial idle
  | store failed =>
    refine ⟨⟨fits.once, fun new => ?_, fun _ => at_, fun _ => rfl⟩, rfl, fun _ => rfl, fun idle => ?_⟩
    · cases new
    · exact absurd trivial idle
  | notify failed =>
    have done : s.cell = 2 := at_
    refine ⟨fits.return_ failed done, trivial, ?_, fun _ => ?_⟩
    all_goals cases failed <;> simp [OnceCells.return_]
  | load_done done => exact ⟨fits.return_ false done, trivial, id, fun _ => ⟨rfl, rfl⟩⟩
  | load_other busy' => exact ⟨fits, trivial, id, fun _ => ⟨rfl, rfl⟩⟩
  | wait =>
    refine ⟨fits, ?_, id, fun _ => ⟨rfl, rfl⟩⟩
    split_ifs <;> trivial
  | wake => exact ⟨fits, trivial, id, fun _ => ⟨rfl, rfl⟩⟩

/-! ## Correctness -/

section Correct

variable {ι : Type} [DecidableEq ι] {s : State ι OnceCells OncePc}

/-- The invariant of the runs in which the winner can start its routine. -/
structure OnceInv (s : State ι OnceCells OncePc) : Prop where
  winner : Exclusive OncePc.Busy (fun c => c.cell ≠ 1) s
  covered : Covered (· = .parked) OncePc.Notifying (fun c => c.cell = 1) s
  fits : s.shared.Fits
  places : ∀ i, s.shared.At (s.own i)

theorem OnceInv.step {s' : State ι OnceCells OncePc} {i : ι} (inv : OnceInv s) (ok : OnceOk s i)
    (next : (onceSystem ι).step s i s') : OnceInv s' := by
  obtain ⟨c, pc, n, step, rfl⟩ := next
  obtain ⟨unique, free⟩ := inv.winner
  have busy : (s.own i).Busy → s.shared.cell = 1 := by
    intro busy
    by_contra other
    exact free.1 other i busy
  obtain ⟨fits, place, done, same⟩ := OnceStep.fits step inv.fits (inv.places i) busy ok
  refine ⟨inv.winner.step OncePc.busy_woken (OnceStep.exclusive step),
    inv.covered.step OncePc.woken_ne_parked (OnceStep.covered step), fits, ?_⟩
  refine Each.step (fun pc => OnceCells.at_woken pc) (fun j other => ?_) place
  by_cases mine : (s.own i).Busy
  · exact OnceCells.at_of_not_busy (fun busy => other (unique j i busy mine)) (inv.places j) done
  · exact OnceCells.at_congr (inv.places j) (same mine).1 (same mine).2 done

theorem onceInv_of_reachable (run : (onceSystem ι).ReachableIf OnceOk s) : OnceInv s := by
  refine run.invariant (fun s start => ?_) fun s i s' inv ok next => inv.step ok next
  obtain ⟨new, idle⟩ := start
  refine ⟨⟨fun i j hi => ?_, fun _ i hi => ?_, fun _ => ?_⟩, ?_, ?_, fun i => ?_⟩
  · rw [idle i] at hi
    exact absurd hi id
  · rw [idle i] at hi
    exact hi
  · rw [new]
    decide
  · rintro ⟨i, parked⟩
    rw [idle i] at parked
    cases parked
  · rw [new]
    refine ⟨Nat.zero_le 1, fun _ => ⟨rfl, rfl⟩, fun done => ?_, fun waited => ?_⟩
    · cases done
    · cases waited
  · rw [idle i]
    trivial

/-- What `pthread_once` promises: the routine is started at most once, a call that has returned 0 has
waited for that start to finish, and no thread stays parked when the cell is 2. -/
structure OnceDone (s : State ι OnceCells OncePc) : Prop where
  once : s.shared.starts ≤ 1
  waited : 0 < s.shared.zeros → s.shared.starts = 1 ∧ s.shared.finishes = 1
  awake : s.shared.cell = 2 → (∀ i, ¬ (s.own i).Notifying) → ∀ i, s.own i ≠ .parked

/-- `pthread_once` keeps its promise in every run in which the call that wins can start its
routine. -/
theorem once_correct (run : (onceSystem ι).ReachableIf OnceOk s) : OnceDone s := by
  obtain ⟨-, covered, fits, -⟩ := onceInv_of_reachable run
  refine ⟨fits.once, fun waited => fits.done (fits.waited waited), fun done quiet i parked => ?_⟩
  obtain armed | ⟨j, notifying⟩ := covered ⟨i, parked⟩
  · omega
  · exact quiet j notifying

end Correct

/-- A routine that is found and compiled. -/
def plainInit : InitFn := ⟨true, true, false, true⟩

/-- A call that has run its routine returns 0. -/
theorem once_correct_first_call :
    ∃ s : State ℕ OnceCells OncePc, (onceSystem ℕ).ReachableIf OnceOk s ∧
      s.shared = ⟨2, 1, 1, 1⟩ ∧ OnceDone s := by
  have start : (onceSystem ℕ).ReachableIf OnceOk ⟨⟨0, 0, 0, 0⟩, fun _ => .idle⟩ :=
    .init ⟨rfl, fun _ => rfl⟩
  have other {s : State ℕ OnceCells OncePc} (pc : ∀ fn, s.own 0 ≠ .cas fn) : OnceOk s 0 :=
    fun fn here => absurd here (pc fn)
  have called := start.step (a := 0) (other fun _ => by simp) ⟨_, _, _, .once plainInit, rfl⟩
  have won := called.step (a := 0) (fun fn here _ => by cases here; rfl)
    ⟨_, _, _, .cas_ok plainInit rfl, rfl⟩
  have found := won.step (a := 0) (other fun _ => by simp) ⟨_, _, _, .lookup plainInit, rfl⟩
  have running := found.step (a := 0) (other fun _ => by simp [plainInit])
    ⟨_, _, _, .call_ok plainInit rfl, rfl⟩
  have finished := running.step (a := 0) (other fun _ => by simp) ⟨_, _, _, .finish false, rfl⟩
  have stored := finished.step (a := 0) (other fun _ => by simp) ⟨_, _, _, .store false, rfl⟩
  have returned := stored.step (a := 0) (other fun _ => by simp) ⟨_, _, _, .notify false, rfl⟩
  exact ⟨_, returned, rfl, once_correct returned⟩

/-- The winner finds no routine, and a later call returns 0 though the routine was never started. -/
theorem once_returns_without_start :
    ∃ s : State ℕ OnceCells OncePc, (onceSystem ℕ).Reachable s ∧
      s.shared = ⟨2, 0, 0, 1⟩ ∧ ¬ OnceDone s := by
  have start : (onceSystem ℕ).Reachable ⟨⟨0, 0, 0, 0⟩, fun _ => .idle⟩ :=
    .start ⟨rfl, fun _ => rfl⟩
  have called := start.next (a := 0) ⟨_, _, _, .once ⟨false, false, false, false⟩, rfl⟩
  have won := called.next (a := 0) ⟨_, _, _, .cas_ok _ rfl, rfl⟩
  have missing := won.next (a := 0) ⟨_, _, _, .lookup _, rfl⟩
  have stored := missing.next (a := 0) ⟨_, _, _, .store true, rfl⟩
  have notified := stored.next (a := 0) ⟨_, _, _, .notify true, rfl⟩
  have second := notified.next (a := 1) ⟨_, _, _, .once plainInit, rfl⟩
  have lost := second.next (a := 1) ⟨_, _, _, .cas_fail plainInit (by decide), rfl⟩
  have returned := lost.next (a := 1) ⟨_, _, _, .load_done rfl, rfl⟩
  refine ⟨_, returned, rfl, fun promised => ?_⟩
  obtain ⟨started, -⟩ := promised.waited (by decide)
  cases started

end Yos
