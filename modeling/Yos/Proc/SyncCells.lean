import Yos.Lib.Atomics
import Yos.Proc.Once
import Yos.Proc.RwLock

/-!
# The memory of synchronisation objects (`impl/proc/pthread.c`)

A mutex, a condition variable, a read-write lock, a barrier and a `pthread_once_t` are four bytes of the
guest's memory each.  Every call on one is a program of atomic accesses to that memory, and any number
of threads run such calls and guest code in any interleaving.  `stays_iff` says which calls keep to
the four bytes of their objects: all but those of barriers that are five words long.

The pointers are never null, as `m3ApiGetArgMem` adds the base of the memory.  Time is left out: a
`m3Atomic_Wait32` may return at any moment.
-/

namespace Yos

namespace Sync

open Atomic Word
open Atomic.Prog (act repeat_)

/-! ## Mutexes and spinlocks -/

/-- `mu_lock_cell`. -/
def muLockCell (cell : ℕ) : Prog ℤ := do
  let c ← act (.cas cell 0 1)
  if c = 0 then pure 0
  else do
    let c ← (if c ≠ 2 then act (.exchange cell 2) else pure c)
    repeat_ (fun c =>
      if c ≠ 0 then do
        let _ ← act (.wait cell 2)
        let c ← act (.exchange cell 2)
        pure (.inl c)
      else pure (.inr 0)) c

/-- `mu_unlock_cell`. -/
def muUnlockCell (cell : ℕ) : Prog ℤ := do
  let prev ← act (.exchange cell 0)
  let _ ← (if prev = 2 then act (.notify cell) else pure 0)
  pure 0

/-- `EBUSY`. -/
def ebusy : ℤ := 16

/-- `pthread_mutex_trylock` and `pthread_spin_trylock`. -/
def trylock (cell : ℕ) : Prog ℤ := do
  let c ← act (.cas cell 0 1)
  pure (if c = 0 then 0 else ebusy)

/-- `pthread_spin_lock`. -/
def spinLock (cell : ℕ) : Prog ℤ :=
  repeat_ (fun _ => do
    let c ← act (.cas cell 0 1)
    pure (if c = 0 then .inr 0 else .inl 0)) 0

/-- A store of 0: `pthread_mutex_init`, `pthread_mutex_destroy`, `pthread_spin_init`,
`pthread_spin_unlock`, `pthread_cond_init` and `rw_init`. -/
def clearCell (cell : ℕ) : Prog ℤ := do
  let _ ← act (.store cell 0)
  pure 0

/-! ## Condition variables -/

/-- `pthread_cond_wait`. -/
def condWait (c m : ℕ) : Prog ℤ := do
  let seq ← act (.load c)
  let _ ← muUnlockCell m
  let _ ← act (.wait c seq)
  muLockCell m

/-- `ETIMEDOUT` as the guest gets it. -/
def etimedout : ℤ := 110

/-- `pthread_cond_timedwait`; `ts` is the address of the `struct timespec`. -/
def condTimedwait (c m ts : ℕ) : Prog ℤ := do
  let _ ← act (.copy ts 8)
  let _ ← act (.copy (ts + 8) 4)
  let seq ← act (.load c)
  let _ ← muUnlockCell m
  let r ← act (.wait c seq)
  let _ ← muLockCell m
  pure (if r = 2 then etimedout else 0)

/-- `pthread_cond_signal` and `pthread_cond_broadcast`. -/
def condSignal (c : ℕ) : Prog ℤ := do
  let _ ← act (.add c 1)
  let _ ← act (.notify c)
  pure 0

/-! ## Read-write locks -/

/-- `rw_rdlock_impl`. -/
def rwRdlockImpl (rw : ℕ) (tryOnly : Bool) : Prog ℤ :=
  repeat_ (fun _ => do
    let st ← act (.load rw)
    if st ≠ rwWriter ∧ st < rwWriter - 1 then do
      let c ← act (.cas rw st (st + 1))
      pure (if c = st then .inr 0 else .inl 0)
    else if tryOnly then pure (.inr ebusy)
    else do
      let _ ← act (.wait rw st)
      pure (.inl 0)) 0

/-- `rw_wrlock_impl`. -/
def rwWrlockImpl (rw : ℕ) (tryOnly : Bool) : Prog ℤ :=
  repeat_ (fun _ => do
    let st ← act (.load rw)
    if st = 0 then do
      let c ← act (.cas rw st rwWriter)
      pure (if c = st then .inr 0 else .inl 0)
    else if tryOnly then pure (.inr ebusy)
    else do
      let _ ← act (.wait rw st)
      pure (.inl 0)) 0

/-- `EINVAL`. -/
def einval : ℤ := 22

/-- `rw_unlock_impl`. -/
def rwUnlockImpl (rw : ℕ) : Prog ℤ :=
  repeat_ (fun _ => do
    let st ← act (.load rw)
    if st = 0 then pure (.inr einval)
    else do
      let c ← act (.cas rw st (rwUnlocked st))
      if c = st then do
        let _ ← act (.notify rw)
        pure (.inr 0)
      else pure (.inl 0)) 0

/-! ## Barriers -/

/-- `pthread_barrier_init`. -/
def barrierInit (b count : ℕ) : Prog ℤ :=
  if count = 0 then pure einval
  else do
    let _ ← act (.store b 0)
    let _ ← act (.store (b + 4) 0)
    let _ ← act (.store (b + 8) 0)
    let _ ← act (.store (b + 12) count)
    let _ ← act (.store (b + 16) 0)
    pure 0

/-- `pthread_barrier_wait`. -/
def barrierWait (b : ℕ) : Prog ℤ := do
  let _ ← muLockCell b
  let gen ← act (.load (b + 4))
  let arrived ← act (.load (b + 8))
  let arrived := u32 (arrived + 1)
  let count ← act (.load (b + 12))
  let _ ← act (.store (b + 8) arrived)
  if arrived = count then do
    let _ ← act (.store (b + 8) 0)
    let _ ← act (.add (b + 4) 1)
    let _ ← act (.add (b + 16) 1)
    let _ ← act (.notify (b + 16))
    let _ ← muUnlockCell b
    pure (-1)
  else do
    repeat_ (fun _ => do
      let now ← act (.load (b + 4))
      if now = gen then do
        let seq ← act (.load (b + 16))
        let _ ← muUnlockCell b
        let _ ← act (.wait (b + 16) seq)
        let _ ← muLockCell b
        pure (.inl 0)
      else pure (.inr ())) 0
    let _ ← muUnlockCell b
    pure 0

/-! ## `pthread_once` -/

/-- `pthread_once`. -/
def once (ostate : ℕ) (fn : InitFn) : Prog ℤ := do
  let expected ← act (.cas ostate 0 1)
  if expected = 0 then do
    let failed ← (if fn.startable then Prog.guest Prog.ret else pure true)
    let _ ← act (.store ostate 2)
    let _ ← act (.notify ostate)
    pure (if failed then -1 else 0)
  else do
    repeat_ (fun _ => do
      let st ← act (.load ostate)
      if st ≠ 2 then do
        let _ ← act (.wait ostate 1)
        pure (.inl 0)
      else pure (.inr ())) 0
    pure 0

/-! ## Calls -/

/-- A call with its arguments. -/
inductive Op where
  | mutexInit (c : ℕ)
  | mutexDestroy (c : ℕ)
  | mutexLock (c : ℕ)
  | mutexTrylock (c : ℕ)
  | mutexUnlock (c : ℕ)
  | spinInit (c : ℕ)
  | spinDestroy (c : ℕ)
  | spinLock (c : ℕ)
  | spinTrylock (c : ℕ)
  | spinUnlock (c : ℕ)
  | condInit (c : ℕ)
  | condDestroy (c : ℕ)
  | condWait (c m : ℕ)
  | condTimedwait (c m ts : ℕ)
  | condSignal (c : ℕ)
  | condBroadcast (c : ℕ)
  | rwlockInit (rw : ℕ)
  | rwlockDestroy (rw : ℕ)
  | rwlockRdlock (rw : ℕ)
  | rwlockWrlock (rw : ℕ)
  | rwlockTryrdlock (rw : ℕ)
  | rwlockTrywrlock (rw : ℕ)
  | rwlockUnlock (rw : ℕ)
  | barrierInit (b count : ℕ)
  | barrierDestroy (b : ℕ)
  | barrierWait (b : ℕ)
  | once (ostate : ℕ) (fn : InitFn)
deriving DecidableEq, Repr

namespace Op

/-- What the host does in a call. -/
def prog : Op → Prog ℤ
  | mutexInit c | mutexDestroy c | spinInit c | spinUnlock c | condInit c | rwlockInit c =>
    clearCell c
  | mutexLock c => muLockCell c
  | mutexTrylock c | spinTrylock c => trylock c
  | mutexUnlock c => muUnlockCell c
  | spinLock c => Sync.spinLock c
  | spinDestroy _ | condDestroy _ | rwlockDestroy _ | barrierDestroy _ => pure 0
  | condWait c m => Sync.condWait c m
  | condTimedwait c m ts => Sync.condTimedwait c m ts
  | condSignal c | condBroadcast c => Sync.condSignal c
  | rwlockRdlock rw => rwRdlockImpl rw false
  | rwlockWrlock rw => rwWrlockImpl rw false
  | rwlockTryrdlock rw => rwRdlockImpl rw true
  | rwlockTrywrlock rw => rwWrlockImpl rw true
  | rwlockUnlock rw => rwUnlockImpl rw
  | barrierInit b count => Sync.barrierInit b count
  | barrierWait b => Sync.barrierWait b
  | once ostate fn => Sync.once ostate fn

/-- The objects of a call. -/
def objects : Op → List ℕ
  | mutexInit c | mutexDestroy c | mutexLock c | mutexTrylock c | mutexUnlock c | spinInit c
  | spinDestroy c | spinLock c | spinTrylock c | spinUnlock c | condInit c | condDestroy c
  | condSignal c | condBroadcast c | rwlockInit c | rwlockDestroy c | rwlockRdlock c
  | rwlockWrlock c | rwlockTryrdlock c | rwlockTrywrlock c | rwlockUnlock c | barrierInit c _
  | barrierDestroy c | barrierWait c | once c _ => [c]
  | condWait c m | condTimedwait c m _ => [c, m]

/-- The byte is one of the four of an object, or one of the `struct timespec` of a timed wait. -/
def Given (op : Op) (x : ℕ) : Prop :=
  (∃ c ∈ op.objects, c ≤ x ∧ x < c + 4) ∨
    match op with
    | condTimedwait _ _ ts => ts ≤ x ∧ x < ts + 12
    | _ => False

/-- The call is not one on five words: `pthread_barrier_wait`, or a `pthread_barrier_init` that does not
fail. -/
def OneWord : Op → Prop
  | barrierInit _ count => count = 0
  | barrierWait _ => False
  | _ => True

end Op

/-! ## Threads -/

/-- The memory of the guest, and the calls each thread is in; a call of `pthread_once` may have others
above it. -/
structure SyncState (ι : Type) where
  memory : Bytes
  calls : ι → List (Op × Prog ℤ)

/-- The thread is in guest code: in no call, or in the routine of a `pthread_once`. -/
inductive InGuest : List (Op × Prog ℤ) → Prop where
  | base : InGuest []
  | routine {op next rest} : InGuest ((op, Prog.guest next) :: rest)

variable {ι : Type} [DecidableEq ι]

/-- A step of the thread `i`: guest code stores as it likes or makes a call, a call goes on or returns,
or a routine of a `pthread_once` returns or traps. -/
inductive SyncStep (s : SyncState ι) (i : ι) : SyncState ι → Prop where
  | guest (here : InGuest (s.calls i)) (memory : Bytes) : SyncStep s i { s with memory }
  | call (here : InGuest (s.calls i)) (op : Op) :
      SyncStep s i { s with calls := Function.update s.calls i ((op, op.prog) :: s.calls i) }
  | inner {op p p' rest memory} (here : s.calls i = (op, p) :: rest)
      (step : Prog.Step s.memory p memory p') :
      SyncStep s i ⟨memory, Function.update s.calls i ((op, p') :: rest)⟩
  | back {op next rest} (here : s.calls i = (op, Prog.guest next) :: rest) (failed : Bool) :
      SyncStep s i { s with calls := Function.update s.calls i ((op, next failed) :: rest) }
  | ret {op v rest} (here : s.calls i = (op, Prog.ret v) :: rest) :
      SyncStep s i { s with calls := Function.update s.calls i rest }

/-- All interleavings of the threads, on any memory. -/
def syncSystem (ι : Type) [DecidableEq ι] : System (SyncState ι) ι where
  init s := ∀ i, s.calls i = []
  step s i s' := SyncStep s i s'

/-! ## What a call may access -/

section Accesses

variable {R : Atomic → Prop} {c m : ℕ}

/-- Every access to the four bytes at `c` meets `R`. -/
def OnCell (R : Atomic → Prop) (c : ℕ) : Prop :=
  ∀ a : Atomic, a.span.addr = c → a.span.len ≤ 4 → R a

theorem OnCell.word (on : OnCell R c) {a : Atomic} (span : a.span = ⟨c, 4⟩) : (act a).All R :=
  Prog.all_act (on a (by rw [span]) (by rw [span]))

theorem OnCell.notify (on : OnCell R c) : (act (.notify c)).All R :=
  Prog.all_act (on _ rfl (Nat.zero_le 4))

theorem all_muLockCell (on : OnCell R c) : (muLockCell c).All R := by
  refine .bind (on.word rfl) fun old => Prog.all_ite (Prog.all_ret 0) ?_
  refine .bind (Prog.all_ite (on.word rfl) (Prog.all_ret old)) fun first => ?_
  refine Prog.all_repeat (fun now => Prog.all_ite ?_ (Prog.all_ret _)) first
  exact .bind (on.word rfl) fun _ => .bind (on.word rfl) fun _ => Prog.all_ret _

theorem all_muUnlockCell (on : OnCell R c) : (muUnlockCell c).All R := by
  refine .bind (on.word rfl) fun prev => ?_
  exact .bind (Prog.all_ite on.notify (Prog.all_ret 0)) fun _ => Prog.all_ret 0

theorem all_clearCell (on : OnCell R c) : (clearCell c).All R :=
  .bind (on.word rfl) fun _ => Prog.all_ret 0

theorem all_trylock (on : OnCell R c) : (trylock c).All R :=
  .bind (on.word rfl) fun _ => Prog.all_ret _

theorem all_spinLock (on : OnCell R c) : (spinLock c).All R :=
  Prog.all_repeat (fun _ => .bind (on.word rfl) fun _ => Prog.all_ret _) 0

theorem all_condWait (on : OnCell R c) (mutex : OnCell R m) : (condWait c m).All R := by
  refine .bind (on.word rfl) fun seq => .bind (all_muUnlockCell mutex) fun _ => ?_
  exact .bind (on.word rfl) fun _ => all_muLockCell mutex

theorem all_condTimedwait {ts : ℕ} (on : OnCell R c) (mutex : OnCell R m) (sec : R (.copy ts 8))
    (nsec : R (.copy (ts + 8) 4)) : (condTimedwait c m ts).All R := by
  refine .bind (Prog.all_act sec) fun _ => .bind (Prog.all_act nsec) fun _ => ?_
  refine .bind (on.word rfl) fun seq => .bind (all_muUnlockCell mutex) fun _ => ?_
  exact .bind (on.word rfl) fun _ => .bind (all_muLockCell mutex) fun _ => Prog.all_ret _

theorem all_condSignal (on : OnCell R c) : (condSignal c).All R :=
  .bind (on.word rfl) fun _ => .bind on.notify fun _ => Prog.all_ret 0

theorem all_rwRdlockImpl (on : OnCell R c) (tryOnly : Bool) : (rwRdlockImpl c tryOnly).All R := by
  refine Prog.all_repeat (fun _ => .bind (on.word rfl) fun st => ?_) 0
  refine Prog.all_ite (.bind (on.word rfl) fun _ => Prog.all_ret _) ?_
  exact Prog.all_ite (Prog.all_ret _) (.bind (on.word rfl) fun _ => Prog.all_ret _)

theorem all_rwWrlockImpl (on : OnCell R c) (tryOnly : Bool) : (rwWrlockImpl c tryOnly).All R := by
  refine Prog.all_repeat (fun _ => .bind (on.word rfl) fun st => ?_) 0
  refine Prog.all_ite (.bind (on.word rfl) fun _ => Prog.all_ret _) ?_
  exact Prog.all_ite (Prog.all_ret _) (.bind (on.word rfl) fun _ => Prog.all_ret _)

theorem all_rwUnlockImpl (on : OnCell R c) : (rwUnlockImpl c).All R := by
  refine Prog.all_repeat (fun _ => .bind (on.word rfl) fun st => ?_) 0
  refine Prog.all_ite (Prog.all_ret _) (.bind (on.word rfl) fun _ => ?_)
  exact Prog.all_ite (.bind on.notify fun _ => Prog.all_ret _) (Prog.all_ret _)

theorem all_once (on : OnCell R c) (fn : InitFn) : (once c fn).All R := by
  refine .bind (on.word rfl) fun expected => Prog.all_ite ?_ ?_
  · refine .bind (Prog.all_ite (Prog.all_guest fun _ => trivial) (Prog.all_ret _)) fun failed => ?_
    exact .bind (on.word rfl) fun _ => .bind on.notify fun _ => Prog.all_ret _
  · refine .bind (Prog.all_repeat (fun _ => .bind (on.word rfl) fun st => ?_) 0) fun _ =>
      Prog.all_ret 0
    exact Prog.all_ite (.bind (on.word rfl) fun _ => Prog.all_ret _) (Prog.all_ret _)

/-- The access keeps to the bytes the call is given. -/
def Op.Keeps (op : Op) (a : Atomic) : Prop := ∀ x, a.Touches x → op.Given x

theorem Op.onCell {op : Op} (object : c ∈ op.objects) : OnCell op.Keeps c := by
  intro a addr len x touches
  have range : a.span.addr ≤ x ∧ x < a.span.addr + a.span.len := touches
  exact .inl ⟨c, object, by omega, by omega⟩

/-- A call on single words accesses nothing else. -/
theorem Op.all_prog {op : Op} (fits : op.OneWord) : op.prog.All op.Keeps := by
  have object {c : ℕ} (listed : c ∈ op.objects) : OnCell op.Keeps c := op.onCell listed
  cases op with
  | mutexInit | mutexDestroy | spinInit | spinUnlock | condInit | rwlockInit =>
    exact all_clearCell (object (.head _))
  | mutexLock => exact all_muLockCell (object (.head _))
  | mutexTrylock | spinTrylock => exact all_trylock (object (.head _))
  | mutexUnlock => exact all_muUnlockCell (object (.head _))
  | spinLock => exact all_spinLock (object (.head _))
  | spinDestroy | condDestroy | rwlockDestroy | barrierDestroy => exact Prog.all_ret 0
  | condWait => exact all_condWait (object (.head _)) (object (.tail _ (.head _)))
  | condTimedwait c m ts =>
    refine all_condTimedwait (object (.head _)) (object (.tail _ (.head _))) ?_ ?_
    · rintro x ⟨low, high⟩
      exact .inr ⟨low, by simp only [Atomic.span] at high; omega⟩
    · rintro x ⟨low, high⟩
      simp only [Atomic.span] at low high
      exact .inr ⟨by omega, by omega⟩
  | condSignal | condBroadcast => exact all_condSignal (object (.head _))
  | rwlockRdlock | rwlockTryrdlock => exact all_rwRdlockImpl (object (.head _)) _
  | rwlockWrlock | rwlockTrywrlock => exact all_rwWrlockImpl (object (.head _)) _
  | rwlockUnlock => exact all_rwUnlockImpl (object (.head _))
  | barrierInit b count =>
    have fails : count = 0 := fits
    rw [Op.prog, Sync.barrierInit, if_pos fails]
    exact Prog.all_ret _
  | barrierWait => exact fits.elim
  | once ostate fn => exact all_once (object (.head _)) fn

end Accesses

/-! ## Runs -/

/-- Every call on single words that a thread is in keeps to its bytes. -/
def Within {ι : Type} (s : SyncState ι) : Prop :=
  ∀ i, ∀ call ∈ s.calls i, call.1.OneWord → call.2.All call.1.Keeps

/-- The calls of one thread change. -/
theorem Within.update {s : SyncState ι} {i : ι} {calls : List (Op × Prog ℤ)} {memory : Bytes}
    (within : Within s)
    (new : ∀ call ∈ calls, call.1.OneWord → call.2.All call.1.Keeps) :
    Within ⟨memory, Function.update s.calls i calls⟩ := by
  intro j
  by_cases here : j = i
  · subst here
    rw [show (SyncState.mk memory (Function.update s.calls j calls)).calls j = calls from
      Function.update_self _ _ _]
    exact new
  · rw [show (SyncState.mk memory (Function.update s.calls i calls)).calls j = s.calls j from
      Function.update_of_ne here _ _]
    exact within j

/-- A step keeps every call within its bytes. -/
theorem Within.step {s s' : SyncState ι} {i : ι} (within : Within s) (step : SyncStep s i s') :
    Within s' := by
  cases step with
  | guest here memory => exact within
  | call here op =>
    refine within.update fun call listed => ?_
    rcases List.mem_cons.1 listed with rfl | old
    · exact Op.all_prog
    · exact within i call old
  | @inner op p p' rest memory here step =>
    have mine := within i
    rw [here] at mine
    refine within.update fun call listed => ?_
    rcases List.mem_cons.1 listed with rfl | old
    · exact fun fits => (mine (op, p) (.head _) fits).step step
    · exact mine call (.tail _ old)
  | @back op next rest here failed =>
    have mine := within i
    rw [here] at mine
    refine within.update fun call listed => ?_
    rcases List.mem_cons.1 listed with rfl | old
    · exact fun fits => mine (op, .guest next) (.head _) fits failed
    · exact mine call (.tail _ old)
  | @ret op v rest here =>
    have mine := within i
    rw [here] at mine
    exact within.update fun call old => mine call (.tail _ old)

theorem within_of_reachable {s : SyncState ι} (run : (syncSystem ι).Reachable s) : Within s := by
  refine run.invariant (fun s start i call listed => ?_) fun s i s' within step => within.step step
  rw [start i] at listed
  cases listed

/-- The access reads and writes no byte but those the call is given. -/
structure Op.Contains (op : Op) (a : Atomic) : Prop where
  touches : op.Keeps a
  writes : ∀ m x, ¬ op.Given x → a.after m x = m x
  reads : ∀ m m', (∀ x, op.Given x → m' x = m x) → ∀ r, a.Answers m' r ↔ a.Answers m r

theorem Op.Keeps.contains {op : Op} {a : Atomic} (keeps : op.Keeps a) : op.Contains a where
  touches := keeps
  writes _ x outside := Atomic.after_of_not_touches fun touches => outside (keeps x touches)
  reads _ _ same _ := Atomic.answers_congr fun x touches => same x (keeps x touches)

/-- In every interleaving, every access of such a call reads and writes only what the call is given. -/
def Op.Stays (op : Op) : Prop :=
  ∀ (ι : Type) [DecidableEq ι] (s : SyncState ι), (syncSystem ι).Reachable s →
    ∀ i a next rest, s.calls i = (op, Prog.access a next) :: rest → op.Contains a

/-- A single thread can get to the place `p` of a call. -/
def Runs (op : Op) (memory : Bytes) (p : Prog ℤ) : Prop :=
  ∃ s : SyncState Unit, (syncSystem Unit).Reachable s ∧ s.memory = memory ∧ s.calls () = [(op, p)]

theorem runs_start (op : Op) (memory : Bytes) : Runs op memory op.prog := by
  have start : (syncSystem Unit).Reachable ⟨memory, fun _ => []⟩ := .start fun _ => rfl
  exact ⟨_, start.next (a := ()) (.call .base op), rfl, rfl⟩

theorem Runs.next {op : Op} {memory : Bytes} {a : Atomic} {next : ℕ → Prog ℤ} {r : ℕ}
    (runs : Runs op memory (.access a next)) (answers : a.Answers memory r) :
    Runs op (a.after memory) (next r) := by
  obtain ⟨s, run, rfl, calls⟩ := runs
  exact ⟨_, run.next (a := ()) (.inner calls (.access answers)), rfl, rfl⟩

theorem Op.Stays.given {op : Op} (stays : op.Stays) {memory : Bytes} {a : Atomic}
    {next : ℕ → Prog ℤ} (runs : Runs op memory (.access a next)) {x : ℕ} (touches : a.Touches x) :
    op.Given x := by
  obtain ⟨s, run, -, calls⟩ := runs
  exact (stays Unit s run () a next [] calls).touches x touches

/-- `pthread_barrier_init` stores the second word. -/
theorem not_stays_barrierInit {b count : ℕ} (count_pos : count ≠ 0) :
    ¬ (Op.barrierInit b count).Stays := by
  intro stays
  have start := runs_start (.barrierInit b count) fun _ => 0
  rw [Op.prog, Sync.barrierInit, if_neg count_pos] at start
  have second := Runs.next (r := 0) start rfl
  have given := stays.given second (x := b + 4) ⟨Nat.le_refl _, by simp [Atomic.span]⟩
  simp [Op.Given, Op.objects] at given

/-- `pthread_barrier_wait` reads the second word. -/
theorem not_stays_barrierWait {b : ℕ} : ¬ (Op.barrierWait b).Stays := by
  intro stays
  have start := runs_start (.barrierWait b) fun _ => 0
  have second := Runs.next (r := 0) start rfl
  have given := stays.given second (x := b + 4) ⟨Nat.le_refl _, by simp [Atomic.span]⟩
  simp [Op.Given, Op.objects] at given

/-- In every interleaving, from any memory, a call reads and writes only the four bytes of each of its
objects if and only if it is no `pthread_barrier_wait` and no `pthread_barrier_init` with a count. -/
theorem stays_iff (op : Op) : op.Stays ↔ op.OneWord := by
  constructor
  · intro stays
    cases op with
    | barrierInit b count => exact by_contra fun count_pos => not_stays_barrierInit count_pos stays
    | barrierWait b => exact not_stays_barrierWait stays
    | _ => trivial
  · intro fits ι _ s run i a next rest calls
    have all := within_of_reachable run i (op, .access a next) (by rw [calls]; exact .head _) fits
    exact Op.Keeps.contains all.1

/-- `pthread_barrier_init` of a barrier for two at the address 64 stores the word at 68. -/
theorem sync_cells_fail : ¬ ∀ op : Op, op.Stays := fun stays =>
  not_stays_barrierInit (by decide) (stays (.barrierInit 64 2))

end Sync

end Yos
