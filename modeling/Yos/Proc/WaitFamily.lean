import Mathlib.Data.List.FinRange
import Yos.Lib.Bytes
import Yos.Proc.ProcTable

/-!
# The four wait calls (`impl/proc/proc.c`)

`yos_waitpid` and `yos_wait4` have the same body, written twice; `yos_wait` and `yos_wait3` call
`yos_waitpid`.  `wait_family_iff` says that the bodies do agree, and that the parent learns how the
child it reaped ended unless the status is to be stored in the last word of its memory: both tests
compare the address with `memory_size - 4` and leave it out.

Between two looks at the table the caller has given `proc_lock` back; `others n` is what the other
threads do to the table during its `n`th sleep.  The test of `ctx->memory` is left out.
-/

namespace Yos

namespace WaitFamily

/-- `default_action_is_terminate`. -/
def defaultActionIsTerminate (signum : ℤ) : Prop :=
  signum ∈ ([1, 2, 3, 4, 5, 6, 7, 8, 9, 10, 11, 12, 13, 14, 15, 24, 25, 26, 27, 30, 31] : List ℤ)

/-- A slot.  `term_sig` is stored by `invoke_signal_handler` and `yos_signal_pump`, for a signal whose
default action is to terminate, and is 0 otherwise. -/
structure Slot extends Proc where
  ends : termSig = 0 ∨ defaultActionIsTerminate termSig

/-- `child->state = YOS_PROC_FREE`. -/
def Slot.free (p : Slot) : Slot := { p with state := .free }

/-- `rt->procs`. -/
abbrev Procs := Fin maxProcs → Slot

/-- What a wait call reads of its context: `proc->pid`, `memory_size` and `errno_off`; `remap` is
`yos_remap_errno_h2g`. -/
structure WaitCtx where
  me : ℕ
  memorySize : BitVec 32
  errnoOff : BitVec 32
  remap : ℕ → ℕ

/-- What a wait call leaves: its result, the table, the memory of the guest, and the child it reaped,
as its slot was. -/
structure WaitEnd where
  ret : ℤ
  procs : Procs
  memory : Bytes
  reaped : Option Slot

/-- `ECHILD`. -/
def echild : ℕ := 10

/-- `WNOHANG`. -/
def wnohang : BitVec 32 := 1

/-- `*(int *)(ctx->memory + ctx->errno_off) = yos_remap_errno_h2g(ECHILD)`. -/
def storeEchild (ctx : WaitCtx) (memory : Bytes) : Bytes :=
  if ctx.errnoOff ≠ 0 then memory.write32 ctx.errnoOff.toNat (ctx.remap echild) else memory

/-- `find_zombie_child`. -/
def findZombieChild (w : WaitCall) (procs : Procs) : Option (Fin maxProcs) :=
  (List.finRange maxProcs).find? fun k => w.zombie (procs k).toProc

/-- `has_children`. -/
def hasChildren (w : WaitCall) (procs : Procs) : Bool :=
  (List.finRange maxProcs).any fun k => w.child (procs k).toProc

/-! ## `yos_waitpid`, `yos_wait` and `yos_wait3` -/

/-- The loop of `yos_waitpid`, with the number of sleeps so far and a bound on those to come. -/
def waitpidLoop (others : ℕ → Procs → Procs) (w : WaitCall) (child : Option (Fin maxProcs))
    (procs : Procs) (n : ℕ) : ℕ → Option (Fin maxProcs × Procs)
  | 0 => child.map fun k => (k, procs)
  | fuel + 1 =>
    match child with
    | some k => some (k, procs)
    | none =>
      let procs := others n procs
      waitpidLoop others w (findZombieChild w procs) procs (n + 1) fuel

/-- `yos_waitpid`, if it returns after at most `fuel` sleeps. -/
def yosWaitpid (others : ℕ → Procs → Procs) (fuel : ℕ) (ctx : WaitCtx) (pid : ℤ)
    (statAddr options : BitVec 32) (procs : Procs) (memory : Bytes) : Option WaitEnd :=
  let w : WaitCall := ⟨ctx.me, pid, options &&& wnohang ≠ 0⟩
  if hasChildren w procs = false then some ⟨-1, procs, storeEchild ctx memory, none⟩
  else
    let child := findZombieChild w procs
    if child.isNone ∧ options &&& wnohang ≠ 0 then some ⟨0, procs, memory, none⟩
    else
      (waitpidLoop others w child procs 0 fuel).map fun (k, procs) =>
        let childPid := (procs k).pid
        let exitCode := (procs k).exitCode
        let termSig := (procs k).termSig
        let memory :=
          if statAddr ≠ 0 ∧ statAddr < ctx.memorySize - 4 then
            memory.write32 statAddr.toNat (waitStatus exitCode termSig).toNat
          else memory
        ⟨childPid, Function.update procs k (procs k).free, memory, some (procs k)⟩

/-- `yos_wait`. -/
def yosWait (others : ℕ → Procs → Procs) (fuel : ℕ) (ctx : WaitCtx) (statAddr : BitVec 32)
    (procs : Procs) (memory : Bytes) : Option WaitEnd :=
  yosWaitpid others fuel ctx (-1) statAddr 0 procs memory

/-- What `yos_wait3` does to the `struct rusage`; the sum is one of 32-bit words. -/
def zeroRusage (ctx : WaitCtx) (ru : BitVec 32) (memory : Bytes) : Bytes :=
  if ru ≠ 0 ∧ ru + 72 ≤ ctx.memorySize then memory.fill ru.toNat 72 0 else memory

/-- `yos_wait3`. -/
def yosWait3 (others : ℕ → Procs → Procs) (fuel : ℕ) (ctx : WaitCtx)
    (statAddr options ru : BitVec 32) (procs : Procs) (memory : Bytes) : Option WaitEnd :=
  yosWaitpid others fuel ctx (-1) statAddr options procs (zeroRusage ctx ru memory)

/-! ## `yos_wait4` -/

/-- The loop of `yos_wait4`. -/
def wait4Loop (others : ℕ → Procs → Procs) (w : WaitCall) (child : Option (Fin maxProcs))
    (procs : Procs) (n : ℕ) : ℕ → Option (Fin maxProcs × Procs)
  | 0 => child.map fun k => (k, procs)
  | fuel + 1 =>
    match child with
    | some k => some (k, procs)
    | none =>
      let procs := others n procs
      wait4Loop others w (findZombieChild w procs) procs (n + 1) fuel

/-- `yos_wait4`, if it returns after at most `fuel` sleeps; it does not look at `ru`. -/
def yosWait4 (others : ℕ → Procs → Procs) (fuel : ℕ) (ctx : WaitCtx) (pid : ℤ)
    (statAddr options _ru : BitVec 32) (procs : Procs) (memory : Bytes) : Option WaitEnd :=
  let w : WaitCall := ⟨ctx.me, pid, options &&& wnohang ≠ 0⟩
  if hasChildren w procs = false then some ⟨-1, procs, storeEchild ctx memory, none⟩
  else
    let child := findZombieChild w procs
    if child.isNone ∧ options &&& wnohang ≠ 0 then some ⟨0, procs, memory, none⟩
    else
      (wait4Loop others w child procs 0 fuel).map fun (k, procs) =>
        let childPid := (procs k).pid
        let exitCode := (procs k).exitCode
        let termSig := (procs k).termSig
        let memory :=
          if statAddr ≠ 0 ∧ statAddr < ctx.memorySize - 4 then
            memory.write32 statAddr.toNat (waitStatus exitCode termSig).toNat
          else memory
        ⟨childPid, Function.update procs k (procs k).free, memory, some (procs k)⟩

/-! ## Reading a status -/

/-- `WIFEXITED`. -/
def wifexited (s : ℕ) : Prop := s &&& 0x7f = 0

/-- `WEXITSTATUS`. -/
def wexitstatus (s : ℕ) : ℕ := s >>> 8 &&& 0xff

/-- `WIFSIGNALED`. -/
def wifsignaled (s : ℕ) : Prop := s &&& 0x7f ≠ 0 ∧ s &&& 0x7f ≠ 0x7f

/-- `WTERMSIG`. -/
def wtermsig (s : ℕ) : ℕ := s &&& 0x7f

/-- The status tells how the child ended. -/
structure Decodes (s : ℕ) (child : Slot) : Prop where
  exited : child.termSig = 0 →
    wifexited s ∧ ¬ wifsignaled s ∧ (wexitstatus s : ℤ) = child.exitCode % 256
  signaled : child.termSig ≠ 0 →
    wifsignaled s ∧ ¬ wifexited s ∧ (wtermsig s : ℤ) = child.termSig

/-! ## The claim of the family -/

/-- The table after `n` sleeps. -/
def procsAt (others : ℕ → Procs → Procs) (procs : Procs) : ℕ → Procs
  | 0 => procs
  | n + 1 => others n (procsAt others procs n)

/-- The call finds a zombie child: at once, or after some sleeps if there is a child. -/
def Finds (others : ℕ → Procs → Procs) (fuel : ℕ) (w : WaitCall) (procs : Procs) : Prop :=
  (∃ k, w.child (procs k).toProc = true) ∧
    ∃ n ≤ fuel, (n = 0 ∨ w.nohang = false) ∧
      ∃ k, w.zombie (procsAt others procs n k).toProc = true

/-- The ends of two calls differ at most in the `n` bytes at `a`. -/
structure SameOutside (a n : ℕ) (e e' : WaitEnd) : Prop where
  ret : e.ret = e'.ret
  procs : e.procs = e'.procs
  reaped : e.reaped = e'.reaped
  memory : ∀ x, ¬ (a ≤ x ∧ x < a + n) → e.memory x = e'.memory x

/-- What holds of the calls with these arguments, on every memory. -/
structure Family (others : ℕ → Procs → Procs) (fuel : ℕ) (ctx : WaitCtx) (pid : ℤ)
    (statAddr options ru : BitVec 32) (procs : Procs) : Prop where
  wait4 : ∀ memory, yosWait4 others fuel ctx pid statAddr options ru procs memory =
    yosWaitpid others fuel ctx pid statAddr options procs memory
  wait : ∀ memory, yosWait others fuel ctx statAddr procs memory =
    yosWaitpid others fuel ctx (-1) statAddr 0 procs memory
  wait3 : ∀ memory, Option.Rel (SameOutside ru.toNat 72)
    (yosWait3 others fuel ctx statAddr options ru procs memory)
    (yosWaitpid others fuel ctx (-1) statAddr options procs memory)
  status : ∀ memory e child,
    yosWaitpid others fuel ctx pid statAddr options procs memory = some e → e.reaped = some child →
    statAddr ≠ 0 → statAddr.toNat + 4 ≤ ctx.memorySize.toNat →
      Decodes (e.memory.read32 statAddr.toNat) child

/-! ## The two bodies -/

section Calls

variable {others : ℕ → Procs → Procs} {fuel : ℕ} {ctx : WaitCtx} {pid : ℤ}
  {statAddr options ru : BitVec 32} {procs : Procs} {w : WaitCall}

theorem wait4Loop_eq (child : Option (Fin maxProcs)) (n : ℕ) :
    wait4Loop others w child procs n fuel = waitpidLoop others w child procs n fuel := by
  induction fuel generalizing child procs n with
  | zero => rfl
  | succ fuel ih =>
    cases child with
    | none => exact ih _ _
    | some k => rfl

theorem yosWait4_eq (memory : Bytes) :
    yosWait4 others fuel ctx pid statAddr options ru procs memory =
      yosWaitpid others fuel ctx pid statAddr options procs memory := by
  simp only [yosWait4, yosWaitpid, wait4Loop_eq]

theorem findZombieChild_eq_some {k : Fin maxProcs} (found : findZombieChild w procs = some k) :
    w.zombie (procs k).toProc = true := by
  simpa using List.find?_some found

theorem findZombieChild_isSome_iff :
    (findZombieChild w procs).isSome = true ↔ ∃ k, w.zombie (procs k).toProc = true := by
  rw [findZombieChild, List.find?_isSome]
  exact ⟨fun ⟨k, _, zombie⟩ => ⟨k, zombie⟩, fun ⟨k, zombie⟩ => ⟨k, List.mem_finRange k, zombie⟩⟩

theorem hasChildren_iff : hasChildren w procs = true ↔ ∃ k, w.child (procs k).toProc = true := by
  rw [hasChildren, List.any_eq_true]
  exact ⟨fun ⟨k, _, child⟩ => ⟨k, child⟩, fun ⟨k, child⟩ => ⟨k, List.mem_finRange k, child⟩⟩

variable (others fuel procs) in
/-- The loop ends when one of the tables it looks at has a zombie. -/
theorem waitpidLoop_isSome_iff (n : ℕ) :
    (waitpidLoop others w (findZombieChild w (procsAt others procs n)) (procsAt others procs n) n
        fuel).isSome = true ↔
      ∃ m, n ≤ m ∧ m ≤ n + fuel ∧ ∃ k, w.zombie (procsAt others procs m k).toProc = true := by
  induction fuel generalizing n with
  | zero =>
    rw [waitpidLoop, Option.isSome_map, findZombieChild_isSome_iff]
    constructor
    · intro found
      exact ⟨n, Nat.le_refl n, Nat.le_refl n, found⟩
    · rintro ⟨m, low, high, found⟩
      obtain rfl : m = n := Nat.le_antisymm high low
      exact found
  | succ fuel ih =>
    rcases find : findZombieChild w (procsAt others procs n) with _ | k
    · have missing : ¬ ∃ k, w.zombie (procsAt others procs n k).toProc = true := by
        rw [← findZombieChild_isSome_iff, find]
        decide
      refine (ih (n + 1)).trans ⟨?_, ?_⟩
      · rintro ⟨m, low, high, found⟩
        exact ⟨m, by omega, by omega, found⟩
      · rintro ⟨m, low, high, found⟩
        have later : m ≠ n := by
          rintro rfl
          exact missing found
        exact ⟨m, by omega, by omega, found⟩
    · exact iff_of_true rfl ⟨n, Nat.le_refl n, by omega, k, findZombieChild_eq_some find⟩

/-- The store of the status. -/
def storeStatus (ctx : WaitCtx) (statAddr : BitVec 32) (child : Slot) (memory : Bytes) : Bytes :=
  if statAddr ≠ 0 ∧ statAddr < ctx.memorySize - 4 then
    memory.write32 statAddr.toNat (waitStatus child.exitCode child.termSig).toNat
  else memory

/-- What a call leaves that reaps the child in slot `k`. -/
def reapEnd (ctx : WaitCtx) (statAddr : BitVec 32) (memory : Bytes) (k : Fin maxProcs)
    (procs : Procs) : WaitEnd :=
  ⟨(procs k).pid, Function.update procs k (procs k).free, storeStatus ctx statAddr (procs k) memory,
    some (procs k)⟩

theorem yosWaitpid_eq (memory : Bytes) :
    yosWaitpid others fuel ctx pid statAddr options procs memory =
      let w : WaitCall := ⟨ctx.me, pid, options &&& wnohang ≠ 0⟩
      if hasChildren w procs = false then some ⟨-1, procs, storeEchild ctx memory, none⟩
      else if (findZombieChild w procs).isNone ∧ options &&& wnohang ≠ 0 then
        some ⟨0, procs, memory, none⟩
      else (waitpidLoop others w (findZombieChild w procs) procs 0 fuel).map fun r =>
        reapEnd ctx statAddr memory r.1 r.2 :=
  rfl

/-- A call that reaps a child stores its status. -/
theorem yosWaitpid_reaps {memory : Bytes} {e : WaitEnd} {child : Slot}
    (ends : yosWaitpid others fuel ctx pid statAddr options procs memory = some e)
    (reaped : e.reaped = some child) : e.memory = storeStatus ctx statAddr child memory := by
  rw [yosWaitpid_eq] at ends
  dsimp only at ends
  split_ifs at ends with childless nohang
  · cases ends
    cases reaped
  · cases ends
    cases reaped
  · obtain ⟨⟨k, procs'⟩, -, rfl⟩ := Option.map_eq_some_iff.1 ends
    obtain rfl : procs' k = child := Option.some.inj reaped
    rfl

/-- A call that finds a zombie reaps it, on every memory. -/
theorem exists_reaped (finds : Finds others fuel ⟨ctx.me, pid, options &&& wnohang ≠ 0⟩ procs)
    (statAddr : BitVec 32) (memory : Bytes) : ∃ e child,
      yosWaitpid others fuel ctx pid statAddr options procs memory = some e ∧
        e.reaped = some child := by
  obtain ⟨someone, n, le, stays, zombie⟩ := finds
  have ends := (waitpidLoop_isSome_iff others fuel procs 0).2
    ⟨n, Nat.zero_le n, by omega, zombie⟩
  obtain ⟨⟨k, procs'⟩, loop⟩ := Option.isSome_iff_exists.1 ends
  have parent := hasChildren_iff.2 someone
  refine ⟨reapEnd ctx statAddr memory k procs', procs' k, ?_, rfl⟩
  rw [yosWaitpid_eq]
  dsimp only
  rw [if_neg (by rw [parent]; decide), if_neg, show procs = procsAt others procs 0 from rfl, loop]
  · rfl
  · rintro ⟨missing, nohang⟩
    rcases stays with rfl | stays
    · have found := findZombieChild_isSome_iff.2 zombie
      rw [Option.isNone_iff_eq_none] at missing
      rw [show procsAt others procs 0 = procs from rfl, missing] at found
      cases found
    · exact of_decide_eq_false stays nohang

/-- A call that reaps a child has found a zombie. -/
theorem finds_of_reaped {memory : Bytes} {e : WaitEnd} {child : Slot}
    (ends : yosWaitpid others fuel ctx pid statAddr options procs memory = some e)
    (reaped : e.reaped = some child) :
    Finds others fuel ⟨ctx.me, pid, options &&& wnohang ≠ 0⟩ procs := by
  rw [yosWaitpid_eq] at ends
  dsimp only at ends
  split_ifs at ends with childless nohang
  · cases ends
    cases reaped
  · cases ends
    cases reaped
  · obtain ⟨r, loop, -⟩ := Option.map_eq_some_iff.1 ends
    obtain ⟨m, -, high, zombie⟩ := (waitpidLoop_isSome_iff others fuel procs 0).1
      (Option.isSome_iff_exists.2 ⟨r, loop⟩)
    refine ⟨hasChildren_iff.1 (by simpa using childless), ?_⟩
    by_cases now : ∃ k, WaitCall.zombie ⟨ctx.me, pid, options &&& wnohang ≠ 0⟩ (procs k).toProc = true
    · exact ⟨0, Nat.zero_le fuel, .inl rfl, now⟩
    · rw [← findZombieChild_isSome_iff, Bool.not_eq_true, Option.isSome_eq_false_iff] at now
      exact ⟨m, by omega, .inr (decide_eq_false fun wants => nohang ⟨now, wants⟩), zombie⟩

/-- Two memories that agree outside some bytes agree there after the same call. -/
theorem rel_sameOutside {a n : ℕ} {m m' : Bytes}
    (same : ∀ x, ¬ (a ≤ x ∧ x < a + n) → m x = m' x) :
    Option.Rel (SameOutside a n) (yosWaitpid others fuel ctx pid statAddr options procs m)
      (yosWaitpid others fuel ctx pid statAddr options procs m') := by
  have write (b v x : ℕ) (outside : ¬ (a ≤ x ∧ x < a + n)) :
      m.write32 b v x = m'.write32 b v x := by
    rw [Bytes.write32, Bytes.write32, same x outside]
  rw [yosWaitpid_eq, yosWaitpid_eq]
  dsimp only
  split_ifs
  · refine .some ⟨rfl, rfl, rfl, fun x outside => ?_⟩
    dsimp only [storeEchild]
    split_ifs
    · exact write _ _ x outside
    · exact same x outside
  · exact .some ⟨rfl, rfl, rfl, same⟩
  · rcases waitpidLoop others _ _ procs 0 fuel with _ | r
    · exact .none
    · refine .some ⟨rfl, rfl, rfl, fun x outside => ?_⟩
      dsimp only [reapEnd, storeStatus]
      split_ifs
      · exact write _ _ x outside
      · exact same x outside

/-! ## The status -/

theorem and_low (s : ℕ) : s &&& 0x7f = s % 128 := Nat.and_two_pow_sub_one_eq_mod s 7

theorem waitStatus_of_exited (exitCode : ℤ) :
    ∃ c : ℕ, exitCode % 256 = c ∧ c < 256 ∧ (waitStatus exitCode 0).toNat = c * 256 := by
  obtain ⟨c, code⟩ := Int.eq_ofNat_of_zero_le (Int.emod_nonneg exitCode (by decide : (256 : ℤ) ≠ 0))
  refine ⟨c, code, by omega, ?_⟩
  rw [waitStatus, if_neg (by decide), code]
  omega

theorem defaultActionIsTerminate.range {signum : ℤ} (terminates : defaultActionIsTerminate signum) :
    0 < signum ∧ signum < 127 := by
  unfold defaultActionIsTerminate at terminates
  have all : ∀ n ∈ ([1, 2, 3, 4, 5, 6, 7, 8, 9, 10, 11, 12, 13, 14, 15, 24, 25, 26, 27, 30, 31] :
      List ℤ), 0 < n ∧ n < 127 := by decide
  exact all signum terminates

theorem decodes_waitStatus (child : Slot) :
    Decodes (waitStatus child.exitCode child.termSig).toNat child where
  exited ended := by
    rw [ended]
    obtain ⟨c, code, lt, status⟩ := waitStatus_of_exited child.exitCode
    have low : c * 256 % 128 = 0 := by omega
    have high : (c * 256) >>> 8 &&& 0xff = c := by
      rw [Nat.shiftRight_eq_div_pow, show (0xff : ℕ) = 2 ^ 8 - 1 from rfl,
        Nat.and_two_pow_sub_one_eq_mod]
      omega
    rw [status, code, wifexited, wifsignaled, wexitstatus, and_low, low, high]
    exact ⟨rfl, fun signaled => signaled.1 rfl, rfl⟩
  signaled killed := by
    have range := (child.ends.resolve_left killed).range
    obtain ⟨n, sig⟩ := Int.eq_ofNat_of_zero_le range.1.le
    have status : (waitStatus child.exitCode child.termSig).toNat = n := by
      rw [waitStatus, if_pos killed, sig]
      omega
    have low : n % 128 = n := Nat.mod_eq_of_lt (by omega)
    rw [status, wifexited, wifsignaled, wtermsig, and_low, low, sig]
    exact ⟨⟨by omega, by omega⟩, by omega, rfl⟩

/-- All bits set is no status of a child that ended. -/
theorem not_decodes_ones (child : Slot) (a : ℕ) :
    ¬ Decodes (Bytes.read32 (fun _ => 0xff) a) child := by
  have ones : Bytes.read32 (fun _ => 0xff) a &&& 0x7f = 127 := by
    rw [and_low, Bytes.read32, show (0xff : UInt8).toNat = 255 from rfl]
    norm_num
  intro decodes
  by_cases ended : child.termSig = 0
  · have exited := (decodes.exited ended).1
    rw [wifexited, ones] at exited
    exact absurd exited (by decide)
  · exact (decodes.signaled ended).1.2 ones

theorem waitStatus_lt (exitCode termSig : ℤ) : (waitStatus exitCode termSig).toNat < 2 ^ 32 := by
  unfold waitStatus
  split <;> omega

/-- The test of the code, for a word inside the memory. -/
theorem lt_sub_four_iff (inside : statAddr.toNat + 4 ≤ ctx.memorySize.toNat) :
    statAddr < ctx.memorySize - 4 ↔ statAddr.toNat + 4 ≠ ctx.memorySize.toNat := by
  have size := ctx.memorySize.isLt
  rw [BitVec.lt_def, BitVec.toNat_sub, show (4 : BitVec 32).toNat = 4 from rfl]
  omega

/-- The status of a child is lost when it is to be stored in the last word. -/
theorem not_family_of_last (finds : Finds others fuel ⟨ctx.me, pid, options &&& wnohang ≠ 0⟩ procs)
    (set : statAddr ≠ 0) (last : statAddr.toNat + 4 = ctx.memorySize.toNat) :
    ¬ Family others fuel ctx pid statAddr options ru procs := by
  intro family
  obtain ⟨e, child, ends, reaped⟩ := exists_reaped finds statAddr fun _ => 0xff
  have decodes := family.status _ e child ends reaped set last.le
  have skipped : ¬ (statAddr ≠ 0 ∧ statAddr < ctx.memorySize - 4) := fun stored =>
    (lt_sub_four_iff last.le).1 stored.2 last
  rw [yosWaitpid_reaps ends reaped, storeStatus, if_neg skipped] at decodes
  exact not_decodes_ones child _ decodes

/-- The four calls are one, and the status of a reaped child is stored and tells how it ended, if and
only if the call reaps no child or the status is not to be stored in the last word. -/
theorem wait_family_iff (others : ℕ → Procs → Procs) (fuel : ℕ) (ctx : WaitCtx) (pid : ℤ)
    (statAddr options ru : BitVec 32) (procs : Procs) :
    Family others fuel ctx pid statAddr options ru procs ↔
      (Finds others fuel ⟨ctx.me, pid, options &&& wnohang ≠ 0⟩ procs → statAddr ≠ 0 →
        statAddr.toNat + 4 ≠ ctx.memorySize.toNat) := by
  constructor
  · intro family finds set last
    exact not_family_of_last finds set last family
  · intro condition
    refine ⟨yosWait4_eq, fun _ => rfl, fun memory => ?_, ?_⟩
    · refine rel_sameOutside fun x outside => ?_
      unfold zeroRusage
      split_ifs
      · exact if_neg outside
      · rfl
    · intro memory e child ends reaped set inside
      have stored : statAddr ≠ 0 ∧ statAddr < ctx.memorySize - 4 :=
        ⟨set, (lt_sub_four_iff inside).2 (condition (finds_of_reaped ends reaped) set)⟩
      rw [yosWaitpid_reaps ends reaped, storeStatus, if_pos stored,
        Bytes.read32_write32_self (waitStatus_lt _ _)]
      exact decodes_waitStatus child

/-- A table with a child of process 1 that has exited with the code 7. -/
def oneZombie : Procs := fun k =>
  if k.val = 1 then ⟨{ Proc.fresh 2 1 with state := .zombie, exitCode := 7 }, .inl rfl⟩
  else ⟨.unused, .inl rfl⟩

/-- The child is reaped and its status is not stored, though its four bytes are inside the memory. -/
theorem wait_family_fails :
    ¬ Family (fun _ procs => procs) 0 ⟨1, 65536, 0, id⟩ 2 65532 0 0 oneZombie := by
  have child : (oneZombie ⟨1, by decide⟩).toProc =
      { Proc.fresh 2 1 with state := .zombie, exitCode := 7 } := rfl
  refine not_family_of_last ⟨⟨⟨1, by decide⟩, ?_⟩, 0, Nat.le_refl 0, .inl rfl, ⟨1, by decide⟩, ?_⟩
    (by decide) (by decide)
  · rw [child]
    decide
  · rw [procsAt, child]
    decide

end Calls

end WaitFamily

end Yos
