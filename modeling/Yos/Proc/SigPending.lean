import Yos.Lib.System
import Yos.Proc.Kill

/-!
# Pending signals across fork (`impl/proc/proc.c`, `impl/proc/sig.c`)

A kill sets a bit of its target's `sig_pending` in three steps: `deliver_to_proc` tests the recorded
thread, loads `ctx_handle`, and makes the atomic or.  A child records its thread, publishes its
context, whose `sig_pending` is zero, and then overwrites `sig_pending` with the copy of its parent's
that the fork took.  So a kill that meets the child between these steps is lost, and a signal pending
at the fork is delivered to both processes.  `yos_sigsuspend` adds its own bit with a plain load and
store, and a kill between the two is lost as well.  `signals_kept` says that nothing else goes wrong:
when no bit is pending at a fork and no kill falls into these gaps, every accepted kill stays pending
until its target takes or drops it, and no other process takes it.

The kills are numbered; `carried`, `snapCarried`, `taken` and `dropped` say which kills a bit stands
for and what became of them, and no step depends on them.  Group kills and the host's own signals are
left out.
-/

namespace Yos

/-! ## States and steps -/

/-- How far a process is. -/
inductive SigPhase where
  | absent
  /-- Forked; no thread is recorded. -/
  | ready
  /-- The thread is recorded, `ctx_handle` is null. -/
  | recorded
  /-- `ctx_handle` is set, `sig_pending` is not copied yet. -/
  | published
  | running
  | ended
deriving DecidableEq, Repr

/-- `p->thread` is set. -/
def SigPhase.hasThread : SigPhase → Bool
  | .recorded | .published | .running => true
  | _ => false

/-- `p->ctx_handle` is set. -/
def SigPhase.hasCtx : SigPhase → Bool
  | .published | .running => true
  | _ => false

/-- Where a kill is. -/
inductive KillStage where
  | idle
  /-- The thread was tested. -/
  | tested (target sig : ℕ)
  /-- `ctx_handle` was loaded, and was set or null. -/
  | loaded (target sig : ℕ) (ctx : Bool)
  /-- `yos_kill` returned 0. -/
  | accepted (target sig : ℕ)
deriving DecidableEq, Repr

/-- The processes, their pending bits, and the kills. -/
structure SigState where
  phase : ℕ → SigPhase
  /-- The bits of `sig_pending`. -/
  pending : ℕ → ℕ → Bool
  /-- The bits of `parent_sig_pending` in the argument of the child's thread. -/
  snapshot : ℕ → ℕ → Bool
  /-- The word `yos_sigsuspend` loaded and has not stored yet, and the kills it stands for. -/
  held : ℕ → Option ((ℕ → Bool) × (ℕ → List ℕ))
  kills : ℕ → KillStage
  /-- The kills a bit stands for. -/
  carried : ℕ → ℕ → List ℕ
  snapCarried : ℕ → ℕ → List ℕ
  /-- The kills a process took from its word, and those it dropped. -/
  taken : ℕ → List ℕ
  dropped : ℕ → List ℕ

/-- The steps of the processes and of the kills. -/
inductive SigStep where
  /-- Kill `k` of a signal to process `p` tests the thread. -/
  | test (k p sig : ℕ)
  /-- It loads `ctx_handle`. -/
  | load (k : ℕ)
  /-- It makes the atomic or, if there is a context, and returns 0. -/
  | set (k : ℕ)
  /-- `yos_fork_pump` of process `p` copies `sig_pending` for child `c`. -/
  | fork (p c : ℕ)
  /-- The child records its thread. -/
  | record (c : ℕ)
  /-- The child publishes its context. -/
  | publish (c : ℕ)
  /-- The child copies the parent's word. -/
  | copy (c : ℕ)
  /-- The pump or `sigwait` of process `p` takes a pending signal. -/
  | take (p sig : ℕ)
  /-- `yos_sigsuspend` of process `p` saw a zombie child and loads its word. -/
  | suspend (p : ℕ)
  /-- It stores the word with the bit of `SIGCHLD`. -/
  | resume (p : ℕ)
  /-- `yos_execve` clears the word. -/
  | exec (p : ℕ)
  /-- The process ends. -/
  | finish (p : ℕ)
deriving DecidableEq, Repr

namespace SigState

/-- Everything a process carries is dropped. -/
def drop (s : SigState) (p : ℕ) : SigState :=
  { s with
    pending := Function.update s.pending p fun _ => false
    carried := Function.update s.carried p fun _ => []
    dropped := Function.update s.dropped p
      (s.dropped p ++ (List.range 32).flatMap (s.carried p)) }

/-- The last step of kill `k`: the atomic or into a live context. -/
def orBit (s : SigState) (k p sig : ℕ) (ctx : Bool) : SigState :=
  if s.phase p = .ended then { s with dropped := Function.update s.dropped p (k :: s.dropped p) }
  else if ctx then
    { s with
      pending := Function.update s.pending p (Function.update (s.pending p) sig true)
      carried := Function.update s.carried p
        (Function.update (s.carried p) sig (k :: s.carried p sig)) }
  else s

/-- One step. -/
def next (s : SigState) : SigStep → Option SigState
  | .test k p sig =>
    if s.kills k = .idle ∧ 0 < sig ∧ sig < 32 ∧ jobControl sig = false ∧ (s.phase p).hasThread then
      some { s with kills := Function.update s.kills k (.tested p sig) }
    else none
  | .load k =>
    match s.kills k with
    | .tested p sig =>
      some { s with kills := Function.update s.kills k (.loaded p sig (s.phase p).hasCtx) }
    | _ => none
  | .set k =>
    match s.kills k with
    | .loaded p sig ctx =>
      some (orBit { s with kills := Function.update s.kills k (.accepted p sig) } k p sig ctx)
    | _ => none
  | .fork p c =>
    if s.phase p = .running ∧ s.held p = none ∧ s.phase c = .absent then
      some { s with
        phase := Function.update s.phase c .ready
        snapshot := Function.update s.snapshot c (s.pending p)
        snapCarried := Function.update s.snapCarried c (s.carried p) }
    else none
  | .record c =>
    if s.phase c = .ready then some { s with phase := Function.update s.phase c .recorded } else none
  | .publish c =>
    if s.phase c = .recorded then
      some { s with
        phase := Function.update s.phase c .published
        pending := Function.update s.pending c fun _ => false
        carried := Function.update s.carried c fun _ => [] }
    else none
  | .copy c =>
    if s.phase c = .published then
      some { s with
        phase := Function.update s.phase c .running
        pending := Function.update s.pending c (s.snapshot c)
        carried := Function.update s.carried c (s.snapCarried c) }
    else none
  | .take p sig =>
    if s.phase p = .running ∧ s.held p = none ∧ s.pending p sig = true then
      some { s with
        pending := Function.update s.pending p (Function.update (s.pending p) sig false)
        carried := Function.update s.carried p (Function.update (s.carried p) sig [])
        taken := Function.update s.taken p (s.taken p ++ s.carried p sig) }
    else none
  | .suspend p =>
    if s.phase p = .running ∧ s.held p = none then
      some { s with held := Function.update s.held p (some (s.pending p, s.carried p)) }
    else none
  | .resume p =>
    match s.held p with
    | some (word, kills) =>
      some { s with
        pending := Function.update s.pending p (Function.update word 20 true)
        carried := Function.update s.carried p kills
        held := Function.update s.held p none }
    | none => none
  | .exec p => if s.phase p = .running ∧ s.held p = none then some (s.drop p) else none
  | .finish p =>
    if s.phase p = .running ∧ s.held p = none then
      some { s.drop p with phase := Function.update s.phase p .ended }
    else none

/-- The initial process runs alone. -/
def start : SigState where
  phase := Function.update (fun _ => .absent) 1 .running
  pending _ _ := false
  snapshot _ _ := false
  held _ := none
  kills _ := .idle
  carried _ _ := []
  snapCarried _ _ := []
  taken _ := []
  dropped _ := []

end SigState

/-- The runs of the processes. -/
def sigSystem : System SigState SigStep where
  init s := s = .start
  step s a s' := s.next a = some s'

/-! ## What should hold -/

/-- Every accepted kill is pending at its target, or was taken or dropped by it; and a process takes
only kills that were sent to it. -/
structure SignalsKept (s : SigState) : Prop where
  kept : ∀ k p sig, s.kills k = .accepted p sig →
    s.pending p sig = true ∧ k ∈ s.carried p sig ∨ k ∈ s.taken p ∨ k ∈ s.dropped p
  own : ∀ k p, k ∈ s.taken p → ∃ sig, s.kills k = .accepted p sig

/-- No bit is pending at a fork, no kill loads `ctx_handle` before it is published, and none sets its
bit between the publication and the copy or between the load and the store of `yos_sigsuspend`. -/
def SigOk (s : SigState) : SigStep → Prop
  | .fork p _ => ∀ sig, s.pending p sig = false
  | .load k => ∀ p sig, s.kills k = .tested p sig → s.phase p ≠ .recorded
  | .set k => ∀ p sig ctx, s.kills k = .loaded p sig ctx → s.phase p ≠ .published ∧ s.held p = none
  | _ => True

/-! ## The invariant -/

/-- How far a phase is. -/
def SigPhase.rank : SigPhase → ℕ
  | .absent => 0
  | .ready => 1
  | .recorded => 2
  | .published => 3
  | .running => 4
  | .ended => 5

/-- An accepted kill is pending, taken or dropped. -/
def SigState.Accounts (s : SigState) (k p sig : ℕ) : Prop :=
  s.pending p sig = true ∧ k ∈ s.carried p sig ∨ k ∈ s.taken p ∨ k ∈ s.dropped p

/-- What is known of a kill. -/
def KillStage.Sound (s : SigState) (k : ℕ) : KillStage → Prop
  | .idle => True
  | .tested p sig => sig < 32 ∧ 2 ≤ (s.phase p).rank
  | .loaded p sig ctx => sig < 32 ∧ 3 ≤ (s.phase p).rank ∧ (ctx = false → s.phase p = .ended)
  | .accepted p sig => 4 ≤ (s.phase p).rank ∧ s.Accounts k p sig

/-- A bit carries only kills accepted for it, and only in a running process; a child starts with an
empty word; and the word `yos_sigsuspend` holds is the current one. -/
structure SigInv (s : SigState) : Prop where
  bits : ∀ p sig k, k ∈ s.carried p sig →
    s.kills k = .accepted p sig ∧ s.pending p sig = true ∧ sig < 32
  alive : ∀ p sig, s.phase p ≠ .running → s.carried p sig = []
  snap : ∀ c sig, (s.phase c).rank < 4 → s.snapCarried c sig = []
  held : ∀ p word kills, s.held p = some (word, kills) →
    word = s.pending p ∧ kills = s.carried p ∧ s.phase p = .running
  stage : ∀ k, (s.kills k).Sound s k
  own : ∀ k p, k ∈ s.taken p → ∃ sig, s.kills k = .accepted p sig

/-- A kill stays sound while the phases only advance and nothing accepted is lost. -/
theorem KillStage.Sound.mono {s s' : SigState} {k : ℕ} {stage : KillStage} (sound : stage.Sound s k)
    (rank : ∀ p, (s.phase p).rank ≤ (s'.phase p).rank)
    (kept : ∀ p sig, stage = .accepted p sig → s.Accounts k p sig → s'.Accounts k p sig) :
    stage.Sound s' k := by
  cases stage with
  | idle => trivial
  | tested p sig => exact ⟨sound.1, Nat.le_trans sound.2 (rank p)⟩
  | loaded p sig ctx =>
    refine ⟨sound.1, Nat.le_trans sound.2.1 (rank p), fun null => ?_⟩
    have last := rank p
    rw [sound.2.2 null] at last
    revert last
    cases s'.phase p <;> simp [SigPhase.rank]
  | accepted p sig => exact ⟨Nat.le_trans sound.1 (rank p), kept p sig rfl sound.2⟩

/-- Moving one process forward only advances the phases. -/
theorem SigState.rank_update {s : SigState} {c : ℕ} {phase : SigPhase}
    (forward : (s.phase c).rank ≤ phase.rank) (p : ℕ) :
    (s.phase p).rank ≤ (Function.update s.phase c phase p).rank := by
  rcases eq_or_ne p c with rfl | other
  · rwa [Function.update_self]
  · exact Nat.le_of_eq (by rw [Function.update_of_ne other])

namespace SigInv

variable {s s' : SigState} {k p c sig : ℕ}

theorem start : SigInv .start where
  bits _ _ _ h := nomatch h
  alive _ _ _ := rfl
  snap _ _ _ := rfl
  held _ _ _ h := nomatch h
  stage _ := trivial
  own _ _ h := nomatch h

/-- Where no bit is pending, nothing is carried. -/
theorem carried_nil (inv : SigInv s) (clear : s.pending p sig = false) : s.carried p sig = [] := by
  refine List.eq_nil_iff_forall_not_mem.mpr fun k carries => ?_
  rw [(inv.bits p sig k carries).2.1] at clear
  cases clear

/-- A running process changes what it carries; the others still carry nothing unless they run. -/
theorem alive_update (inv : SigInv s) (running : s.phase p = .running) {kills : ℕ → List ℕ} (q n : ℕ)
    (stopped : s.phase q ≠ .running) : Function.update s.carried p kills q n = [] := by
  have other : q ≠ p := by
    rintro rfl
    exact stopped running
  rw [Function.update_of_ne other]
  exact inv.alive q n stopped

/-- A process outside `yos_sigsuspend` changes its word; the words held by others stay current. -/
theorem held_update (inv : SigInv s) (free : s.held p = none) {word : ℕ → Bool}
    {kills : ℕ → List ℕ} (q : ℕ) (w : ℕ → Bool) (ks : ℕ → List ℕ) (h : s.held q = some (w, ks)) :
    w = Function.update s.pending p word q ∧ ks = Function.update s.carried p kills q ∧
      s.phase q = .running := by
  have other : q ≠ p := by
    rintro rfl
    exact nomatch free.symm.trans h
  rw [Function.update_of_ne other, Function.update_of_ne other]
  exact inv.held q w ks h

/-- An accepted kill is not the one that moves. -/
theorem accepted_update {stage : KillStage} (early : ∀ p sig, s.kills k ≠ .accepted p sig) {j q n : ℕ}
    (accepted : s.kills j = .accepted q n) :
    Function.update s.kills k stage j = .accepted q n := by
  rw [Function.update_of_ne _, accepted]
  rintro rfl
  exact early q n accepted

/-- A kill that was not accepted moves to a stage that is sound. -/
theorem move (inv : SigInv s) {stage : KillStage} (early : ∀ p sig, s.kills k ≠ .accepted p sig)
    (sound : stage.Sound s k) : SigInv { s with kills := Function.update s.kills k stage } := by
  refine ⟨fun p sig j carries => ?_, inv.alive, inv.snap, inv.held, fun j => ?_, fun j p took => ?_⟩
  · obtain ⟨accepted, rest⟩ := inv.bits p sig j carries
    exact ⟨accepted_update early accepted, rest⟩
  · rcases eq_or_ne j k with rfl | differs
    · simp only [Function.update_self]
      exact sound.mono (fun _ => Nat.le_refl _) fun _ _ _ kept => kept
    · simp only [Function.update_of_ne differs]
      exact (inv.stage j).mono (fun _ => Nat.le_refl _) fun _ _ _ kept => kept
  · obtain ⟨n, accepted⟩ := inv.own j p took
    exact ⟨n, accepted_update early accepted⟩

/-- A child that is not running yet moves forward; its word stays empty. -/
theorem advance (inv : SigInv s) {phase : SigPhase} {word : ℕ → Bool}
    (early : (s.phase c).rank < 4) (forward : (s.phase c).rank ≤ phase.rank) :
    SigInv { s with
      phase := Function.update s.phase c phase
      pending := Function.update s.pending c word
      carried := Function.update s.carried c fun _ => [] } := by
  have idle : s.phase c ≠ .running := by
    intro running
    rw [running] at early
    exact absurd early (by decide)
  refine ⟨fun p sig k carries => ?_, fun p sig stopped => ?_, fun p sig before => ?_,
    fun p w kills h => ?_, fun k => ?_, inv.own⟩
  · rcases eq_or_ne p c with rfl | other
    · simp at carries
    · simp only [Function.update_of_ne other] at carries ⊢
      exact inv.bits p sig k carries
  · rcases eq_or_ne p c with rfl | other
    · simp
    · simp only [Function.update_of_ne other] at stopped ⊢
      exact inv.alive p sig stopped
  · exact inv.snap p sig (Nat.lt_of_le_of_lt (SigState.rank_update forward p) before)
  · rcases eq_or_ne p c with rfl | other
    · exact absurd (inv.held p w kills h).2.2 idle
    · simp only [Function.update_of_ne other]
      exact inv.held p w kills h
  · refine (inv.stage k).mono (SigState.rank_update forward) fun p sig accepted kept => ?_
    rcases eq_or_ne p c with rfl | other
    · have late := inv.stage k
      rw [accepted] at late
      exact absurd late.1 (by omega)
    · simpa only [SigState.Accounts, Function.update_of_ne other] using kept

/-- The thread of a child is recorded. -/
theorem record (inv : SigInv s) (ready : s.phase c = .ready) :
    SigInv { s with phase := Function.update s.phase c .recorded } := by
  have bare : s.carried c = fun _ => [] := funext fun sig => inv.alive c sig (by simp [ready])
  have moved : SigInv { s with
      phase := Function.update s.phase c .recorded
      pending := Function.update s.pending c (s.pending c)
      carried := Function.update s.carried c fun _ => [] } :=
    inv.advance (by rw [ready]; decide) (by rw [ready]; decide)
  rwa [← bare, Function.update_eq_self, Function.update_eq_self] at moved

/-- A process with no pending bit forks. -/
theorem fork (inv : SigInv s) (clear : ∀ sig, s.pending p sig = false) (free : s.phase c = .absent) :
    SigInv { s with
      phase := Function.update s.phase c .ready
      snapshot := Function.update s.snapshot c (s.pending p)
      snapCarried := Function.update s.snapCarried c (s.carried p) } := by
  have bare : s.carried c = fun _ => [] := funext fun sig => inv.alive c sig (by simp [free])
  have moved : SigInv { s with
      phase := Function.update s.phase c .ready
      pending := Function.update s.pending c (s.pending c)
      carried := Function.update s.carried c fun _ => [] } :=
    inv.advance (by rw [free]; decide) (by rw [free]; decide)
  rw [← bare, Function.update_eq_self, Function.update_eq_self] at moved
  refine ⟨moved.bits, moved.alive, fun q sig early => ?_, moved.held, fun k => ?_, moved.own⟩
  · rcases eq_or_ne q c with rfl | other
    · simp only [Function.update_self]
      exact inv.carried_nil (clear sig)
    · simp only [Function.update_of_ne other] at early ⊢
      exact inv.snap q sig early
  · exact (moved.stage k).mono (fun _ => Nat.le_refl _) fun _ _ _ kept => kept

/-- A running process takes a signal. -/
theorem take (inv : SigInv s) (running : s.phase p = .running) (free : s.held p = none) :
    SigInv { s with
      pending := Function.update s.pending p (Function.update (s.pending p) sig false)
      carried := Function.update s.carried p (Function.update (s.carried p) sig [])
      taken := Function.update s.taken p (s.taken p ++ s.carried p sig) } := by
  refine ⟨fun q n k carries => ?_, inv.alive_update running, inv.snap, inv.held_update free,
    fun k => ?_, fun k q took => ?_⟩
  · rcases eq_or_ne q p with rfl | other
    · rcases eq_or_ne n sig with rfl | differs
      · simp at carries
      · simp only [Function.update_self, Function.update_of_ne differs] at carries ⊢
        exact inv.bits q n k carries
    · simp only [Function.update_of_ne other] at carries ⊢
      exact inv.bits q n k carries
  · refine (inv.stage k).mono (fun _ => Nat.le_refl _) fun q n accepted kept => ?_
    rcases eq_or_ne q p with rfl | other
    · rcases eq_or_ne n sig with rfl | differs
      · rcases kept with ⟨_, carries⟩ | took | gone
        · exact .inr (.inl (by simp [carries]))
        · exact .inr (.inl (by simp [took]))
        · exact .inr (.inr gone)
      · rcases kept with pends | took | gone
        · exact .inl (by simpa [differs] using pends)
        · exact .inr (.inl (by simp [took]))
        · exact .inr (.inr gone)
    · simpa only [SigState.Accounts, Function.update_of_ne other] using kept
  · rcases eq_or_ne q p with rfl | other
    · simp only [Function.update_self, List.mem_append] at took
      rcases took with took | carries
      · exact inv.own k q took
      · exact ⟨sig, (inv.bits q sig k carries).1⟩
    · simp only [Function.update_of_ne other] at took
      exact inv.own k q took

/-- A running process drops what is pending. -/
theorem drop (inv : SigInv s) (running : s.phase p = .running) (free : s.held p = none) :
    SigInv (s.drop p) := by
  refine ⟨fun q n k carries => ?_, inv.alive_update running, inv.snap, inv.held_update free,
    fun k => ?_, inv.own⟩
  · rcases eq_or_ne q p with rfl | other
    · simp [SigState.drop] at carries
    · simp only [SigState.drop, Function.update_of_ne other] at carries ⊢
      exact inv.bits q n k carries
  · refine (inv.stage k).mono (fun _ => Nat.le_refl _) fun q n accepted kept => ?_
    rcases eq_or_ne q p with rfl | other
    · refine kept.elim (fun pends => .inr (.inr ?_)) fun later => .inr (later.imp id fun gone => ?_)
      · simp only [SigState.drop, Function.update_self, List.mem_append, List.mem_flatMap,
          List.mem_range]
        exact .inr ⟨n, (inv.bits q n k pends.2).2.2, pends.2⟩
      · simp only [SigState.drop, Function.update_self, List.mem_append]
        exact .inl gone
    · simpa only [SigState.Accounts, SigState.drop, Function.update_of_ne other] using kept

/-- A process ends. -/
theorem finish (inv : SigInv s) (running : s.phase p = .running) (free : s.held p = none) :
    SigInv { s.drop p with phase := Function.update s.phase p .ended } := by
  have dropped := inv.drop running free
  have forward : ((s.drop p).phase p).rank ≤ SigPhase.ended.rank := by
    rw [show (s.drop p).phase p = .running from running]
    decide
  have none : ∀ n, (s.drop p).carried p n = [] := by simp [SigState.drop]
  refine ⟨dropped.bits, fun q n stopped => ?_, fun q n early => ?_, fun q w kills h => ?_,
    fun k => ?_, dropped.own⟩
  · rcases eq_or_ne q p with rfl | other
    · exact none n
    · simp only [Function.update_of_ne other] at stopped
      exact dropped.alive q n stopped
  · exact dropped.snap q n (Nat.lt_of_le_of_lt (SigState.rank_update forward q) early)
  · have other : q ≠ p := by
      rintro rfl
      exact nomatch free.symm.trans h
    simp only [Function.update_of_ne other]
    exact dropped.held q w kills h
  · exact (dropped.stage k).mono (SigState.rank_update forward) fun _ _ _ kept => kept

/-- `yos_sigsuspend` loads its word. -/
theorem suspend (inv : SigInv s) (running : s.phase p = .running) :
    SigInv { s with held := Function.update s.held p (some (s.pending p, s.carried p)) } := by
  refine ⟨inv.bits, inv.alive, inv.snap, fun q w kills h => ?_, fun k => ?_, inv.own⟩
  · rcases eq_or_ne q p with rfl | other
    · simp only [Function.update_self, Option.some.injEq, Prod.mk.injEq] at h
      exact ⟨h.1.symm, h.2.symm, running⟩
    · simp only [Function.update_of_ne other] at h
      exact inv.held q w kills h
  · exact (inv.stage k).mono (fun _ => Nat.le_refl _) fun _ _ _ kept => kept

/-- It stores the word, which is still the current one. -/
theorem resume (inv : SigInv s) {word : ℕ → Bool} {kills : ℕ → List ℕ}
    (holds : s.held p = some (word, kills)) :
    SigInv { s with
      pending := Function.update s.pending p (Function.update word 20 true)
      carried := Function.update s.carried p kills
      held := Function.update s.held p none } := by
  obtain ⟨rfl, rfl, -⟩ := inv.held p word kills holds
  rw [Function.update_eq_self]
  have raised : ∀ q n, s.pending q n = true →
      Function.update s.pending p (Function.update (s.pending p) 20 true) q n = true := by
    intro q n pends
    rcases eq_or_ne q p with rfl | other
    · rcases eq_or_ne n 20 with rfl | differs
      · simp
      · simpa [differs] using pends
    · simpa [other] using pends
  refine ⟨fun q n k carries => ?_, inv.alive, inv.snap, fun q w kills h => ?_, fun k => ?_, inv.own⟩
  · obtain ⟨accepted, pends, small⟩ := inv.bits q n k carries
    exact ⟨accepted, raised q n pends, small⟩
  · have other : q ≠ p := by
      rintro rfl
      simp at h
    simp only [Function.update_of_ne other] at h ⊢
    exact inv.held q w kills h
  · refine (inv.stage k).mono (fun _ => Nat.le_refl _) fun q n _ kept => ?_
    exact kept.imp (fun pends => ⟨raised q n pends.1, pends.2⟩) id

/-- A kill sets its bit in a running process that is not in `yos_sigsuspend`. -/
theorem deliver (inv : SigInv s) {ctx : Bool} (loaded : s.kills k = .loaded p sig ctx)
    (running : s.phase p = .running) (free : s.held p = none) :
    SigInv { s with
      kills := Function.update s.kills k (.accepted p sig)
      pending := Function.update s.pending p (Function.update (s.pending p) sig true)
      carried := Function.update s.carried p
        (Function.update (s.carried p) sig (k :: s.carried p sig)) } := by
  have sound := inv.stage k
  rw [loaded] at sound
  have early : ∀ q n, s.kills k ≠ .accepted q n := fun q n accepted =>
    nomatch loaded.symm.trans accepted
  have raised : ∀ q n j, s.pending q n = true ∧ j ∈ s.carried q n →
      Function.update s.pending p (Function.update (s.pending p) sig true) q n = true ∧
      j ∈ Function.update s.carried p
        (Function.update (s.carried p) sig (k :: s.carried p sig)) q n := by
    rintro q n j ⟨pends, carries⟩
    rcases eq_or_ne q p with rfl | away
    · rcases eq_or_ne n sig with rfl | differs
      · simp [carries]
      · simp [differs, pends, carries]
    · simp [away, pends, carries]
  refine ⟨fun q n j carries => ?_, inv.alive_update running, inv.snap, inv.held_update free,
    fun j => ?_, fun j q took => ?_⟩
  · have known : j ∈ s.carried q n → Function.update s.kills k (.accepted p sig) j = .accepted q n ∧
        Function.update s.pending p (Function.update (s.pending p) sig true) q n = true ∧ n < 32 := by
      intro carries
      obtain ⟨accepted, pends, small⟩ := inv.bits q n j carries
      exact ⟨accepted_update early accepted, (raised q n j ⟨pends, carries⟩).1, small⟩
    rcases eq_or_ne q p with rfl | away
    · rcases eq_or_ne n sig with rfl | differs
      · simp only [Function.update_self, List.mem_cons] at carries
        rcases carries with rfl | carries
        · exact ⟨by simp, by simp, sound.1⟩
        · exact known carries
      · simp only [Function.update_self, Function.update_of_ne differs] at carries
        exact known carries
    · simp only [Function.update_of_ne away] at carries
      exact known carries
  · rcases eq_or_ne j k with rfl | differs
    · simp only [Function.update_self]
      refine ⟨?_, .inl ?_⟩
      · simp only [running]
        decide
      · simp
    · simp only [Function.update_of_ne differs]
      exact (inv.stage j).mono (fun _ => Nat.le_refl _) fun q n _ kept =>
        kept.imp (raised q n j) id
  · obtain ⟨n, accepted⟩ := inv.own j q took
    exact ⟨n, accepted_update early accepted⟩

/-- A kill whose target has ended is dropped. -/
theorem gone (inv : SigInv s) {ctx : Bool} (loaded : s.kills k = .loaded p sig ctx)
    (ended : s.phase p = .ended) :
    SigInv { s with
      kills := Function.update s.kills k (.accepted p sig)
      dropped := Function.update s.dropped p (k :: s.dropped p) } := by
  have noted : SigInv { s with dropped := Function.update s.dropped p (k :: s.dropped p) } := by
    refine ⟨inv.bits, inv.alive, inv.snap, inv.held, fun j => ?_, inv.own⟩
    refine (inv.stage j).mono (fun _ => Nat.le_refl _) fun q n _ kept => ?_
    refine kept.imp id fun later => later.imp id fun gone => ?_
    rcases eq_or_ne q p with rfl | away
    · simp [gone]
    · simpa [away] using gone
  refine noted.move (fun q n accepted => ?_) ⟨?_, .inr (.inr ?_)⟩
  · exact nomatch loaded.symm.trans accepted
  · simp only [ended]
    decide
  · simp

/-- A kill that loaded the context makes its last step outside the gaps. -/
theorem set (inv : SigInv s) {ctx : Bool} (loaded : s.kills k = .loaded p sig ctx)
    (copied : s.phase p ≠ .published) (free : s.held p = none) :
    SigInv (SigState.orBit { s with kills := Function.update s.kills k (.accepted p sig) }
      k p sig ctx) := by
  have sound := inv.stage k
  rw [loaded] at sound
  obtain ⟨_, late, null⟩ := sound
  unfold SigState.orBit
  split
  · next ended => exact inv.gone loaded ended
  · next lives =>
    have running : s.phase p = .running := by
      revert late copied lives
      cases s.phase p <;> simp [SigPhase.rank]
    cases ctx with
    | true => exact inv.deliver loaded running free
    | false => exact absurd (null rfl) lives

/-- Every allowed step keeps the invariant. -/
theorem next (inv : SigInv s) {a : SigStep} (allowed : SigOk s a) (made : s.next a = some s') :
    SigInv s' := by
  cases a with
  | test k p sig =>
    simp only [SigState.next] at made
    split at made
    · next guard =>
      cases made
      obtain ⟨idle, _, small, _, thread⟩ := guard
      refine inv.move (fun q n accepted => ?_) ⟨small, ?_⟩
      · exact nomatch idle.symm.trans accepted
      · revert thread
        cases s.phase p <;> simp [SigPhase.hasThread, SigPhase.rank]
    · cases made
  | load k =>
    simp only [SigState.next] at made
    split at made
    · next p sig tested =>
      cases made
      have sound := inv.stage k
      rw [tested] at sound
      have seen := allowed p sig tested
      refine inv.move (fun q n accepted => ?_) ⟨sound.1, ?_, ?_⟩
      · exact nomatch tested.symm.trans accepted
      · have late := sound.2
        revert late seen
        cases s.phase p <;> simp [SigPhase.rank]
      · have late := sound.2
        revert late seen
        cases s.phase p <;> simp [SigPhase.rank, SigPhase.hasCtx]
    · cases made
  | set k =>
    simp only [SigState.next] at made
    split at made
    · next p sig ctx loaded =>
      cases made
      obtain ⟨copied, free⟩ := allowed p sig ctx loaded
      exact inv.set loaded copied free
    · cases made
  | fork p c =>
    simp only [SigState.next] at made
    split at made
    · next guard =>
      cases made
      exact inv.fork allowed guard.2.2
    · cases made
  | record c =>
    simp only [SigState.next] at made
    split at made
    · next ready =>
      cases made
      exact inv.record ready
    · cases made
  | publish c =>
    simp only [SigState.next] at made
    split at made
    · next recorded =>
      cases made
      exact inv.advance (by rw [recorded]; decide) (by rw [recorded]; decide)
    · cases made
  | copy c =>
    simp only [SigState.next] at made
    split at made
    · next published =>
      cases made
      have bare : s.snapCarried c = fun _ => [] :=
        funext fun sig => inv.snap c sig (by rw [published]; decide)
      rw [bare]
      exact inv.advance (by rw [published]; decide) (by rw [published]; decide)
    · cases made
  | take p sig =>
    simp only [SigState.next] at made
    split at made
    · next guard =>
      cases made
      exact inv.take guard.1 guard.2.1
    · cases made
  | suspend p =>
    simp only [SigState.next] at made
    split at made
    · next guard =>
      cases made
      exact inv.suspend guard.1
    · cases made
  | resume p =>
    simp only [SigState.next] at made
    split at made
    · next word kills holds =>
      cases made
      exact inv.resume holds
    · cases made
  | exec p =>
    simp only [SigState.next] at made
    split at made
    · next guard =>
      cases made
      exact inv.drop guard.1 guard.2
    · cases made
  | finish p =>
    simp only [SigState.next] at made
    split at made
    · next guard =>
      cases made
      exact inv.finish guard.1 guard.2
    · cases made

end SigInv

/-! ## Every run -/

/-- In every run where no bit is pending at a fork and no kill falls into a gap, every accepted kill
stays pending until its target takes or drops it, and only its target takes it. -/
theorem signals_kept {s : SigState} (run : sigSystem.ReachableIf SigOk s) : SignalsKept s := by
  have inv : SigInv s := run.invariant (fun s (start : s = .start) => start ▸ SigInv.start)
    fun s a s' before allowed made => before.next allowed made
  refine ⟨fun k p sig accepted => ?_, inv.own⟩
  have sound := inv.stage k
  rw [accepted] at sound
  exact sound.2

/-- A test for `SigOk` in a run without forks. -/
def sigOkTest (s : SigState) : SigStep → Bool
  | .fork _ _ => false
  | .load k =>
    match s.kills k with
    | .tested p _ => decide (s.phase p ≠ .recorded)
    | _ => true
  | .set k =>
    match s.kills k with
    | .loaded p _ _ => decide (s.phase p ≠ .published) && (s.held p).isNone
    | _ => true
  | _ => true

theorem sigOk_of_test {s : SigState} {a : SigStep} (passed : sigOkTest s a = true) : SigOk s a := by
  cases a with
  | fork p c => cases passed
  | load k =>
    intro p sig tested
    simpa [sigOkTest, tested] using passed
  | set k =>
    intro p sig ctx loaded
    simpa [sigOkTest, loaded] using passed
  | _ => trivial

/-- A process forks, its child starts, and is sent a signal that it takes. -/
theorem signals_kept_after_fork : ∃ s, sigSystem.ReachableIf SigOk s ∧
    s.kills 0 = .accepted 2 15 ∧ s.taken 2 = [0] ∧ SignalsKept s := by
  obtain ⟨forked, made⟩ : ∃ forked, SigState.start.next (.fork 1 2) = some forked := ⟨_, rfl⟩
  have allowed : SigOk .start (.fork 1 2) := fun _ => rfl
  have first : sigSystem.ReachableIf SigOk forked := System.ReachableIf.step (.init rfl) allowed made
  have look : ((SigState.start.next (.fork 1 2)).bind fun s => System.runIf SigState.next sigOkTest s
      [.record 2, .publish 2, .copy 2, .test 0 2 15, .load 0, .set 0, .suspend 2, .resume 2,
        .take 2 15]).map (fun s => (s.kills 0, s.taken 2)) = some (.accepted 2 15, [0]) := by decide
  rw [made] at look
  obtain ⟨s, ran, seen⟩ := Option.map_eq_some_iff.mp look
  simp only [Prod.mk.injEq] at seen
  have run : sigSystem.ReachableIf SigOk s := first.runIf (fun _ _ _ next => next)
    (fun _ _ _ passed => sigOk_of_test passed) ran
  exact ⟨s, run, seen.1, seen.2, signals_kept run⟩

/-- A kill that loads `ctx_handle` before it is published is lost, one that sets its bit before the
copy is lost, and a signal pending at a fork is taken by both processes. -/
theorem signals_lost_and_doubled :
    (∃ s, sigSystem.Reachable s ∧ s.phase 2 = .running ∧
      s.kills 0 = .accepted 2 15 ∧ s.kills 1 = .accepted 2 1 ∧
      s.pending 2 15 = false ∧ s.pending 2 1 = false ∧ s.taken 2 = [] ∧ s.dropped 2 = []) ∧
    ∃ s, sigSystem.Reachable s ∧ s.kills 0 = .accepted 1 15 ∧ s.taken 1 = [0] ∧ s.taken 2 = [0] := by
  have start : sigSystem.Reachable .start := .start rfl
  constructor
  · have look : (System.runIf SigState.next (fun _ _ => true) .start
        [.fork 1 2, .record 2, .test 0 2 15, .load 0, .set 0, .publish 2, .test 1 2 1, .load 1,
          .set 1, .copy 2]).map (fun s => (s.phase 2, s.kills 0, s.kills 1, s.pending 2 15,
            s.pending 2 1, s.taken 2, s.dropped 2)) =
        some (.running, .accepted 2 15, .accepted 2 1, false, false, [], []) := rfl
    obtain ⟨s, ran, seen⟩ := Option.map_eq_some_iff.mp look
    simp only [Prod.mk.injEq] at seen
    exact ⟨s, System.ReachableIf.runIf (fun _ _ _ next => next) (fun _ _ _ _ => trivial) start ran,
      seen⟩
  · have look : (System.runIf SigState.next (fun _ _ => true) .start
        [.test 0 1 15, .load 0, .set 0, .fork 1 2, .take 1 15, .record 2, .publish 2, .copy 2,
          .take 2 15]).map (fun s => (s.kills 0, s.taken 1, s.taken 2)) =
        some (.accepted 1 15, [0], [0]) := by decide
    obtain ⟨s, ran, seen⟩ := Option.map_eq_some_iff.mp look
    simp only [Prod.mk.injEq] at seen
    exact ⟨s, System.ReachableIf.runIf (fun _ _ _ next => next) (fun _ _ _ _ => trivial) start ran,
      seen⟩

end Yos
