import Yos.Errno
import Yos.Lib.Bits
import Yos.Lib.System

/-!
# Signal sets (`impl/proc/sig.c`)

The guest numbers the bits of a `sigset_t` from `signo - 1`, the runtime those of `sig_mask` and
`sig_pending` from `signo`.  `sigmask_apply` shifts between the two, `yos_sigsuspend` does not, and
`yos_sigpending` reports the set of the host and not `sig_pending`.  `sigsets_agree` says what each of
them does with a set, and that no reachable `sig_mask` has `SIGKILL` or `SIGSTOP`.
-/

namespace Yos

namespace SigMask

/-- The signal fields of the context, and the memory of the guest. -/
structure SigCtx where
  memory : Bytes
  memorySize : ℕ
  sigMask : BitVec 32
  sigPending : BitVec 32

/-- `(1u << YOS_FBSD_SIGKILL) | (1u << YOS_FBSD_SIGSTOP)`. -/
def unblockable : BitVec 32 := 1#32 <<< 9 ||| 1#32 <<< 17

/-- `yos_sigset_bound`. -/
def sigsetBound (ctx : SigCtx) (off : ℕ) : Prop := off ≠ 0 ∧ off + 16 ≤ ctx.memorySize

instance (ctx : SigCtx) (off : ℕ) : Decidable (sigsetBound ctx off) :=
  inferInstanceAs (Decidable (_ ∧ _))

/-- `yos_sigismember` of a set in memory: bit `signo - 1`. -/
def isMember (memory : Bytes) (off signo : ℕ) : Bool := memory.bit off (signo - 1)

/-! ## `sigmask_apply` -/

/-- `read_fbsd_sigset_lo`. -/
def readFbsdSigsetLo (ctx : SigCtx) (off : ℕ) : BitVec 32 :=
  if sigsetBound ctx off then BitVec.ofNat 32 (ctx.memory.read32 off) else 0

/-- `write_fbsd_sigset_lo`. -/
def writeFbsdSigsetLo (ctx : SigCtx) (off : ℕ) (lo : BitVec 32) : SigCtx :=
  if sigsetBound ctx off then
    { ctx with memory := (ctx.memory.write32 off lo.toNat).fill (off + 4) 12 0 }
  else ctx

/-- The mask that `sigmask_apply` stores. -/
def newMask (prev set : BitVec 32) (how : ℕ) : Except Errno (BitVec 32) :=
  let s := set <<< 1 &&& ~~~unblockable
  match how with
  | 1 => .ok (prev ||| s)
  | 2 => .ok (prev &&& ~~~s)
  | 3 => .ok s
  | _ => .error .EINVAL

/-- `sigmask_apply` up to the delivery of what it unblocked. -/
def sigmaskStore (ctx : SigCtx) (how set oset : ℕ) : Except Errno SigCtx :=
  let prev := ctx.sigMask
  (if set = 0 then .ok prev else newMask prev (readFbsdSigsetLo ctx set) how).map fun mask =>
    let ctx := { ctx with sigMask := mask }
    if oset = 0 then ctx else writeFbsdSigsetLo ctx oset (prev >>> 1)

/-- `sigmask_apply`, which is `yos_sigprocmask`; `pump` is `yos_signal_pump` with the handlers of the
guest. -/
def sigmaskApply (pump : SigCtx → SigCtx) (ctx : SigCtx) (how set oset : ℕ) : Except Errno SigCtx :=
  (sigmaskStore ctx how set oset).map fun ctx =>
    if ctx.sigPending &&& ~~~ctx.sigMask ≠ 0 then pump ctx else ctx

/-! ## `yos_sigsuspend` -/

/-- The mask under which `yos_sigsuspend` waits. -/
def suspendMask (ctx : SigCtx) (off : ℕ) : BitVec 32 :=
  if off = 0 then ctx.sigMask else readFbsdSigsetLo ctx off &&& ~~~unblockable

/-- `yos_sigsuspend`; `wait` is what happens in its loop. -/
def yosSigsuspend (wait : SigCtx → SigCtx) (ctx : SigCtx) (off : ℕ) : SigCtx :=
  { wait { ctx with sigMask := suspendMask ctx off } with sigMask := ctx.sigMask }

/-! ## `yos_sigpending` -/

/-- The table of `fbsd_to_host_signo` has a host signal; `SIGEMT`, `SIGINFO` and `SIGTHR` have none. -/
def Named (fb : ℕ) : Prop := 1 ≤ fb ∧ fb ≤ 31 ∧ fb ≠ 7 ∧ fb ≠ 29

instance (fb : ℕ) : Decidable (Named fb) := inferInstanceAs (Decidable (_ ∧ _))

/-- `fbsd_to_host_signo`; `number` holds the host's numbers of the signals. -/
def fbsdToHostSigno (number : ℕ → ℕ) (fb : ℕ) : ℕ := if Named fb then number fb else 0

/-- `host_to_fbsd_signo`. -/
def hostToFbsdSigno (number : ℕ → ℕ) (h : ℕ) : ℕ :=
  ((List.range' 1 32).find? fun fb => fbsdToHostSigno number fb == h).getD 0

/-- `host_sigset_to_fbsd`: the loop over the signals below `NSIG`. -/
def hostSigsetToFbsd (number : ℕ → ℕ) (nsig : ℕ) (host : ℕ → Bool) (memory : Bytes) (off : ℕ) :
    Bytes :=
  (List.range' 1 (nsig - 1)).foldl
    (fun fb h =>
      if host h then
        let fbsig := hostToFbsdSigno number h
        if 0 < fbsig then fb.setBit off (fbsig - 1) else fb
      else fb)
    (memory.fill off 16 0)

/-- `yos_sigpending`; `host` is the set of the host's `sigpending`, or its error. -/
def yosSigpending (number : ℕ → ℕ) (nsig : ℕ) (host : Except ℕ (ℕ → Bool)) (ctx : SigCtx) (off : ℕ) :
    Except ℕ SigCtx :=
  if sigsetBound ctx off then
    host.map fun set =>
      { ctx with memory := hostSigsetToFbsd number nsig set ctx.memory off }
  else .error Errno.EFAULT.number

/-- The host's numbers of the signals are different and below `NSIG`. -/
structure HostNumbers (number : ℕ → ℕ) (nsig : ℕ) : Prop where
  range : ∀ fb, Named fb → 0 < number fb ∧ number fb < nsig
  inj : ∀ fb fb', Named fb → Named fb' → number fb = number fb' → fb = fb'

/-! ## Reading a set back -/

section Sets

variable {ctx : SigCtx} {off : ℕ}

theorem getLsbD_unblockable (i : ℕ) : unblockable.getLsbD i = decide (i = 9 ∨ i = 17) := by
  by_cases lt : i < 32
  · exact (by decide : ∀ i < 32, unblockable.getLsbD i = decide (i = 9 ∨ i = 17)) i lt
  · rw [BitVec.getLsbD_of_ge _ _ (by omega), decide_eq_false (by omega)]

theorem getLsbD_readFbsdSigsetLo (inside : sigsetBound ctx off) {i : ℕ} (lt : i < 32) :
    (readFbsdSigsetLo ctx off).getLsbD i = ctx.memory.bit off i := by
  rw [readFbsdSigsetLo, if_pos inside, BitVec.getLsbD_ofNat, Bytes.testBit_read32 lt,
    decide_eq_true lt, Bool.true_and]

/-- What is written is the low word, and no signal above 32. -/
theorem bit_writeFbsdSigsetLo (inside : sigsetBound ctx off) (lo : BitVec 32) {i : ℕ}
    (lt : i < 128) : (writeFbsdSigsetLo ctx off lo).memory.bit off i = lo.getLsbD i := by
  rw [writeFbsdSigsetLo, if_pos inside]
  dsimp only
  by_cases low : i < 32
  · rw [Bytes.bit_fill_of_lt (by omega), Bytes.bit_write32 low lo.isLt]
    rfl
  · rw [BitVec.getLsbD_of_ge _ _ (by omega), Bytes.bit, Bytes.fill_of_mem ⟨by omega, by omega⟩]
    exact Nat.zero_testBit _

/-- A set is installed and read back, without what cannot be blocked. -/
def ReadsBack (pump : SigCtx → SigCtx) (ctx : SigCtx) (set : ℕ) : Prop :=
  ∃ c, sigmaskApply pump ctx 3 set 0 = .ok c ∧
    ∀ how oset, sigsetBound c oset → ∃ c', sigmaskStore c how 0 oset = .ok c' ∧
      ∀ signo, 1 ≤ signo → signo ≤ 128 → (isMember c'.memory oset signo = true ↔
        isMember ctx.memory set signo = true ∧ signo ≤ 31 ∧ signo ≠ 9 ∧ signo ≠ 17)

theorem readsBack {pump : SigCtx → SigCtx} (quiet : ∀ c, (pump c).sigMask = c.sigMask) {set : ℕ}
    (inside : sigsetBound ctx set) : ReadsBack pump ctx set := by
  have stored : sigmaskStore ctx 3 set 0 =
      .ok { ctx with sigMask := readFbsdSigsetLo ctx set <<< 1 &&& ~~~unblockable } := by
    rw [sigmaskStore, if_neg inside.1]
    rfl
  have mask (c : SigCtx) : (if c.sigPending &&& ~~~c.sigMask ≠ 0 then pump c else c).sigMask =
      c.sigMask := by
    split_ifs
    · exact quiet c
    · rfl
  obtain ⟨c, applied, masked⟩ : ∃ c, sigmaskApply pump ctx 3 set 0 = .ok c ∧
      c.sigMask = readFbsdSigsetLo ctx set <<< 1 &&& ~~~unblockable :=
    ⟨_, by rw [sigmaskApply, stored]; rfl, mask _⟩
  refine ⟨c, applied, fun how oset room => ⟨writeFbsdSigsetLo c oset (c.sigMask >>> 1), ?_, ?_⟩⟩
  · rw [sigmaskStore, if_pos rfl]
    exact congrArg Except.ok (if_neg room.1)
  · intro signo pos le
    rw [isMember, isMember, bit_writeFbsdSigsetLo room _ (by omega), masked, BitVec.getLsbD_ushiftRight,
      show 1 + (signo - 1) = signo by omega, BitVec.getLsbD_and, BitVec.getLsbD_shiftLeft,
      BitVec.getLsbD_not, getLsbD_unblockable]
    by_cases low : signo < 32
    · rw [getLsbD_readFbsdSigsetLo inside (by omega)]
      have after : ¬ signo < 1 := by omega
      by_cases h9 : signo = 9
      · simp [h9]
      · by_cases h17 : signo = 17
        · simp [h17]
        · simp [low, after, h9, h17]
          omega
    · simp [low]
      omega

/-! ## The mask of `yos_sigsuspend` -/

/-- A word that a shift by one leaves as it is, but for the bits of `SIGKILL` and `SIGSTOP`: none of
the bits below 9, and all or none of the bits from 9 and from 17 on. -/
def ShiftFixed (m : BitVec 32) : Prop :=
  (∀ i < 9, m.getLsbD i = false) ∧ (∀ i, 9 ≤ i → i < 17 → m.getLsbD i = m.getLsbD 9) ∧
    ∀ i, 17 ≤ i → i < 32 → m.getLsbD i = m.getLsbD 17

theorem steady {f : ℕ → Bool} {a b : ℕ} (step : ∀ i, a < i → i < b → f i = f (i - 1)) {i : ℕ}
    (low : a ≤ i) (high : i < b) : f i = f a := by
  induction i, low using Nat.le_induction with
  | base => rfl
  | succ i low ih =>
    rw [step (i + 1) (by omega) high, Nat.add_sub_cancel]
    exact ih (by omega)

theorem shiftFixed_iff {m : BitVec 32} :
    m &&& ~~~unblockable = m <<< 1 &&& ~~~unblockable ↔ ShiftFixed m := by
  have bits : m &&& ~~~unblockable = m <<< 1 &&& ~~~unblockable ↔
      ∀ i < 32, i ≠ 9 → i ≠ 17 → m.getLsbD i = (decide (0 < i) && m.getLsbD (i - 1)) := by
    rw [BitVec.eq_of_getLsbD_eq_iff]
    refine forall₂_congr fun i lt => ?_
    rw [BitVec.getLsbD_and, BitVec.getLsbD_and, BitVec.getLsbD_not, getLsbD_unblockable,
      BitVec.getLsbD_shiftLeft]
    by_cases h9 : i = 9
    · simp [h9]
    · by_cases h17 : i = 17
      · simp [h17]
      · simp [h9, h17, lt, Nat.pos_iff_ne_zero]
  rw [bits]
  constructor
  · intro step
    have first : m.getLsbD 0 = false := step 0 (by decide) (by decide) (by decide)
    have next (i : ℕ) (pos : 0 < i) (lt : i < 32) (no9 : i ≠ 9) (no17 : i ≠ 17) :
        m.getLsbD i = m.getLsbD (i - 1) := by
      rw [step i lt no9 no17, decide_eq_true pos, Bool.true_and]
    refine ⟨fun i lt => ?_, fun i low high => ?_, fun i low high => ?_⟩
    · rw [← first]
      exact steady (a := 0) (b := 9) (fun i _ _ => next i (by omega) (by omega) (by omega) (by omega))
        (Nat.zero_le i) lt
    · exact steady (fun i _ _ => next i (by omega) (by omega) (by omega) (by omega)) low high
    · exact steady (fun i _ _ => next i (by omega) (by omega) (by omega) (by omega)) low high
  · rintro ⟨low, middle, high⟩ i lt no9 no17
    rcases (by omega : i = 0 ∨ 0 < i ∧ i < 9 ∨ 9 < i ∧ i < 17 ∨ 17 < i) with rfl | h | h | h
    · rw [low 0 (by decide)]
      rfl
    · rw [low i h.2, low (i - 1) (by omega), Bool.and_false]
    · rw [middle i (by omega) h.2, middle (i - 1) (by omega) (by omega), decide_eq_true (by omega),
        Bool.true_and]
    · rw [high i (by omega) lt, high (i - 1) (by omega) (by omega), decide_eq_true (by omega),
        Bool.true_and]

/-- `yos_sigsuspend` waits under the mask `yos_sigprocmask` would install. -/
theorem suspendMask_iff (ctx : SigCtx) (off : ℕ) :
    (∀ c, sigmaskStore ctx 3 off 0 = .ok c → suspendMask ctx off = c.sigMask) ↔
      off = 0 ∨ ShiftFixed (readFbsdSigsetLo ctx off) := by
  by_cases null : off = 0
  · refine iff_of_true (fun c stored => ?_) (Or.inl null)
    rw [sigmaskStore, if_pos null] at stored
    rw [suspendMask, if_pos null, ← Except.ok.inj stored]
    rfl
  · have stored : sigmaskStore ctx 3 off 0 =
        .ok { ctx with sigMask := readFbsdSigsetLo ctx off <<< 1 &&& ~~~unblockable } := by
      rw [sigmaskStore, if_neg null]
      rfl
    rw [stored, suspendMask, if_neg null, ← shiftFixed_iff, or_iff_right null]
    simp only [Except.ok.injEq, forall_eq']

end Sets

/-! ## The set of `yos_sigpending` -/

section Pending

variable {number : ℕ → ℕ} {nsig : ℕ}

theorem named_of_ne_zero {fb : ℕ} (real : fbsdToHostSigno number fb ≠ 0) :
    Named fb ∧ fbsdToHostSigno number fb = number fb := by
  unfold fbsdToHostSigno at real ⊢
  split_ifs at real ⊢ with named
  · exact ⟨named, rfl⟩
  · exact absurd rfl real

/-- The two conversions are inverse to each other. -/
theorem hostToFbsdSigno_eq_iff (numbers : HostNumbers number nsig) {h fb : ℕ} (pos : 0 < h)
    (real : 0 < fb) : hostToFbsdSigno number h = fb ↔ fbsdToHostSigno number fb = h := by
  unfold hostToFbsdSigno
  rcases search : (List.range' 1 32).find? fun fb => fbsdToHostSigno number fb == h with _ | fb'
  · refine iff_of_false (Nat.ne_of_lt real) fun same => ?_
    have named := (named_of_ne_zero (Nat.ne_zero_of_lt (same ▸ pos))).1
    have listed : fb ∈ List.range' 1 32 := List.mem_range'_1.2 ⟨named.1, by have := named.2.1; omega⟩
    have miss := List.find?_eq_none.1 search fb listed
    simp [same] at miss
  · have found : fbsdToHostSigno number fb' = h := by
      simpa using List.find?_some search
    rw [Option.getD_some]
    constructor
    · rintro rfl
      exact found
    · intro same
      obtain ⟨named, eq⟩ := named_of_ne_zero (show fbsdToHostSigno number fb ≠ 0 by omega)
      obtain ⟨named', eq'⟩ := named_of_ne_zero (show fbsdToHostSigno number fb' ≠ 0 by omega)
      exact numbers.inj fb' fb named' named (by omega)

/-- A signal is reported when the host has it pending. -/
theorem isMember_hostSigsetToFbsd (numbers : HostNumbers number nsig) (host : ℕ → Bool)
    (memory : Bytes) (off : ℕ) {signo : ℕ} (pos : 1 ≤ signo) (le : signo ≤ 128) :
    isMember (hostSigsetToFbsd number nsig host memory off) off signo = true ↔
      fbsdToHostSigno number signo ≠ 0 ∧ host (fbsdToHostSigno number signo) = true := by
  have loop : hostSigsetToFbsd number nsig host memory off =
      (List.range' 1 (nsig - 1)).foldl (fun fb h =>
        if host h = true ∧ 0 < hostToFbsdSigno number h then
          fb.setBit off (hostToFbsdSigno number h - 1)
        else fb) (memory.fill off 16 0) := by
    unfold hostSigsetToFbsd
    simp only [ite_and]
  rw [isMember, loop, Bytes.bit_foldl_setBit, Bytes.bit_fill_zero (by omega)]
  simp only [Bool.false_eq_true, or_false, List.mem_range'_1]
  constructor
  · rintro ⟨h, ⟨low, -⟩, ⟨set, real⟩, number_eq⟩
    have same : hostToFbsdSigno number h = signo := by omega
    rw [(hostToFbsdSigno_eq_iff numbers low pos).1 same]
    exact ⟨by omega, set⟩
  · rintro ⟨real, set⟩
    have pos' := Nat.pos_of_ne_zero real
    obtain ⟨named, eq⟩ := named_of_ne_zero real
    have range := (numbers.range signo named).2
    have same := (hostToFbsdSigno_eq_iff numbers pos' pos).2 rfl
    exact ⟨fbsdToHostSigno number signo, ⟨pos', by omega⟩, ⟨set, by omega⟩, by omega⟩

/-- `yos_sigpending` reports the signals in `sig_pending`. -/
def Reports (number : ℕ → ℕ) (nsig : ℕ) (host : ℕ → Bool) (ctx : SigCtx) (off : ℕ) : Prop :=
  ∃ c, yosSigpending number nsig (.ok host) ctx off = .ok c ∧
    ∀ signo, 1 ≤ signo → signo ≤ 128 →
      (isMember c.memory off signo = true ↔ signo ≤ 31 ∧ ctx.sigPending.getLsbD signo = true)

theorem reports_iff (numbers : HostNumbers number nsig) (host : ℕ → Bool) {ctx : SigCtx} {off : ℕ}
    (inside : sigsetBound ctx off) :
    Reports number nsig host ctx off ↔
      ∀ signo, 1 ≤ signo → signo ≤ 31 → (ctx.sigPending.getLsbD signo = true ↔
        fbsdToHostSigno number signo ≠ 0 ∧ host (fbsdToHostSigno number signo) = true) := by
  have stored : yosSigpending number nsig (.ok host) ctx off =
      .ok { ctx with memory := hostSigsetToFbsd number nsig host ctx.memory off } := by
    rw [yosSigpending, if_pos inside]
    rfl
  unfold Reports
  simp only [stored, Except.ok.injEq, exists_eq_left']
  constructor
  · intro report signo pos le
    rw [← isMember_hostSigsetToFbsd numbers host ctx.memory off pos (by omega),
      report signo pos (by omega), and_iff_right le]
  · intro agree signo pos le
    rw [isMember_hostSigsetToFbsd numbers host ctx.memory off pos le]
    constructor
    · intro pending
      have valid := (named_of_ne_zero pending.1).1.2.1
      exact ⟨valid, (agree signo pos valid).2 pending⟩
    · exact fun pending => (agree signo pos pending.1).1 pending.2

end Pending

/-! ## Every reachable mask -/

/-- The masks of the processes, the copies a fork keeps for its child, and what the calls of
`sigmask_apply` and `yos_sigsuspend` of each thread hold. -/
structure MaskState where
  /-- `ctx->sig_mask`. -/
  mask : ℕ → BitVec 32
  /-- `parent_sig_mask`. -/
  parentSigMask : ℕ → BitVec 32
  prev : ℕ → ℕ → BitVec 32
  /-- The `saved_mask` of the calls of a thread, the innermost first: a handler may suspend again. -/
  savedMask : ℕ → ℕ → List (BitVec 32)

/-- The steps of thread `t` of process `p`, which shares the context with the other threads. -/
inductive MaskStep where
  /-- A context is allocated. -/
  | create (p : ℕ)
  /-- `sigmask_apply` loads the mask. -/
  | load (p t : ℕ)
  /-- It stores the new one, for the word it read from the guest. -/
  | store (p t : ℕ) (set : BitVec 32) (how : ℕ)
  /-- `yos_sigsuspend` loads the mask. -/
  | save (p t : ℕ)
  /-- It installs the word it read from the guest. -/
  | install (p t : ℕ) (set : BitVec 32)
  /-- It restores the mask. -/
  | restore (p t : ℕ)
  /-- The calls of a thread are left by an exit, a trap or an exec. -/
  | unwind (p t : ℕ)
  /-- A fork copies the mask for the child `c`. -/
  | fork (p c : ℕ)
  /-- The child takes the copy. -/
  | inherit (c : ℕ)

namespace MaskState

/-- A step. -/
def next (s : MaskState) : MaskStep → MaskState
  | .create p => { s with mask := Function.update s.mask p 0 }
  | .load p t => { s with prev := Function.update s.prev p (Function.update (s.prev p) t (s.mask p)) }
  | .store p t set how =>
    match newMask (s.prev p t) set how with
    | .ok m => { s with mask := Function.update s.mask p m }
    | .error _ => s
  | .save p t =>
    { s with
      savedMask := Function.update s.savedMask p
        (Function.update (s.savedMask p) t (s.mask p :: s.savedMask p t)) }
  | .install p _ set => { s with mask := Function.update s.mask p (set &&& ~~~unblockable) }
  | .restore p t =>
    match s.savedMask p t with
    | [] => s
    | m :: rest =>
      { s with
        mask := Function.update s.mask p m
        savedMask := Function.update s.savedMask p (Function.update (s.savedMask p) t rest) }
  | .unwind p t =>
    { s with savedMask := Function.update s.savedMask p (Function.update (s.savedMask p) t []) }
  | .fork p c => { s with parentSigMask := Function.update s.parentSigMask c (s.mask p) }
  | .inherit c => { s with mask := Function.update s.mask c (s.parentSigMask c) }

/-- Nothing is blocked. -/
def start : MaskState := ⟨fun _ => 0, fun _ => 0, fun _ _ => 0, fun _ _ => []⟩

/-- Neither `SIGKILL` nor `SIGSTOP` is in the mask. -/
def Free (m : BitVec 32) : Prop := m.getLsbD 9 = false ∧ m.getLsbD 17 = false

/-- No mask has them, and none that may become one. -/
structure Inv (s : MaskState) : Prop where
  mask : ∀ p, Free (s.mask p)
  parentSigMask : ∀ c, Free (s.parentSigMask c)
  prev : ∀ p t, Free (s.prev p t)
  savedMask : ∀ p t, ∀ m ∈ s.savedMask p t, Free m

end MaskState

/-- The masks of a runtime. -/
def maskSystem : System MaskState MaskStep where
  init s := s = MaskState.start
  step s a s' := s' = s.next a

namespace MaskState

theorem free_zero : Free 0 := ⟨rfl, rfl⟩

theorem free_and_not (m : BitVec 32) : Free (m &&& ~~~unblockable) := by
  constructor <;> simp [getLsbD_unblockable]

theorem free_newMask {prev set m : BitVec 32} {how : ℕ} (free : Free prev)
    (stored : newMask prev set how = .ok m) : Free m := by
  obtain ⟨kill, stop⟩ := free_and_not (set <<< 1)
  unfold newMask at stored
  split at stored <;> cases stored
  · exact ⟨by rw [BitVec.getLsbD_or, free.1, kill]; rfl, by rw [BitVec.getLsbD_or, free.2, stop]; rfl⟩
  · exact ⟨by rw [BitVec.getLsbD_and, free.1]; rfl, by rw [BitVec.getLsbD_and, free.2]; rfl⟩
  · exact ⟨kill, stop⟩

theorem forall_update {β : Type} {P : β → Prop} {f : ℕ → β} (all : ∀ q, P (f q)) {b : β} (here : P b)
    (p : ℕ) : ∀ q, P (Function.update f p b q) :=
  (Function.forall_update_iff f fun _ b => P b).2 ⟨here, fun q _ => all q⟩

/-- A field of a thread is set. -/
theorem forall_update₂ {β : Type} {P : β → Prop} {f : ℕ → ℕ → β} (all : ∀ q u, P (f q u)) {b : β}
    (here : P b) (p t : ℕ) :
    ∀ q u, P (Function.update f p (Function.update (f p) t b) q u) :=
  forall_update (P := fun g : ℕ → β => ∀ u, P (g u)) all (forall_update (all p) here t) p

theorem Inv.next {s : MaskState} (inv : s.Inv) (a : MaskStep) : (s.next a).Inv := by
  obtain ⟨mask, parent, prev, saved⟩ := inv
  cases a with
  | create p => exact ⟨forall_update mask free_zero p, parent, prev, saved⟩
  | load p t => exact ⟨mask, parent, forall_update₂ prev (mask p) p t, saved⟩
  | store p t set how =>
    rcases stored : newMask (s.prev p t) set how with e | m
    · rw [MaskState.next, stored]
      exact ⟨mask, parent, prev, saved⟩
    · rw [MaskState.next, stored]
      exact ⟨forall_update mask (free_newMask (prev p t) stored) p, parent, prev, saved⟩
  | save p t =>
    refine ⟨mask, parent, prev, forall_update₂ (P := fun l => ∀ m ∈ l, Free m) saved ?_ p t⟩
    exact List.forall_mem_cons.2 ⟨mask p, saved p t⟩
  | install p t set => exact ⟨forall_update mask (free_and_not set) p, parent, prev, saved⟩
  | restore p t =>
    rcases held : s.savedMask p t with _ | ⟨m, rest⟩
    · rw [MaskState.next, held]
      exact ⟨mask, parent, prev, saved⟩
    · have free := saved p t
      rw [held, List.forall_mem_cons] at free
      rw [MaskState.next, held]
      exact ⟨forall_update mask free.1 p, parent, prev,
        forall_update₂ (P := fun l => ∀ m ∈ l, Free m) saved free.2 p t⟩
  | unwind p t =>
    exact ⟨mask, parent, prev, forall_update₂ (P := fun l => ∀ m ∈ l, Free m) saved (by simp) p t⟩
  | fork p c => exact ⟨mask, forall_update parent (mask p) c, prev, saved⟩
  | inherit c => exact ⟨forall_update mask (parent c) c, parent, prev, saved⟩

/-- No reachable mask has `SIGKILL` or `SIGSTOP`. -/
theorem free_of_reachable {s : MaskState} (run : maskSystem.Reachable s) (p : ℕ) : Free (s.mask p) := by
  refine (run.invariant (I := Inv) (fun s start => ?_) fun s a s' inv step => ?_).mask p
  · subst start
    exact ⟨fun _ => free_zero, fun _ => free_zero, fun _ _ => free_zero, by simp [start]⟩
  · subst step
    exact inv.next a

end MaskState

/-! ## The conversions -/

/-- A set is read back as it was installed; `yos_sigsuspend` waits under the mask that
`yos_sigprocmask` would install exactly for the words a shift leaves as they are, and restores the
old one; `yos_sigpending` reports `sig_pending` exactly when the host has the same signals pending;
and no reachable mask has `SIGKILL` or `SIGSTOP`. -/
theorem sigsets_agree {number : ℕ → ℕ} {nsig : ℕ} (numbers : HostNumbers number nsig)
    {pump : SigCtx → SigCtx} (quiet : ∀ c, (pump c).sigMask = c.sigMask) (wait : SigCtx → SigCtx)
    (host : ℕ → Bool) (ctx : SigCtx) (set : ℕ) (inside : sigsetBound ctx set) :
    ReadsBack pump ctx set ∧
      (∀ off, (∀ c, sigmaskStore ctx 3 off 0 = .ok c → suspendMask ctx off = c.sigMask) ↔
        off = 0 ∨ ShiftFixed (readFbsdSigsetLo ctx off)) ∧
      (∀ off, (yosSigsuspend wait ctx off).sigMask = ctx.sigMask) ∧
      (Reports number nsig host ctx set ↔
        ∀ signo, 1 ≤ signo → signo ≤ 31 → (ctx.sigPending.getLsbD signo = true ↔
          fbsdToHostSigno number signo ≠ 0 ∧ host (fbsdToHostSigno number signo) = true)) ∧
      ∀ s, maskSystem.Reachable s → ∀ p, MaskState.Free (s.mask p) :=
  ⟨readsBack quiet inside, suspendMask_iff ctx, fun _ => rfl, reports_iff numbers host inside,
    fun _ run => MaskState.free_of_reachable run⟩

/-- The numbers of a Linux host. -/
def linuxNumber (fb : ℕ) : ℕ :=
  [0, 1, 2, 3, 4, 5, 6, 0, 8, 9, 7, 11, 31, 13, 14, 15, 23, 19, 20, 18, 17, 21, 22, 29, 24, 25, 26, 27,
    28, 0, 10, 12].getD fb 0

/-- A guest with the set of `SIGUSR1` at 16 and a pending `SIGUSR1`. -/
def usrCtx : SigCtx where
  memory := Bytes.setBit (fun _ => 0) 16 29
  memorySize := 65536
  sigMask := 0
  sigPending := 1#32 <<< 30

theorem linuxNumber_valid : HostNumbers linuxNumber 65 := by
  have small {fb : ℕ} (named : Named fb) : fb < 32 := Nat.lt_succ_of_le named.2.1
  refine ⟨fun fb named => ?_, fun fb fb' named named' same => ?_⟩
  · exact (by decide : ∀ fb < 32, Named fb → 0 < linuxNumber fb ∧ linuxNumber fb < 65) fb
      (small named) named
  · exact (by decide : ∀ fb < 32, ∀ fb' < 32, Named fb → Named fb' →
      linuxNumber fb = linuxNumber fb' → fb = fb') fb (small named) fb' (small named') named named' same

theorem sigsets_agree_usr : ReadsBack id usrCtx 16 ∧ (yosSigsuspend id usrCtx 16).sigMask = 0 := by
  have quiet (c : SigCtx) : (id c).sigMask = c.sigMask := rfl
  have agree := sigsets_agree linuxNumber_valid quiet id (fun _ => false) usrCtx 16 (by decide)
  exact ⟨agree.1, agree.2.2.1 16⟩

/-- `yos_sigsuspend` leaves `SIGUSR1` open and blocks its neighbour, and `yos_sigpending` reports
nothing. -/
theorem sigsets_disagree :
    (∀ c, sigmaskStore usrCtx 3 16 0 = .ok c → c.sigMask = 1#32 <<< 30) ∧
      suspendMask usrCtx 16 = 1#32 <<< 29 ∧ ¬ Reports linuxNumber 65 (fun _ => false) usrCtx 16 := by
  refine ⟨?_, by decide, fun report => ?_⟩
  · intro c stored
    cases stored
    decide
  · have pending := (reports_iff linuxNumber_valid (fun _ => false) (by decide)).1 report 30 (by decide)
      (by decide)
    exact absurd (pending.1 (by decide)).2 (by simp)

end SigMask

end Yos
