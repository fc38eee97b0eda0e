import Yos.Io.Fd
import Yos.Lib.Spans

/-!
# Range tests on guest pointers (`impl/proc/proc.c`, `impl/proc/sig.c`, `impl/io/io.c`)

Before a bridge follows a guest pointer it compares the end of the range with `memory_size`.  Some
bridges compute that end in 32 bits, where it wraps; `yos_vfs_socketpair` tests the first byte and
stores eight.  `guest_ptr_confined_iff` says for each of them on which arguments the accesses stay
inside the memory.

The pointers are `UInt32`, so the sums wrap as they do in the source.  `GuestCtx.touched` records
the ranges accessed.  The memory of a running guest is mapped, so the tests of `ctx->memory` against
null are left out.
-/

namespace Yos

/-! ## The memory and its accesses -/

/-- The fields of `struct yos_exec_ctx` the bridges below use, and the ranges of the memory accessed
so far, the last one first. -/
structure GuestCtx where
  memory : Bytes
  memorySize : UInt32
  fdMap : ℕ → ℤ
  umask : UInt32
  sigIgnoreMask : UInt32
  sigHandlers : ℕ → ℕ
  touched : List Span

namespace GuestCtx

/-- The part of the context the descriptor table functions see. -/
def fd (g : GuestCtx) : FdCtx := ⟨g.memory, g.memorySize.toNat, g.fdMap, none⟩

/-- `*(uint32_t *)(ctx->memory + off)`. -/
def load32 (g : GuestCtx) (off : ℕ) : ℕ × GuestCtx :=
  (g.memory.read32 off, { g with touched := ⟨off, 4⟩ :: g.touched })

/-- `*(uint32_t *)(ctx->memory + off) = v`. -/
def store32 (g : GuestCtx) (off v : ℕ) : GuestCtx :=
  { g with memory := g.memory.write32 off v, touched := ⟨off, 4⟩ :: g.touched }

/-- `memset(ctx->memory + off, 0, n)`. -/
def clear (g : GuestCtx) (off n : ℕ) : GuestCtx :=
  { g with memory := g.memory.fill off n 0, touched := ⟨off, n⟩ :: g.touched }

end GuestCtx

/-- `p && p + n <= ctx->memory_size`, with the sum in 32 bits. -/
def rangeTest (g : GuestCtx) (p n : UInt32) : Bool := p ≠ 0 ∧ p + n ≤ g.memorySize

/-! ## The bridges -/

/-- The store of `yos_exit` to the word registered with `set_tid_address`. -/
def yosExitClearTid (g : GuestCtx) (tidAddress : UInt32) : GuestCtx :=
  if rangeTest g tidAddress 4 then g.store32 tidAddress.toNat 0 else g

/-- The store of `yos_wait3` to the `struct rusage` of the guest. -/
def yosWait3Rusage (g : GuestCtx) (ru : UInt32) : GuestCtx :=
  if rangeTest g ru 72 then g.clear ru.toNat 72 else g

/-- `YOS_NSIG`. -/
def yosNsig : ℤ := 32

/-- `1u << signum`. -/
def sigBit (signum : ℤ) : UInt32 := 1 <<< UInt32.ofNat signum.toNat

/-- `record_handler`. -/
def recordHandler (g : GuestCtx) (signum : ℤ) (handlerIdx : ℕ) : GuestCtx :=
  if signum ≤ 0 ∨ yosNsig ≤ signum then g
  else if handlerIdx = 0 then
    { g with
      sigIgnoreMask := g.sigIgnoreMask &&& ~~~ sigBit signum
      sigHandlers := Function.update g.sigHandlers signum.toNat 0 }
  else if handlerIdx = 1 then
    { g with
      sigIgnoreMask := g.sigIgnoreMask ||| sigBit signum
      sigHandlers := Function.update g.sigHandlers signum.toNat 0 }
  else
    { g with
      sigIgnoreMask := g.sigIgnoreMask &&& ~~~ sigBit signum
      sigHandlers := Function.update g.sigHandlers signum.toNat handlerIdx }

/-- The handler `yos_sig_rt_sigaction` reports, as the FreeBSD ABI encodes it. -/
def prevAbi (g : GuestCtx) (signum : ℤ) : ℕ :=
  if g.sigIgnoreMask &&& sigBit signum ≠ 0 then 1 else g.sigHandlers signum.toNat

/-- The read of `act` in `yos_sig_rt_sigaction`. -/
def sigactionRead (g : GuestCtx) (signum : ℤ) (act : UInt32) : GuestCtx :=
  if rangeTest g act 4 then
    let (handler, g') := g.load32 act.toNat
    recordHandler g' signum handler
  else g

/-- The write of `oldact` in `yos_sig_rt_sigaction`. -/
def sigactionWrite (g : GuestCtx) (prev : ℕ) (oldact : UInt32) : GuestCtx :=
  if rangeTest g oldact 24 then (g.clear oldact.toNat 24).store32 oldact.toNat prev else g

/-- `yos_sig_rt_sigaction`. -/
def yosSigRtSigaction (g : GuestCtx) (signum : ℤ) (act oldact : UInt32) : GuestCtx × Ret :=
  if signum ≤ 0 ∨ yosNsig ≤ signum then (g, yosErrnoNeg .EINVAL)
  else (sigactionWrite (sigactionRead g signum act) (prevAbi g signum) oldact, ⟨0, none⟩)

/-- The flags of `open`, each as the guest has it and as a Linux host has it. -/
def oflagsTable : List (UInt32 × UInt32) :=
  [(0x4, 0x800), (0x8, 0x400), (0x40, 0x2000), (0x80, 0x101000), (0x100, 0x20000),
    (0x200, 0x40), (0x400, 0x200), (0x800, 0x80), (0x8000, 0x100), (0x10000, 0x4000),
    (0x20000, 0x10000), (0x40000, 0x200000), (0x100000, 0x80000), (0x400000, 0x200000)]

/-- `oflags_fb_to_lx`. -/
def oflagsFbToLx (f : UInt32) : UInt32 :=
  oflagsTable.foldl (fun r e => if f &&& e.1 ≠ 0 then r ||| e.2 else r) (f &&& 3)

/-- `O_CREAT` on a Linux host. -/
def oCreat : UInt32 := 0x40

/-- The mode `yos_open` hands to the host; `mode` is where the guest's variable argument is. -/
def yosOpenMode (g : GuestCtx) (flags mode : UInt32) : GuestCtx × UInt32 :=
  if oflagsFbToLx flags &&& oCreat ≠ 0 then
    if rangeTest g mode 4 then
      let (realMode, g') := g.load32 mode.toNat
      (g', UInt32.ofNat realMode &&& ~~~ g.umask)
    else (g, mode &&& ~~~ g.umask)
  else (g, 0)

/-- `fcntl_cmd_fb_to_lx`, for a Linux host. -/
def fcntlCmdFbToLx (cmd : ℤ) : ℤ :=
  match cmd with
  | 5 => 9
  | 6 => 8
  | 11 => 5
  | 12 => 6
  | 13 => 7
  | 17 => 1030
  | cmd => cmd

/-- The host commands whose argument `yos_fcntl` reads from the memory: `F_DUPFD`,
`F_DUPFD_CLOEXEC`, `F_SETFD`, `F_SETFL` and `F_SETOWN`. -/
def fcntlReadsArg (hcmd : ℤ) : Bool :=
  hcmd = 0 ∨ hcmd = 1030 ∨ hcmd = 2 ∨ hcmd = 4 ∨ hcmd = 8

/-- `yos_fcntl` up to its host call: the error, or the argument for the host. -/
def yosFcntlArg (g : GuestCtx) (fd cmd : ℤ) (arg : UInt32) : GuestCtx × Except Errno ℕ :=
  if (yosFdGet g.fd fd).value < 0 then (g, .error .EBADF)
  else if fcntlReadsArg (fcntlCmdFbToLx cmd) && rangeTest g arg 4 then
    let (realArg, g') := g.load32 arg.toNat
    (g', .ok realArg)
  else (g, .ok arg.toNat)

/-- `yos_vfs_socketpair`; `pair` is the result of the host's `socketpair`. -/
def yosVfsSocketpair (g : GuestCtx) (pair : Option (ℕ × ℕ)) (sv : UInt32) : GuestCtx :=
  if !wptr g.fd sv.toNat then g
  else
    match pair with
    | none => g
    | some (h₀, h₁) =>
      let a := yosFdAlloc g.fdMap h₀
      if a.wfd < 0 then { g with fdMap := a.fdMap }
      else
        let b := yosFdAlloc a.fdMap h₁
        if b.wfd < 0 then { g with fdMap := Function.update b.fdMap a.wfd.toNat (-1) }
        else
          let g' := { g with fdMap := b.fdMap }
          (g'.store32 sv.toNat a.wfd.toNat).store32 (sv.toNat + 4) b.wfd.toNat

/-- The calls, with the guest's arguments and the host's results they depend on. -/
inductive GuestCall where
  | exit (tidAddress : UInt32)
  | wait3 (ru : UInt32)
  | rtSigaction (signum : ℤ) (act oldact : UInt32)
  | openMode (flags mode : UInt32)
  | fcntl (fd cmd : ℤ) (arg : UInt32)
  | socketpair (pair : Option (ℕ × ℕ)) (sv : UInt32)

/-- The context after a call. -/
def GuestCall.run (g : GuestCtx) : GuestCall → GuestCtx
  | .exit tidAddress => yosExitClearTid g tidAddress
  | .wait3 ru => yosWait3Rusage g ru
  | .rtSigaction signum act oldact => (yosSigRtSigaction g signum act oldact).1
  | .openMode flags mode => (yosOpenMode g flags mode).1
  | .fcntl fd cmd arg => (yosFcntlArg g fd cmd arg).1
  | .socketpair pair sv => yosVfsSocketpair g pair sv

/-! ## Confinement -/

/-- The ranges a call accesses. -/
def GuestCall.touches (g : GuestCtx) (c : GuestCall) : List Span :=
  (c.run { g with touched := [] }).touched

/-- Every byte the call accesses lies in the memory. -/
def GuestCall.Confined (g : GuestCtx) (c : GuestCall) : Prop :=
  ∀ a ∈ c.touches g, a.fin ≤ g.memorySize.toNat

/-- The end of the range does not wrap, or still lies outside the memory after wrapping. -/
def NoWrap (g : GuestCtx) (p n : UInt32) : Prop :=
  p.toNat + n.toNat < 2 ^ 32 ∨ g.memorySize.toNat + 2 ^ 32 < p.toNat + n.toNat

/-- Two descriptors can be allocated. -/
def TwoFree (fdMap : ℕ → ℤ) : Prop :=
  ∃ i < fdMax, ∃ j < fdMax, i ≠ j ∧ fdMap i = -1 ∧ fdMap j = -1

/-- The arguments on which a call stays inside the memory. -/
def GuestCall.Safe (g : GuestCtx) : GuestCall → Prop
  | .exit tidAddress => NoWrap g tidAddress 4
  | .wait3 ru => NoWrap g ru 72
  | .rtSigaction signum act oldact =>
    0 < signum ∧ signum < yosNsig → NoWrap g act 4 ∧ NoWrap g oldact 24
  | .openMode flags mode => oflagsFbToLx flags &&& oCreat ≠ 0 → NoWrap g mode 4
  | .fcntl fd cmd arg =>
    FdHasEntry g.fd fd ∧ fcntlReadsArg (fcntlCmdFbToLx cmd) → NoWrap g arg 4
  | .socketpair pair sv =>
    pair.isSome ∧ TwoFree g.fdMap ∧ sv ≠ 0 ∧ sv < g.memorySize →
      sv.toNat + 8 ≤ g.memorySize.toNat

section Confined

variable {g : GuestCtx}

/-- The 32-bit range test bounds the range iff its sum cannot wrap into the memory. -/
theorem rangeTest_sound_iff (g : GuestCtx) (p n : UInt32) :
    (rangeTest g p n = true → p.toNat + n.toNat ≤ g.memorySize.toNat) ↔ NoWrap g p n := by
  have hp := p.toNat_lt
  have hn := n.toNat_lt
  have hs := g.memorySize.toNat_lt
  have test : rangeTest g p n = true ↔
      p.toNat ≠ 0 ∧ (p.toNat + n.toNat) % 2 ^ 32 ≤ g.memorySize.toNat := by
    rw [rangeTest, decide_eq_true_iff, UInt32.le_iff_toNat_le, UInt32.toNat_add, Ne,
      ← UInt32.toNat_inj, UInt32.toNat_zero]
  rw [test, NoWrap]
  by_cases wraps : p.toNat + n.toNat < 2 ^ 32
  · rw [Nat.mod_eq_of_lt wraps]
    exact ⟨fun _ => Or.inl wraps, fun _ h => h.2⟩
  · have sum : (p.toNat + n.toNat) % 2 ^ 32 = p.toNat + n.toNat - 2 ^ 32 := by omega
    rw [sum]
    constructor
    · intro bounded
      by_contra h
      have := bounded ⟨by omega, by omega⟩
      omega
    · rintro (h | h) ⟨-, passes⟩
      · exact absurd h wraps
      · omega

/-- A call that makes one access behind a range test. -/
theorem confined_one {n : UInt32} {p : UInt32} {touched : List Span}
    (accesses : touched = if rangeTest g p n then [⟨p.toNat, n.toNat⟩] else []) :
    (∀ a ∈ touched, a.fin ≤ g.memorySize.toNat) ↔ NoWrap g p n := by
  rw [accesses, ← rangeTest_sound_iff]
  by_cases test : rangeTest g p n = true
  · rw [if_pos test, forall_prop_of_true test, List.forall_mem_singleton, Span.fin]
  · rw [if_neg test, forall_prop_of_false test]
    exact iff_of_true (List.forall_mem_nil _) trivial

theorem recordHandler_touched (signum : ℤ) (handlerIdx : ℕ) :
    (recordHandler g signum handlerIdx).touched = g.touched := by
  rw [recordHandler]
  split_ifs
  all_goals rfl

theorem recordHandler_memorySize (signum : ℤ) (handlerIdx : ℕ) :
    (recordHandler g signum handlerIdx).memorySize = g.memorySize := by
  rw [recordHandler]
  split_ifs
  all_goals rfl

theorem sigactionRead_touched (signum : ℤ) (act : UInt32) :
    (sigactionRead g signum act).touched =
      (if rangeTest g act 4 then [⟨act.toNat, 4⟩] else []) ++ g.touched := by
  rw [sigactionRead]
  split_ifs
  · exact recordHandler_touched signum _
  · rfl

theorem sigactionRead_memorySize (signum : ℤ) (act : UInt32) :
    (sigactionRead g signum act).memorySize = g.memorySize := by
  rw [sigactionRead]
  split_ifs
  · exact recordHandler_memorySize signum _
  · rfl

theorem sigactionWrite_touched (prev : ℕ) (oldact : UInt32) :
    (sigactionWrite g prev oldact).touched =
      (if rangeTest g oldact 24 then [⟨oldact.toNat, 4⟩, ⟨oldact.toNat, 24⟩] else []) ++
        g.touched := by
  rw [sigactionWrite]
  split_ifs
  · rfl
  · rfl

theorem yosExitClearTid_touched (tidAddress : UInt32) :
    (yosExitClearTid g tidAddress).touched =
      (if rangeTest g tidAddress 4 then [⟨tidAddress.toNat, 4⟩] else []) ++ g.touched := by
  rw [yosExitClearTid]
  split_ifs
  · rfl
  · rfl

theorem yosWait3Rusage_touched (ru : UInt32) :
    (yosWait3Rusage g ru).touched =
      (if rangeTest g ru 72 then [⟨ru.toNat, 72⟩] else []) ++ g.touched := by
  rw [yosWait3Rusage]
  split_ifs
  · rfl
  · rfl

theorem yosOpenMode_touched {flags mode : UInt32} (creates : oflagsFbToLx flags &&& oCreat ≠ 0) :
    (yosOpenMode g flags mode).1.touched =
      (if rangeTest g mode 4 then [⟨mode.toNat, 4⟩] else []) ++ g.touched := by
  rw [yosOpenMode, if_pos creates]
  split_ifs
  · rfl
  · rfl

theorem yosFcntlArg_touched {fd cmd : ℤ} {arg : UInt32} (entry : FdHasEntry g.fd fd)
    (reads : fcntlReadsArg (fcntlCmdFbToLx cmd) = true) :
    (yosFcntlArg g fd cmd arg).1.touched =
      (if rangeTest g arg 4 then [⟨arg.toNat, 4⟩] else []) ++ g.touched := by
  have nonneg : ¬ (yosFdGet g.fd fd).value < 0 := by
    rw [yosFdGet_of_entry entry]
    exact Int.not_lt.2 entry.2.2
  rw [yosFcntlArg, if_neg nonneg, reads, Bool.true_and]
  split_ifs
  · rfl
  · rfl

/-- `yos_fcntl` reads nothing for a descriptor without an entry or for another command. -/
theorem yosFcntlArg_touched_of_not {fd cmd : ℤ} {arg : UInt32}
    (skips : ¬ (FdHasEntry g.fd fd ∧ fcntlReadsArg (fcntlCmdFbToLx cmd) = true)) :
    (yosFcntlArg g fd cmd arg).1.touched = g.touched := by
  rw [yosFcntlArg]
  by_cases entry : FdHasEntry g.fd fd
  · have other : fcntlReadsArg (fcntlCmdFbToLx cmd) = false := by
      simpa [entry] using skips
    rw [other, Bool.false_and]
    split_ifs
    · rfl
    · contradiction
    · rfl
  · rw [if_pos (yosFdGet_neg entry)]

/-- The two allocations of `yos_vfs_socketpair` succeed iff two slots are free. -/
theorem yosFdAlloc_twice {fdMap : ℕ → ℤ} (h₀ h₁ : ℕ) :
    (0 ≤ (yosFdAlloc fdMap h₀).wfd ∧
        0 ≤ (yosFdAlloc (yosFdAlloc fdMap h₀).fdMap h₁).wfd) ↔ TwoFree fdMap := by
  constructor
  · rintro ⟨first, second⟩
    cases found : firstFree fdMap with
    | none =>
      rw [yosFdAlloc_of_full (Int.natCast_nonneg h₀) found] at first
      exact absurd first (show ¬ (0 : ℤ) ≤ -emfile by decide)
    | some i =>
      rw [yosFdAlloc_of_free (Int.natCast_nonneg h₀) found] at second
      cases again : firstFree (Function.update fdMap i (h₀ : ℤ)) with
      | none =>
        rw [yosFdAlloc_of_full (Int.natCast_nonneg h₁) again] at second
        exact absurd second (show ¬ (0 : ℤ) ≤ -emfile by decide)
      | some j =>
        obtain ⟨hi, free⟩ := firstFree_spec found
        obtain ⟨hj, free'⟩ := firstFree_spec again
        have ne : j ≠ i := by
          rintro rfl
          rw [Function.update_self] at free'
          omega
        rw [Function.update_of_ne ne] at free'
        exact ⟨i, hi, j, hj, ne.symm, free, free'⟩
  · rintro ⟨i, hi, j, hj, ne, freeI, freeJ⟩
    cases found : firstFree fdMap with
    | none => exact absurd freeI (firstFree_eq_none.1 found i hi)
    | some k =>
      rw [yosFdAlloc_of_free (Int.natCast_nonneg h₀) found]
      refine ⟨Int.natCast_nonneg k, ?_⟩
      dsimp only
      cases again : firstFree (Function.update fdMap k (h₀ : ℤ)) with
      | none =>
        have taken := firstFree_eq_none.1 again
        by_cases ik : i = k
        · have := taken j hj
          rw [Function.update_of_ne (by omega)] at this
          exact absurd freeJ this
        · have := taken i hi
          rw [Function.update_of_ne ik] at this
          exact absurd freeI this
      | some l =>
        rw [yosFdAlloc_of_free (Int.natCast_nonneg h₁) again]
        exact Int.natCast_nonneg l

theorem yosVfsSocketpair_touched (h₀ h₁ : ℕ) {sv : UInt32} (free : TwoFree g.fdMap)
    (first : wptr g.fd sv.toNat = true) :
    (yosVfsSocketpair g (some (h₀, h₁)) sv).touched =
      ⟨sv.toNat + 4, 4⟩ :: ⟨sv.toNat, 4⟩ :: g.touched := by
  obtain ⟨ha, hb⟩ := (yosFdAlloc_twice h₀ h₁).2 free
  rw [yosVfsSocketpair, first, if_neg (by decide)]
  dsimp only
  rw [if_neg (Int.not_lt.2 ha), if_neg (Int.not_lt.2 hb)]
  rfl

theorem yosVfsSocketpair_touched_of_not {pair : Option (ℕ × ℕ)} {sv : UInt32}
    (skips : ¬ (pair.isSome ∧ TwoFree g.fdMap ∧ wptr g.fd sv.toNat = true)) :
    (yosVfsSocketpair g pair sv).touched = g.touched := by
  unfold yosVfsSocketpair
  by_cases first : wptr g.fd sv.toNat = true
  · rw [first, if_neg (by decide)]
    cases pair with
    | none => rfl
    | some pair =>
      obtain ⟨h₀, h₁⟩ := pair
      have full : ¬ TwoFree g.fdMap := by simpa [first] using skips
      rw [← yosFdAlloc_twice h₀ h₁] at full
      dsimp only
      split_ifs with ha hb
      · rfl
      · rfl
      · exact absurd ⟨Int.not_lt.1 ha, Int.not_lt.1 hb⟩ full
  · rw [Bool.not_eq_true] at first
    rw [first]
    rfl

theorem confined_rtSigaction {signum : ℤ} {act oldact : UInt32} (clean : g.touched = []) :
    (∀ a ∈ (yosSigRtSigaction g signum act oldact).1.touched, a.fin ≤ g.memorySize.toNat) ↔
      (0 < signum ∧ signum < yosNsig → NoWrap g act 4 ∧ NoWrap g oldact 24) := by
  rw [yosSigRtSigaction]
  by_cases range : signum ≤ 0 ∨ yosNsig ≤ signum
  · rw [if_pos range, forall_prop_of_false (by omega), clean]
    exact iff_of_true (List.forall_mem_nil _) trivial
  · rw [if_neg range, forall_prop_of_true (by omega), sigactionWrite_touched,
      sigactionRead_touched, clean, List.append_nil, List.forall_mem_append, and_comm]
    have same (n : UInt32) :
        rangeTest (sigactionRead g signum act) oldact n = rangeTest g oldact n := by
      rw [rangeTest, rangeTest, sigactionRead_memorySize]
    rw [same 24]
    refine and_congr (confined_one rfl) ?_
    -- The word stored at the start of `oldact` lies in the range cleared just before.
    rw [← rangeTest_sound_iff]
    by_cases test : rangeTest g oldact 24 = true
    · rw [if_pos test, forall_prop_of_true test, List.forall_mem_cons, List.forall_mem_singleton]
      refine ⟨fun h => h.2, fun bound => ⟨?_, bound⟩⟩
      have size : (24 : UInt32).toNat = 24 := rfl
      rw [size] at bound
      show oldact.toNat + 4 ≤ _
      omega
    · rw [if_neg test, forall_prop_of_false test]
      exact iff_of_true (List.forall_mem_nil _) trivial

theorem confined_socketpair {pair : Option (ℕ × ℕ)} {sv : UInt32} (clean : g.touched = []) :
    (∀ a ∈ (yosVfsSocketpair g pair sv).touched, a.fin ≤ g.memorySize.toNat) ↔
      (pair.isSome ∧ TwoFree g.fdMap ∧ sv ≠ 0 ∧ sv < g.memorySize →
        sv.toNat + 8 ≤ g.memorySize.toNat) := by
  have first : sv ≠ 0 ∧ sv < g.memorySize ↔ wptr g.fd sv.toNat = true := by
    rw [wptr, decide_eq_true_iff, UInt32.lt_iff_toNat_lt, Ne, ← UInt32.toNat_inj,
      UInt32.toNat_zero]
    rfl
  rw [first]
  by_cases stores : pair.isSome ∧ TwoFree g.fdMap ∧ wptr g.fd sv.toNat = true
  · rw [forall_prop_of_true stores]
    obtain ⟨some, free, valid⟩ := stores
    obtain ⟨⟨h₀, h₁⟩, rfl⟩ := Option.isSome_iff_exists.1 some
    rw [yosVfsSocketpair_touched h₀ h₁ free valid, clean, List.forall_mem_cons,
      List.forall_mem_singleton, Span.fin, Span.fin]
    dsimp only
    omega
  · rw [forall_prop_of_false stores, yosVfsSocketpair_touched_of_not stores, clean]
    exact iff_of_true (List.forall_mem_nil _) trivial

theorem confined_iff_of_clean (clean : g.touched = []) (c : GuestCall) :
    (∀ a ∈ (c.run g).touched, a.fin ≤ g.memorySize.toNat) ↔ c.Safe g := by
  have nothing : (∀ a ∈ g.touched, a.fin ≤ g.memorySize.toNat) ↔ True := by simp [clean]
  cases c with
  | exit tidAddress =>
    exact confined_one (by rw [GuestCall.run, yosExitClearTid_touched, clean, List.append_nil]; rfl)
  | wait3 ru =>
    exact confined_one (by rw [GuestCall.run, yosWait3Rusage_touched, clean, List.append_nil]; rfl)
  | rtSigaction signum act oldact => exact confined_rtSigaction clean
  | openMode flags mode =>
    rw [GuestCall.run, GuestCall.Safe]
    by_cases creates : oflagsFbToLx flags &&& oCreat ≠ 0
    · rw [forall_prop_of_true creates, yosOpenMode_touched creates, clean, List.append_nil]
      exact confined_one rfl
    · rw [forall_prop_of_false creates, yosOpenMode, if_neg creates]
      exact nothing
  | fcntl fd cmd arg =>
    rw [GuestCall.run, GuestCall.Safe]
    by_cases reads : FdHasEntry g.fd fd ∧ fcntlReadsArg (fcntlCmdFbToLx cmd) = true
    · rw [forall_prop_of_true reads, yosFcntlArg_touched reads.1 reads.2, clean, List.append_nil]
      exact confined_one rfl
    · rw [forall_prop_of_false reads, yosFcntlArg_touched_of_not reads]
      exact nothing
  | socketpair pair sv => exact confined_socketpair clean

end Confined

/-- A call stays inside the memory iff the end of each range it tests in 32 bits does not wrap into
the memory and, for `yos_vfs_socketpair`, the eight bytes of its result fit when it stores them. -/
theorem guest_ptr_confined_iff (g : GuestCtx) (c : GuestCall) : c.Confined g ↔ c.Safe g :=
  confined_iff_of_clean (g := { g with touched := [] }) rfl c

/-- A guest with one page of memory and a free descriptor table. -/
def onePageGuest : GuestCtx where
  memory := fun _ => 0
  memorySize := 65536
  fdMap := fun _ => -1
  umask := 0
  sigIgnoreMask := 0
  sigHandlers := fun _ => 0
  touched := []

/-- `yos_sig_rt_sigaction` reads the last word below `2 ^ 32`, and `yos_vfs_socketpair` stores four
bytes behind the end of the memory. -/
theorem guest_ptr_escapes :
    ¬ (GuestCall.rtSigaction 2 0xFFFFFFFC 0).Confined onePageGuest ∧
      ¬ (GuestCall.socketpair (some (3, 4)) 65532).Confined onePageGuest := by
  constructor
  · intro confined
    exact absurd (confined ⟨0xFFFFFFFC, 4⟩ (by decide)) (by decide)
  · intro confined
    exact absurd (confined ⟨65536, 4⟩ (by decide)) (by decide)

end Yos
