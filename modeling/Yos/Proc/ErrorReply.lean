import Yos.Mem.MmapRun
import Yos.Proc.Execve

/-!
# How the memory and exec bridges report errors

A bridge that fails should return -1 and store the number for the guest (`impl/errno_helpers.h`).
The bridges of `impl/mem/mem.c`, `yos_execvp`, `yos_execvpe` and the fallback of `yos_execve` return
the negated number instead and store nothing; the generated wrapper passes it on.  `yos_sbrk`
returns -1 and stores nothing, and takes a break at or above `2 ^ 31` for an error of `yos_brk`.
`error_convention_iff` says for every call when its answer follows the convention.

`remap` is `yos_remap_errno_h2g`, from host to guest error numbers.
-/

namespace Yos

open Word

/-! ## Answers -/

/-- `MAP_FAILED`, -1 as the guest sees it. -/
def mapFailed : ℕ := 2 ^ 32 - 1

/-- The answer of a bridge. -/
structure Reply where
  /-- What the tests of the bridge decided: the error number or the value. -/
  decided : Except ℕ ℕ
  /-- The word returned to the guest. -/
  value : ℕ
  /-- The number stored for the guest, if any. -/
  errno : Option ℕ

namespace Reply

/-- The value is returned. -/
def ok (v : ℕ) : Reply := ⟨.ok v, v, none⟩

/-- `return -e`. -/
def raw (e : ℕ) : Reply := ⟨.error e, u32 (2 ^ 32 - e), none⟩

/-- `return yos_errno_neg(ctx, e)`. -/
def neg (remap : ℕ → ℕ) (e : ℕ) : Reply := ⟨.error e, mapFailed, some (remap e)⟩

/-- A failure is -1 with the number stored, a success is the value and is not -1. -/
def Conventional (remap : ℕ → ℕ) (r : Reply) : Prop :=
  match r.decided with
  | .ok v => r.value = v ∧ v ≠ mapFailed
  | .error e => r.value = mapFailed ∧ r.errno = some (remap e)

/-- The answer of a bridge that returns a value or a negated error number. -/
def ofExcept {α : Type} (value : α → ℕ) : Except Errno α → Reply
  | .ok a => ok (value a)
  | .error e => raw e.number

end Reply

/-- What the guest sees of an `exec` call, unless the process was replaced. -/
def ExecOutcome.reply (remap : ℕ → ℕ) : ExecOutcome → Option Reply
  | .pending _ _ _ => some (.ok 0)
  | .fails e => some (.neg remap e)
  | .raw e => some (.raw e)
  | .replaced => none

/-! ## The calls -/

/-- `yos_sbrk`; `incr` is taken as an unsigned word. -/
def yosSbrk (ctx : MemCtx) (incr : ℕ) : MemCtx × Reply :=
  if incr = 0 then (ctx, .ok ctx.heapEnd)
  else
    let (ctx', r) := yosBrk ctx (u32 (ctx.heapEnd + incr))
    match r with
    | .error e => (ctx', ⟨.error e.number, mapFailed, none⟩)
    | .ok a => (ctx', if 2 ^ 31 ≤ a then ⟨.ok ctx.heapEnd, mapFailed, none⟩ else .ok ctx.heapEnd)

/-- `check_range`, which is `yos_mprotect` and `yos_mlock`. -/
def checkRange (ctx : MemCtx) (start len : ℕ) : Except Errno Unit :=
  if len = 0 then .ok ()
  else if ctx.memorySize ≤ start ∨ ctx.memorySize < len ∨ ctx.memorySize < start + len then
    .error .ENOMEM
  else .ok ()

/-- The memory and exec calls of a guest. -/
inductive ReplyCall where
  | brk (addr : ℕ)
  | sbrk (incr : ℕ)
  | mmap (addr length flags : ℕ) (fd : ℤ)
  | mmap2 (addr length flags : ℕ) (fd : ℤ)
  | munmap (addr len : ℕ)
  | mprotect (start len : ℕ)
  | mlock (start len : ℕ)
  | execve (filename argvPtr envp : ℕ)
  | execvp (file argvPtr : ℕ)
  | execvpe (file argvPtr envp : ℕ)
deriving DecidableEq, Repr

/-- The answer to a call, unless the process was replaced. -/
def ReplyCall.reply (remap : ℕ → ℕ) (host : ExecHost) (ctx : ExecCtx) : ReplyCall → Option Reply
  | .brk addr => some (.ofExcept id (yosBrk ctx.mem addr).2)
  | .sbrk incr => some (yosSbrk ctx.mem incr).2
  | .mmap addr length flags fd | .mmap2 addr length flags fd =>
    some (.ofExcept id (yosMmap2 ctx.mem addr length flags fd).2)
  | .munmap addr len => some (.ofExcept (fun _ => 0) (yosMunmap ctx.mem addr len).2)
  | .mprotect start len | .mlock start len =>
    some (.ofExcept (fun _ => 0) (checkRange ctx.mem start len))
  | .execve filename argvPtr envp => (yosExecve host ctx filename argvPtr envp).reply remap
  | .execvp file argvPtr => (yosExecvp host ctx file argvPtr).reply remap
  | .execvpe file argvPtr envp => (yosExecvpe host ctx file argvPtr envp).reply remap

/-- The answer to the call, if there is one, follows the convention. -/
def ReplyCall.Conventional (remap : ℕ → ℕ) (host : ExecHost) (ctx : ExecCtx) (c : ReplyCall) : Prop :=
  ∀ r, c.reply remap host ctx = some r → r.Conventional remap

/-! ## When the convention is followed -/

/-- `yos_brk` accepts the break. -/
def BrkOk (ctx : MemCtx) (addr : ℕ) : Prop :=
  addr = 0 ∨ addr ≤ ctx.memorySize ∧ addr ≤ mmapAnchor ctx

/-- `yos_mmap2` finds room for `length` page-aligned bytes: a free range, or the range at
`mmap_top`. -/
def MmapRoom (ctx : MemCtx) (length : ℕ) : Prop :=
  (findFreeRegion ctx.freeList length).2 ≠ 0 ∨
    ctx.heapEnd ≤ mmapAnchor ctx ∧ mmapAnchor ctx + length ≤ ctx.memorySize

/-- `yos_mmap2` accepts the arguments. -/
def MmapOk (ctx : MemCtx) (addr length flags : ℕ) (fd : ℤ) : Prop :=
  (fd = -1 ∨ fd = 0xffffffff) ∧ pageAlign length ≠ 0 ∧ pageAlign length ≤ ctx.memorySize ∧
    if flags &&& mapFixed ≠ 0 ∧ addr ≠ 0 then
      addr + pageAlign length ≤ ctx.memorySize ∧ ctx.heapEnd ≤ addr
    else MmapRoom ctx (pageAlign length)

/-- The runtime may replace itself by a host program, and the host's `execv` does. -/
def HostReplaces (host : ExecHost) (ctx : ExecCtx) (fn : List UInt8) (argvPtr : ℕ) : Prop :=
  host.allowHostExec = true ∧ host.mallocArgv = true ∧
    ∃ argv, fallbackArgv ctx.mem argvPtr = .ok argv ∧ host.execv fn argv = none

/-- `yos_execve` does not reach its fallback, or does not return from it. -/
def ExecveOk (host : ExecHost) (ctx : ExecCtx) (filename argvPtr : ℕ) : Prop :=
  ∀ raw, wstrCheck ctx.mem.memory ctx.mem.memorySize filename = some raw →
    host.access (execName ctx raw) = none → execFormat host ctx.envp (execName ctx raw) = none →
      HostReplaces host ctx (execName ctx raw) argvPtr

/-- `yos_execvpe` reaches `yos_execve`, which does not return from its fallback. -/
def ExecvpOk (host : ExecHost) (ctx : ExecCtx) (file argvPtr : ℕ) : Prop :=
  ∃ fn, wstrCheck ctx.mem.memory ctx.mem.memorySize file = some fn ∧
    if fn.contains slash then ExecveOk host ctx file argvPtr
    else ∃ resolved, execvpPathSearch host ctx.envp fn = some resolved ∧
      execScratch ctx + 4096 ≤ ctx.mem.memorySize ∧
      ExecveOk host (ctx.stash resolved) (execScratch ctx) argvPtr

/-- The calls whose answer follows the convention. -/
def ReplyCall.Ok (host : ExecHost) (ctx : ExecCtx) : ReplyCall → Prop
  | .brk addr => BrkOk ctx.mem addr
  | .sbrk incr =>
    incr = 0 ∨ BrkOk ctx.mem (u32 (ctx.mem.heapEnd + incr)) ∧
      (if u32 (ctx.mem.heapEnd + incr) = 0 then ctx.mem.heapEnd
        else u32 (ctx.mem.heapEnd + incr)) < 2 ^ 31
  | .mmap addr length flags fd | .mmap2 addr length flags fd =>
    MmapOk ctx.mem addr length flags fd
  | .munmap addr len =>
    pageAlign len ≠ 0 ∧ pageAlign len ≤ ctx.mem.memorySize ∧
      addr + pageAlign len ≤ ctx.mem.memorySize
  | .mprotect start len | .mlock start len =>
    len = 0 ∨ start < ctx.mem.memorySize ∧ len ≤ ctx.mem.memorySize ∧
      start + len ≤ ctx.mem.memorySize
  | .execve filename argvPtr _ => ExecveOk host ctx filename argvPtr
  | .execvp file argvPtr | .execvpe file argvPtr _ => ExecvpOk host ctx file argvPtr

/-- What the memory of a guest always satisfies: it has whole pages and fewer than `2 ^ 32` bytes,
and the break and the free ranges lie inside. -/
structure MemSane (ctx : MemCtx) : Prop where
  pages : 65536 ∣ ctx.memorySize
  word : ctx.memorySize < 2 ^ 32
  brk : ctx.heapEnd ≤ ctx.memorySize
  free : ∀ r ∈ ctx.freeList, r.addr < ctx.memorySize

/-! ## Answers that follow the convention -/

section Replies

variable {remap : ℕ → ℕ}

theorem conventional_ok_iff {v : ℕ} : (Reply.ok v).Conventional remap ↔ v ≠ mapFailed :=
  ⟨fun h => h.2, fun h => ⟨rfl, h⟩⟩

theorem not_conventional_raw (e : ℕ) : ¬ (Reply.raw e).Conventional remap := fun h => nomatch h.2

theorem conventional_neg (e : ℕ) : (Reply.neg remap e).Conventional remap := ⟨rfl, rfl⟩

/-- A bridge that returns negated error numbers follows the convention only when it succeeds. -/
theorem ofExcept_conventional_iff {α : Type} {value : α → ℕ} {r : Except Errno α}
    (inside : ∀ a, r = .ok a → value a ≠ mapFailed) :
    (Reply.ofExcept value r).Conventional remap ↔ ∃ a, r = .ok a := by
  cases r with
  | ok a => exact ⟨fun _ => ⟨a, rfl⟩, fun _ => conventional_ok_iff.2 (inside a rfl)⟩
  | error e =>
    refine iff_of_false (not_conventional_raw _) ?_
    rintro ⟨a, h⟩
    cases h

end Replies

/-! ## The memory bridges -/

section Memory

variable {ctx : MemCtx}

theorem MemSane.ne_mapFailed (sane : MemSane ctx) {a : ℕ} (inside : a ≤ ctx.memorySize) :
    a ≠ mapFailed := by
  obtain ⟨n, size⟩ := sane.pages
  have := sane.word
  unfold mapFailed
  omega

theorem yosBrk_ok_iff (addr : ℕ) :
    (∃ a, (yosBrk ctx addr).2 = .ok a) ↔ BrkOk ctx addr := by
  unfold yosBrk BrkOk
  split_ifs with zero outside crosses
  · simp [zero]
  · simp [zero]
    omega
  · simp [zero]
    omega
  · simp [zero]
    omega

/-- The break that `yos_brk` answers. -/
theorem yosBrk_value {addr a : ℕ} (made : (yosBrk ctx addr).2 = .ok a) :
    a = if addr = 0 then ctx.heapEnd else addr := by
  unfold yosBrk at made
  split_ifs at made ⊢ <;> cases made <;> rfl

theorem yosBrk_inside (sane : MemSane ctx) {addr a : ℕ} (made : (yosBrk ctx addr).2 = .ok a) :
    a ≤ ctx.memorySize := by
  have ok : BrkOk ctx addr := (yosBrk_ok_iff addr).1 ⟨a, made⟩
  rw [yosBrk_value made]
  split_ifs with zero
  · exact sane.brk
  · exact (ok.resolve_left zero).1

/-- The address of a free range that was found is the one of a table entry. -/
theorem findFreeRegion_mem {free : List Span} {len : ℕ} (found : (findFreeRegion free len).2 ≠ 0) :
    ∃ r ∈ free, (findFreeRegion free len).2 = r.addr := by
  unfold findFreeRegion at found ⊢
  rcases best : bestFit len free 0 none (2 ^ 32 - 1) with _ | k
  · rw [best] at found
    exact absurd rfl found
  · obtain ⟨r, -, at_k, -⟩ := (bestFit_spec best).resolve_left (by simp)
    rw [Nat.sub_zero] at at_k
    have getD : free.getD k ⟨0, 0⟩ = r := by
      rw [List.getD_eq_getElem?_getD, at_k]
      rfl
    refine ⟨r, List.mem_of_getElem? at_k, ?_⟩
    dsimp only
    rw [getD]
    split_ifs <;> rfl

theorem mmapFixedAt_ok_iff (addr length : ℕ) :
    (∃ a, (mmapFixedAt ctx addr length).2 = .ok a) ↔
      addr + length ≤ ctx.memorySize ∧ ctx.heapEnd ≤ addr := by
  unfold mmapFixedAt
  by_cases outside : ctx.memorySize < addr + length
  · rw [if_pos outside]
    exact iff_of_false (fun ⟨_, h⟩ => nomatch h) (by omega)
  · rw [if_neg outside]
    by_cases low : addr < ctx.heapEnd
    · rw [if_pos low]
      exact iff_of_false (fun ⟨_, h⟩ => nomatch h) (by omega)
    · rw [if_neg low]
      exact iff_of_true ⟨_, rfl⟩ (by omega)

theorem mmapBump_ok_iff (length : ℕ) :
    (∃ a, (mmapBump ctx length).2 = .ok a) ↔
      ctx.heapEnd ≤ ctx.mmapTop ∧ ctx.mmapTop + length ≤ ctx.memorySize := by
  unfold mmapBump
  by_cases low : ctx.mmapTop < ctx.heapEnd
  · rw [if_pos low]
    exact iff_of_false (fun ⟨_, h⟩ => nomatch h) (by omega)
  · rw [if_neg low]
    dsimp only
    by_cases outside : ctx.memorySize < ctx.mmapTop + length
    · rw [if_pos outside]
      exact iff_of_false (fun ⟨_, h⟩ => nomatch h) (by omega)
    · rw [if_neg outside]
      exact iff_of_true ⟨_, rfl⟩ (by omega)

theorem mmapAnywhere_ok_iff (length : ℕ) :
    (∃ a, (mmapAnywhere ctx length).2 = .ok a) ↔ MmapRoom ctx length := by
  unfold mmapAnywhere MmapRoom mmapAnchor
  dsimp only
  by_cases found : (findFreeRegion ctx.freeList length).2 = 0
  · rw [if_neg (not_not.2 found)]
    by_cases top : ctx.mmapTop = 0
    · rw [if_pos top, mmapBump_ok_iff, if_neg (not_not.2 top)]
      exact ⟨Or.inr, fun h => h.resolve_left (not_not.2 found)⟩
    · rw [if_neg top, mmapBump_ok_iff, if_pos top]
      exact ⟨Or.inr, fun h => h.resolve_left (not_not.2 found)⟩
  · rw [if_pos found]
    exact iff_of_true ⟨_, rfl⟩ (Or.inl found)

theorem yosMmap2_ok_iff (addr length flags : ℕ) (fd : ℤ) :
    (∃ a, (yosMmap2 ctx addr length flags fd).2 = .ok a) ↔ MmapOk ctx addr length flags fd := by
  unfold yosMmap2 MmapOk
  by_cases file : fd ≠ -1 ∧ fd ≠ 0xffffffff
  · rw [if_pos file]
    exact iff_of_false (fun ⟨_, h⟩ => nomatch h) (fun h => by omega)
  · rw [if_neg file]
    dsimp only
    by_cases large : pageAlign length = 0 ∨ ctx.memorySize < pageAlign length
    · rw [if_pos large]
      exact iff_of_false (fun ⟨_, h⟩ => nomatch h) (fun h => by omega)
    · rw [if_neg large]
      have args : (fd = -1 ∨ fd = 0xffffffff) ∧ pageAlign length ≠ 0 ∧
          pageAlign length ≤ ctx.memorySize := by omega
      by_cases fixed : flags &&& mapFixed ≠ 0 ∧ addr ≠ 0
      · rw [if_pos fixed, if_pos fixed, mmapFixedAt_ok_iff]
        exact ⟨fun h => ⟨args.1, args.2.1, args.2.2, h⟩, fun h => h.2.2.2⟩
      · rw [if_neg fixed, if_neg fixed, mmapAnywhere_ok_iff]
        exact ⟨fun h => ⟨args.1, args.2.1, args.2.2, h⟩, fun h => h.2.2.2⟩

theorem mmapFixedAt_inside {addr length a : ℕ} (made : (mmapFixedAt ctx addr length).2 = .ok a) :
    a ≤ ctx.memorySize := by
  have ok := (mmapFixedAt_ok_iff addr length).1 ⟨a, made⟩
  rw [mmapFixedAt, if_neg (by omega), if_neg (by omega)] at made
  have same : addr = a := Except.ok.inj made
  omega

theorem mmapBump_inside {length a : ℕ} (made : (mmapBump ctx length).2 = .ok a) :
    a ≤ ctx.memorySize := by
  have ok := (mmapBump_ok_iff length).1 ⟨a, made⟩
  rw [mmapBump, if_neg (by omega)] at made
  dsimp only at made
  rw [if_neg (by omega)] at made
  have same : ctx.mmapTop = a := Except.ok.inj made
  omega

theorem mmapAnywhere_inside (sane : MemSane ctx) {length a : ℕ}
    (made : (mmapAnywhere ctx length).2 = .ok a) : a ≤ ctx.memorySize := by
  unfold mmapAnywhere at made
  dsimp only at made
  by_cases found : (findFreeRegion ctx.freeList length).2 = 0
  · rw [if_neg (not_not.2 found)] at made
    by_cases top : ctx.mmapTop = 0
    · rw [if_pos top] at made
      have inside := mmapBump_inside made
      exact inside
    · rw [if_neg top] at made
      have inside := mmapBump_inside made
      exact inside
  · rw [if_pos found] at made
    obtain ⟨r, mem, same⟩ := findFreeRegion_mem found
    have value : (findFreeRegion ctx.freeList length).2 = a := Except.ok.inj made
    rw [← value, same]
    exact (sane.free r mem).le

/-- An address that `yos_mmap2` hands out lies in the memory. -/
theorem yosMmap2_inside (sane : MemSane ctx) {addr length flags a : ℕ} {fd : ℤ}
    (made : (yosMmap2 ctx addr length flags fd).2 = .ok a) : a ≤ ctx.memorySize := by
  have ok := (yosMmap2_ok_iff addr length flags fd).1 ⟨a, made⟩
  rw [yosMmap2, if_neg (by have := ok.1; omega)] at made
  dsimp only at made
  rw [if_neg (by have := ok.2; omega)] at made
  by_cases fixed : flags &&& mapFixed ≠ 0 ∧ addr ≠ 0
  · rw [if_pos fixed] at made
    exact mmapFixedAt_inside made
  · rw [if_neg fixed] at made
    exact mmapAnywhere_inside sane made

theorem yosMunmap_ok_iff (addr len : ℕ) :
    (∃ a, (yosMunmap ctx addr len).2 = .ok a) ↔
      pageAlign len ≠ 0 ∧ pageAlign len ≤ ctx.memorySize ∧
        addr + pageAlign len ≤ ctx.memorySize := by
  unfold yosMunmap
  dsimp only
  by_cases bad : pageAlign len = 0 ∨ ctx.memorySize < pageAlign len ∨
      ctx.memorySize < addr + pageAlign len
  · rw [if_pos bad]
    exact iff_of_false (fun ⟨_, h⟩ => nomatch h) (by omega)
  · rw [if_neg bad]
    refine iff_of_true ⟨(), ?_⟩ (by omega)
    split <;> rfl

theorem checkRange_ok_iff (start len : ℕ) :
    (∃ a, checkRange ctx start len = .ok a) ↔
      len = 0 ∨ start < ctx.memorySize ∧ len ≤ ctx.memorySize ∧ start + len ≤ ctx.memorySize := by
  unfold checkRange
  split_ifs with empty outside
  · exact iff_of_true ⟨_, rfl⟩ (Or.inl empty)
  · exact iff_of_false (fun ⟨_, h⟩ => nomatch h) (by omega)
  · exact iff_of_true ⟨_, rfl⟩ (by omega)

/-- `yos_sbrk` follows the convention when the new break is accepted and below `2 ^ 31`. -/
theorem sbrk_conventional_iff {remap : ℕ → ℕ} (sane : MemSane ctx) (incr : ℕ) :
    (yosSbrk ctx incr).2.Conventional remap ↔
      incr = 0 ∨ BrkOk ctx (u32 (ctx.heapEnd + incr)) ∧
        (if u32 (ctx.heapEnd + incr) = 0 then ctx.heapEnd else u32 (ctx.heapEnd + incr)) < 2 ^ 31 := by
  have old : ctx.heapEnd ≠ mapFailed := sane.ne_mapFailed sane.brk
  unfold yosSbrk
  by_cases zero : incr = 0
  · rw [if_pos zero]
    exact iff_of_true (conventional_ok_iff.2 old) (Or.inl zero)
  · rw [if_neg zero, or_iff_right zero, ← yosBrk_ok_iff]
    rcases made : (yosBrk ctx (u32 (ctx.heapEnd + incr))).2 with e | a
    · simp only [made]
      exact iff_of_false (fun h => nomatch h.2) (fun ⟨⟨_, h⟩, _⟩ => nomatch h)
    · simp only [made]
      rw [← yosBrk_value made]
      split_ifs with high
      · refine iff_of_false (fun h => old h.1.symm) (fun h => ?_)
        omega
      · exact iff_of_true (conventional_ok_iff.2 old) ⟨⟨a, rfl⟩, by omega⟩

end Memory

/-! ## The exec bridges -/

section Exec

variable {remap : ℕ → ℕ} {host : ExecHost} {ctx : ExecCtx}

/-- The answer, if the process was not replaced, follows the convention. -/
def ExecOutcome.Conventional (remap : ℕ → ℕ) (o : ExecOutcome) : Prop :=
  ∀ r, o.reply remap = some r → r.Conventional remap

theorem pending_conventional {path : List UInt8} {argv : List (List UInt8)}
    {envp : Option (List (List UInt8))} :
    (ExecOutcome.pending path argv envp).Conventional remap := by
  rintro r ⟨⟩
  exact conventional_ok_iff.2 (by decide)

theorem fails_conventional {e : ℕ} : (ExecOutcome.fails e).Conventional remap := by
  rintro r ⟨⟩
  exact conventional_neg e

theorem not_raw_conventional {e : ℕ} : ¬ (ExecOutcome.raw e).Conventional remap := fun h =>
  not_conventional_raw e (h _ rfl)

theorem replaced_conventional : ExecOutcome.replaced.Conventional remap := fun _ h => nomatch h

/-- Once a wasm file is found, every failure goes through `yos_errno_neg`. -/
theorem execveVectors_conventional {image : ExecImage} {fn : List UInt8} {argvPtr envp : ℕ} :
    (execveVectors host ctx image fn argvPtr envp).Conventional remap := by
  unfold execveVectors
  split
  · exact fails_conventional
  · split
    · exact fails_conventional
    · split
      · exact fails_conventional
      · split
        · exact pending_conventional
        · split
          · exact fails_conventional
          · split
            · exact fails_conventional
            · split
              · exact fails_conventional
              · exact pending_conventional

theorem fallback_conventional_iff {fn : List UInt8} {argvPtr : ℕ} :
    (hostExecveFallback host ctx fn argvPtr).Conventional remap ↔
      HostReplaces host ctx fn argvPtr := by
  unfold hostExecveFallback HostReplaces
  by_cases allowed : host.allowHostExec = true
  · rw [if_neg (by rw [allowed]; decide)]
    by_cases outside : argvPtr ≠ 0 ∧ ctx.mem.memorySize < argvPtr + 4
    · rw [if_pos outside]
      refine iff_of_false not_raw_conventional ?_
      rintro ⟨-, -, argv, read, -⟩
      rw [fallbackArgv, if_neg outside.1, fallbackVec, if_pos (by omega)] at read
      cases read
    · rw [if_neg outside]
      rcases read : fallbackArgv ctx.mem argvPtr with e | argv
      · exact iff_of_false not_raw_conventional (fun ⟨_, _, _, h, _⟩ => nomatch h)
      · simp only [Except.ok.injEq, exists_eq_left']
        by_cases alloc : host.mallocArgv = true
        · rw [if_neg (by rw [alloc]; decide)]
          rcases exec : host.execv fn argv with _ | e
          · exact iff_of_true replaced_conventional ⟨allowed, alloc, rfl⟩
          · exact iff_of_false not_raw_conventional (fun ⟨_, _, h⟩ => nomatch h)
        · rw [if_pos (by simpa using alloc)]
          exact iff_of_false not_raw_conventional (fun h => alloc h.2.1)
  · rw [if_pos (by simpa using allowed)]
    exact iff_of_false not_raw_conventional (fun h => allowed h.1)

theorem execve_conventional_iff {filename argvPtr envp : ℕ} :
    (yosExecve host ctx filename argvPtr envp).Conventional remap ↔
      ExecveOk host ctx filename argvPtr := by
  unfold yosExecve ExecveOk
  rcases name : wstrCheck ctx.mem.memory ctx.mem.memorySize filename with _ | raw
  · exact iff_of_true fails_conventional (fun _ h => nomatch h)
  · simp only [Option.some.injEq, forall_eq']
    rcases access : host.access (execName ctx raw) with _ | e
    · rw [forall_prop_of_true rfl]
      rcases format : execFormat host ctx.envp (execName ctx raw) with _ | image
      · rw [forall_prop_of_true rfl]
        exact fallback_conventional_iff
      · exact iff_of_true execveVectors_conventional (fun h => nomatch h)
    · exact iff_of_true fails_conventional (fun h => nomatch h)

theorem execvpe_conventional_iff {file argvPtr envp : ℕ} :
    (yosExecvpe host ctx file argvPtr envp).Conventional remap ↔ ExecvpOk host ctx file argvPtr := by
  unfold yosExecvpe ExecvpOk
  rcases name : wstrCheck ctx.mem.memory ctx.mem.memorySize file with _ | fn
  · exact iff_of_false not_raw_conventional (fun ⟨_, h, _⟩ => nomatch h)
  · simp only [Option.some.injEq, exists_eq_left']
    by_cases slashed : fn.contains slash = true
    · rw [if_pos slashed, if_pos slashed]
      exact execve_conventional_iff
    · rw [if_neg slashed, if_neg slashed]
      rcases found : execvpPathSearch host ctx.envp fn with _ | resolved
      · exact iff_of_false not_raw_conventional (fun ⟨_, h, _⟩ => nomatch h)
      · simp only [Option.some.injEq, exists_eq_left']
        by_cases tight : ctx.mem.memorySize < execScratch ctx + 4096
        · rw [if_pos tight]
          exact iff_of_false not_raw_conventional (by omega)
        · rw [if_neg tight, execve_conventional_iff]
          exact ⟨fun h => ⟨by omega, h⟩, fun h => h.2⟩

end Exec

/-! ## Every call -/

/-- In a run of the mapping bridges the free ranges lie in the memory. -/
theorem MmapInv.memSane {ctx : MemCtx} {owned : Set ℕ} (inv : MmapInv ctx owned)
    (pages : 65536 ∣ ctx.memorySize) (brk : ctx.heapEnd ≤ ctx.memorySize) : MemSane ctx where
  pages := pages
  word := inv.word
  brk := brk
  free r mem := by
    have len := (inv.freeOk r mem).1
    have fin := inv.fin_le (List.mem_append_right _ mem)
    have top := inv.top
    unfold Span.fin at fin
    omega

/-- The answer to a call follows the convention exactly when the call meets `ReplyCall.Ok`. -/
theorem error_convention_iff (remap : ℕ → ℕ) (host : ExecHost) (ctx : ExecCtx)
    (sane : MemSane ctx.mem) (c : ReplyCall) :
    c.Conventional remap host ctx ↔ c.Ok host ctx := by
  have one {r : Reply} : (∀ r', some r = some r' → r'.Conventional remap) ↔ r.Conventional remap :=
    by simp only [Option.some.injEq, forall_eq']
  have zero : (0 : ℕ) ≠ mapFailed := by decide
  have mapped (addr length flags : ℕ) (fd : ℤ) :
      (Reply.ofExcept id (yosMmap2 ctx.mem addr length flags fd).2).Conventional remap ↔
        MmapOk ctx.mem addr length flags fd := by
    refine (ofExcept_conventional_iff fun a made => ?_).trans (yosMmap2_ok_iff addr length flags fd)
    exact sane.ne_mapFailed (yosMmap2_inside sane made)
  have ranged (start len : ℕ) :
      (Reply.ofExcept (fun _ => 0) (checkRange ctx.mem start len)).Conventional remap ↔
        len = 0 ∨ start < ctx.mem.memorySize ∧ len ≤ ctx.mem.memorySize ∧
          start + len ≤ ctx.mem.memorySize := by
    rw [ofExcept_conventional_iff fun _ _ => zero]
    exact checkRange_ok_iff start len
  cases c with
  | brk addr =>
    refine one.trans ((ofExcept_conventional_iff fun a made => ?_).trans (yosBrk_ok_iff addr))
    exact sane.ne_mapFailed (yosBrk_inside sane made)
  | sbrk incr => exact one.trans (sbrk_conventional_iff sane incr)
  | mmap addr length flags fd => exact one.trans (mapped addr length flags fd)
  | mmap2 addr length flags fd => exact one.trans (mapped addr length flags fd)
  | munmap addr len =>
    refine one.trans ?_
    rw [ofExcept_conventional_iff fun _ _ => zero]
    exact yosMunmap_ok_iff addr len
  | mprotect start len => exact one.trans (ranged start len)
  | mlock start len => exact one.trans (ranged start len)
  | execve filename argvPtr envp => exact execve_conventional_iff
  | execvp file argvPtr => exact execvpe_conventional_iff
  | execvpe file argvPtr envp => exact execvpe_conventional_iff

/-- A host without files. -/
def emptyHost : ExecHost where
  access _ := some Errno.ENOENT.number
  file _ := none
  regular _ := false
  mallocArgv := true
  mallocEnvp := true
  allowHostExec := false
  execv _ _ := some Errno.ENOENT.number

/-- A guest with 4 MiB of memory. -/
def smallCtx : ExecCtx := ⟨.blank (2 ^ 22) 0x50000, [slash], []⟩

/-- A guest with all of a 32-bit address space but one page, and a mapping up to `0x90000000`. -/
def largeCtx : ExecCtx :=
  ⟨{ MemCtx.blank 0xFFFF0000 0x7FFFF000 with mmapTop := 0x90000000 }, [slash], []⟩

theorem error_convention_small :
    MemSane smallCtx.mem ∧
      ((ReplyCall.brk 0x60000).Conventional id emptyHost smallCtx ↔
        (ReplyCall.brk 0x60000).Ok emptyHost smallCtx) := by
  have fresh : NoMappings smallCtx.mem := ⟨rfl, rfl, rfl, by decide⟩
  have sane : MemSane smallCtx.mem := (mmapInv_init fresh).memSane (by decide) (by decide)
  exact ⟨sane, error_convention_iff id emptyHost smallCtx sane _⟩

/-- `brk` beyond the memory answers `0xFFFFFFF4` and stores no number; `sbrk` of one page moves the
break to `2 ^ 31` and answers -1. -/
theorem error_convention_broken :
    (∃ r, (ReplyCall.brk (2 ^ 22 + 1)).reply id emptyHost smallCtx = some r ∧
        r.value = 0xFFFFFFF4 ∧ r.errno = none) ∧
      ¬ (ReplyCall.brk (2 ^ 22 + 1)).Conventional id emptyHost smallCtx ∧
      (yosSbrk largeCtx.mem 4096).1.heapEnd = 2 ^ 31 ∧
      ¬ (ReplyCall.sbrk 4096).Conventional id emptyHost largeCtx := by
  refine ⟨⟨_, rfl, by decide, rfl⟩, fun h => ?_, by decide, fun h => ?_⟩
  · exact absurd (h _ rfl) (not_conventional_raw _)
  · exact absurd (h _ rfl).1 (by decide)

end Yos
