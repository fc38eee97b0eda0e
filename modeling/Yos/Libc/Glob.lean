import Yos.Io.Fd
import Yos.Libc.Env
import Yos.Mem.HeapClient

/-!
# Path lists for the guest (`impl/libc/posix.c`)

`yos_glob` copies the paths that the host's `glob` found to the guest: an array of pointers, ended by 0, and
a block for each path.  `yos_globfree` frees the blocks that the array points to, and the array.  A request
that fails after another was served makes `yos_glob` return `FB_GLOB_NOSPACE` with the blocks it has
allocated still held by nobody (`glob_met_iff`).
-/

namespace Yos

open Word Bytes Span

/-! ## The code -/

/-- A string of the host, without the NUL that ends it. -/
abbrev HostString := { l : List UInt8 // (0 : UInt8) ∉ l }

/-- The results of the host's `glob`. -/
inductive GlobRc where
  | ok
  | noSpace
  | aborted
  | noMatch
  | other
deriving DecidableEq, Repr

/-- What the host's `glob` answers. -/
structure HostGlob where
  rc : GlobRc
  pathv : List HostString

/-- `FB_GLOB_NOSPACE`. -/
def fbGlobNospace : ℤ := -1

/-- `yos_glob_rc_h2g`. -/
def globRcH2g : GlobRc → ℤ
  | .ok => 0
  | .noSpace => fbGlobNospace
  | .aborted => -2
  | .noMatch => -3
  | .other => -3

/-- `posix_wptr_range`. -/
def MemCtx.range (ctx : MemCtx) (offset len : ℕ) : Bool :=
  wptrRange ⟨ctx.memory, ctx.memorySize, fun _ => -1, none⟩ offset len

/-- `YOS_FBGLOB_SIZE`. -/
def fbGlobSize : ℕ := 44

/-- The paths that are copied. -/
def HostGlob.paths (host : HostGlob) : List HostString := if host.rc = .ok then host.pathv else []

/-- The loop of `yos_glob`; it ends early when a request fails. -/
def globLoop (arr : ℕ) : (i : ℕ) → List HostString → MemCtx → MemCtx × Bool
  | _, [], ctx => (ctx, true)
  | i, path :: rest, ctx =>
    let (ctx, s) := yosMalloc ctx (u32 (path.1.length + 1))
    if s = 0 then (ctx, false)
    else
      let memory := (writeBytes ctx.memory s (path.1 ++ [0])).write32 (u32 (arr + i * 4)) s
      globLoop arr (i + 1) rest { ctx with memory }

/-- The fields that `yos_glob` stores in the `glob_t`. -/
def putGlob (memory : Bytes) (globOff count flags arr : ℕ) : Bytes :=
  ((((memory.write32 globOff count).write32 (globOff + 4) count).write32 (globOff + 8) 0).write32 (globOff + 12)
    flags).write32 (globOff + 16) arr

/-- `yos_glob`, when the host's `glob` answers `host`. -/
def yosGlob (ctx : MemCtx) (patOff flags globOff : ℕ) (host : HostGlob) : MemCtx × Ret :=
  if patOff = 0 ∨ ctx.memorySize ≤ patOff then (ctx, yosErrnoNeg .EFAULT)
  else if !ctx.range globOff fbGlobSize then (ctx, yosErrnoNeg .EFAULT)
  else
    let count := u32 host.paths.length
    let (ctx, arr) := yosMalloc ctx (u32 (u32 (count + 1) * 4))
    if arr = 0 then (ctx, ⟨fbGlobNospace, none⟩)
    else
      match globLoop arr 0 (host.paths.take count) ctx with
      | (ctx, false) => (ctx, ⟨fbGlobNospace, none⟩)
      | (ctx, true) =>
        let memory := ctx.memory.write32 (u32 (arr + count * 4)) 0
        ({ ctx with memory := putGlob memory globOff count flags arr }, ⟨globRcH2g host.rc, none⟩)

/-- The loop of `yos_globfree`. -/
def globfreeLoop (arr : ℕ) : (n i : ℕ) → MemCtx → Option MemCtx
  | 0, _, ctx => some ctx
  | n + 1, i, ctx =>
    let s := ctx.memory.read32 (u32 (arr + i * 4))
    match (if s ≠ 0 then freeCall ctx s else some ctx) with
    | none => none
    | some ctx => globfreeLoop arr n (i + 1) ctx

/-- `yos_globfree`; `none` if a walk of `yos_free` goes round for ever. -/
def yosGlobfree (ctx : MemCtx) (globOff : ℕ) : Option MemCtx :=
  if !ctx.range globOff fbGlobSize then some ctx
  else
    let count := ctx.memory.read32 globOff
    let arr := ctx.memory.read32 (globOff + 16)
    let freed := if arr ≠ 0 then (globfreeLoop arr count 0 ctx).bind fun ctx => freeCall ctx arr else some ctx
    freed.map fun ctx => { ctx with memory := (ctx.memory.write32 globOff 0).write32 (globOff + 16) 0 }

/-! ## What it is for -/

/-- The string lies at `p`, with its NUL. -/
def StringAt (m : Bytes) (p : ℕ) (l : HostString) : Prop :=
  (∀ i (lt : i < l.1.length), m (p + i) = l.1[i]) ∧ m (p + l.1.length) = 0

/-- The words from `a` on point to the strings, and 0 ends them. -/
def PathsAt (m : Bytes) (a : ℕ) : List HostString → Prop
  | [] => m.read32 a = 0
  | path :: rest => StringAt m (m.read32 a) path ∧ PathsAt m (a + 4) rest

/-- The `glob_t` describes the paths, and `yos_globfree` gives everything back. -/
structure GlobDelivered (held : List HeldPtr) (ctx : MemCtx) (globOff : ℕ) (paths : List HostString) : Prop where
  count : ctx.memory.read32 globOff = paths.length
  paths : PathsAt ctx.memory (ctx.memory.read32 (globOff + 16)) paths
  frees : ∃ ctx', yosGlobfree ctx globOff = some ctx' ∧ AllocInv ⟨ctx', held⟩

/-- All or nothing: the paths are delivered, or the guest is told that memory ran out, no block is lost and the
`glob_t` is as it was. -/
def GlobMet (s : GuestHeap) (patOff flags globOff : ℕ) (host : HostGlob) : Prop :=
  ((yosGlob s.ctx patOff flags globOff host).2 = ⟨globRcH2g host.rc, none⟩ ∧
      GlobDelivered s.held (yosGlob s.ctx patOff flags globOff host).1 globOff host.paths) ∨
    ((yosGlob s.ctx patOff flags globOff host).2 = ⟨fbGlobNospace, none⟩ ∧
      AllocInv ⟨(yosGlob s.ctx patOff flags globOff host).1, s.held⟩ ∧
      ∀ x, globOff ≤ x → x < globOff + fbGlobSize →
        (yosGlob s.ctx patOff flags globOff host).1.memory x = s.ctx.memory x)

/-- What `yos_glob` asks `yos_malloc` for. -/
def globRequests (paths : List HostString) : List ℕ :=
  4 * (paths.length + 1) :: paths.map fun path => path.1.length + 1

/-- The arguments pass the tests, and the `glob_t` is the guest's. -/
structure GlobCall (s : GuestHeap) (patOff globOff : ℕ) : Prop where
  heap : AllocInv s
  bounds : HostBounds s.ctx
  pattern : ¬ (patOff = 0 ∨ s.ctx.memorySize ≤ patOff)
  range : s.ctx.range globOff fbGlobSize = true
  mine : ∀ x, globOff ≤ x → x < globOff + fbGlobSize → s.Mine x

/-! ## Strings and pointers -/

section Strings

variable {m m' : Bytes} {p a : ℕ} {l : HostString}

theorem stringAt_writeBytes : StringAt (writeBytes m p (l.1 ++ [0])) p l := by
  have length : (l.1 ++ [0]).length = l.1.length + 1 := List.length_append
  constructor
  · intro i lt
    rw [writeBytes_apply (by omega), List.getElem_append_left lt]
  · rw [writeBytes_apply (by omega), List.getElem_concat_length rfl]

theorem StringAt.congr (text : StringAt m p l) (same : ∀ i < l.1.length + 1, m' (p + i) = m (p + i)) :
    StringAt m' p l :=
  ⟨fun i lt => (same i (by omega)).trans (text.1 i lt), (same _ (Nat.lt_succ_self _)).trans text.2⟩

/-- The words from `a` on point to the blocks, which hold the strings. -/
def BlocksAt (m : Bytes) (a : ℕ) : List HeldPtr → List HostString → Prop
  | [], [] => True
  | b :: bs, path :: rest =>
    m.read32 a = b.ptr ∧ path.1.length < b.size ∧ StringAt m b.ptr path ∧ BlocksAt m (a + 4) bs rest
  | _, _ => False

variable {bs : List HeldPtr} {paths : List HostString}

theorem BlocksAt.length (blocks : BlocksAt m a bs paths) : bs.length = paths.length := by
  induction bs generalizing a paths with
  | nil =>
    cases paths with
    | nil => rfl
    | cons path rest => exact blocks.elim
  | cons b bs ih =>
    cases paths with
    | nil => exact blocks.elim
    | cons path rest => exact congrArg (· + 1) (ih blocks.2.2.2)

theorem BlocksAt.congr (blocks : BlocksAt m a bs paths)
    (words : ∀ x, a ≤ x → x < a + 4 * bs.length → m' x = m x)
    (texts : ∀ b ∈ bs, ∀ i < b.size, m' (b.ptr + i) = m (b.ptr + i)) : BlocksAt m' a bs paths := by
  induction bs generalizing a paths with
  | nil =>
    cases paths with
    | nil => trivial
    | cons path rest => exact blocks.elim
  | cons b bs ih =>
    cases paths with
    | nil => exact blocks.elim
    | cons path rest =>
      obtain ⟨word, room, text, blocks⟩ := blocks
      rw [List.length_cons] at words
      refine ⟨?_, room, text.congr fun i lt => texts b List.mem_cons_self i (by omega),
        ih blocks (fun x low high => words x (by omega) (by omega)) fun c mem => texts c (List.mem_cons_of_mem b mem)⟩
      rw [← word]
      exact read32_congr fun x low high => words x low (by omega)

theorem BlocksAt.concat (blocks : BlocksAt m a bs paths) {b : HeldPtr} {path : HostString}
    (word : m.read32 (a + 4 * bs.length) = b.ptr) (room : path.1.length < b.size) (text : StringAt m b.ptr path) :
    BlocksAt m a (bs ++ [b]) (paths ++ [path]) := by
  induction bs generalizing a paths with
  | nil =>
    cases paths with
    | nil => exact ⟨word, room, text, trivial⟩
    | cons path rest => exact blocks.elim
  | cons c bs ih =>
    cases paths with
    | nil => exact blocks.elim
    | cons path' rest =>
      obtain ⟨word', room', text', blocks⟩ := blocks
      refine ⟨word', room', text', ih blocks ?_⟩
      rw [← word, List.length_cons]
      congr 1
      omega

theorem BlocksAt.pathsAt (blocks : BlocksAt m a bs paths) (stop : m.read32 (a + 4 * bs.length) = 0) :
    PathsAt m a paths := by
  induction bs generalizing a paths with
  | nil =>
    cases paths with
    | nil => exact stop
    | cons path rest => exact blocks.elim
  | cons b bs ih =>
    cases paths with
    | nil => exact blocks.elim
    | cons path rest =>
      obtain ⟨word, -, text, blocks⟩ := blocks
      refine ⟨by rwa [word], ih blocks ?_⟩
      rw [← stop, List.length_cons]
      congr 1
      omega

theorem BlocksAt.word (blocks : BlocksAt m a bs paths) {j : ℕ} (lt : j < bs.length) :
    m.read32 (a + 4 * j) = bs[j].ptr := by
  induction bs generalizing a paths j with
  | nil => exact absurd lt (Nat.not_lt_zero j)
  | cons b bs ih =>
    cases paths with
    | nil => exact blocks.elim
    | cons path rest =>
      cases j with
      | zero => exact blocks.1
      | succ j =>
        rw [List.getElem_cons_succ, ← ih blocks.2.2.2 (Nat.lt_of_succ_lt_succ lt)]
        congr 1
        omega

end Strings

/-! ## The loop of `yos_glob` -/

section Loop

variable {s : GuestHeap} {ctx ctx' : MemCtx} {arr new : HeldPtr} {bs : List HeldPtr} {paths rest : List HostString}
  {path : HostString}

/-- The array points to the blocks built so far. -/
structure GlobBuilt (s : GuestHeap) (ctx : MemCtx) (arr : HeldPtr) (bs : List HeldPtr) (paths : List HostString) :
    Prop where
  move : HeapMove s ⟨ctx, (bs.reverse ++ [arr]) ++ s.held⟩
  blocks : BlocksAt ctx.memory arr.ptr bs paths

theorem GlobBuilt.arr_mem (_ : GlobBuilt s ctx arr bs paths) : arr ∈ (bs.reverse ++ [arr]) ++ s.held :=
  List.mem_append_left _ (List.mem_append_right _ (List.mem_singleton_self arr))

theorem GlobBuilt.mem (_ : GlobBuilt s ctx arr bs paths) {b : HeldPtr} (mem : b ∈ bs) :
    b ∈ (bs.reverse ++ [arr]) ++ s.held :=
  List.mem_append_left _ (List.mem_append_left _ (List.mem_reverse.mpr mem))

/-- The array is none of the blocks. -/
theorem GlobBuilt.not_owns (built : GlobBuilt s ctx arr bs paths) {b : HeldPtr} (mem : b ∈ bs) {x : ℕ}
    (owns : b.Owns x) : ¬ arr.Owns x := by
  intro owns'
  have same := built.move.inv.eq_of_owns (built.mem mem) built.arr_mem owns owns'
  obtain ⟨free, ready⟩ := built.move.inv.ready built.arr_mem
  have nodup := (List.nodup_append.mp (List.nodup_append.mp ready.nodup).1).2.2
  exact nodup b (List.mem_reverse.mpr mem) arr (List.mem_singleton_self arr) same

/-- The memory with the path in the new block and the block in the array. -/
def putPath (m : Bytes) (arr i : ℕ) (s : ℕ) (path : HostString) : Bytes :=
  (writeBytes m s (path.1 ++ [0])).write32 (arr + 4 * i) s

theorem putPath_of_not_owns {m : Bytes} {i x : ℕ} (room : path.1.length < new.size)
    (inv : AllocInv ⟨ctx', new :: s.held⟩) (word : ¬ (arr.ptr + 4 * i ≤ x ∧ x < arr.ptr + 4 * i + 4))
    (other : ¬ new.Owns x) : putPath m arr.ptr i new.ptr path x = m x := by
  have length : (path.1 ++ [0]).length = path.1.length + 1 := List.length_append
  refine (write32_apply_of_disjoint (by omega)).trans (writeBytes_of_not_mem fun inside => other ?_)
  have owns := inv.owns (h := new) List.mem_cons_self (i := x - new.ptr) (by omega)
  rwa [Nat.add_sub_cancel' inside.1] at owns

theorem GlobBuilt.put (built : GlobBuilt s ctx arr bs paths) (room : 4 * (bs.length + 1) ≤ arr.size)
    (done : Allocated ⟨ctx, (bs.reverse ++ [arr]) ++ s.held⟩ (path.1.length + 1) ctx' new) :
    GlobBuilt s { ctx' with memory := putPath ctx'.memory arr.ptr bs.length new.ptr path } arr (bs ++ [new])
      (paths ++ [path]) := by
  have size : path.1.length < new.size := by
    rw [done.asked]
    exact Nat.lt_succ_self _
  have turned : (bs ++ [new]).reverse = new :: bs.reverse := List.reverse_concat
  have after := done.after built.move
  have arrOwns {i : ℕ} (lt : i < arr.size) : arr.Owns (arr.ptr + i) := built.move.inv.owns built.arr_mem lt
  have arrWord {x : ℕ} (inside : arr.ptr ≤ x ∧ x < arr.ptr + 4 * (bs.length + 1)) : arr.Owns x := by
    have owns := arrOwns (i := x - arr.ptr) (by omega)
    rwa [Nat.add_sub_cancel' inside.1] at owns
  -- what is held already is not in the new block
  have apart {h : HeldPtr} (held : h ∈ (bs.reverse ++ [arr]) ++ s.held) {x : ℕ} (owns : h.Owns x) : ¬ new.Owns x :=
    fun owns' => done.apart x owns' (Or.inr ⟨h, held, owns⟩)
  have keeps {h : HeldPtr} (held : h ∈ (bs.reverse ++ [arr]) ++ s.held) {i : ℕ} (lt : i < h.size) :
      ctx'.memory (h.ptr + i) = ctx.memory (h.ptr + i) :=
    done.move.keeps built.move.inv held (List.mem_cons_of_mem new held) lt
  constructor
  · rw [turned]
    refine after.fillNew fun x changed => ?_
    by_contra none
    refine changed (putPath_of_not_owns size done.move.inv ?_ fun owns => none ⟨new, List.mem_cons_self, owns⟩)
    exact fun inside => none ⟨arr, by simp, arrWord (by omega)⟩
  · refine BlocksAt.concat (built.blocks.congr (fun x low high => ?_) fun b mem i lt => ?_) ?_ size ?_
    · have same := keeps built.arr_mem (i := x - arr.ptr) (by omega)
      rw [Nat.add_sub_cancel' low] at same
      refine (putPath_of_not_owns size done.move.inv (by omega) ?_).trans same
      exact apart built.arr_mem (arrWord (by omega))
    · have owns := built.move.inv.owns (built.mem mem) lt
      refine (putPath_of_not_owns size done.move.inv (fun inside => ?_) (apart (built.mem mem) owns)).trans
        (keeps (built.mem mem) lt)
      exact built.not_owns mem owns (arrWord (by omega))
    · have small := (done.move.inv.bounds (h := new) List.mem_cons_self).2
      exact read32_write32_self (by omega)
    · refine StringAt.congr stringAt_writeBytes fun i lt => write32_apply_of_disjoint ?_
      have owns := done.move.inv.owns (h := new) List.mem_cons_self (i := i) (by omega)
      by_contra inside
      exact apart built.arr_mem (arrWord (by omega)) owns

/-- The loop builds the blocks, or it ends with blocks that nobody frees. -/
theorem globLoop_ends (rest : List HostString) (built : GlobBuilt s ctx arr bs paths)
    (room : 4 * (bs.length + rest.length + 1) ≤ arr.size) (fits : ∀ path ∈ rest, Fits (path.1.length + 1)) :
    (servedCount ctx (rest.map fun path => path.1.length + 1) = rest.length ∧
        ∃ ctx' bs', globLoop arr.ptr bs.length rest ctx = (ctx', true) ∧
          GlobBuilt s ctx' arr bs' (paths ++ rest)) ∨
      (servedCount ctx (rest.map fun path => path.1.length + 1) < rest.length ∧
        ∃ ctx' e, globLoop arr.ptr bs.length rest ctx = (ctx', false) ∧ e ≠ [] ∧ AllocInv ⟨ctx', e ++ s.held⟩) := by
  induction rest generalizing ctx bs paths with
  | nil =>
    rw [List.append_nil]
    exact Or.inl ⟨rfl, ctx, bs, rfl, built⟩
  | cons path rest ih =>
    obtain ⟨fit, fits⟩ := List.forall_mem_cons.mp fits
    rw [List.length_cons] at room ⊢
    have word : u32 (path.1.length + 1) = path.1.length + 1 := by
      unfold Fits at fit
      exact u32_of_lt (by omega)
    have arrSmall := (built.move.inv.bounds built.arr_mem).2
    have cell : u32 (arr.ptr + bs.length * 4) = arr.ptr + 4 * bs.length := by
      rw [u32_of_lt (by omega), Nat.mul_comm]
    rw [List.map_cons, globLoop, word]
    rcases built.move.inv.malloc_cases fit with ⟨ctx₁, eq, move⟩ | ⟨ctx₁, new, done⟩
    · right
      rw [servedCount_of_zero (by rw [eq]), eq]
      refine ⟨Nat.succ_pos _, ctx₁, bs.reverse ++ [arr], rfl, by simp, move.inv⟩
    · have count := servedCount_of_allocated (rest.map fun path => path.1.length + 1) done
      dsimp only at count
      have next := built.put (by omega) done
      have length : (bs ++ [new]).length = bs.length + 1 := List.length_append
      -- the stores change nothing for the requests that follow
      have same : servedCount ctx₁ (rest.map fun path => path.1.length + 1) =
          servedCount { ctx₁ with memory := putPath ctx₁.memory arr.ptr bs.length new.ptr path }
            (rest.map fun path => path.1.length + 1) := by
        have bounds := setUp_store ctx₁ (putPath ctx₁.memory arr.ptr bs.length new.ptr path)
        have after := next.move.inv
        rw [List.reverse_concat] at after
        refine done.move.inv.servedCount_congr after bounds.1.symm bounds.2.symm fun size mem => ?_
        obtain ⟨other, listed, rfl⟩ := List.mem_map.mp mem
        exact fits other listed
      rw [count, same, done.eq]
      dsimp only
      rw [if_neg done.ptr_ne, cell]
      rcases ih next (by omega) fits with ⟨all, ctx', bs', run, built'⟩ | ⟨few, ctx', e, run, some, inv⟩
      · rw [length] at run
        rw [List.append_assoc, List.singleton_append] at built'
        exact Or.inl ⟨by omega, ctx', bs', run, built'⟩
      · rw [length] at run
        exact Or.inr ⟨by omega, ctx', e, run, some, inv⟩

end Loop

/-! ## The loop of `yos_globfree` -/

section Free

variable {ctx : MemCtx} {held : List HeldPtr} {arr : HeldPtr} {bs : List HeldPtr} {i : ℕ}

/-- The loop frees the blocks that the array points to. -/
theorem globfreeLoop_frees (inv : AllocInv ⟨ctx, (bs ++ [arr]) ++ held⟩) (room : 4 * (i + bs.length) ≤ arr.size)
    (words : ∀ j (lt : j < bs.length), ctx.memory.read32 (arr.ptr + 4 * (i + j)) = bs[j].ptr) :
    ∃ ctx', globfreeLoop arr.ptr bs.length i ctx = some ctx' ∧
      HeapStays ⟨ctx, (bs ++ [arr]) ++ held⟩ ⟨ctx', [arr] ++ held⟩ := by
  induction bs generalizing i ctx with
  | nil => exact ⟨ctx, rfl, inv, rfl, rfl, rfl⟩
  | cons b bs ih =>
    rw [List.length_cons] at room ⊢
    have arr_mem : arr ∈ (b :: bs ++ [arr]) ++ held := by simp
    have bounds := inv.bounds arr_mem
    have low := (inv.bounds (h := b) List.mem_cons_self).1
    have cell : u32 (arr.ptr + i * 4) = arr.ptr + 4 * i := by rw [u32_of_lt (by omega), Nat.mul_comm]
    have word : ctx.memory.read32 (arr.ptr + 4 * i) = b.ptr := words 0 (Nat.succ_pos _)
    obtain ⟨ctx₁, freed, move⟩ := inv.free_move (h := b) List.mem_cons_self
    have left : ((b :: bs ++ [arr]) ++ held).erase b = (bs ++ [arr]) ++ held := List.erase_cons_head b _
    rw [left] at move
    have arr_mem' : arr ∈ (bs ++ [arr]) ++ held := by simp
    obtain ⟨ctx', run, stays⟩ := ih move.inv (i := i + 1) (by omega) fun j lt => by
      have next := words (j + 1) (Nat.succ_lt_succ lt)
      rw [List.getElem_cons_succ] at next
      rw [← next, show i + 1 + j = i + (j + 1) by omega]
      refine read32_congr fun x start stop => ?_
      have same := move.keeps inv arr_mem arr_mem' (i := x - arr.ptr) (by omega)
      rwa [Nat.add_sub_cancel' (by omega)] at same
    refine ⟨ctx', ?_, move.toHeapStays.trans stays⟩
    rw [globfreeLoop, cell, word, if_pos (by omega), freed]
    exact run

end Free

/-! ## The call -/

section Call

variable {s : GuestHeap} {ctx : MemCtx} {arr : HeldPtr} {bs : List HeldPtr} {paths : List HostString} {m : Bytes}
  {patOff globOff count flags p x : ℕ} {host : HostGlob}

theorem putGlob_of_not_mem (out : ¬ (globOff ≤ x ∧ x < globOff + fbGlobSize)) :
    putGlob m globOff count flags p x = m x := by
  unfold fbGlobSize at out
  unfold putGlob
  iterate 4 rw [write32_apply_of_disjoint (by omega)]
  exact write32_apply_of_disjoint (by omega)

theorem putGlob_fields (small : count < 2 ^ 32) (small' : p < 2 ^ 32) :
    (putGlob m globOff count flags p).read32 globOff = count ∧
      (putGlob m globOff count flags p).read32 (globOff + 16) = p := by
  unfold putGlob
  refine ⟨?_, read32_write32_self small'⟩
  iterate 4 rw [read32_write32_disjoint (by omega)]
  exact read32_write32_self small

/-- The word that ends the array. -/
theorem GlobBuilt.stop (built : GlobBuilt s ctx arr bs paths) (room : 4 * (bs.length + 1) ≤ arr.size) :
    GlobBuilt s { ctx with memory := ctx.memory.write32 (arr.ptr + 4 * bs.length) 0 } arr bs paths := by
  have owns {x : ℕ} (inside : arr.ptr + 4 * bs.length ≤ x ∧ x < arr.ptr + 4 * bs.length + 4) : arr.Owns x := by
    have owns := built.move.inv.owns built.arr_mem (i := x - arr.ptr) (by omega)
    rwa [Nat.add_sub_cancel' (by omega)] at owns
  constructor
  · refine built.move.fillNew fun x changed => ⟨arr, by simp, owns ?_⟩
    by_contra out
    exact changed (write32_apply_of_disjoint (by omega))
  · refine built.blocks.congr (fun x low high => write32_apply_of_disjoint (by omega)) fun b mem i lt => ?_
    refine write32_apply_of_disjoint ?_
    by_contra inside
    exact built.not_owns mem (built.move.inv.owns (built.mem mem) lt) (owns (by omega))

/-- The paths are delivered. -/
theorem GlobBuilt.delivered (built : GlobBuilt s ctx arr bs paths) (call : GlobCall s patOff globOff)
    (room : 4 * (bs.length + 1) ≤ arr.size) (stop : ctx.memory.read32 (arr.ptr + 4 * bs.length) = 0) :
    GlobDelivered s.held { ctx with memory := putGlob ctx.memory globOff paths.length flags arr.ptr } globOff
      paths := by
  have arrSmall := (built.move.inv.bounds built.arr_mem).2
  have length := built.blocks.length
  have fields : (putGlob ctx.memory globOff paths.length flags arr.ptr).read32 globOff = paths.length ∧
      (putGlob ctx.memory globOff paths.length flags arr.ptr).read32 (globOff + 16) = arr.ptr :=
    putGlob_fields (by omega) (by omega)
  obtain ⟨count, ptr⟩ := fields
  -- the blocks and the array are not in the `glob_t`
  have apart {h : HeldPtr} (mem : h ∈ bs.reverse ++ [arr]) {i : ℕ} (lt : i < h.size) :
      ¬ (globOff ≤ h.ptr + i ∧ h.ptr + i < globOff + fbGlobSize) := fun inside =>
    built.move.not_mine mem (built.move.inv.owns (List.mem_append_left _ mem) lt)
      (call.mine _ inside.1 inside.2)
  have array {x : ℕ} (low : arr.ptr ≤ x) (high : x < arr.ptr + 4 * (bs.length + 1)) :
      putGlob ctx.memory globOff paths.length flags arr.ptr x = ctx.memory x := by
    have out := apart (h := arr) (by simp) (i := x - arr.ptr) (by omega)
    rw [Nat.add_sub_cancel' low] at out
    exact putGlob_of_not_mem out
  have blocks : BlocksAt (putGlob ctx.memory globOff paths.length flags arr.ptr) arr.ptr bs paths :=
    built.blocks.congr (fun x low high => array low (by omega)) fun b mem i lt =>
      putGlob_of_not_mem (apart (by simp [mem]) lt)
  have stays : HeapStays s ⟨{ ctx with memory := putGlob ctx.memory globOff paths.length flags arr.ptr },
      (bs.reverse ++ [arr]) ++ s.held⟩ := by
    refine built.move.toHeapStays.store fun x changed => ?_
    refine built.move.mine_of_subset (fun _ => List.mem_append_right _) (call.mine x ?_ ?_)
    all_goals
      by_contra out
      exact changed (putGlob_of_not_mem (by omega))
  refine ⟨count, ?_, ?_⟩
  · dsimp only
    rw [ptr]
    refine blocks.pathsAt ?_
    rw [← stop]
    exact read32_congr fun x low high => array (by omega) (by omega)
  · have order : ((bs.reverse ++ [arr]) ++ s.held).Perm ((bs ++ [arr]) ++ s.held) :=
      ((List.reverse_perm bs).append_right [arr]).append_right s.held
    obtain ⟨ctx₁, run, stays₁⟩ := globfreeLoop_frees (i := 0) (stays.inv.perm order) (by omega) fun j lt => by
      rw [Nat.zero_add]
      exact blocks.word lt
    obtain ⟨ctx₂, freed, move⟩ := stays₁.inv.free_move (h := arr) List.mem_cons_self
    have left : ([arr] ++ s.held).erase arr = s.held := List.erase_cons_head arr _
    rw [left] at move
    have low := (built.move.inv.bounds built.arr_mem).1
    have range : MemCtx.range { ctx with memory := putGlob ctx.memory globOff paths.length flags arr.ptr } globOff
        fbGlobSize = true := by
      rw [← call.range]
      unfold MemCtx.range wptrRange
      dsimp only
      rw [← built.move.size]
    refine ⟨{ ctx₂ with memory := (ctx₂.memory.write32 globOff 0).write32 (globOff + 16) 0 }, ?_, ?_⟩
    · unfold yosGlobfree
      dsimp only
      dsimp only at freed
      rw [range, if_neg (show ¬ (!true) = true from nofun), count, ptr, if_pos (by omega)]
      rw [length] at run
      rw [run, Option.bind_some, freed]
      rfl
    · have outside (x : ℕ) : ctx₂.Outside x ↔ s.ctx.Outside x :=
        (move.outside_iff x).trans ((stays₁.outside_iff x).trans (stays.outside_iff x))
      refine move.inv.store fun x changed => (call.mine x ?_ ?_).imp (outside x).mpr id
      all_goals
        by_contra out
        unfold fbGlobSize at out
        exact changed ((write32_apply_of_disjoint (by omega)).trans (write32_apply_of_disjoint (by omega)))

/-- The array for the paths. -/
theorem Allocated.globBuilt {size : ℕ} (done : Allocated s size ctx arr) : GlobBuilt s ctx arr [] [] :=
  ⟨done.move, trivial⟩

theorem HostGlob.rc_of_paths (some : host.paths ≠ []) : host.rc = .ok := by
  unfold paths at some
  by_contra fails
  exact some (if_neg fails)

/-- `yos_glob` past its tests, when its numbers fit in 32 bits. -/
theorem GlobCall.yosGlob_eq (call : GlobCall s patOff globOff) (fits : Fits (4 * (host.paths.length + 1))) :
    yosGlob s.ctx patOff flags globOff host =
      if (yosMalloc s.ctx (4 * (host.paths.length + 1))).2 = 0 then
        ((yosMalloc s.ctx (4 * (host.paths.length + 1))).1, ⟨fbGlobNospace, none⟩)
      else
        match globLoop (yosMalloc s.ctx (4 * (host.paths.length + 1))).2 0 host.paths
            (yosMalloc s.ctx (4 * (host.paths.length + 1))).1 with
        | (ctx, false) => (ctx, ⟨fbGlobNospace, none⟩)
        | (ctx, true) =>
          let arr := (yosMalloc s.ctx (4 * (host.paths.length + 1))).2
          let memory := ctx.memory.write32 (u32 (arr + host.paths.length * 4)) 0
          ({ ctx with memory := putGlob memory globOff host.paths.length flags arr }, ⟨globRcH2g host.rc, none⟩) := by
  unfold Fits at fits
  have count : u32 host.paths.length = host.paths.length := u32_of_lt (by omega)
  have next : u32 (host.paths.length + 1) = host.paths.length + 1 := u32_of_lt (by omega)
  have bytes : u32 ((host.paths.length + 1) * 4) = 4 * (host.paths.length + 1) := by
    rw [u32_of_lt (by omega), Nat.mul_comm]
  unfold yosGlob
  rw [if_neg call.pattern, call.range, if_neg (show ¬ (!true) = true from nofun)]
  dsimp only
  rw [count, next, bytes, List.take_length]

end Call

/-- `yos_glob` is all or nothing exactly when `yos_malloc` serves each of its requests or not even the first. -/
theorem glob_met_iff {s : GuestHeap} {patOff globOff : ℕ} (call : GlobCall s patOff globOff) (flags : ℕ)
    (host : HostGlob) (fits : ∀ size ∈ globRequests host.paths, Fits size) :
    GlobMet s patOff flags globOff host ↔
      servedCount s.ctx (globRequests host.paths) = (globRequests host.paths).length ∨
        servedCount s.ctx (globRequests host.paths) = 0 := by
  obtain ⟨fit, texts⟩ := List.forall_mem_cons.mp fits
  have length : (globRequests host.paths).length = host.paths.length + 1 := by
    unfold globRequests
    rw [List.length_cons, List.length_map]
  unfold GlobMet
  rw [call.yosGlob_eq fit]
  rcases call.heap.malloc_cases fit with ⟨ctx, eq, move⟩ | ⟨ctx₁, arr, done⟩
  · rw [eq, if_pos rfl]
    refine iff_of_true (Or.inr ⟨rfl, move.inv, fun x low high => ?_⟩) (Or.inr (servedCount_of_zero (by rw [eq])))
    exact move.frame x (call.mine x low high) (move.mine_of_subset (fun _ => id) (call.mine x low high))
  · have count := servedCount_of_allocated (host.paths.map fun path => path.1.length + 1) done
    have room : 4 * (host.paths.length + 1) ≤ arr.size := Nat.le_of_eq done.asked.symm
    rw [done.eq, if_neg done.ptr_ne, length]
    change _ ↔ servedCount s.ctx (_ :: _) = _ ∨ servedCount s.ctx (_ :: _) = 0
    rw [count]
    rcases globLoop_ends host.paths done.globBuilt (by rw [List.length_nil]; omega) fun path mem =>
        texts _ (List.mem_map_of_mem mem) with ⟨all, ctx₂, bs, run, built⟩ | ⟨few, ctx₂, e, run, some, inv⟩
    · rw [List.length_nil] at run
      rw [List.nil_append] at built
      have blocks := built.blocks.length
      have small := (built.move.inv.bounds built.arr_mem).2
      have cell : u32 (arr.ptr + host.paths.length * 4) = arr.ptr + 4 * bs.length := by
        rw [u32_of_lt (by omega), blocks, Nat.mul_comm]
      rw [run]
      dsimp only
      rw [cell]
      refine iff_of_true (Or.inl ⟨rfl, ?_⟩) (Or.inl (by omega))
      exact (built.stop (by omega)).delivered call (by omega) (read32_write32_self (by omega))
    · rw [List.length_nil] at run
      rw [run]
      refine iff_of_false ?_ (by omega)
      rintro (⟨code, -⟩ | ⟨-, inv', -⟩)
      · rw [HostGlob.rc_of_paths fun none => by rw [none] at few; cases few] at code
        dsimp only [fbGlobNospace, globRcH2g] at code
        cases code
      · exact some (inv.held_unique inv')

end Yos
