import Yos.Io.GetDelim
import Yos.Lib.System
import Yos.Libc.Env

/-!
# Lines that are lent to the guest (`impl/libc/freebsd_userland.c`)

`fgetln` reads a line into a heap block and returns the block, without a NUL; the caller may use the line
until the next operation on the stream.  The process has one such block for all its streams: a call that
reads a line frees the block of the call before, whatever stream that was for.  So the lines stay as they
are in runs where each line is read while no other stream has one that may still be used (`lines_kept`).
-/

namespace Yos

open Word Bytes Span

/-! ## The code -/

/-- The memory, and `ctx->fgetln_stash`. -/
structure LnCtx where
  mem : MemCtx
  bufOff : ℕ
  bufCap : ℕ

/-- The store to `*lenp`. -/
def putLen (ctx : MemCtx) (lenpOff n : ℕ) : MemCtx :=
  if lenpOff ≠ 0 ∧ u32 (lenpOff + 4) ≤ ctx.memorySize then { ctx with memory := ctx.memory.write32 lenpOff n }
  else ctx

/-- `m3_yos_fgetln` of the stream that the handle stands for, if it does for one: the rest of the stream and
the result.  `none` if the walk of `yos_free` goes round for ever. -/
def fgetln (ctx : LnCtx) (f : Option (List UInt8)) (lenpOff : ℕ) : Option (LnCtx × Option (List UInt8) × ℕ) :=
  match f with
  | none => some ({ ctx with mem := putLen ctx.mem lenpOff 0 }, f, 0)
  | some content =>
    let line := nextRecord 10 content
    if line = [] then some ({ ctx with mem := putLen ctx.mem lenpOff 0 }, f, 0)
    else
      match (if ctx.bufOff ≠ 0 then freeCall ctx.mem ctx.bufOff else some ctx.mem) with
      | none => none
      | some mem =>
        let n := u32 line.length
        let rest := content.drop line.length
        let (mem, off) := yosMalloc mem n
        if off = 0 then some (⟨putLen mem lenpOff 0, 0, ctx.bufCap⟩, some rest, 0)
        else
          let mem := { mem with memory := writeBytes mem.memory off line }
          some (⟨putLen mem lenpOff n, off, n⟩, some rest, off)

/-! ## Runs -/

/-- The process, what is left to read of each stream, and for each stream the line that the guest may use, with
its place. -/
structure LnState (φ : Type) where
  ctx : LnCtx
  rest : φ → Option (List UInt8)
  lines : φ → Option (ℕ × List UInt8)

/-- `fgetln`, and any other operation on a stream. -/
inductive LnCall (φ : Type) where
  | fgetln (f : φ) (lenpOff : ℕ)
  | other (f : φ) (rest : Option (List UInt8))

section System

variable {φ : Type} [DecidableEq φ]

/-- What the guest may use after `fgetln`: the next line, if the call returned one. -/
def lentLine (f : Option (List UInt8)) (p : ℕ) : Option (ℕ × List UInt8) :=
  if p = 0 then none else f.map fun content => (p, nextRecord 10 content)

/-- The steps of a guest with the heap `g`, which hands in cells of its own. -/
inductive LnStep (g : GuestHeap) : LnState φ → LnCall φ → LnState φ → Prop where
  | fgetln {s : LnState φ} {f : φ} {lenpOff : ℕ} {ctx : LnCtx} {rest : Option (List UInt8)} {p : ℕ}
      (cell : ∀ x, lenpOff ≤ x → x < lenpOff + 4 → g.Mine x)
      (returns : Yos.fgetln s.ctx (s.rest f) lenpOff = some (ctx, rest, p)) :
      LnStep g s (.fgetln f lenpOff)
        ⟨ctx, Function.update s.rest f rest, Function.update s.lines f (lentLine (s.rest f) p)⟩
  | other (s : LnState φ) (f : φ) (rest : Option (List UInt8)) :
      LnStep g s (.other f rest)
        { s with rest := Function.update s.rest f rest, lines := Function.update s.lines f none }

/-- The runs of a guest with the heap `g`, in which no line was read before. -/
def lnSystem (φ : Type) [DecidableEq φ] (g : GuestHeap) : System (LnState φ) (LnCall φ) where
  init s := s.ctx = ⟨g.ctx, 0, 0⟩ ∧ ∀ f, s.lines f = none
  step := LnStep g

/-- The lines that the guest may use are where they were returned. -/
def LinesKept (s : LnState φ) : Prop :=
  ∀ f p l, s.lines f = some (p, l) → ∀ i (lt : i < l.length), s.ctx.mem.memory (p + i) = l[i]

/-- A call that reads a line reads one that a request can be made for, and no other stream has a line that the
guest may use. -/
def LnOk (s : LnState φ) : LnCall φ → Prop
  | .fgetln f _ => ∀ content, s.rest f = some content → nextRecord 10 content ≠ [] →
    Fits (nextRecord 10 content).length ∧ ∀ f', f' ≠ f → s.lines f' = none
  | .other _ _ => True

end System

/-! ## The store to the cell -/

section Len

variable {g : GuestHeap} {ctx : MemCtx} {held : List HeldPtr} {lenpOff n : ℕ}

theorem putLen_of_not_mem {x : ℕ} (out : ¬ (lenpOff ≤ x ∧ x < lenpOff + 4)) :
    (putLen ctx lenpOff n).memory x = ctx.memory x := by
  unfold putLen
  split_ifs
  · exact write32_apply_of_disjoint (by omega)
  · rfl

/-- The store to the guest's cell. -/
theorem HeapStays.putLen (stays : HeapStays g ⟨ctx, held⟩) (more : ∀ h ∈ g.held, h ∈ held)
    (cell : ∀ x, lenpOff ≤ x → x < lenpOff + 4 → g.Mine x) (n : ℕ) :
    HeapStays g ⟨Yos.putLen ctx lenpOff n, held⟩ := by
  unfold Yos.putLen
  split_ifs
  · refine stays.store fun x changed => stays.mine_of_subset more ?_
    by_contra other
    refine changed (write32_apply_of_disjoint ?_)
    by_contra inside
    exact other (cell x (by omega) (by omega))
  · exact stays

end Len

/-! ## One block for all streams -/

section Stash

variable {φ : Type} {g : GuestHeap} {s : LnState φ}

/-- The process holds no line, or one in the block `b`, which is the only one that may be used. -/
inductive Stash (g : GuestHeap) (s : LnState φ) : Prop where
  | empty (off : s.ctx.bufOff = 0) (heap : HeapStays g ⟨s.ctx.mem, g.held⟩) (noLine : ∀ f, s.lines f = none)
  | line {b : HeldPtr} (off : s.ctx.bufOff = b.ptr) (heap : HeapStays g ⟨s.ctx.mem, b :: g.held⟩)
      (lines : ∀ f p l, s.lines f = some (p, l) → p = b.ptr ∧ l.length ≤ b.size ∧
        ∀ i (lt : i < l.length), s.ctx.mem.memory (p + i) = l[i])

theorem Stash.linesKept (stash : Stash g s) : LinesKept s := by
  intro f p l lent
  cases stash with
  | empty _ _ noLine =>
    rw [noLine f] at lent
    cases lent
  | line _ _ lines => exact (lines f p l lent).2.2

/-- The streams move on, and a stream loses its line. -/
theorem Stash.forget [DecidableEq φ] (stash : Stash g s) (f : φ) (rest : φ → Option (List UInt8)) :
    Stash g ⟨s.ctx, rest, Function.update s.lines f none⟩ := by
  cases stash with
  | empty off heap noLine =>
    refine .empty off heap fun f' => ?_
    by_cases same : f' = f
    · rw [same]
      exact Function.update_self _ _ _
    · exact (Function.update_of_ne same _ _).trans (noLine f')
  | line off heap lines =>
    refine .line off heap fun f' p l lent => lines f' p l ?_
    dsimp only at lent
    by_cases same : f' = f
    · rw [same, Function.update_self] at lent
      cases lent
    · rwa [Function.update_of_ne same] at lent

/-- A store to a cell of the guest. -/
theorem Stash.putLen (stash : Stash g s) {lenpOff : ℕ} (cell : ∀ x, lenpOff ≤ x → x < lenpOff + 4 → g.Mine x)
    (n : ℕ) : Stash g { s with ctx := { s.ctx with mem := Yos.putLen s.ctx.mem lenpOff n } } := by
  cases stash with
  | empty off heap noLine => exact .empty off (heap.putLen (fun _ => id) cell n) noLine
  | @line b off heap lines =>
    refine .line off (heap.putLen (fun _ => List.mem_cons_of_mem b) cell n) fun f p l lent => ?_
    obtain ⟨at_b, room, text⟩ := lines f p l lent
    refine ⟨at_b, room, fun i lt => (putLen_of_not_mem fun inside => ?_).trans (text i lt)⟩
    have owns := heap.inv.owns (h := b) List.mem_cons_self (Nat.lt_of_lt_of_le lt room)
    rw [at_b] at inside
    exact heap.not_mine (e := [b]) (List.mem_singleton_self b) owns (cell _ inside.1 inside.2)

/-- The block of the call before is given back. -/
theorem Stash.freed (stash : Stash g s) :
    ∃ mem, (if s.ctx.bufOff ≠ 0 then freeCall s.ctx.mem s.ctx.bufOff else some s.ctx.mem) = some mem ∧
      HeapStays g ⟨mem, g.held⟩ := by
  cases stash with
  | empty off heap _ =>
    rw [if_neg (not_not.mpr off)]
    exact ⟨_, rfl, heap⟩
  | @line b off heap _ =>
    have low := (heap.inv.bounds (h := b) List.mem_cons_self).1
    obtain ⟨mem, eq, move⟩ := heap.inv.free_move (h := b) List.mem_cons_self
    dsimp only at eq move
    rw [List.erase_cons_head] at move
    rw [off, if_pos (by omega)]
    exact ⟨mem, eq, heap.trans move.toHeapStays⟩

end Stash

section Run

variable {φ : Type} [DecidableEq φ] {g : GuestHeap} {s s' : LnState φ} {f : φ} {lenpOff : ℕ}

/-- A call that reads no line. -/
theorem fgetln_of_none {ctx : LnCtx} {f : Option (List UInt8)}
    (none : ∀ content, f = some content → nextRecord 10 content = []) :
    fgetln ctx f lenpOff = some ({ ctx with mem := putLen ctx.mem lenpOff 0 }, f, 0) := by
  unfold fgetln
  cases f with
  | none => rfl
  | some content => exact if_pos (none content rfl)

/-- A call that reads a line while no other stream has one. -/
theorem Stash.lend (stash : Stash g s) {content : List UInt8} (given : s.rest f = some content)
    (some : nextRecord 10 content ≠ []) (fits : Fits (nextRecord 10 content).length)
    (alone : ∀ f', f' ≠ f → s.lines f' = none) (cell : ∀ x, lenpOff ≤ x → x < lenpOff + 4 → g.Mine x)
    {ctx : LnCtx} {rest : Option (List UInt8)} {p : ℕ}
    (returns : fgetln s.ctx (s.rest f) lenpOff = .some (ctx, rest, p)) :
    Stash g ⟨ctx, Function.update s.rest f rest, Function.update s.lines f (lentLine (s.rest f) p)⟩ ∧
      (p ≠ 0 → lenpOff ≠ 0 → u32 (lenpOff + 4) ≤ s.ctx.mem.memorySize →
        ctx.mem.memory.read32 lenpOff = (nextRecord 10 content).length) := by
  have word : u32 (nextRecord 10 content).length = (nextRecord 10 content).length := by
    unfold Fits at fits
    exact u32_of_lt (by omega)
  have size : s.ctx.mem.memorySize = g.ctx.memorySize := by
    cases stash with
    | empty _ heap _ => exact heap.size
    | line _ heap _ => exact heap.size
  obtain ⟨mem, freed, heap⟩ := stash.freed
  rw [given] at returns ⊢
  unfold fgetln at returns
  simp only [if_neg some, freed, word] at returns
  rcases heap.inv.malloc_cases fits with ⟨mem', eq, move⟩ | ⟨mem', new, done⟩
  · rw [eq] at returns
    cases returns
    refine ⟨?_, fun ok => absurd rfl ok⟩
    have none : Stash g ⟨⟨mem', 0, s.ctx.bufCap⟩,
        Function.update s.rest f (.some (content.drop (nextRecord 10 content).length)),
        Function.update s.lines f none⟩ := by
      refine .empty rfl (heap.trans move.toHeapStays) fun f' => ?_
      by_cases same : f' = f
      · rw [same]
        exact Function.update_self _ _ _
      · exact (Function.update_of_ne same _ _).trans (alone f' same)
    exact none.putLen cell 0
  · rw [done.eq] at returns
    dsimp only at returns
    rw [if_neg done.ptr_ne] at returns
    cases returns
    have owns {i : ℕ} (lt : i < (nextRecord 10 content).length) : new.Owns (new.ptr + i) :=
      done.move.inv.owns (h := new) List.mem_cons_self (by rwa [done.asked])
    have written : HeapStays g ⟨{ mem' with memory := writeBytes mem'.memory new.ptr (nextRecord 10 content) },
        new :: g.held⟩ := by
      refine (heap.trans done.move.toHeapStays).store fun x changed => Or.inr ⟨new, List.mem_cons_self, ?_⟩
      by_contra out
      refine changed (writeBytes_of_not_mem fun inside => out ?_)
      have own := owns (i := x - new.ptr) (by omega)
      rwa [Nat.add_sub_cancel' inside.1] at own
    have lent : lentLine (.some content) new.ptr = .some (new.ptr, nextRecord 10 content) := if_neg done.ptr_ne
    have line : Stash g ⟨⟨{ mem' with memory := writeBytes mem'.memory new.ptr (nextRecord 10 content) }, new.ptr,
        (nextRecord 10 content).length⟩, Function.update s.rest f (.some (content.drop (nextRecord 10 content).length)),
        Function.update s.lines f (lentLine (.some content) new.ptr)⟩ := by
      refine .line rfl written fun f' p l lent' => ?_
      dsimp only at lent'
      by_cases same : f' = f
      · rw [same, Function.update_self, lent] at lent'
        cases lent'
        exact ⟨rfl, Nat.le_of_eq done.asked.symm, fun i lt => writeBytes_apply lt⟩
      · rw [Function.update_of_ne same, alone f' same] at lent'
        cases lent'
    refine ⟨line.putLen cell _, fun _ ne range => ?_⟩
    have fits' : u32 (lenpOff + 4) ≤ mem'.memorySize := by
      have same := written.size
      dsimp only at same
      rwa [same, ← size]
    unfold Fits at fits
    unfold Yos.putLen
    dsimp only
    rw [if_pos ⟨ne, fits'⟩]
    exact read32_write32_self (by omega)

theorem Stash.step (stash : Stash g s) {call : LnCall φ} (allowed : LnOk s call) (step : LnStep g s call s') :
    Stash g s' := by
  cases step with
  | @fgetln f lenpOff ctx rest p cell returns =>
    by_cases line : ∀ content, s.rest f = some content → nextRecord 10 content = []
    · rw [fgetln_of_none line] at returns
      cases returns
      exact (stash.putLen cell 0).forget f _
    · push Not at line
      obtain ⟨content, given, some⟩ := line
      obtain ⟨fits, alone⟩ := allowed content given some
      exact (stash.lend given some fits alone cell returns).1
  | other f rest => exact stash.forget f _

theorem Stash.of_run (heap : AllocInv g) (run : (lnSystem φ g).ReachableIf LnOk s) : Stash g s := by
  refine run.invariant (fun s start => ?_) fun _ _ _ stash allowed step => stash.step allowed step
  exact .empty (by rw [start.1]) (by rw [start.1]; exact (HeapMove.refl heap).toHeapStays) start.2

end Run

/-- What a call that returns a line delivers. -/
def LineDelivered {φ : Type} (s s' : LnState φ) (f : φ) (lenpOff : ℕ) : Prop :=
  ∀ content p l, s.rest f = some content → s'.lines f = some (p, l) → l = nextRecord 10 content ∧
    (lenpOff ≠ 0 → u32 (lenpOff + 4) ≤ s.ctx.mem.memorySize → s'.ctx.mem.memory.read32 lenpOff = l.length)

/-- In a run where each line is one that a request can be made for and is read while no other stream has a
line, the lines stay as they are, and each call that returns a line returns the next one with its length. -/
theorem lines_kept {φ : Type} [DecidableEq φ] {g : GuestHeap} {s : LnState φ} (heap : AllocInv g)
    (run : (lnSystem φ g).ReachableIf LnOk s) : LinesKept s ∧ ∀ f lenpOff s', LnOk s (.fgetln f lenpOff) →
      LnStep g s (.fgetln f lenpOff) s' → LineDelivered s s' f lenpOff := by
  have stash := Stash.of_run heap run
  refine ⟨stash.linesKept, fun f lenpOff s' allowed step content p l given lent => ?_⟩
  cases step with
  | @fgetln _ _ ctx rest q cell returns =>
    dsimp only at lent
    rw [Function.update_self, given] at lent
    unfold lentLine at lent
    split_ifs at lent with ok
    cases lent
    refine ⟨rfl, fun ne range => ?_⟩
    have some : nextRecord 10 content ≠ [] := by
      intro none
      rw [fgetln_of_none fun content' same => by rwa [← Option.some.inj (given.symm.trans same)]] at returns
      cases returns
      exact ok rfl
    obtain ⟨fits, alone⟩ := allowed content given some
    exact (stash.lend given some fits alone cell returns).2 ok ne range

/-- The heap of a guest that holds nothing. -/
def lnHeap : GuestHeap := ⟨.blank (2 ^ 22) 0x50000, []⟩

/-- Two streams before the first call. -/
def twoStreams : LnState Bool where
  ctx := ⟨lnHeap.ctx, 0, 0⟩
  rest f := if f then some [99, 100, 10] else some [97, 98, 10, 120]
  lines _ := none

/-- The state after `fgetln`. -/
def LnState.read (s : LnState Bool) (f : Bool) (lenpOff : ℕ) : LnState Bool :=
  match fgetln s.ctx (s.rest f) lenpOff with
  | none => s
  | some (ctx, rest, p) => ⟨ctx, Function.update s.rest f rest, Function.update s.lines f (lentLine (s.rest f) p)⟩

theorem LnState.read_step (s : LnState Bool) (f : Bool) (returns : (fgetln s.ctx (s.rest f) 16).isSome) :
    LnStep lnHeap s (.fgetln f 16) (s.read f 16) := by
  obtain ⟨⟨ctx, rest, p⟩, eq⟩ := Option.isSome_iff_exists.mp returns
  unfold read
  rw [eq]
  refine .fgetln (fun x _ high => Or.inl (Or.inl ?_)) eq
  exact Nat.lt_of_lt_of_le (show x < 20 from high) (by decide +kernel)

theorem lines_kept_first : LinesKept (twoStreams.read false 16) ∧
    ∀ f lenpOff s', LnOk (twoStreams.read false 16) (.fgetln f lenpOff) →
      LnStep lnHeap (twoStreams.read false 16) (.fgetln f lenpOff) s' →
        LineDelivered (twoStreams.read false 16) s' f lenpOff := by
  have start : (lnSystem Bool lnHeap).init twoStreams := ⟨rfl, fun _ => rfl⟩
  have allowed : LnOk twoStreams (.fgetln false 16) := by
    intro content given _
    cases given
    exact ⟨by decide, fun _ _ => rfl⟩
  exact lines_kept (Or.inl ⟨freshHeap_blank, rfl⟩)
    (.step (.init start) allowed (twoStreams.read_step false (by decide +kernel)))

/-- The line of the first stream is overwritten when the second stream is read. -/
theorem line_overwritten : ¬ ∀ s, (lnSystem Bool lnHeap).Reachable s → LinesKept s := by
  intro claim
  have run : (lnSystem Bool lnHeap).Reachable ((twoStreams.read false 16).read true 16) :=
    .next (.next (.start ⟨rfl, fun _ => rfl⟩) (twoStreams.read_step false (by decide +kernel)))
      ((twoStreams.read false 16).read_step true (by decide +kernel))
  have lent : ((twoStreams.read false 16).read true 16).lines false = some (0x50008, [97, 98, 10]) := by
    decide +kernel
  have kept := claim _ run false 0x50008 [97, 98, 10] lent 0 (by decide)
  exact absurd kept (by decide +kernel)

end Yos
