import Yos.Codegen.Bridge
import Yos.Io.Fd

/-!
# `errno` in bridges

The wrapper of a bridge sets the host's `errno` to 0; after the host's call the body stores it for the
guest, if it is not 0.  The block that does so is emitted only for some spellings of the result type,
and not for the results that are translated as pointers; and `yos_xlate_dfd` stores `EBADF` before the
host has been asked.  `errno_faithful_iff` says which runs of stores and calls keep the guest's
`errno` faithful.

The run is that of one thread of the host.  What the host writes through pointers of the guest is left
out.
-/

namespace Yos.Codegen

/-! ## Running a bridge -/

/-- The guest's `errno`, and that of the thread of the host. -/
structure ErrnoState where
  cell : ℤ
  host : ℤ

/-- How the host's function ends; one that succeeds leaves `errno` as it is. -/
inductive Outcome where
  | success
  | failure (e : ℤ) (nonzero : e ≠ 0)

/-- A call of an emitted bridge: the descriptors of the guest at the time, the first argument, and how
the host's function ends. -/
structure BridgeCall where
  input : BridgeInput
  emitted : input.canEmit = true
  fds : FdCtx
  dfd : ℤ
  outcome : Outcome

/-- Some part of the expression calls `yos_xlate_dfd`. -/
def Expr.xlates : Expr → Bool
  | .var _ => false
  | .file _ => false
  | .literal => false
  | .nothing => false
  | .memory e => e.xlates
  | .call _ e => e.xlates
  | .ctxCall f e => f == "yos_xlate_dfd" || e.xlates
  | .cond c a b => c.xlates || a.xlates || b.xlates
  | .both a b => a.xlates || b.xlates

section Run

variable (remap : ℤ → ℤ)

/-- `yos_xlate_dfd` of a descriptor. -/
def xlateDfd (fds : FdCtx) (dfd : ℤ) (st : ErrnoState) : ErrnoState :=
  match (yosFdGet fds dfd).errno with
  | some e => { st with cell := remap e.number }
  | none => st

namespace BridgeCall

variable (c : BridgeCall)

/-- What the evaluation of an expression does. -/
def evalErrno (st : ErrnoState) (e : Expr) : ErrnoState :=
  if e.xlates then xlateDfd remap c.fds c.dfd st else st

/-- What a statement of a body with these arguments does. -/
def stepErrno (args : List Expr) (st : ErrnoState) : Stmt → ErrnoState
  | .decl _ e => c.evalErrno remap st e
  | .eval e => c.evalErrno remap st e
  | .hostCall _ =>
    let st := args.foldl (c.evalErrno remap) st
    match c.outcome with
    | .success => st
    | .failure e _ => { st with host := e }
  | .errnoStore => if st.host ≠ 0 then { st with cell := remap st.host } else st

/-- The wrapper and the body. -/
def run (st : ErrnoState) : ErrnoState :=
  match c.input.emitBridge with
  | .stub _ => { st with host := 0 }
  | .body b => b.stmts.foldl (c.stepErrno remap b.args) { st with host := 0 }

end BridgeCall

/-- What happens on the thread: the guest stores a number, other code of the host leaves an `errno`, or
the guest calls a bridge. -/
inductive ErrnoOp where
  | store (v : ℤ)
  | other (e : ℤ)
  | call (c : BridgeCall)

/-- The state after it. -/
def ErrnoOp.run (st : ErrnoState) : ErrnoOp → ErrnoState
  | .store v => { st with cell := v }
  | .other e => { st with host := e }
  | .call c => c.run remap st

/-- A call that succeeds leaves the guest's `errno` as it is, one that fails stores the error. -/
def ErrnoOp.Faithful (st : ErrnoState) : ErrnoOp → Prop
  | .store _ => True
  | .other _ => True
  | .call c =>
    match c.outcome with
    | .success => (c.run remap st).cell = st.cell
    | .failure e _ => (c.run remap st).cell = remap e

/-- Every call of a run is faithful. -/
def RunFaithful : ErrnoState → List ErrnoOp → Prop
  | _, [] => True
  | st, op :: ops => op.Faithful remap st ∧ RunFaithful (op.run remap st) ops

/-! ## The condition -/

/-- The result types after which `errno` is stored. -/
def BridgeInput.storesErrno (d : BridgeInput) : Bool :=
  d.ptrRet.isNone && d.hret.any fun hret => hret != "void" && BridgeInput.errnoTypes.any fun b => textIn b hret

/-- The first argument is translated as a descriptor. -/
def BridgeInput.xlatesDfd (d : BridgeInput) : Bool :=
  decide (d.name ∈ atFamily) && d.pairs.any fun p => p.2 == 0 && d.bothBuiltin p

/-- The descriptor is refused before the host's call. -/
def BridgeCall.refused (c : BridgeCall) : Bool :=
  c.input.xlatesDfd && (yosFdGet c.fds c.dfd).errno.isSome

/-- A call that succeeds has no refused descriptor, unless the guest's `errno` is `EBADF` already; one
that fails has a result type after which `errno` is stored, unless it is the error already or becomes
it with the refused descriptor. -/
def ErrnoOp.Ok (st : ErrnoState) : ErrnoOp → Prop
  | .store _ => True
  | .other _ => True
  | .call c =>
    match c.outcome with
    | .success => c.refused → st.cell = remap Errno.EBADF.number
    | .failure e _ => c.input.storesErrno ∨
      remap e = if c.refused then remap Errno.EBADF.number else st.cell

/-- Every call of a run meets the condition in its state. -/
def RunOk : ErrnoState → List ErrnoOp → Prop
  | _, [] => True
  | st, op :: ops => op.Ok remap st ∧ RunOk (op.run remap st) ops

end Run

/-! ## What one call leaves -/

section Call

variable {remap : ℤ → ℤ} {d : BridgeInput} {c : BridgeCall} {st : ErrnoState} {args : List Expr}
  {s : List Stmt}

theorem yosFdGet_errno {fds : FdCtx} {fd : ℤ} {e : Errno} (refused : (yosFdGet fds fd).errno = some e) :
    e = .EBADF := by
  unfold yosFdGet at refused
  split at refused
  · cases refused
  split at refused
  · cases refused
    rfl
  · dsimp only at refused
    split at refused
    · cases refused
      rfl
    · cases refused

theorem xlateDfd_eq {fds : FdCtx} {dfd : ℤ} : xlateDfd remap fds dfd st =
    if (yosFdGet fds dfd).errno.isSome then { st with cell := remap Errno.EBADF.number } else st := by
  unfold xlateDfd
  cases refused : (yosFdGet fds dfd).errno with
  | none => rfl
  | some e =>
    cases yosFdGet_errno refused
    rfl

/-- A statement that does nothing to `errno`. -/
def Stmt.plain : Stmt → Bool
  | .decl _ e => !e.xlates
  | .eval e => !e.xlates
  | _ => false

theorem foldl_plain (plain : ∀ a ∈ s, a.plain = true) : s.foldl (c.stepErrno remap args) st = st := by
  induction s with
  | nil => rfl
  | cons a s ih =>
    obtain ⟨here, later⟩ := List.forall_mem_cons.mp plain
    rw [List.foldl_cons]
    have same : c.stepErrno remap args st a = st := by
      cases a with
      | decl x e =>
        rw [Stmt.plain, Bool.not_eq_true'] at here
        rw [BridgeCall.stepErrno, BridgeCall.evalErrno, here]
        exact if_neg Bool.false_ne_true
      | eval e =>
        rw [Stmt.plain, Bool.not_eq_true'] at here
        rw [BridgeCall.stepErrno, BridgeCall.evalErrno, here]
        exact if_neg Bool.false_ne_true
      | hostCall result => cases here
      | errnoStore => cases here
    rw [same]
    exact ih later

theorem translation_setup_plain (p : (Arg × Arg) × ℕ) : ∀ a ∈ (d.translation p).setup, a.plain = true := by
  unfold BridgeInput.translation
  cases d.argKind p with
  | none => exact fun a mem => nomatch mem
  | some kind =>
    cases kind with
    | nothing => exact fun a mem => nomatch mem
    | scalar => exact fun a mem => nomatch mem
    | pointer => simp [ArgKind.translate, Stmt.plain, Expr.xlates]
    | narrow isConst => simp [ArgKind.translate, Stmt.plain, Expr.xlates]

theorem translation_post_plain (p : (Arg × Arg) × ℕ) : ∀ a ∈ (d.translation p).post, a.plain = true := by
  unfold BridgeInput.translation
  cases d.argKind p with
  | none => exact fun a mem => nomatch mem
  | some kind =>
    cases kind with
    | nothing => exact fun a mem => nomatch mem
    | scalar => exact fun a mem => nomatch mem
    | pointer => exact fun a mem => nomatch mem
    | narrow isConst => cases isConst <;> simp [ArgKind.translate, Stmt.plain, Expr.xlates]

theorem flatMap_plain {ps : List ((Arg × Arg) × ℕ)} {part : (Arg × Arg) × ℕ → List Stmt}
    (each : ∀ p, ∀ a ∈ part p, a.plain = true) : ∀ a ∈ ps.flatMap part, a.plain = true := by
  intro a mem
  obtain ⟨p, -, mem⟩ := List.mem_flatMap.mp mem
  exact each p a mem

theorem foldr_typeName_plain (t : WasmType) (e : Expr) (plain : e.xlates = false) :
    (Stmt.eval (t.typeName.foldr (fun t e => .both (.file t) e) e)).plain = true := by
  cases t <;> simp [WasmType.typeName, Stmt.plain, Expr.xlates, plain]

/-- The argument that is translated as a descriptor. -/
theorem translation_arg_xlates (p : (Arg × Arg) × ℕ) (translated : (d.argKind p).isSome) :
    (d.translation p).arg.xlates = decide (d.name ∈ atFamily ∧ p.2 = 0 ∧ d.bothBuiltin p) := by
  obtain ⟨kind, kinds⟩ := Option.isSome_iff_exists.mp translated
  have base : (kind.translate (usedName p.1.1.name p.2)).arg.xlates = false := by
    cases kind <;> rfl
  rw [BridgeInput.translation, kinds]
  dsimp only
  generalize (kind.translate (usedName p.1.1.name p.2)).arg = e at base ⊢
  unfold BridgeInput.wrapArg
  dsimp only
  by_cases family : d.name ∈ atFamily ∧ p.2 = 0 ∧ d.bothBuiltin p
  · rw [decide_eq_true family]
    simp only [if_pos family]
    split <;> split <;> rfl
  · rw [decide_eq_false family]
    simp only [if_neg family]
    split <;> split <;> exact base

theorem any_xlates (kinds : ∀ p ∈ d.pairs, (d.argKind p).isSome) :
    (d.pairs.map fun p => (d.translation p).arg).any Expr.xlates = d.xlatesDfd := by
  rw [Bool.eq_iff_iff, List.any_map, List.any_eq_true, BridgeInput.xlatesDfd, Bool.and_eq_true,
    decide_eq_true_eq, List.any_eq_true]
  constructor
  · rintro ⟨p, mem, xlates⟩
    rw [Function.comp_apply, translation_arg_xlates p (kinds p mem), decide_eq_true_eq] at xlates
    exact ⟨xlates.1, p, mem, Bool.and_eq_true_iff.mpr ⟨beq_iff_eq.mpr xlates.2.1, xlates.2.2⟩⟩
  · rintro ⟨family, p, mem, first⟩
    obtain ⟨first, builtin⟩ := Bool.and_eq_true_iff.mp first
    refine ⟨p, mem, ?_⟩
    rw [Function.comp_apply, translation_arg_xlates p (kinds p mem), decide_eq_true_eq]
    exact ⟨family, beq_iff_eq.mp first, builtin⟩

/-- The evaluation of the arguments. -/
theorem foldl_args (es : List Expr) : es.foldl (c.evalErrno remap) st =
    if es.any Expr.xlates then xlateDfd remap c.fds c.dfd st else st := by
  have again (st : ErrnoState) : xlateDfd remap c.fds c.dfd (xlateDfd remap c.fds c.dfd st) =
      xlateDfd remap c.fds c.dfd st := by
    rw [xlateDfd_eq, xlateDfd_eq]
    split <;> rfl
  induction es generalizing st with
  | nil => rfl
  | cons e es ih =>
    rw [List.foldl_cons, ih, List.any_cons, BridgeCall.evalErrno]
    cases e.xlates with
    | false => rfl
    | true =>
      simp only [if_true, Bool.true_or, again]
      exact ite_self _

/-- What the block that stores `errno` does, if it is emitted. -/
def ErrnoState.afterTail (remap : ℤ → ℤ) (st : ErrnoState) (stores : Bool) : ErrnoState :=
  if stores ∧ st.host ≠ 0 then { st with cell := remap st.host } else st

/-- What follows the host's call. -/
theorem foldl_tail {wret : WasmType} {hret : String} (hostRet : d.hret = some hret) :
    (if hret = "void" then [.eval (wret.typeName.foldr (fun t e => .both (.file t) e) .literal)]
      else d.tail wret hret).foldl (c.stepErrno remap args) st =
      st.afterTail remap d.storesErrno := by
  unfold ErrnoState.afterTail
  have never (no : d.storesErrno = false) (s : List Stmt) (plain : ∀ a ∈ s, a.plain = true) :
      s.foldl (c.stepErrno remap args) st = 
        if d.storesErrno ∧ st.host ≠ 0 then { st with cell := remap st.host } else st := by
    rw [foldl_plain plain, no, if_neg fun both => Bool.false_ne_true both.1]
  by_cases void : hret = "void"
  · rw [if_pos void]
    apply never
    · rw [BridgeInput.storesErrno, hostRet, void]
      exact Bool.and_false _
    · exact List.forall_mem_singleton.mpr (foldr_typeName_plain wret _ rfl)
  · rw [if_neg void, BridgeInput.tail]
    cases ptr : d.ptrRet with
    | some r =>
      apply never
      · rw [BridgeInput.storesErrno, ptr]
        rfl
      · obtain ⟨kind, i⟩ := r
        cases kind <;> simp [Stmt.plain, Expr.xlates]
    | none =>
      have stores : d.storesErrno = BridgeInput.errnoTypes.any fun b => textIn b hret := by
        rw [BridgeInput.storesErrno, ptr, hostRet]
        simp [void]
      have last : (Stmt.eval (wret.typeName.foldr (fun t e => .both (.file t) e) (.var "_r"))).plain :=
        foldr_typeName_plain wret _ rfl
      dsimp only
      cases emitted : BridgeInput.errnoTypes.any fun b => textIn b hret with
      | false =>
        apply never
        · rw [stores, emitted]
        · exact List.forall_mem_singleton.mpr last
      | true =>
        rw [stores, emitted, if_pos rfl, List.foldl_append,
          foldl_plain (List.forall_mem_singleton.mpr last)]
        by_cases host : st.host = 0
        · rw [if_neg fun both => both.2 host]
          exact if_neg fun stored => stored host
        · rw [if_pos ⟨rfl, host⟩]
          exact if_pos host

/-- The guest's `errno` when the host's function is called. -/
def BridgeCall.entry (remap : ℤ → ℤ) (c : BridgeCall) (st : ErrnoState) : ℤ :=
  if c.refused then remap Errno.EBADF.number else st.cell

theorem run_eq : c.run remap st = match c.outcome with
    | .success => ⟨c.entry remap st, 0⟩
    | .failure e _ => ⟨if c.input.storesErrno then remap e else c.entry remap st, e⟩ := by
  obtain ⟨wret, hret, emits, emitted⟩ := emits_of_canEmit c.emitted
  rw [BridgeCall.run, emitted]
  dsimp only
  rw [bodyStmts_eq, List.foldl_cons, List.foldl_append,
    foldl_plain (flatMap_plain translation_setup_plain), List.foldl_cons, List.foldl_append,
    foldl_plain (flatMap_plain translation_post_plain), foldl_tail emits.hostRet]
  have arguments : (c.input.pairs.map fun p => (c.input.translation p).arg).foldl
      (c.evalErrno remap) ⟨st.cell, 0⟩ = ⟨c.entry remap st, 0⟩ := by
    rw [foldl_args, any_xlates emits.kinds, xlateDfd_eq, BridgeCall.entry, BridgeCall.refused]
    cases c.input.xlatesDfd <;> cases (yosFdGet c.fds c.dfd).errno.isSome <;> rfl
  have start : c.stepErrno remap (c.input.pairs.map fun p => (c.input.translation p).arg) ⟨st.cell, 0⟩
      (.eval (.var "ctx")) = ⟨st.cell, 0⟩ := rfl
  rw [start, BridgeCall.stepErrno, arguments]
  cases c.outcome with
  | success => exact if_neg fun both => both.2 rfl
  | failure e nonzero =>
    dsimp only [ErrnoState.afterTail]
    by_cases stores : c.input.storesErrno = true
    · rw [if_pos ⟨stores, nonzero⟩, if_pos stores]
    · rw [if_neg fun both => stores both.1, if_neg stores]

end Call

/-! ## Runs -/

section Runs

variable {remap : ℤ → ℤ} {st : ErrnoState}

theorem op_faithful_iff (op : ErrnoOp) : op.Faithful remap st ↔ op.Ok remap st := by
  cases op with
  | store v => exact Iff.rfl
  | other e => exact Iff.rfl
  | call c =>
    dsimp only [ErrnoOp.Faithful, ErrnoOp.Ok]
    rw [run_eq]
    cases c.outcome with
    | success =>
      dsimp only [BridgeCall.entry]
      by_cases refused : c.refused = true
      · rw [if_pos refused]
        exact ⟨fun same _ => same.symm, fun ok => (ok refused).symm⟩
      · rw [if_neg refused]
        exact ⟨fun _ no => absurd no refused, fun _ => rfl⟩
    | failure e nonzero =>
      dsimp only [BridgeCall.entry]
      by_cases stores : c.input.storesErrno = true
      · rw [if_pos stores]
        exact ⟨fun _ => .inl stores, fun _ => rfl⟩
      · rw [if_neg stores]
        exact ⟨fun same => .inr same.symm, fun ok => (ok.resolve_left stores).symm⟩

/-- The calls that are faithful, in a run. -/
theorem errno_faithful_iff (remap : ℤ → ℤ) (st : ErrnoState) (ops : List ErrnoOp) :
    RunFaithful remap st ops ↔ RunOk remap st ops := by
  induction ops generalizing st with
  | nil => exact Iff.rfl
  | cons op ops ih => exact and_congr (op_faithful_iff op) (ih _)

end Runs

/-- `char *strdup(const char *s)`. -/
def strdupInput : BridgeInput where
  name := "strdup"
  guest := ⟨[⟨"s", 3⟩], 2, false⟩
  host := ⟨[⟨"s", 3⟩], 2, false⟩
  gtypes := [(1, .builtin .char false 1), (2, .pointer 1 false), (3, .pointer 1 true)]
  htypes := [(1, .builtin .char false 1), (2, .pointer 1 false), (3, .pointer 1 true)]
  publicHeader := true

/-- `int mkdirat(int fd, const char *path, unsigned short mode)`. -/
def mkdiratInput : BridgeInput where
  name := "mkdirat"
  guest := ⟨[⟨"fd", 1⟩, ⟨"path", 4⟩, ⟨"mode", 2⟩], 1, false⟩
  host := ⟨[⟨"fd", 1⟩, ⟨"path", 4⟩, ⟨"mode", 2⟩], 1, false⟩
  gtypes := [(1, .builtin .int false 4), (2, .builtin .ushort false 2), (3, .builtin .char false 1),
    (4, .pointer 3 true)]
  htypes := [(1, .builtin .int false 4), (2, .builtin .ushort false 2), (3, .builtin .char false 1),
    (4, .pointer 3 true)]
  publicHeader := true

/-- No descriptor of the guest is open. -/
def noFds : FdCtx := ⟨fun _ => 0, 0, fun _ => -1, none⟩

/-- `strdup` fails with `ENOMEM`. -/
def strdupFails : BridgeCall := ⟨strdupInput, by decide, noFds, 0, .failure 12 (by decide)⟩

/-- `mkdirat` with a descriptor that is not open and an absolute path succeeds. -/
def mkdiratSucceeds : BridgeCall := ⟨mkdiratInput, by decide, noFds, 7, .success⟩

/-- The error of a function that returns a pointer is lost, and a call that succeeds stores `EBADF`. -/
theorem errno_lost_and_invented : ¬ RunFaithful id ⟨0, 0⟩ [.call strdupFails] ∧
    ¬ RunFaithful id ⟨0, 0⟩ [.store 0, .call mkdiratSucceeds] := by
  constructor
  · rintro ⟨faithful, -⟩
    rcases (op_faithful_iff _).mp faithful with stores | same
    · exact absurd stores (by decide)
    · exact absurd same (by decide)
  · rintro ⟨-, faithful, -⟩
    exact absurd ((op_faithful_iff _).mp faithful (by decide)) (by decide)

end Yos.Codegen
