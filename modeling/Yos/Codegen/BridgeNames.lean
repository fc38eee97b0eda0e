import Yos.Codegen.Bridge

/-!
# Names in bridges

`_bridge_arg_decl` renames parameters with reserved names, `_arg_translation_full` does not.  So a
bridge for a function with a parameter `ctx` declares `a0` and passes the context on.  Other names can
collide as well: `x_h` is also the local of a pointer parameter `x`.  `bridge_sound_iff` says for
which functions the emitted body is closed and passes each argument in its place.

In a closed body each identifier has one meaning: it is declared once before its uses, or it is one
of file scope and not declared at all.  The sources of an expression are the parameters it is computed
from.
-/

namespace Yos.Codegen

/-! ## Closed bodies -/

/-- The variables of an expression. -/
def Expr.vars : Expr → List String
  | .var x => [x]
  | .file _ => []
  | .literal => []
  | .nothing => []
  | .memory e => "ctx" :: e.vars
  | .call _ e => e.vars
  | .ctxCall _ e => "ctx" :: e.vars
  | .cond c a b => c.vars ++ a.vars ++ b.vars
  | .both a b => a.vars ++ b.vars

/-- Its identifiers of file scope. -/
def Expr.files : Expr → List String
  | .var _ => []
  | .file x => [x]
  | .literal => []
  | .nothing => []
  | .memory e => e.files
  | .call f e => f :: e.files
  | .ctxCall f e => f :: e.files
  | .cond c a b => c.files ++ a.files ++ b.files
  | .both a b => a.files ++ b.files

/-- The variables a statement declares. -/
def Stmt.declared : Stmt → List String
  | .decl x _ => [x]
  | .eval _ => []
  | .hostCall result => result.toList
  | .errnoStore => []

/-- The identifiers of file scope of a statement, without those of the host's call. -/
def Stmt.files : Stmt → List String
  | .decl _ e => e.files
  | .eval e => e.files
  | .hostCall _ => []
  | .errnoStore => ["yos_remap_errno_h2g"]

/-- Every variable is declared before its uses; the scope of a variable contains its initializer. -/
def UsesDeclared (args : List Expr) : (names : List String) → List Stmt → Prop
  | _, [] => True
  | names, .decl x e :: rest => e.vars ⊆ x :: names ∧ UsesDeclared args (x :: names) rest
  | names, .eval e :: rest => e.vars ⊆ names ∧ UsesDeclared args names rest
  | names, .hostCall result :: rest =>
    (∀ a ∈ args, a.vars ⊆ result.toList ++ names) ∧ UsesDeclared args (result.toList ++ names) rest
  | names, .errnoStore :: rest => "ctx" ∈ names ∧ UsesDeclared args names rest

namespace Emitted

/-- The statements; a stub evaluates `ctx` and returns a number. -/
def stmts : Emitted → List Stmt
  | .stub _ => [.eval (.var "ctx")]
  | .body b => b.stmts

/-- The arguments of the host's call. -/
def args : Emitted → List Expr
  | .stub _ => []
  | .body b => b.args

/-- The names of the parameters. -/
def params (e : Emitted) : List String := "ctx" :: e.sig.params.map Prod.snd

/-- The variables the function declares. -/
def declared (e : Emitted) : List String := e.params ++ e.stmts.flatMap Stmt.declared

/-- The names of its types. -/
def typeNames (e : Emitted) : List String :=
  e.sig.ret.typeName ++ e.sig.params.flatMap fun p => p.1.typeName

/-- The identifiers of file scope it uses. -/
def files (e : Emitted) : List String :=
  e.typeNames ++ e.stmts.flatMap Stmt.files ++ e.args.flatMap Expr.files ++
    match e with
    | .stub _ => []
    | .body b => [b.callee]

/-- Each identifier is declared once before its uses, or has file scope. -/
structure Closed (e : Emitted) : Prop where
  once : e.declared.Nodup
  before : UsesDeclared e.args e.params e.stmts
  meant : ∀ x ∈ e.files, x ∉ e.declared

end Emitted

/-! ## Where arguments come from -/

/-- What a variable is computed from. -/
inductive Source where
  | param (i : ℕ)
  | context
  | unset
  | undeclared
deriving DecidableEq, Repr

/-- What an expression is computed from; `ctx->memory` and the context given to a helper do not
count. -/
def Expr.sources (scope : String → List Source) : Expr → List Source
  | .var x => scope x
  | .file _ => []
  | .literal => []
  | .nothing => []
  | .memory e => e.sources scope
  | .call _ e => e.sources scope
  | .ctxCall _ e => e.sources scope
  | .cond c a b => c.sources scope ++ a.sources scope ++ b.sources scope
  | .both a b => a.sources scope ++ b.sources scope

/-- The scope with another variable. -/
def bind (scope : String → List Source) (x : String) (s : List Source) : String → List Source :=
  fun y => if y = x then s else scope y

/-- The scope after a statement; in its own initializer a variable is not set. -/
def Stmt.scope (scope : String → List Source) : Stmt → (String → List Source)
  | .decl x e => bind scope x (e.sources (bind scope x [.unset]))
  | .hostCall (some x) => bind scope x [.unset]
  | _ => scope

/-- The scope of the parameters. -/
def paramScope (params : List String) (x : String) : List Source :=
  if x = "ctx" then [.context]
  else if x ∈ params then [.param (params.idxOf x)]
  else [.undeclared]

/-- The scope in which the arguments of the host's call are computed. -/
def callScope (scope : String → List Source) : List Stmt → (String → List Source)
  | [] => scope
  | .hostCall result :: _ => (Stmt.hostCall result).scope scope
  | s :: rest => callScope (s.scope scope) rest

/-- The argument in each position is computed from the parameter in this position and nothing else. -/
def Body.Positional (b : Body) : Prop :=
  ∀ i (lt : i < b.args.length),
    let s := (b.args.get ⟨i, lt⟩).sources (callScope (paramScope (b.sig.params.map Prod.snd)) b.stmts)
    s ≠ [] ∧ ∀ x ∈ s, x = .param i

/-! ## What should hold -/

/-- The emitted function is closed and passes each argument in its place, and the wrapper fetches as
many arguments as the function has parameters, in the order of the guest. -/
structure BridgeOk (d : BridgeInput) (chars : List Char) : Prop where
  fetches : (BridgeInput.m3Fetches chars).length = d.emitBridge.sig.params.length
  order : ∀ i (lt : i < d.guest.args.length),
    ((d.emitBridge.sig.params.map Prod.snd)[i]? = some (declName (d.guest.args.get ⟨i, lt⟩).name i) ∨
      (d.emitBridge.sig.params.map Prod.snd)[i]? = some (positional i))
  closed : d.emitBridge.Closed
  args : ∀ b, d.emitBridge = .body b → b.Positional

/-- A function that gets a bridge gets a sound one. -/
def BridgeInput.Sound (d : BridgeInput) : Prop :=
  ∀ ret chars, d.wasmSig = some (ret, chars) → BridgeOk d chars

/-! ## The condition on names -/

namespace BridgeInput

variable (d : BridgeInput)

/-- The names of the parameters. -/
def paramNames : List String := d.params.map Prod.snd

/-- The locals of the translation of a parameter. -/
def localNames (p : (Arg × Arg) × ℕ) : List String :=
  match d.argKind p with
  | some (.narrow _) => [usedName p.1.1.name p.2 ++ "_v", usedName p.1.1.name p.2 ++ "_h"]
  | some .pointer => [usedName p.1.1.name p.2 ++ "_h"]
  | _ => []

/-- The variables for the result. -/
def resultNames : List String :=
  if d.hret = some "void" then []
  else
    match d.ptrRet with
    | some (.newDupStr, _) => ["_r", "_n", "_off"]
    | some (.newDupWcs, _) => ["_r", "_n", "_bytes", "_off"]
    | _ => ["_r"]

/-- The helpers and types in the translation of an argument. -/
def wrapNames (p : (Arg × Arg) × ℕ) : List String :=
  match d.argKind p with
  | none => []
  | some kind =>
    (if p.2 ∈ (pathArgFns.lookup d.name).getD [] ∧ kind.isPointer then ["yos_path_resolve"] else []) ++
      (if atFlagArg.lookup d.name = some p.2 ∧ d.bothBuiltin p then ["yos_at_flags_fb_to_lx"] else []) ++
      if d.name ∈ atFamily ∧ p.2 = 0 ∧ d.bothBuiltin p then ["yos_xlate_dfd", "int32_t"] else []

/-- The helpers and types in the translation of the result. -/
def tailNames : List String :=
  match d.hret with
  | none => []
  | some hret =>
    if hret = "void" then []
    else
      match d.ptrRet with
      | some (.firstArgAlias, _) => []
      | some (.offsetIntoFirst, _) => ["uint32_t"]
      | some (.newDupStr, _) => ["yos_malloc", "free", "size_t", "strlen", "uint32_t", "memcpy"]
      | some (.newDupWcs, _) => ["yos_malloc", "free", "size_t", "wchar_t", "uint32_t", "memcpy"]
      | none => if errnoTypes.any fun b => textIn b hret then ["yos_remap_errno_h2g"] else []

/-- The names of the types in the head. -/
def headTypes : List String :=
  d.emitBridge.sig.ret.typeName ++ d.params.flatMap fun p => p.1.typeName

/-- The names under which a bridge is sound. -/
structure NamesOk : Prop where
  /-- No parameter has a reserved name, and none is `void`. -/
  unreserved : d.canEmit → ∀ p ∈ d.pairs, p.1.1.name ∉ reservedArgNames ∧ d.argKind p ≠ some .nothing
  /-- All that is declared has different names. -/
  once : (("ctx" :: d.paramNames) ++
    if d.canEmit then d.pairs.flatMap d.localNames ++ d.resultNames else []).Nodup
  /-- None of them is the name of the function or of a type or helper in its bridge. -/
  meant : ∀ x ∈ d.headTypes ++
      (if d.canEmit then d.name :: d.tailNames ++ d.pairs.flatMap d.wrapNames else []),
    x ∉ ("ctx" :: d.paramNames) ++
      if d.canEmit then d.pairs.flatMap d.localNames ++ d.resultNames else []

end BridgeInput

/-! ## Declarations and uses of the parts -/

section Parts

variable {d : BridgeInput} {p : (Arg × Arg) × ℕ} {args : List Expr} {names names' : List String}
  {s t : List Stmt}

theorem UsesDeclared.mono (uses : UsesDeclared args names s) (sub : names ⊆ names') :
    UsesDeclared args names' s := by
  induction s generalizing names names' with
  | nil => trivial
  | cons a s ih =>
    cases a with
    | decl x e =>
      have more := List.cons_subset_cons x sub
      exact ⟨List.Subset.trans uses.1 more, ih uses.2 more⟩
    | eval e => exact ⟨List.Subset.trans uses.1 sub, ih uses.2 sub⟩
    | hostCall result =>
      have more : result.toList ++ names ⊆ result.toList ++ names' :=
        List.append_subset.mpr
          ⟨List.subset_append_left _ _, List.Subset.trans sub (List.subset_append_right _ _)⟩
      exact ⟨fun a mem => List.Subset.trans (uses.1 a mem) more, ih uses.2 more⟩
    | errnoStore => exact ⟨sub uses.1, ih uses.2 sub⟩

/-- A block is closed when its parts are, with the declarations of the first in the second. -/
theorem usesDeclared_append (first : UsesDeclared args names s)
    (second : UsesDeclared args (s.flatMap Stmt.declared ++ names) t) : UsesDeclared args names (s ++ t) := by
  induction s generalizing names with
  | nil => exact second
  | cons a s ih =>
    cases a with
    | decl x e =>
      refine ⟨first.1, ih first.2 (second.mono fun y mem => ?_)⟩
      simp only [List.flatMap_cons, Stmt.declared, List.cons_append, List.nil_append, List.mem_cons,
        List.mem_append] at mem ⊢
      exact or_left_comm.1 mem
    | eval e => exact ⟨first.1, ih first.2 second⟩
    | hostCall result =>
      refine ⟨first.1, ih first.2 (second.mono fun y mem => ?_)⟩
      simp only [List.flatMap_cons, Stmt.declared, List.append_assoc, List.mem_append] at mem ⊢
      exact or_left_comm.1 mem
    | errnoStore => exact ⟨first.1, ih first.2 second⟩

theorem translation_setup_declared : (d.translation p).setup.flatMap Stmt.declared = d.localNames p := by
  unfold BridgeInput.translation BridgeInput.localNames
  cases d.argKind p with
  | none => rfl
  | some kind => cases kind <;> rfl

theorem translation_post_declared : (d.translation p).post.flatMap Stmt.declared = [] := by
  unfold BridgeInput.translation
  cases d.argKind p with
  | none => rfl
  | some kind =>
    cases kind with
    | narrow isConst => cases isConst <;> rfl
    | _ => rfl

theorem translation_setup_files : (d.translation p).setup.flatMap Stmt.files = [] := by
  unfold BridgeInput.translation
  cases d.argKind p with
  | none => rfl
  | some kind => cases kind <;> rfl

theorem translation_post_files : (d.translation p).post.flatMap Stmt.files = [] := by
  unfold BridgeInput.translation
  cases d.argKind p with
  | none => rfl
  | some kind =>
    cases kind with
    | narrow isConst => cases isConst <;> rfl
    | _ => rfl

theorem wrapArg_files (kind : ArgKind) (e : Expr) : (d.wrapArg p kind e).files =
    ((if p.2 ∈ (pathArgFns.lookup d.name).getD [] ∧ kind.isPointer then ["yos_path_resolve"] else []) ++
      (if atFlagArg.lookup d.name = some p.2 ∧ d.bothBuiltin p then ["yos_at_flags_fb_to_lx"] else []) ++
      if d.name ∈ atFamily ∧ p.2 = 0 ∧ d.bothBuiltin p then ["yos_xlate_dfd", "int32_t"] else []) ++
      e.files := by
  unfold BridgeInput.wrapArg
  dsimp only
  split <;> split <;> split <;> simp [Expr.files]

/-- What the helpers keep holds of the wrapped argument. -/
theorem wrapArg_induction {P : Expr → Prop} {kind : ArgKind} {e : Expr} (base : P e)
    (type : ∀ x e, P e → P (.both (.file x) e)) (call : ∀ f e, P e → P (.call f e))
    (ctxCall : ∀ f e, P e → P (.ctxCall f e)) : P (d.wrapArg p kind e) := by
  have family : P (if d.name ∈ atFamily ∧ p.2 = 0 ∧ d.bothBuiltin p then
      .ctxCall "yos_xlate_dfd" (.both (.file "int32_t") e) else e) := by
    split
    · exact ctxCall _ _ (type _ _ base)
    · exact base
  have flags (e : Expr) (holds : P e) : P (if atFlagArg.lookup d.name = some p.2 ∧ d.bothBuiltin p then
      .call "yos_at_flags_fb_to_lx" e else e) := by
    split
    · exact call _ _ holds
    · exact holds
  unfold BridgeInput.wrapArg
  dsimp only
  split
  · exact ctxCall _ _ (flags _ family)
  · exact flags _ family

theorem wrapArg_vars (kind : ArgKind) (e : Expr) : (d.wrapArg p kind e).vars ⊆ "ctx" :: e.vars := by
  refine wrapArg_induction (P := fun a => a.vars ⊆ "ctx" :: e.vars) (List.subset_cons_self _ _)
    (fun _ _ sub => sub) (fun _ _ sub => sub) fun _ _ sub => ?_
  exact List.cons_subset.mpr ⟨List.mem_cons_self, sub⟩

theorem wrapArg_sources (scope : String → List Source) (kind : ArgKind) (e : Expr) :
    (d.wrapArg p kind e).sources scope = e.sources scope :=
  wrapArg_induction (P := fun a => a.sources scope = e.sources scope) rfl (fun _ _ same => same)
    (fun _ _ same => same) fun _ _ same => same

theorem translation_arg_files : (d.translation p).arg.files = d.wrapNames p := by
  unfold BridgeInput.translation BridgeInput.wrapNames
  cases d.argKind p with
  | none => rfl
  | some kind =>
    dsimp only
    rw [wrapArg_files]
    cases kind <;> exact List.append_nil _

theorem tail_declared (wret : WasmType) {hret : String} (value : hret ≠ "void")
    (same : d.hret = some hret) :
    "_r" :: (d.tail wret hret).flatMap Stmt.declared = d.resultNames := by
  have notVoid : d.hret ≠ some "void" := fun void => value (Option.some.inj (same.symm.trans void))
  unfold BridgeInput.tail BridgeInput.resultNames
  rw [if_neg notVoid]
  split
  all_goals simp only [*, List.flatMap_cons, List.flatMap_nil, Stmt.declared, List.nil_append,
    List.append_nil, List.cons_append]
  split <;> rfl

theorem translation_setup_uses (known : usedName p.1.1.name p.2 ∈ names) (context : "ctx" ∈ names) :
    UsesDeclared args names (d.translation p).setup := by
  unfold BridgeInput.translation
  cases d.argKind p with
  | none => trivial
  | some kind =>
    cases kind with
    | nothing => trivial
    | scalar => trivial
    | pointer =>
      exact ⟨List.cons_subset.mpr ⟨List.mem_cons_of_mem _ context,
        List.cons_subset.mpr ⟨List.mem_cons_of_mem _ known, List.nil_subset _⟩⟩, trivial⟩
    | narrow isConst =>
      refine ⟨fun x mem => ?_, fun x mem => ?_, trivial⟩
      · simp only [Expr.vars, List.append_nil, List.cons_append, List.nil_append, List.mem_cons,
          List.not_mem_nil, or_false] at mem
        obtain rfl | rfl | rfl := mem
        · exact List.mem_cons_of_mem _ known
        · exact List.mem_cons_of_mem _ context
        · exact List.mem_cons_of_mem _ known
      · simp only [Expr.vars, List.append_nil, List.cons_append, List.nil_append, List.mem_cons,
          List.not_mem_nil, or_false] at mem
        obtain rfl | rfl := mem
        · exact List.mem_cons_of_mem _ (List.mem_cons_of_mem _ known)
        · exact List.mem_cons_of_mem _ List.mem_cons_self

theorem translation_post_uses (known : usedName p.1.1.name p.2 ∈ names) (context : "ctx" ∈ names)
    (locals : d.localNames p ⊆ names) : UsesDeclared args names (d.translation p).post := by
  unfold BridgeInput.localNames at locals
  unfold BridgeInput.translation
  cases kinds : d.argKind p with
  | none => trivial
  | some kind =>
    cases kind with
    | nothing => trivial
    | scalar => trivial
    | pointer => trivial
    | narrow isConst =>
      rw [kinds] at locals
      cases isConst with
      | true => trivial
      | false =>
        refine ⟨fun x mem => ?_, trivial⟩
        simp only [Expr.vars, List.cons_append, List.nil_append, List.mem_cons, List.not_mem_nil,
          or_false] at mem
        obtain rfl | rfl | rfl | rfl := mem
        · exact known
        · exact context
        · exact known
        · exact locals List.mem_cons_self

theorem translation_arg_vars (translated : (d.argKind p).isSome)
    (known : usedName p.1.1.name p.2 ∈ names) (context : "ctx" ∈ names)
    (locals : d.localNames p ⊆ names) : (d.translation p).arg.vars ⊆ names := by
  obtain ⟨kind, kinds⟩ := Option.isSome_iff_exists.mp translated
  unfold BridgeInput.localNames at locals
  unfold BridgeInput.translation
  rw [kinds] at locals ⊢
  refine List.Subset.trans (wrapArg_vars kind _) (List.cons_subset.mpr ⟨context, ?_⟩)
  cases kind with
  | nothing => exact List.nil_subset _
  | scalar => exact List.cons_subset.mpr ⟨known, List.nil_subset _⟩
  | pointer => exact locals
  | narrow isConst => exact (List.cons_subset.mp locals).2

/-- The parts of all arguments, one after the other. -/
theorem usesDeclared_flatMap {ps : List ((Arg × Arg) × ℕ)} {part : (Arg × Arg) × ℕ → List Stmt}
    (each : ∀ p ∈ ps, UsesDeclared args names (part p)) : UsesDeclared args names (ps.flatMap part) := by
  induction ps generalizing names with
  | nil => trivial
  | cons p ps ih =>
    obtain ⟨first, others⟩ := List.forall_mem_cons.mp each
    refine usesDeclared_append first (ih fun q mem => ?_)
    exact (others q mem).mono (List.subset_append_right _ _)

end Parts

/-! ## Functions whose bridge calls the host -/

section Emits

variable {d : BridgeInput} {wret : WasmType} {hret : String}

theorem paramNames_getElem? {p : (Arg × Arg) × ℕ} (mem : p ∈ d.pairs) :
    d.paramNames[p.2]? = some (d.paramDecl p).2 := by
  have here := (pairs_getElem? mem).1
  have lt : p.2 < d.pairs.length := (List.getElem?_eq_some_iff.mp here).1
  rw [BridgeInput.paramNames, BridgeInput.params, List.map_append, List.map_append, List.append_assoc,
    List.getElem?_append_left (by rwa [List.length_map, List.length_map]), List.getElem?_map,
    List.getElem?_map, here]
  rfl

/-- The name a parameter is declared with, when its type can be rendered. -/
theorem Emits.paramDecl (emits : Emits d wret hret) {p : (Arg × Arg) × ℕ} (mem : p ∈ d.pairs) :
    (d.paramDecl p).2 = declName p.1.1.name p.2 := by
  obtain ⟨t, type⟩ := Option.isSome_iff_exists.mp (emits.types p mem)
  rw [BridgeInput.paramDecl, type]

theorem declName_eq {name : String} {i : ℕ} (free : name ∉ reservedArgNames) :
    declName name i = usedName name i := by
  unfold declName usedName
  by_cases empty : name = ""
  · rw [if_pos (.inl empty), if_pos empty]
  · rw [if_neg (not_or.mpr ⟨empty, free⟩), if_neg empty]

theorem Emits.usedName_mem (emits : Emits d wret hret) {p : (Arg × Arg) × ℕ} (mem : p ∈ d.pairs)
    (free : p.1.1.name ∉ reservedArgNames) : usedName p.1.1.name p.2 ∈ d.paramNames := by
  have here := paramNames_getElem? mem
  rw [emits.paramDecl mem, declName_eq free] at here
  exact List.mem_of_getElem? here

/-- The variables of the body. -/
theorem Emits.declared (emits : Emits d wret hret) :
    (d.bodyStmts wret hret).flatMap Stmt.declared = d.pairs.flatMap d.localNames ++ d.resultNames := by
  have setups : (d.pairs.flatMap fun p => (d.translation p).setup).flatMap Stmt.declared =
      d.pairs.flatMap d.localNames := by
    rw [List.flatMap_assoc]
    exact List.flatMap_congr fun p _ => translation_setup_declared
  have posts : (d.pairs.flatMap fun p => (d.translation p).post).flatMap Stmt.declared = [] := by
    rw [List.flatMap_assoc]
    exact List.flatMap_eq_nil_iff.mpr fun p _ => translation_post_declared
  unfold BridgeInput.bodyStmts
  dsimp only
  by_cases void : hret = "void"
  · have none : d.resultNames = [] := by
      rw [BridgeInput.resultNames, if_pos (void ▸ emits.hostRet)]
    rw [if_pos void, none]
    simp [List.flatMap_append, Stmt.declared, setups, posts]
  · rw [if_neg void, ← tail_declared wret void emits.hostRet]
    simp [List.flatMap_append, Stmt.declared, setups, posts]

theorem mem_foldr_typeName_files {e : Expr} {x : String} (t : WasmType) :
    x ∈ (t.typeName.foldr (fun t e => Expr.both (.file t) e) e).files ↔ x ∈ t.typeName ∨ x ∈ e.files := by
  cases t <;> simp [WasmType.typeName, Expr.files]

theorem foldr_typeName_vars {e : Expr} (t : WasmType) :
    (t.typeName.foldr (fun t e => Expr.both (.file t) e) e).vars = e.vars := by
  cases t <;> rfl

/-- The helpers and types of the tail. -/
theorem mem_tail_files {x : String} (value : hret ≠ "void") (same : d.hret = some hret) :
    x ∈ (d.tail wret hret).flatMap Stmt.files ++ wret.typeName ↔
      x ∈ d.tailNames ++ wret.typeName := by
  unfold BridgeInput.tail BridgeInput.tailNames
  rw [same]
  dsimp only
  rw [if_neg value]
  split
  · simp [*, Stmt.files, Expr.files]
  · simp [*, Stmt.files, Expr.files]
  · simp [*, Stmt.files, Expr.files]
    grind
  · simp [*, Stmt.files, Expr.files]
    grind
  · next plain =>
    simp only [plain, List.flatMap_append, List.mem_append, List.flatMap_cons, List.flatMap_nil, Stmt.files,
      mem_foldr_typeName_files, List.append_nil, Expr.files, List.not_mem_nil, or_false]
    split
    · simp [Stmt.files]
    · simp

/-- The helpers and types of the body, with that of its result. -/
theorem Emits.mem_stmts_files (emits : Emits d wret hret) {x : String} :
    x ∈ (d.bodyStmts wret hret).flatMap Stmt.files ++ wret.typeName ↔ x ∈ d.tailNames ++ wret.typeName := by
  have setups : (d.pairs.flatMap fun p => (d.translation p).setup).flatMap Stmt.files = [] := by
    rw [List.flatMap_assoc]
    exact List.flatMap_eq_nil_iff.mpr fun p _ => translation_setup_files
  have posts : (d.pairs.flatMap fun p => (d.translation p).post).flatMap Stmt.files = [] := by
    rw [List.flatMap_assoc]
    exact List.flatMap_eq_nil_iff.mpr fun p _ => translation_post_files
  unfold BridgeInput.bodyStmts
  dsimp only
  by_cases void : hret = "void"
  · have none : d.tailNames = [] := by
      rw [BridgeInput.tailNames, emits.hostRet]
      exact if_pos void
    rw [if_pos void, none]
    simp only [List.flatMap_append, List.flatMap_cons, List.flatMap_nil, Stmt.files, setups, posts,
      Expr.files, List.nil_append, List.append_nil, List.mem_append, mem_foldr_typeName_files,
      List.not_mem_nil, or_false, or_self]
  · rw [if_neg void, ← mem_tail_files void emits.hostRet]
    simp only [List.flatMap_append, List.flatMap_cons, Stmt.files, setups, posts, Expr.files,
      List.nil_append]

theorem Emits.mem_files (emits : Emits d wret hret)
    (emitted : d.emitBridge = .body ⟨⟨d.params, wret⟩, d.name, d.bodyStmts wret hret,
      d.pairs.map fun p => (d.translation p).arg⟩) {x : String} :
    x ∈ d.emitBridge.files ↔
      x ∈ d.headTypes ++ d.name :: d.tailNames ++ d.pairs.flatMap d.wrapNames := by
  have args : (d.pairs.map fun p => (d.translation p).arg).flatMap Expr.files =
      d.pairs.flatMap d.wrapNames := by
    rw [List.flatMap_map]
    exact List.flatMap_congr fun p _ => translation_arg_files
  have stmts := emits.mem_stmts_files (x := x)
  rw [BridgeInput.headTypes, emitted]
  simp only [Emitted.files, Emitted.typeNames, Emitted.sig, Emitted.stmts, Emitted.args, args,
    List.mem_append, List.mem_cons, List.not_mem_nil, or_false] at stmts ⊢
  grind

/-! ## A body is closed -/

theorem ctx_mem_params : "ctx" ∈ "ctx" :: d.paramNames := List.mem_cons_self

/-- The first pointer, its name and its local. -/
theorem Emits.firstPtr (emits : Emits d wret hret)
    (free : ∀ p ∈ d.pairs, p.1.1.name ∉ reservedArgNames) {kind : BridgeInput.RetKind} {i : ℕ}
    (ptr : d.ptrRet = some (kind, i)) :
    (d.params.map Prod.snd).getD i "" ∈ d.paramNames ∧
      (d.params.map Prod.snd).getD i "" ++ "_h" ∈ d.pairs.flatMap d.localNames := by
  obtain ⟨a, pointer⟩ : ∃ a, d.guest.args[i]? = some a ∧ d.isPointerArg a := by
    unfold BridgeInput.ptrRet at ptr
    split at ptr
    · obtain ⟨k, -, found⟩ := Option.bind_eq_some_iff.mp ptr
      obtain ⟨j, first, same⟩ := Option.map_eq_some_iff.mp found
      cases same
      obtain ⟨lt, here, -⟩ := List.findIdx?_eq_some_iff_getElem.mp first
      exact ⟨_, List.getElem?_eq_getElem lt, here⟩
    · cases ptr
  have lt := (List.getElem?_eq_some_iff.mp pointer.1).1
  obtain ⟨p, here⟩ : ∃ p, d.pairs[i]? = some p := by
    have long : i < d.pairs.length := by
      rw [pairs_length]
      have arity := emits.arity
      omega
    exact ⟨_, List.getElem?_eq_getElem long⟩
  have mem := List.mem_of_getElem? here
  have place : p.2 = i := by
    rw [BridgeInput.pairs, List.getElem?_zipIdx] at here
    obtain ⟨q, -, rfl⟩ := Option.map_eq_some_iff.mp here
    exact Nat.zero_add i
  have name : (d.params.map Prod.snd).getD i "" = usedName p.1.1.name p.2 := by
    have found := paramNames_getElem? mem
    rw [emits.paramDecl mem, declName_eq (free p mem), place] at found
    rw [List.getD_eq_getElem?_getD, show (d.params.map Prod.snd)[i]? = _ from found, place]
    rfl
  refine ⟨?_, List.mem_flatMap.mpr ⟨p, mem, ?_⟩⟩
  · rw [name]
    exact emits.usedName_mem mem (free p mem)
  · -- the translation of a pointer has the local
    have same : p.1.1 = a := by
      have found := (pairs_getElem? mem).2
      rw [place, pointer.1] at found
      exact (Option.some.inj found).symm
    have isPointer := pointer.2
    rw [← same] at isPointer
    obtain ⟨k, kinds⟩ := Option.isSome_iff_exists.mp (emits.kinds p mem)
    rw [name, BridgeInput.localNames, kinds]
    unfold BridgeInput.isPointerArg at isPointer
    unfold BridgeInput.argKind at kinds
    split at isPointer
    · next gp isConst type =>
      rw [type] at kinds
      cases host : d.htypes.type p.1.2.typeUid with
      | none =>
        rw [host] at kinds
        cases kinds
      | some h =>
        rw [host] at kinds
        cases h with
        | pointer hp hc =>
          dsimp only at kinds
          split at kinds
          · split at kinds
            · cases kinds
              exact List.mem_cons_of_mem _ List.mem_cons_self
            · cases kinds
              exact List.mem_cons_self
          · cases kinds
            exact List.mem_cons_self
        | _ => cases kinds
    · cases isPointer

theorem tail_uses {args : List Expr} {names : List String} (context : "ctx" ∈ names) (result : "_r" ∈ names)
    (first : ∀ kind i, d.ptrRet = some (kind, i) → (d.params.map Prod.snd).getD i "" ∈ names ∧
      (d.params.map Prod.snd).getD i "" ++ "_h" ∈ names) :
    UsesDeclared args names (d.tail wret hret) := by
  unfold BridgeInput.tail
  split
  · next i ptr =>
    have known := first _ i ptr
    generalize (d.params.map Prod.snd).getD i "" = x at known ⊢
    simp [UsesDeclared, Expr.vars, result, known]
  · next i ptr =>
    have known := first _ i ptr
    generalize (d.params.map Prod.snd).getD i "" = x at known ⊢
    simp [UsesDeclared, Expr.vars, result, known]
  · simp [UsesDeclared, Expr.vars, result, context]
  · simp [UsesDeclared, Expr.vars, result, context]
  · split
    · simp [UsesDeclared, foldr_typeName_vars, Expr.vars, result, context]
    · simp [UsesDeclared, foldr_typeName_vars, Expr.vars, result]

/-- Without reserved names every variable of the body is declared before its uses. -/
theorem Emits.uses (emits : Emits d wret hret)
    (free : ∀ p ∈ d.pairs, p.1.1.name ∉ reservedArgNames) :
    UsesDeclared (d.pairs.map fun p => (d.translation p).arg) ("ctx" :: d.paramNames)
      (d.bodyStmts wret hret) := by
  have known (p) (mem : p ∈ d.pairs) : usedName p.1.1.name p.2 ∈ "ctx" :: d.paramNames :=
    List.mem_cons_of_mem _ (emits.usedName_mem mem (free p mem))
  have declared : (d.pairs.flatMap fun p => (d.translation p).setup).flatMap Stmt.declared =
      d.pairs.flatMap d.localNames := by
    rw [List.flatMap_assoc]
    exact List.flatMap_congr fun p _ => translation_setup_declared
  have posted : (d.pairs.flatMap fun p => (d.translation p).post).flatMap Stmt.declared = [] := by
    rw [List.flatMap_assoc]
    exact List.flatMap_eq_nil_iff.mpr fun p _ => translation_post_declared
  have locals (p) (mem : p ∈ d.pairs) : d.localNames p ⊆ d.pairs.flatMap d.localNames :=
    fun x isLocal => List.mem_flatMap.mpr ⟨p, mem, isLocal⟩
  let args := d.pairs.map fun p => (d.translation p).arg
  have setups (p) (mem : p ∈ d.pairs) : UsesDeclared args ("ctx" :: d.paramNames) (d.translation p).setup :=
    translation_setup_uses (known p mem) ctx_mem_params
  have argVars (names) (sub : d.pairs.flatMap d.localNames ++ "ctx" :: d.paramNames ⊆ names) :
      ∀ a ∈ args, a.vars ⊆ names := by
    intro a isArg
    obtain ⟨p, mem, rfl⟩ := List.mem_map.mp isArg
    have known := sub (List.mem_append_right _ (known p mem))
    have context := sub (List.mem_append_right _ ctx_mem_params)
    apply translation_arg_vars (emits.kinds p mem) known context
    exact List.Subset.trans (locals p mem) (List.Subset.trans (List.subset_append_left _ _) sub)
  have posts (names) (sub : d.pairs.flatMap d.localNames ++ "ctx" :: d.paramNames ⊆ names) :
      UsesDeclared args names (d.pairs.flatMap fun p => (d.translation p).post) := by
    apply usesDeclared_flatMap
    intro p mem
    have known := sub (List.mem_append_right _ (known p mem))
    have context := sub (List.mem_append_right _ ctx_mem_params)
    apply translation_post_uses known context
    exact List.Subset.trans (locals p mem) (List.Subset.trans (List.subset_append_left _ _) sub)
  rw [bodyStmts_eq]
  refine ⟨List.cons_subset.mpr ⟨ctx_mem_params, List.nil_subset _⟩, ?_⟩
  apply usesDeclared_append (usesDeclared_flatMap setups)
  rw [declared]
  have more := List.subset_append_right (resultVar hret).toList
    (d.pairs.flatMap d.localNames ++ "ctx" :: d.paramNames)
  refine ⟨argVars _ more, usesDeclared_append (posts _ more) ?_⟩
  rw [posted, List.nil_append]
  split
  · refine ⟨?_, trivial⟩
    rw [foldr_typeName_vars]
    exact List.nil_subset _
  · next value =>
    have result : "_r" ∈ (resultVar hret).toList := by
      rw [resultVar, if_neg value]
      exact List.mem_cons_self
    refine tail_uses (more (List.mem_append_right _ ctx_mem_params)) (List.mem_append_left _ result)
      fun kind i ptr => ?_
    obtain ⟨first, itsLocal⟩ := emits.firstPtr free ptr
    exact ⟨more (List.mem_append_right _ (List.mem_cons_of_mem _ first)),
      more (List.mem_append_left _ itsLocal)⟩

end Emits

/-! ## Where the arguments of a body come from -/

section Sources

variable {d : BridgeInput} {wret : WasmType} {hret : String} {p : (Arg × Arg) × ℕ}
  {scope : String → List Source} {s : List Stmt}

theorem bind_self (x : String) (sources : List Source) : bind scope x sources x = sources := if_pos rfl

theorem bind_of_ne {x y : String} (ne : y ≠ x) (sources : List Source) :
    bind scope x sources y = scope y := if_neg ne

theorem append_ne {u t : String} (some : t ≠ "") : u ≠ u ++ t := by
  intro same
  have empty : u ++ "" = u ++ t := String.append_empty.trans same
  exact some ((String.append_right_inj u).mp empty).symm

theorem foldl_scope_of_not_declared {x : String} (other : x ∉ s.flatMap Stmt.declared) :
    s.foldl Stmt.scope scope x = scope x := by
  induction s generalizing scope with
  | nil => rfl
  | cons a s ih =>
    rw [List.flatMap_cons, List.mem_append, not_or] at other
    rw [List.foldl_cons, ih other.2]
    cases a with
    | decl y e => exact bind_of_ne (fun same => other.1 (List.mem_singleton.mpr same)) _
    | eval e => rfl
    | hostCall result =>
      cases result with
      | none => rfl
      | some y => exact bind_of_ne (fun same => other.1 (List.mem_singleton.mpr same)) _
    | errnoStore => rfl

theorem callScope_append {result : Option String} {t : List Stmt}
    (before : ∀ a ∈ s, ∀ r, a ≠ .hostCall r) :
    callScope scope (s ++ .hostCall result :: t) =
      (Stmt.hostCall result).scope (s.foldl Stmt.scope scope) := by
  induction s generalizing scope with
  | nil => rfl
  | cons a s ih =>
    obtain ⟨here, later⟩ := List.forall_mem_cons.mp before
    cases a with
    | hostCall r => exact absurd rfl (here r)
    | decl y e => exact ih later
    | eval e => exact ih later
    | errnoStore => exact ih later

theorem translation_setup_noCall : ∀ a ∈ (d.translation p).setup, ∀ r, a ≠ .hostCall r := by
  unfold BridgeInput.translation
  cases d.argKind p with
  | none => exact fun a mem => nomatch mem
  | some kind =>
    cases kind with
    | nothing => exact fun a mem => nomatch mem
    | scalar => exact fun a mem => nomatch mem
    | pointer => simp [ArgKind.translate]
    | narrow isConst => simp [ArgKind.translate]

/-- The local of a pointer comes from what the parameter comes from. -/
theorem mem_setup_scope {kind : ArgKind} (kinds : d.argKind p = some kind) (pointer : kind.isPointer)
    (x : Source) : x ∈ (d.translation p).setup.foldl Stmt.scope scope (usedName p.1.1.name p.2 ++ "_h") ↔
      x ∈ scope (usedName p.1.1.name p.2) := by
  rw [BridgeInput.translation, kinds]
  generalize usedName p.1.1.name p.2 = u
  have ne (t : String) (some : t ≠ "") : u ≠ u ++ t := append_ne some
  cases kind with
  | nothing => cases pointer
  | scalar => cases pointer
  | pointer =>
    simp only [ArgKind.translate, List.foldl_cons, List.foldl_nil, Stmt.scope, bind_self, Expr.sources,
      bind_of_ne (ne "_h" (by decide))]
  | narrow isConst =>
    have apart : u ++ "_v" ≠ u ++ "_h" := fun same =>
      absurd ((String.append_right_inj u).mp same) (by decide)
    simp only [ArgKind.translate, List.foldl_cons, List.foldl_nil, Stmt.scope, bind_self, Expr.sources,
      bind_of_ne (ne "_h" (by decide)), bind_of_ne (ne "_v" (by decide)), bind_of_ne apart,
      List.append_nil, List.mem_append, or_self]

/-- The sources of the argument at the host's call. -/
theorem mem_arg_sources (scope : String → List Source) (emits : Emits d wret hret) (mem : p ∈ d.pairs)
    (distinct : (d.pairs.flatMap d.localNames ++ (resultVar hret).toList).Nodup)
    (notLocal : usedName p.1.1.name p.2 ∉ d.pairs.flatMap d.localNames)
    (something : d.argKind p ≠ some .nothing)
    (result : resultVar hret ≠ some (usedName p.1.1.name p.2) ∨ ∃ kind, d.argKind p = some kind ∧
      kind.isPointer) (x : Source) :
    x ∈ (d.translation p).arg.sources (callScope scope (d.bodyStmts wret hret)) ↔
      x ∈ scope (usedName p.1.1.name p.2) := by
  obtain ⟨kind, kinds⟩ := Option.isSome_iff_exists.mp (emits.kinds p mem)
  have noCall : ∀ a ∈ d.pairs.flatMap fun p => (d.translation p).setup, ∀ r, a ≠ .hostCall r := by
    intro a mem
    obtain ⟨q, -, mem⟩ := List.mem_flatMap.mp mem
    exact translation_setup_noCall a mem
  have call : callScope scope (d.bodyStmts wret hret) = (Stmt.hostCall (resultVar hret)).scope
      ((d.pairs.flatMap fun p => (d.translation p).setup).foldl Stmt.scope scope) := by
    rw [bodyStmts_eq]
    exact callScope_append noCall
  have declared (ps : List ((Arg × Arg) × ℕ)) :
      (ps.flatMap fun p => (d.translation p).setup).flatMap Stmt.declared = ps.flatMap d.localNames := by
    rw [List.flatMap_assoc]
    exact List.flatMap_congr fun p _ => translation_setup_declared
  have kept (y : String) (other : resultVar hret ≠ some y) : callScope scope (d.bodyStmts wret hret) y =
      (d.pairs.flatMap fun p => (d.translation p).setup).foldl Stmt.scope scope y := by
    rw [call]
    cases var : resultVar hret with
    | none => rfl
    | some r =>
      rw [var] at other
      exact bind_of_ne (fun same => other (congrArg some same.symm)) _
  have atCall (plain : kind.isPointer = false) : resultVar hret ≠ some (usedName p.1.1.name p.2) := by
    obtain other | ⟨k, same, pointer⟩ := result
    · exact other
    · rw [kinds] at same
      cases same
      rw [plain] at pointer
      cases pointer
  have var (plain : kind.isPointer = false) :
      callScope scope (d.bodyStmts wret hret) (usedName p.1.1.name p.2) =
        scope (usedName p.1.1.name p.2) := by
    rw [kept _ (atCall plain), foldl_scope_of_not_declared (by rw [declared]; exact notLocal)]
  have address (pointer : kind.isPointer) :
      x ∈ callScope scope (d.bodyStmts wret hret) (usedName p.1.1.name p.2 ++ "_h") ↔
        x ∈ scope (usedName p.1.1.name p.2) := by
    have isLocal : usedName p.1.1.name p.2 ++ "_h" ∈ d.localNames p := by
      rw [BridgeInput.localNames, kinds]
      cases kind with
      | nothing => cases pointer
      | scalar => cases pointer
      | pointer => exact List.mem_cons_self
      | narrow isConst => exact List.mem_cons_of_mem _ List.mem_cons_self
    -- the setups before do not touch the parameter, those after do not touch its local
    obtain ⟨before, after, split⟩ := List.append_of_mem mem
    rw [split, List.flatMap_append, List.flatMap_cons] at distinct notLocal
    have other : resultVar hret ≠ some (usedName p.1.1.name p.2 ++ "_h") := by
      intro same
      rw [same] at distinct
      refine (List.nodup_append.mp distinct).2.2 _ ?_ _ List.mem_cons_self rfl
      exact List.mem_append_right _ (List.mem_append_left _ isLocal)
    have later : usedName p.1.1.name p.2 ++ "_h" ∉ after.flatMap d.localNames := by
      intro again
      have rest := (List.nodup_append.mp (List.nodup_append.mp distinct).1).2.1
      exact (List.nodup_append.mp rest).2.2 _ isLocal _ again rfl
    have sooner : usedName p.1.1.name p.2 ∉ before.flatMap d.localNames := fun mem =>
      notLocal (List.mem_append_left _ mem)
    rw [kept _ other, split, List.flatMap_append, List.flatMap_cons, List.foldl_append,
      List.foldl_append, foldl_scope_of_not_declared (by rw [declared]; exact later),
      mem_setup_scope kinds pointer, foldl_scope_of_not_declared (by rw [declared]; exact sooner)]
  have arg : (d.translation p).arg.sources (callScope scope (d.bodyStmts wret hret)) =
      (kind.translate (usedName p.1.1.name p.2)).arg.sources
        (callScope scope (d.bodyStmts wret hret)) := by
    rw [BridgeInput.translation, kinds]
    exact wrapArg_sources _ kind _
  rw [arg]
  cases kind with
  | nothing => exact absurd kinds something
  | scalar => exact iff_of_eq (congrArg (x ∈ ·) (var rfl))
  | pointer => exact address rfl
  | narrow isConst => exact address rfl

end Sources

/-! ## The condition is exact -/

section Condition

variable {d : BridgeInput} {wret : WasmType} {hret : String}

theorem positional_not_reserved (i : ℕ) : positional i ∉ reservedArgNames := by
  intro reserved
  have starts : (positional i).toList.head? = some 'a' := by
    rw [positional, String.toList_append]
    rfl
  have none : ∀ r ∈ reservedArgNames, r.toList.head? ≠ some 'a' := by decide +kernel
  exact none _ reserved starts

theorem declName_not_reserved (name : String) (i : ℕ) : declName name i ∉ reservedArgNames := by
  unfold declName
  split
  · exact positional_not_reserved i
  · next plain => exact fun reserved => plain (.inr reserved)

theorem paramNames_not_reserved {x : String} (mem : x ∈ d.paramNames) : x ∉ reservedArgNames := by
  simp only [BridgeInput.paramNames, BridgeInput.params, List.map_append, List.mem_append,
    List.map_map, List.mem_map] at mem
  obtain (⟨p, -, rfl⟩ | ⟨i, -, rfl⟩) | ⟨q, isVa, rfl⟩ := mem
  · unfold Function.comp BridgeInput.paramDecl
    split
    · exact declName_not_reserved _ _
    · exact positional_not_reserved _
  · exact positional_not_reserved i
  · split at isVa
    · rw [List.mem_singleton.mp isVa]
      decide
    · cases isVa

theorem localNames_not_reserved {x : String} (mem : x ∈ d.pairs.flatMap d.localNames) :
    x ∉ reservedArgNames := by
  have suffix (u t : String) (none : ∀ r ∈ reservedArgNames, ¬ t.toList <:+ r.toList) :
      u ++ t ∉ reservedArgNames := by
    intro reserved
    apply none _ reserved
    rw [String.toList_append]
    exact List.suffix_append _ _
  obtain ⟨p, -, isLocal⟩ := List.mem_flatMap.mp mem
  unfold BridgeInput.localNames at isLocal
  split at isLocal
  · simp only [List.mem_cons, List.not_mem_nil, or_false] at isLocal
    obtain rfl | rfl := isLocal
    · exact suffix _ _ (by decide +kernel)
    · exact suffix _ _ (by decide +kernel)
  · rw [List.mem_singleton.mp isLocal]
    exact suffix _ _ (by decide +kernel)
  · cases isLocal

theorem Emits.resultVar_subset (emits : Emits d wret hret) :
    (resultVar hret).toList.Sublist d.resultNames := by
  unfold BridgeInput.resultNames resultVar
  by_cases void : hret = "void"
  · rw [if_pos void]
    exact List.nil_sublist _
  · have notVoid : d.hret ≠ some "void" := fun same =>
      void (Option.some.inj (emits.hostRet.symm.trans same))
    rw [if_neg void, if_neg notVoid]
    split <;> simp

/-- The scope of a parameter with its own name. -/
theorem paramScope_of_getElem? {params : List String} {i : ℕ} {x : String} (distinct : params.Nodup)
    (here : params[i]? = some x) (other : x ≠ "ctx") : paramScope params x = [.param i] := by
  obtain ⟨lt, same⟩ := List.getElem?_eq_some_iff.mp here
  rw [paramScope, if_neg other, if_pos (List.mem_of_getElem? here), ← same, distinct.idxOf_getElem]

/-- A reserved name is no parameter. -/
theorem paramScope_of_reserved {x : String} (reserved : x ∈ reservedArgNames) (i : ℕ) :
    Source.param i ∉ paramScope d.paramNames x ∧ paramScope d.paramNames x ≠ [] := by
  unfold paramScope
  split
  · exact ⟨by simp, List.cons_ne_nil _ _⟩
  · rw [if_neg fun mem => paramNames_not_reserved mem reserved]
    exact ⟨by simp, List.cons_ne_nil _ _⟩

/-- Each argument comes from its parameter when no name is reserved and none declared twice. -/
theorem Emits.positional (emits : Emits d wret hret)
    (unreserved : ∀ p ∈ d.pairs, p.1.1.name ∉ reservedArgNames ∧ d.argKind p ≠ some .nothing)
    (once : ("ctx" :: d.paramNames ++ (d.pairs.flatMap d.localNames ++ d.resultNames)).Nodup) :
    Body.Positional ⟨⟨d.params, wret⟩, d.name, d.bodyStmts wret hret,
      d.pairs.map fun p => (d.translation p).arg⟩ := by
  intro i lt
  have long : i < d.pairs.length := by simpa using lt
  have here : d.pairs[i]? = some d.pairs[i] := List.getElem?_eq_getElem long
  have mem : d.pairs[i] ∈ d.pairs := List.getElem_mem long
  have place : d.pairs[i].2 = i := by simp [BridgeInput.pairs]
  obtain ⟨free, something⟩ := unreserved _ mem
  have known := emits.usedName_mem mem free
  obtain ⟨params, rest, apart⟩ := List.nodup_append.mp once
  obtain ⟨noCtx, distinct⟩ := List.nodup_cons.mp params
  have notLocal : usedName d.pairs[i].1.1.name d.pairs[i].2 ∉ d.pairs.flatMap d.localNames := fun isLocal =>
    apart _ (List.mem_cons_of_mem _ known) _ (List.mem_append_left _ isLocal) rfl
  have result : resultVar hret ≠ some (usedName d.pairs[i].1.1.name d.pairs[i].2) := by
    intro same
    have isResult := emits.resultVar_subset.subset (by rw [same]; exact List.mem_cons_self)
    exact apart _ (List.mem_cons_of_mem _ known) _ (List.mem_append_right _ isResult) rfl
  have locals := rest.sublist ((List.Sublist.refl _).append emits.resultVar_subset)
  have scope : paramScope d.paramNames (usedName d.pairs[i].1.1.name d.pairs[i].2) = [.param i] := by
    have found := paramNames_getElem? mem
    rw [emits.paramDecl mem, declName_eq free, place] at found
    rw [place]
    refine paramScope_of_getElem? distinct found fun same => noCtx ?_
    rw [← same]
    exact List.mem_of_getElem? found
  have sources := mem_arg_sources (paramScope d.paramNames) emits mem locals notLocal something
    (.inl result)
  simp only [List.get_eq_getElem, List.getElem_map]
  rw [show d.params.map Prod.snd = d.paramNames from rfl]
  rw [scope] at sources
  refine ⟨List.ne_nil_of_mem ((sources (.param i)).mpr List.mem_cons_self), fun x isSource => ?_⟩
  exact List.mem_singleton.mp ((sources x).mp isSource)

/-- A body that passes each argument in its place has no reserved names. -/
theorem Emits.unreserved (emits : Emits d wret hret)
    (once : ("ctx" :: d.paramNames ++ (d.pairs.flatMap d.localNames ++ d.resultNames)).Nodup)
    (positional : Body.Positional ⟨⟨d.params, wret⟩, d.name, d.bodyStmts wret hret,
      d.pairs.map fun p => (d.translation p).arg⟩) :
    ∀ p ∈ d.pairs, p.1.1.name ∉ reservedArgNames ∧ d.argKind p ≠ some .nothing := by
  intro p mem
  have here := (pairs_getElem? mem).1
  obtain ⟨lt, same⟩ := List.getElem?_eq_some_iff.mp here
  obtain ⟨nonempty, only⟩ := positional p.2 (by simpa using lt)
  simp only [List.get_eq_getElem, List.getElem_map, same] at nonempty only
  rw [show d.params.map Prod.snd = d.paramNames from rfl] at nonempty only
  have something : d.argKind p ≠ some .nothing := by
    intro nothing
    apply nonempty
    rw [BridgeInput.translation, nothing]
    exact wrapArg_sources _ _ _
  refine ⟨fun reserved => ?_, something⟩
  have name : usedName p.1.1.name p.2 = p.1.1.name := by
    rw [usedName, if_neg fun empty => absurd (empty ▸ reserved) (by decide)]
  have locals := (List.nodup_append.mp once).2.1.sublist
    ((List.Sublist.refl _).append emits.resultVar_subset)
  have notLocal : usedName p.1.1.name p.2 ∉ d.pairs.flatMap d.localNames := by
    rw [name]
    exact fun isLocal => localNames_not_reserved isLocal reserved
  obtain ⟨foreign, filled⟩ := paramScope_of_reserved (d := d) reserved p.2
  rw [← name] at foreign filled
  by_cases result : resultVar hret ≠ some (usedName p.1.1.name p.2) ∨
      ∃ kind, d.argKind p = some kind ∧ kind.isPointer
  · have sources := mem_arg_sources (paramScope d.paramNames) emits mem locals notLocal
      something result
    obtain ⟨x, isSource⟩ := List.exists_mem_of_ne_nil _ filled
    have isParam := only x ((sources x).mpr isSource)
    exact foreign (isParam ▸ isSource)
  · -- a scalar with the name of the result is read before it is set
    rw [not_or, not_not] at result
    obtain ⟨isResult, plain⟩ := result
    obtain ⟨kind, kinds⟩ := Option.isSome_iff_exists.mp (emits.kinds p mem)
    have scope : callScope (paramScope d.paramNames) (d.bodyStmts wret hret) (usedName p.1.1.name p.2) =
        [.unset] := by
      have noCall : ∀ a ∈ d.pairs.flatMap fun p => (d.translation p).setup, ∀ r, a ≠ .hostCall r := by
        intro a mem
        obtain ⟨q, -, mem⟩ := List.mem_flatMap.mp mem
        exact translation_setup_noCall a mem
      rw [bodyStmts_eq, show callScope _ (.eval (.var "ctx") :: _) = _ from callScope_append noCall,
        isResult]
      exact bind_self _ _
    have arg : (d.translation p).arg.sources (callScope (paramScope d.paramNames)
        (d.bodyStmts wret hret)) = [.unset] := by
      rw [BridgeInput.translation, kinds]
      apply (wrapArg_sources _ kind _).trans
      cases kind with
      | nothing => exact absurd kinds something
      | scalar => exact scope
      | pointer => exact absurd ⟨_, kinds, rfl⟩ plain
      | narrow isConst => exact absurd ⟨_, kinds, rfl⟩ plain
    rw [arg] at only
    exact absurd (only .unset List.mem_cons_self) (by simp)

theorem length_of_mapM {α β : Type} {f : α → Option β} {l : List α} {r : List β}
    (mapped : l.mapM f = some r) : r.length = l.length := by
  induction l generalizing r with
  | nil =>
    cases mapped
    rfl
  | cons a l ih =>
    rw [List.mapM_cons] at mapped
    obtain ⟨b, -, rest⟩ := Option.bind_eq_some_iff.mp mapped
    obtain ⟨bs, tail, same⟩ := Option.bind_eq_some_iff.mp rest
    cases same
    rw [List.length_cons, List.length_cons, ih tail]

/-- The wrapper fetches an argument for every parameter. -/
theorem m3Fetches_length {ret : Char} {chars : List Char} (sig : d.wasmSig = some (ret, chars)) :
    (BridgeInput.m3Fetches chars).length = d.params.length := by
  obtain ⟨fixed, mapped, same⟩ := Option.map_eq_some_iff.mp sig
  have count : fixed.length = d.guest.args.length := length_of_mapM mapped
  have pairs := pairs_length (d := d)
  cases same
  rw [BridgeInput.m3Fetches, List.length_map, List.length_range, BridgeInput.params]
  simp only [List.length_append, List.length_map, List.length_drop, List.length_range]
  split
  · rw [List.length_append, count, List.length_singleton]
    simp only [*, List.length_singleton]
    omega
  · simp only [*, List.length_nil]
    omega

/-- The parameters stand in the order of the guest. -/
theorem params_order (i : ℕ) (lt : i < d.guest.args.length) :
    d.paramNames[i]? = some (declName (d.guest.args.get ⟨i, lt⟩).name i) ∨
      d.paramNames[i]? = some (positional i) := by
  rcases Nat.lt_or_ge i d.pairs.length with paired | padded
  · have here : d.pairs[i]? = some d.pairs[i] := List.getElem?_eq_getElem paired
    have mem := List.mem_of_getElem? here
    have place : d.pairs[i].2 = i := by simp [BridgeInput.pairs]
    have found := paramNames_getElem? mem
    have arg := (pairs_getElem? mem).2
    rw [place] at found arg
    have same : d.guest.args.get ⟨i, lt⟩ = d.pairs[i].1.1 :=
      Option.some.inj ((List.getElem?_eq_getElem lt).symm.trans arg)
    rw [found, BridgeInput.paramDecl, place, same]
    split
    · exact .inl rfl
    · exact .inr rfl
  · apply Or.inr
    have second : i - d.pairs.length < ((List.range d.guest.args.length).drop d.pairs.length).length := by
      rw [List.length_drop, List.length_range]
      omega
    rw [BridgeInput.paramNames, BridgeInput.params, List.map_append, List.map_append,
      List.append_assoc, List.getElem?_append_right (by simpa using padded),
      List.getElem?_append_left (by simpa using second)]
    simp only [List.length_map, List.map_map, List.getElem?_map, List.getElem?_drop]
    rw [Nat.add_sub_cancel' padded, List.getElem?_range lt]
    rfl

end Condition

/-- A bridge that is emitted is closed and passes its arguments in their places exactly under the
condition. -/
theorem bridgeOk_iff {d : BridgeInput} {ret : Char} {chars : List Char}
    (sig : d.wasmSig = some (ret, chars)) : BridgeOk d chars ↔ d.NamesOk := by
  have params := emitBridge_params (d := d)
  have fetches := m3Fetches_length sig
  rw [← params] at fetches
  have order := params_order (d := d)
  rw [BridgeInput.paramNames, ← params] at order
  cases can : d.canEmit with
  | false =>
    obtain ⟨stubRet, emitted⟩ := emitBridge_of_not_canEmit can
    have declared : d.emitBridge.declared = ("ctx" :: d.paramNames) ++ [] := by
      rw [emitted]
      rfl
    have files : d.emitBridge.files = d.headTypes ++ [] := by
      rw [BridgeInput.headTypes, emitted]
      simp [Emitted.files, Emitted.stmts, Emitted.args, Emitted.typeNames, Emitted.sig, Stmt.files,
        Expr.files]
    constructor
    · intro ok
      refine ⟨fun yes => absurd (can.symm.trans yes) Bool.false_ne_true, ?_, ?_⟩
      · simp only [can, Bool.false_eq_true, if_false]
        rw [← declared]
        exact ok.closed.once
      · simp only [can, Bool.false_eq_true, if_false]
        rw [← declared, ← files]
        exact ok.closed.meant
    · intro names
      have once := names.once
      have meant := names.meant
      simp only [can, Bool.false_eq_true, if_false] at once meant
      rw [← declared] at once meant
      rw [← files] at meant
      refine ⟨fetches, order, ⟨once, ?_, meant⟩, fun b body => ?_⟩
      · rw [emitted]
        exact ⟨List.cons_subset.mpr ⟨List.mem_cons_self, List.nil_subset _⟩, trivial⟩
      · rw [emitted] at body
        cases body
  | true =>
    obtain ⟨wret, hret, emits, emitted⟩ := emits_of_canEmit can
    have declared : d.emitBridge.declared =
        ("ctx" :: d.paramNames) ++ (d.pairs.flatMap d.localNames ++ d.resultNames) := by
      rw [← emits.declared, emitted]
      rfl
    have files (x : String) := emits.mem_files emitted (x := x)
    simp only [List.append_assoc, List.cons_append] at files
    constructor
    · intro ok
      have once := ok.closed.once
      rw [declared] at once
      refine ⟨fun _ => emits.unreserved once (ok.args _ emitted), ?_, ?_⟩
      · simp only [can, if_true]
        exact once
      · simp only [can, if_true]
        rw [← declared]
        intro x mem
        exact ok.closed.meant x ((files x).mpr (by simpa using mem))
    · intro names
      have unreserved := names.unreserved can
      have once := names.once
      have meant := names.meant
      simp only [can, if_true] at once meant
      refine ⟨fetches, order, ⟨declared ▸ once, ?_, ?_⟩, fun b body => ?_⟩
      · have uses := emits.uses fun p mem => (unreserved p mem).1
        rw [emitted]
        exact uses
      · rw [declared]
        intro x mem
        exact meant x (by simpa using (files x).mp mem)
      · rw [emitted] at body
        cases body
        exact emits.positional unreserved once

/-- A bridge is closed and passes its arguments in their places exactly when the names of the
parameters are neither reserved nor in collision. -/
theorem bridge_sound_iff (d : BridgeInput) : d.Sound ↔ (d.wasmSig.isSome → d.NamesOk) := by
  constructor
  · intro sound some
    obtain ⟨⟨ret, chars⟩, sig⟩ := Option.isSome_iff_exists.mp some
    exact (bridgeOk_iff sig).mp (sound ret chars sig)
  · intro names ret chars sig
    exact (bridgeOk_iff sig).mpr (names (by rw [sig]; rfl))

/-- `int MD5Init(int ctx)`. -/
def ctxParameter : BridgeInput where
  name := "MD5Init"
  guest := ⟨[⟨"ctx", 1⟩], 1, false⟩
  host := ⟨[⟨"ctx", 1⟩], 1, false⟩
  gtypes := [(1, .builtin .int false 4)]
  htypes := [(1, .builtin .int false 4)]
  publicHeader := true

/-- `int use(int *x, int x_h)`. -/
def localParameter : BridgeInput where
  name := "use"
  guest := ⟨[⟨"x", 2⟩, ⟨"x_h", 1⟩], 1, false⟩
  host := ⟨[⟨"x", 2⟩, ⟨"x_h", 1⟩], 1, false⟩
  gtypes := [(1, .builtin .int false 4), (2, .pointer 1 false)]
  htypes := [(1, .builtin .int false 4), (2, .pointer 1 false)]
  publicHeader := true

/-- The context is passed on in place of a parameter `ctx`, and a local is declared under the name of
another parameter. -/
theorem bridge_names_collide : ¬ ctxParameter.Sound ∧ ¬ localParameter.Sound := by
  constructor
  · intro sound
    have sig : ctxParameter.wasmSig = some ('i', ['i']) := by decide +kernel
    have names := (bridgeOk_iff sig).mp (sound 'i' ['i'] sig)
    have free := (names.unreserved (by decide +kernel) ((⟨"ctx", 1⟩, ⟨"ctx", 1⟩), 0) (by decide)).1
    exact free (by decide)
  · intro sound
    have sig : localParameter.wasmSig = some ('i', ['i', 'i']) := by decide +kernel
    have names := (bridgeOk_iff sig).mp (sound 'i' ['i', 'i'] sig)
    have once := names.once
    revert once
    decide +kernel

end Yos.Codegen
