import Yos.Codegen.Types
import Mathlib.Data.List.Infix
import Mathlib.Data.String.Basic

/-!
# Bridges (`codegen/bridge.py`)

`_emit_bridge` writes for a function of both libcs a C function that takes the arguments of the guest,
translates them, calls the host's function and translates the result; `_emit_m3_wrapper` writes the
function that fetches the arguments from the stack of the guest and calls it.  What is emitted is a
syntax tree here: its declarations and statements with the identifiers they use.  Casts to types whose
names are keywords are left out.
-/

namespace Yos.Codegen

/-! ## Types in C -/

/-- `needle in text`. -/
def textIn (needle text : String) : Bool := decide (needle.toList <:+: text.toList)

/-- The name of a builtin type as clang spells it. -/
def builtinName (b : Builtin) (isConst : Bool) : String :=
  if isConst then "const " ++ b.spelling else b.spelling

/-- The types of parameters and results at the interface to the guest. -/
inductive WasmType where
  | void
  | i8
  | u8
  | i16
  | u16
  | i32
  | u32
  | i64
  | u64
  | f32
  | f64
deriving DecidableEq, Repr

/-- The name of the type, if it is no keyword. -/
def WasmType.typeName : WasmType → List String
  | .i8 => ["int8_t"]
  | .u8 => ["uint8_t"]
  | .i16 => ["int16_t"]
  | .u16 => ["uint16_t"]
  | .i32 => ["int32_t"]
  | .u32 => ["uint32_t"]
  | .i64 => ["int64_t"]
  | .u64 => ["uint64_t"]
  | _ => []

/-- `_wasm_type`, of a resolved type. -/
def wasmType : TypeInfo → Option WasmType
  | .void => some .void
  | .pointer .. => some .u32
  | .flexArray _ => some .u32
  | .builtin b isConst size =>
    let name := builtinName b isConst
    if name = "float" then some .f32
    else if name = "double" ∨ name = "long double" then some .f64
    else if size = 1 then
      some (if !textIn "unsigned" name && !textIn "char" name then .i8 else .u8)
    else if size = 2 then some (if textIn "unsigned" name then .u16 else .i16)
    else if size = 4 then some (if textIn "unsigned" name then .u32 else .i32)
    else if size = 8 then some (if textIn "unsigned" name then .u64 else .i64)
    else none
  | .enum _ => some .i32
  | _ => none

/-- `_host_type`, of a resolved type; a cycle of pointers, which no type of C has, has no rendering. -/
def hostType (types : TypeTable) : ℕ → TypeInfo → Option String
  | _, .void => some "void"
  | 0, .pointer .. => none
  | n + 1, .pointer pointee _ =>
    match types.type pointee with
    | none => none
    | some .void => some "void *"
    | some t => (hostType types n t).map (· ++ " *")
  | _, .builtin b isConst _ => some (builtinName b isConst)
  | _, .enum _ => some "int"
  | _, .struct name _ _ => if name = "" then none else some ("struct " ++ name)
  | _, .union name _ _ => if name = "" then none else some ("union " ++ name)
  | _, _ => none

/-! ## Emitted C -/

/-- The expressions of emitted code: `file` is an identifier of file scope, `nothing` the empty text,
`memory e` is `ctx->memory + e`, `ctxCall f e` is `f(ctx, e)`, and `both` has two operands in any
operator. -/
inductive Expr where
  | var (x : String)
  | file (x : String)
  | literal
  | nothing
  | memory (e : Expr)
  | call (f : String) (e : Expr)
  | ctxCall (f : String) (e : Expr)
  | cond (c a b : Expr)
  | both (a b : Expr)
deriving DecidableEq, Repr

/-- The statements: a declaration with initializer, the evaluation of an expression, the call of the
host's function with its result in a variable or dropped, and the block that stores `errno`. -/
inductive Stmt where
  | decl (x : String) (e : Expr)
  | eval (e : Expr)
  | hostCall (result : Option String)
  | errnoStore
deriving DecidableEq, Repr

/-- What is prepared for an argument, the argument of the host's call, and what follows the call. -/
structure Translation where
  setup : List Stmt
  arg : Expr
  post : List Stmt

/-- An emitted function: its parameters after `ctx`, and its result. -/
structure Signature where
  params : List (WasmType × String)
  ret : WasmType

/-- The body that calls the host's function `callee`. -/
structure Body where
  sig : Signature
  callee : String
  stmts : List Stmt
  args : List Expr

/-- What `_emit_bridge` writes: a body that calls the host, or one that only returns an error. -/
inductive Emitted where
  | stub (sig : Signature)
  | body (b : Body)

/-- The emitted function's head. -/
def Emitted.sig : Emitted → Signature
  | .stub sig => sig
  | .body b => b.sig

/-! ## Arguments -/

/-- `_AT_FAMILY`. -/
def atFamily : List String :=
  ["faccessat", "fchmodat", "fchownat", "fstatat", "futimesat", "linkat", "mkdirat", "mkfifoat",
    "mknodat", "openat", "readlinkat", "renameat", "renameat2", "symlinkat", "unlinkat", "utimensat",
    "name_to_handle_at", "execveat", "statx", "getdents64_at"]

/-- `_AT_FLAG_ARG`. -/
def atFlagArg : List (String × ℕ) :=
  [("faccessat", 3), ("fchmodat", 3), ("fchownat", 4), ("fstatat", 3), ("linkat", 4), ("unlinkat", 2),
    ("utimensat", 3), ("name_to_handle_at", 4)]

/-- `_PATH_ARG_FNS`. -/
def pathArgFns : List (String × List ℕ) :=
  [("stat", [0]), ("lstat", [0]), ("access", [0]), ("eaccess", [0]), ("mkdir", [0]), ("unlink", [0]),
    ("rmdir", [0]), ("chmod", [0]), ("lchmod", [0]), ("chown", [0]), ("lchown", [0]), ("readlink", [0]),
    ("truncate", [0]), ("mkfifo", [0]), ("mknod", [0]), ("pathconf", [0]), ("utimes", [0]),
    ("utime", [0]), ("futimes", [0]), ("lutimes", [0]), ("statfs", [0]), ("statvfs", [0]),
    ("chroot", [0]), ("rename", [0, 1]), ("link", [0, 1]), ("symlink", [0, 1]), ("execv", [0]),
    ("execve", [0])]

/-- `_RESERVED_ARG_NAMES`. -/
def reservedArgNames : List String :=
  ["ctx", "errno", "_r", "_e", "_p", "_hdfd", "host_stat_scratch", "host_statvfs_scratch",
    "host_statfs_scratch", "host_timespec_scratch", "host_timeval_scratch", "host_rlimit_scratch",
    "host_tm_scratch"]

/-- `f'a{idx}'`. -/
def positional (idx : ℕ) : String := "a" ++ toString idx

/-- The name `_bridge_arg_decl` declares. -/
def declName (name : String) (idx : ℕ) : String :=
  if name = "" ∨ name ∈ reservedArgNames then positional idx else name

/-- The name `_arg_translation_full` uses. -/
def usedName (name : String) (idx : ℕ) : String := if name = "" then positional idx else name

/-- A function of both libcs. -/
structure BridgeInput where
  name : String
  guest : Fn
  host : Fn
  gtypes : TypeTable
  htypes : TypeTable
  publicHeader : Bool

/-- How an argument is translated: not at all, through a temporary of the host's width, as an address,
or by a cast. -/
inductive ArgKind where
  | nothing
  | narrow (isConst : Bool)
  | pointer
  | scalar
deriving DecidableEq, Repr

namespace BridgeInput

variable (d : BridgeInput)

/-- The parameters of both functions in pairs, with their positions. -/
def pairs : List ((Arg × Arg) × ℕ) := (d.guest.args.zip d.host.args).zipIdx

/-- The cases of `_arg_translation_full`. -/
def argKind (p : (Arg × Arg) × ℕ) : Option ArgKind :=
  match d.gtypes.type p.1.1.typeUid, d.htypes.type p.1.2.typeUid with
  | some .void, some .void => some .nothing
  | some (.pointer gp isConst), some (.pointer hp _) =>
    match d.gtypes.type gp, d.htypes.type hp with
    | some (.builtin _ pointeeConst gs), some (.builtin _ _ hs) =>
      if gs ≠ 0 ∧ hs ≠ 0 ∧ gs ≠ hs then some (.narrow (isConst || pointeeConst)) else some .pointer
    | _, _ => some .pointer
  | some (.builtin ..), some (.builtin ..) => some .scalar
  | some (.enum _), some (.builtin ..) => some .scalar
  | some (.enum _), some (.enum _) => some .scalar
  | some (.builtin ..), some (.enum _) => some .scalar
  | _, _ => none

/-- Both types are of kind `builtin`. -/
def bothBuiltin (p : (Arg × Arg) × ℕ) : Bool :=
  match d.gtypes.type p.1.1.typeUid, d.htypes.type p.1.2.typeUid with
  | some (.builtin ..), some (.builtin ..) => true
  | _, _ => false

end BridgeInput

/-- `_arg_translation_full`. -/
def ArgKind.translate (var : String) : ArgKind → Translation
  | .nothing => ⟨[], .nothing, []⟩
  | .narrow isConst =>
    ⟨[.decl (var ++ "_v") (.cond (.var var) (.memory (.var var)) .literal),
      .decl (var ++ "_h") (.cond (.var var) (.var (var ++ "_v")) .literal)],
      .var (var ++ "_h"),
      if isConst then []
      else [.eval (.both (.var var) (.both (.memory (.var var)) (.var (var ++ "_v"))))]⟩
  | .pointer => ⟨[.decl (var ++ "_h") (.memory (.var var))], .var (var ++ "_h"), []⟩
  | .scalar => ⟨[], .var var, []⟩

/-- The translation is an address. -/
def ArgKind.isPointer : ArgKind → Bool
  | .narrow _ => true
  | .pointer => true
  | _ => false

namespace BridgeInput

variable (d : BridgeInput)

/-- The argument with the helpers for `*at` functions and paths around it. -/
def wrapArg (p : (Arg × Arg) × ℕ) (kind : ArgKind) (e : Expr) : Expr :=
  let e := if d.name ∈ atFamily ∧ p.2 = 0 ∧ d.bothBuiltin p then
    .ctxCall "yos_xlate_dfd" (.both (.file "int32_t") e) else e
  let e := if atFlagArg.lookup d.name = some p.2 ∧ d.bothBuiltin p then
    .call "yos_at_flags_fb_to_lx" e else e
  if p.2 ∈ (pathArgFns.lookup d.name).getD [] ∧ kind.isPointer then .ctxCall "yos_path_resolve" e else e

/-- The translation of an argument; one that cannot be translated stands for itself. -/
def translation (p : (Arg × Arg) × ℕ) : Translation :=
  match d.argKind p with
  | none => ⟨[], .var (positional p.2), []⟩
  | some kind =>
    let t := kind.translate (usedName p.1.1.name p.2)
    ⟨t.setup, d.wrapArg p kind t.arg, t.post⟩

/-- The type of a guest parameter at the interface. -/
def argType (a : Arg) : Option WasmType := (d.gtypes.type a.typeUid).bind wasmType

/-- The declaration of a parameter. -/
def paramDecl (p : (Arg × Arg) × ℕ) : WasmType × String :=
  match d.argType p.1.1 with
  | some t => (t, declName p.1.1.name p.2)
  | none => (.u32, positional p.2)

/-- The parameters that are declared. -/
def params : List (WasmType × String) :=
  d.pairs.map d.paramDecl ++
    ((List.range d.guest.args.length).drop d.pairs.length).map (fun i => (.u32, positional i)) ++
    if d.guest.variadic then [(.u32, "_va_ptr")] else []

/-! ## Results -/

/-- How a pointer result is translated. -/
inductive RetKind where
  | firstArgAlias
  | offsetIntoFirst
  | newDupStr
  | newDupWcs
deriving DecidableEq, Repr

/-- `RET_IS_DST`. -/
def retIsDst : List String :=
  ["memset", "memcpy", "memmove", "strcpy", "strncpy", "strcat", "strncat", "mempcpy", "stpcpy",
    "stpncpy", "wmemset", "wmemcpy", "wmemmove", "wcscpy", "wcsncpy", "wcscat", "wcsncat", "wcpcpy",
    "wcpncpy"]

/-- `RET_OFFSET_INTO_FIRST`. -/
def retOffsetIntoFirst : List String :=
  ["strchr", "strrchr", "memchr", "strstr", "strpbrk", "strcasestr", "memrchr", "strchrnul", "memmem",
    "memccpy", "index", "rindex", "basename", "wmemchr", "wcschr", "wcsrchr", "wcsstr", "wcspbrk",
    "wcstok"]

/-- `ret_kind`, by the name of the function. -/
def retKind (name : String) : Option RetKind :=
  if name ∈ retIsDst then some .firstArgAlias
  else if name ∈ retOffsetIntoFirst then some .offsetIntoFirst
  else if name ∈ ["strdup", "strndup"] then some .newDupStr
  else if name ∈ ["wcsdup"] then some .newDupWcs
  else none

/-- The result type of the guest. -/
def guestRet : Option TypeInfo := d.gtypes.type d.guest.ret

/-- `wret`. -/
def wret : Option WasmType := d.guestRet.bind wasmType

/-- `hret`. -/
def hret : Option String :=
  (d.htypes.type d.host.ret).bind (hostType d.htypes (d.htypes.length + 1))

/-- `ret_is_ptr`. -/
def retIsPtr : Bool :=
  match d.guestRet with
  | some (.pointer ..) => true
  | _ => false

/-- The type is a pointer. -/
def isPointerArg (a : Arg) : Bool :=
  match d.gtypes.type a.typeUid with
  | some (.pointer ..) => true
  | _ => false

/-- `first_ptr_arg`. -/
def firstPtrArg : Option ℕ := d.guest.args.findIdx? d.isPointerArg

/-- `ret_kind`, with the position of the first pointer. -/
def ptrRet : Option (RetKind × ℕ) :=
  if d.retIsPtr then (retKind d.name).bind fun k => d.firstPtrArg.map (k, ·) else none

/-- The result types for which `errno` is stored. -/
def errnoTypes : List String := ["int", "long", "ssize_t", "off_t", "pid_t"]

/-- The tail after the host's call. -/
def tail (wret : WasmType) (hret : String) : List Stmt :=
  match d.ptrRet with
  | some (.firstArgAlias, i) => [.eval (.var "_r"), .eval (.var ((d.params.map Prod.snd).getD i ""))]
  | some (.offsetIntoFirst, i) =>
    let first := (d.params.map Prod.snd).getD i ""
    [.eval (.var "_r"),
      .eval (.both (.file "uint32_t") (.both (.var first) (.both (.var "_r") (.var (first ++ "_h")))))]
  | some (.newDupStr, _) =>
    [.eval (.var "_r"), .eval (.both (.file "yos_malloc") (.file "free")),
      .decl "_n" (.both (.file "size_t") (.call "strlen" (.var "_r"))),
      .decl "_off" (.both (.file "uint32_t") (.ctxCall "yos_malloc" (.var "_n"))),
      .eval (.both (.var "_off") (.call "free" (.var "_r"))),
      .eval (.call "memcpy" (.both (.memory (.var "_off")) (.both (.var "_r") (.var "_n")))),
      .eval (.call "free" (.var "_r")), .eval (.var "_off")]
  | some (.newDupWcs, _) =>
    [.eval (.var "_r"), .eval (.both (.file "yos_malloc") (.file "free")),
      .decl "_n" (.file "size_t"), .eval (.both (.file "wchar_t") (.both (.var "_r") (.var "_n"))),
      .decl "_bytes" (.both (.file "uint32_t") (.both (.var "_n") (.file "wchar_t"))),
      .decl "_off" (.both (.file "uint32_t") (.ctxCall "yos_malloc" (.var "_bytes"))),
      .eval (.both (.var "_off") (.call "free" (.var "_r"))),
      .eval (.call "memcpy" (.both (.memory (.var "_off")) (.both (.var "_r") (.var "_bytes")))),
      .eval (.call "free" (.var "_r")), .eval (.var "_off")]
  | none =>
    (if errnoTypes.any fun b => textIn b hret then [.errnoStore] else []) ++
      [.eval (wret.typeName.foldr (fun t e => .both (.file t) e) (.var "_r"))]

/-! ## The bridge and its wrapper -/

/-- `can_emit`. -/
def canEmit : Bool :=
  d.publicHeader && d.guest.args.length == d.host.args.length &&
    (d.pairs.all fun p => (d.argType p.1.1).isSome && (d.argKind p).isSome) &&
    d.wret.isSome && d.hret.isSome && (!d.retIsPtr || d.ptrRet.isSome)

/-- The statements of the body. -/
def bodyStmts (wret : WasmType) (hret : String) : List Stmt :=
  let setups := d.pairs.flatMap fun p => (d.translation p).setup
  let posts := d.pairs.flatMap fun p => (d.translation p).post
  if hret = "void" then
    .eval (.var "ctx") :: setups ++ .hostCall none :: posts ++
      [.eval (wret.typeName.foldr (fun t e => .both (.file t) e) .literal)]
  else .eval (.var "ctx") :: setups ++ .hostCall (some "_r") :: posts ++ d.tail wret hret

/-- `_emit_bridge`. -/
def emitBridge : Emitted :=
  match d.canEmit, d.wret, d.hret with
  | true, some wret, some hret =>
    .body ⟨⟨d.params, wret⟩, d.name, d.bodyStmts wret hret, d.pairs.map fun p => (d.translation p).arg⟩
  | _, wret, _ => .stub ⟨d.params, if wret = some .void then .i32 else wret.getD .i32⟩

/-- `_sig_char_for_wasm_type`. -/
def sigChar : WasmType → Char
  | .void => 'v'
  | .i64 | .u64 => 'I'
  | .f32 => 'f'
  | .f64 => 'F'
  | _ => 'i'

/-- `_wasm_sig`; a function without one gets neither bridge nor wrapper. -/
def wasmSig : Option (Char × List Char) :=
  (d.guest.args.mapM fun a => (d.argType a).map sigChar).map fun chars =>
    ((d.wret.map sigChar).getD 'i', if d.guest.variadic then chars ++ ['i'] else chars)

/-- `_emit_m3_wrapper`: the variables that are fetched from the stack, which are passed on in this
order. -/
def m3Fetches (chars : List Char) : List String := (List.range chars.length).map positional

end BridgeInput

/-! ## What is emitted -/

section Emits

variable {d : BridgeInput} {wret : WasmType} {hret : String}

/-- What is known of a function whose bridge calls the host. -/
structure Emits (d : BridgeInput) (wret : WasmType) (hret : String) : Prop where
  arity : d.guest.args.length = d.host.args.length
  types : ∀ p ∈ d.pairs, (d.argType p.1.1).isSome
  kinds : ∀ p ∈ d.pairs, (d.argKind p).isSome
  guestRet : d.wret = some wret
  hostRet : d.hret = some hret

theorem emits_of_canEmit (can : d.canEmit = true) : ∃ wret hret, Emits d wret hret ∧
    d.emitBridge = .body ⟨⟨d.params, wret⟩, d.name, d.bodyStmts wret hret,
      d.pairs.map fun p => (d.translation p).arg⟩ := by
  have all := can
  simp only [BridgeInput.canEmit, Bool.and_eq_true, List.all_eq_true, beq_iff_eq] at all
  obtain ⟨⟨⟨⟨⟨-, arity⟩, args⟩, guestRet⟩, hostRet⟩, -⟩ := all
  obtain ⟨wret, guestRet⟩ := Option.isSome_iff_exists.mp guestRet
  obtain ⟨hret, hostRet⟩ := Option.isSome_iff_exists.mp hostRet
  refine ⟨wret, hret, ⟨arity, fun p mem => (args p mem).1, fun p mem => (args p mem).2, guestRet,
    hostRet⟩, ?_⟩
  rw [BridgeInput.emitBridge, can, guestRet, hostRet]

theorem emitBridge_of_not_canEmit (cannot : d.canEmit = false) : ∃ ret,
    d.emitBridge = .stub ⟨d.params, ret⟩ := by
  rw [BridgeInput.emitBridge, cannot]
  exact ⟨_, rfl⟩

theorem emitBridge_params : d.emitBridge.sig.params = d.params := by
  cases can : d.canEmit with
  | true =>
    obtain ⟨wret, hret, -, emitted⟩ := emits_of_canEmit can
    rw [emitted]
    rfl
  | false =>
    obtain ⟨ret, emitted⟩ := emitBridge_of_not_canEmit can
    rw [emitted]
    rfl

theorem pairs_length : d.pairs.length = min d.guest.args.length d.host.args.length := by
  rw [BridgeInput.pairs, List.length_zipIdx, List.length_zip]

/-- The pair at a position. -/
theorem pairs_getElem? {p : (Arg × Arg) × ℕ} (mem : p ∈ d.pairs) : d.pairs[p.2]? = some p ∧
    d.guest.args[p.2]? = some p.1.1 := by
  have pair : (d.guest.args.zip d.host.args)[p.2]? = some p.1 :=
    List.mem_zipIdx_iff_getElem?.mp mem
  refine ⟨?_, (List.getElem?_zip_eq_some.mp pair).1⟩
  rw [BridgeInput.pairs, List.getElem?_zipIdx, pair]
  simp

/-- The variable for the result of the host's call. -/
def resultVar (hret : String) : Option String := if hret = "void" then none else some "_r"

theorem bodyStmts_eq : d.bodyStmts wret hret = .eval (.var "ctx") ::
    ((d.pairs.flatMap fun p => (d.translation p).setup) ++ .hostCall (resultVar hret) ::
      ((d.pairs.flatMap fun p => (d.translation p).post) ++
        if hret = "void" then [.eval (wret.typeName.foldr (fun t e => .both (.file t) e) .literal)]
        else d.tail wret hret)) := by
  unfold BridgeInput.bodyStmts resultVar
  dsimp only
  split
  · simp only [List.cons_append, List.append_assoc]
  · simp only [List.cons_append, List.append_assoc]

end Emits

end Yos.Codegen
