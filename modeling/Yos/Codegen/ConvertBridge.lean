import Yos.Codegen.Bridge
import Yos.Io.Fd

/-!
# Bridges with a converted structure (`_emit_struct_convert_body`)

For a function in the section `struct_convert` of `hooks.yaml` the bridge has a variable of the host's
structure, fills it from the guest's structure, calls the host's function with its address and
converts it back.  The entry says which parameters `in` and `out` are; the generator only asks whether
they are given, and takes the first parameter that points to a structure of the entry's name.
`convert_right_iff` says for which calls this is right.

Parameters are known by their positions here, and casts of values are left out.
-/

namespace Yos.Codegen

/-! ## What is emitted -/

/-- An entry: the name of the structure, and the positions of the parameters that `in` and `out` name in
the declaration of the function, whose names the description often loses. -/
structure ConvertEntry where
  type : String
  inArg : Option ℕ
  outArg : Option ℕ

/-- The arguments of the host's call: the address of the structure, that of a temporary for a pointer to
a scalar of another width, an address after `yos_path_resolve`, an address, the values of
`yos_xlate_dfd` and `yos_at_flags_fb_to_lx`, a cast, and the parameter itself. -/
inductive CallArg where
  | scratch
  | narrow (isConst : Bool)
  | path
  | pointer
  | dfd
  | atFlags
  | cast
  | raw
deriving DecidableEq, Repr

/-- When the structure is converted back. -/
inductive WriteCond where
  | always
  | nonNull
  | nonNegative
deriving DecidableEq, Repr

/-- The last statement: `outOrNull` is `return _r ? out : 0u`. -/
inductive ReturnExpr where
  | nothing
  | outOrNull
  | zero
  | cast
deriving DecidableEq, Repr

/-- An emitted body: `structArg` is the parameter whose structure is converted, `fromGuest` says whether
`cv_w2h` fills the variable or `memset`. -/
structure ConvertBody where
  params : List (WasmType × String)
  ret : WasmType
  structArg : ℕ
  fromGuest : Bool
  hostRet : String
  callee : String
  args : List CallArg
  writeBack : Option WriteCond
  storesErrno : Bool
  result : ReturnExpr

namespace BridgeInput

variable (d : BridgeInput) (e : ConvertEntry)

/-- The type of the parameter is a pointer to the structure. -/
def pointsTo (type : String) (a : Arg) : Bool :=
  match d.gtypes.type a.typeUid with
  | some (.pointer pointee _) =>
    match d.gtypes.type pointee with
    | some (.struct name _ _) => name == type
    | _ => false
  | _ => false

/-- `struct_arg_idx`. -/
def structArgIdx : Option ℕ := d.guest.args.findIdx? (d.pointsTo e.type)

/-- The argument for a parameter; whether the host's is a pointer is asked of the type as it is in the
table. -/
def convertArg (structArg : ℕ) (p : Arg × ℕ) : CallArg :=
  if p.2 = structArg then .scratch
  else
    match d.host.args[p.2]? with
    | none => .raw
    | some ha =>
      match d.argKind ((p.1, ha), p.2), d.htypes.get ha.typeUid with
      | some (.narrow isConst), _ => .narrow isConst
      | _, some (.pointer ..) =>
        if p.2 ∈ (pathArgFns.lookup d.name).getD [] then .path else .pointer
      | _, _ =>
        if ((d.htypes.type ha.typeUid).bind (hostType d.htypes (d.htypes.length + 1))).isSome then
          if d.name ∈ atFamily ∧ p.2 = 0 then .dfd
          else if atFlagArg.lookup d.name = some p.2 then .atFlags else .cast
        else .raw

/-- `hret`, with its default. -/
def convertRet : String := d.hret.getD "int"

/-- `ret_is_ptr`, of the host's result. -/
def hostRetIsPtr : Bool :=
  match d.htypes.type d.host.ret with
  | some (.pointer ..) => true
  | _ => false

/-- The condition under which the structure is converted back. -/
def writeCond : WriteCond :=
  if d.convertRet = "void" then .always else if d.hostRetIsPtr then .nonNull else .nonNegative

/-- `_emit_struct_convert_body`. -/
def emitStructConvertBody : Option ConvertBody :=
  if e.type = "" ∨ d.guest.args.any (fun a => (d.argType a).isNone) then none
  else
    (d.structArgIdx e).map fun structArg =>
      let ret := d.wret.getD .i32
      { params := d.guest.args.zipIdx.map fun p => ((d.argType p.1).getD .i32, declName p.1.name p.2)
        ret
        structArg
        fromGuest := e.inArg.isSome
        hostRet := d.convertRet
        callee := d.name
        args := d.guest.args.zipIdx.map (d.convertArg structArg)
        writeBack := if e.outArg.isSome then some d.writeCond else none
        storesErrno := (errnoTypes.any fun b => textIn b d.convertRet) || d.hostRetIsPtr
        result :=
          if ret = .void then .nothing
          else if d.hostRetIsPtr then if e.outArg.isSome then .outOrNull else .zero
          else .cast }

end BridgeInput

/-! ## Calls -/

/-- A function with an entry whose parameters point to its structure, and whose parameters can all be
declared; without the latter it is not linked. -/
structure ConvertInput extends BridgeInput where
  entry : ConvertEntry
  named : entry.type ≠ ""
  used : entry.inArg.isSome ∨ entry.outArg.isSome
  slots : ∀ i, entry.inArg = some i ∨ entry.outArg = some i →
    ∃ a, guest.args[i]? = some a ∧ toBridgeInput.pointsTo entry.type a = true
  declared : ∀ a ∈ guest.args, (toBridgeInput.argType a).isSome

/-- `yos_at_flags_fb_to_lx`. -/
def yosAtFlagsFbToLx (f : ℤ) : ℤ :=
  let bits := BitVec.ofInt 32 f
  let flags : List (BitVec 32 × BitVec 32) :=
    [(0x0100, 0x200), (0x0200, 0x100), (0x0400, 0x400), (0x0800, 0x200), (0x4000, 0x1000)]
  let r : BitVec 32 := flags.foldl (fun r flag => if bits &&& flag.1 ≠ 0 then r ||| flag.2 else r) 0
  r.toInt

/-- What the host is given for a parameter. -/
inductive HostArg where
  | scratch
  | temp
  | null
  | memory (offset : ℤ)
  | path (offset : ℤ)
  | value (v : ℤ)
deriving DecidableEq, Repr

/-- It is `NULL` for the host. -/
def HostArg.IsNull : HostArg → Prop
  | .null => True
  | .value v => v = 0
  | _ => False

/-- What a body does: it clears the variable or fills it from a structure of the guest, calls the host,
converts the variable to a structure of the guest, writes a temporary back, stores `errno`, returns. -/
inductive ConvertEvent where
  | clear
  | toHost (offset : ℤ)
  | hostCall (args : List HostArg)
  | toGuest (offset : ℤ)
  | store (offset : ℤ)
  | errno (e : ℤ)
  | returns (v : ℤ)
deriving DecidableEq, Repr

/-- A call of the bridge: the descriptors and the arguments of the guest, and the host's result and
`errno`, and whether the host's function succeeds. -/
structure ConvertCall where
  input : ConvertInput
  fds : FdCtx
  values : ℕ → ℤ
  result : ℤ
  errno : ℤ
  success : Bool

/-- The condition holds of a result. -/
def WriteCond.Holds (result : ℤ) : WriteCond → Prop
  | .always => True
  | .nonNull => result ≠ 0
  | .nonNegative => 0 ≤ result

instance (result : ℤ) : (cond : WriteCond) → Decidable (cond.Holds result)
  | .always => .isTrue trivial
  | .nonNull => inferInstanceAs (Decidable (result ≠ 0))
  | .nonNegative => inferInstanceAs (Decidable (0 ≤ result))

namespace ConvertCall

variable (c : ConvertCall)

/-- The value of an argument. -/
def pass (arg : CallArg) (i : ℕ) : HostArg :=
  let v := c.values i
  match arg with
  | .scratch => .scratch
  | .narrow _ => if v = 0 then .null else .temp
  | .path => if v = 0 then .null else .path v
  | .pointer => if v = 0 then .null else .memory v
  | .dfd => .value (yosFdGet c.fds v).value
  | .atFlags => .value (yosAtFlagsFbToLx v)
  | .cast => .value v
  | .raw => .value v

/-- What a body does after the structure is converted back. -/
def rest (b : ConvertBody) : List ConvertEvent :=
  (b.args.zipIdx.filterMap fun p =>
      if p.1 = .narrow false ∧ c.values p.2 ≠ 0 then some (.store (c.values p.2)) else none) ++
    (if b.storesErrno = true ∧ c.errno ≠ 0 then [.errno c.errno] else []) ++
    match b.result with
    | .nothing => []
    | .outOrNull => [.returns (if c.result ≠ 0 then c.values b.structArg else 0)]
    | .zero => [.returns 0]
    | .cast => [.returns c.result]

/-- What a body does. -/
def run (b : ConvertBody) : List ConvertEvent :=
  let struct := c.values b.structArg
  (if b.fromGuest then .toHost struct else .clear) ::
    .hostCall (b.args.zipIdx.map fun p => c.pass p.1 p.2) ::
    ((if b.writeBack.any fun cond => decide (cond.Holds c.result) then [.toGuest struct] else []) ++
      c.rest b)

/-- What the call does; nothing without a body. -/
def trace : List ConvertEvent := ((c.input.emitStructConvertBody c.input.entry).map c.run).getD []

/-- The host is given this for a parameter. -/
def Passes (i : ℕ) (a : HostArg) : Prop := ∃ args, .hostCall args ∈ c.trace ∧ args[i]? = some a

/-- The call is right: the body is C, which has no variable of type `void`; a structure `in` is
converted from its own parameter, a structure `out` to its own parameter, and the host is given the
address of its variable; `NULL` is passed as `NULL`; and memory of the guest is written by a conversion
only for the parameter `out`, and only after success. -/
structure Right : Prop where
  compiles : c.input.convertRet ≠ "void"
  input : ∀ i, c.input.entry.inArg = some i → c.values i ≠ 0 →
    c.Passes i .scratch ∧ .toHost (c.values i) ∈ c.trace
  output : ∀ i, c.input.entry.outArg = some i → c.values i ≠ 0 →
    c.Passes i .scratch ∧ (c.success = true → .toGuest (c.values i) ∈ c.trace)
  null : ∀ i a, c.input.guest.args[i]? = some a → c.input.isPointerArg a = true → c.values i = 0 →
    ∃ arg, c.Passes i arg ∧ arg.IsNull
  quiet : ∀ i, c.input.entry.outArg = some i → ∀ offset, .toGuest offset ∈ c.trace →
    c.success = true ∧ offset = c.values i

/-- The first parameter that points to the entry's structure. -/
def first : ℕ := (c.input.structArgIdx c.input.entry).getD 0

/-- The result is one after which the structure is converted back. -/
def Writes : Prop := c.input.writeCond.Holds c.result

instance : Decidable c.Writes := inferInstanceAs (Decidable (c.input.writeCond.Holds c.result))

/-- The host's result is not `void`; a parameter `in` is the first that points to the structure, or
`NULL`; the parameter `out` is the first and the result says whether the host's function succeeded, or it
is `NULL` and the result is that of a failure; and the first is not `NULL`, and no pointer that is
`NULL` is translated as a descriptor, unless 0 is the host's for it. -/
structure Ok : Prop where
  compiles : c.input.convertRet ≠ "void"
  input : ∀ i, c.input.entry.inArg = some i → i = c.first ∨ c.values i = 0
  output : ∀ i, c.input.entry.outArg = some i →
    (i = c.first ∧ (c.Writes ↔ c.success = true)) ∨ (i ≠ c.first ∧ c.values i = 0 ∧ ¬ c.Writes)
  first : c.values c.first ≠ 0
  null : ∀ i a, c.input.guest.args[i]? = some a → c.input.isPointerArg a = true → c.values i = 0 →
    c.input.convertArg c.first (a, i) = .dfd → (yosFdGet c.fds 0).value = 0

/-! ## What a call does -/

theorem structArgIdx_eq : ∃ i a, c.input.structArgIdx c.input.entry = some i ∧
    c.input.guest.args[i]? = some a ∧ c.input.pointsTo c.input.entry.type a = true := by
  have slot : ∃ i, c.input.entry.inArg = some i ∨ c.input.entry.outArg = some i := by
    rcases c.input.used with used | used
    · obtain ⟨i, slot⟩ := Option.isSome_iff_exists.mp used
      exact ⟨i, .inl slot⟩
    · obtain ⟨i, slot⟩ := Option.isSome_iff_exists.mp used
      exact ⟨i, .inr slot⟩
  obtain ⟨i, slot⟩ := slot
  obtain ⟨a, at', points⟩ := c.input.slots i slot
  cases found : c.input.structArgIdx c.input.entry with
  | none =>
    have none := List.findIdx?_eq_none_iff.mp found a (List.mem_of_getElem? at')
    rw [points] at none
    cases none
  | some k =>
    obtain ⟨inside, points, -⟩ := List.findIdx?_eq_some_iff_getElem.mp found
    exact ⟨k, _, rfl, List.getElem?_eq_getElem inside, points⟩

theorem structArgIdx_first : c.input.structArgIdx c.input.entry = some c.first := by
  obtain ⟨i, a, found, -⟩ := c.structArgIdx_eq
  rw [first, found]
  rfl

/-- The first parameter that points to the structure. -/
theorem first_points : ∃ a, c.input.guest.args[c.first]? = some a ∧
    c.input.pointsTo c.input.entry.type a = true := by
  obtain ⟨i, a, found, at', points⟩ := c.structArgIdx_eq
  rw [first, found]
  exact ⟨a, at', points⟩

/-- The arguments of the host's call. -/
def hostArgs : List HostArg :=
  (c.input.guest.args.zipIdx.map (c.input.convertArg c.first)).zipIdx.map fun p => c.pass p.1 p.2

/-- A body is emitted. -/
theorem emitted : ∃ b, c.input.emitStructConvertBody c.input.entry = some b ∧ b.structArg = c.first ∧
    b.fromGuest = c.input.entry.inArg.isSome ∧
    b.args = c.input.guest.args.zipIdx.map (c.input.convertArg c.first) ∧
    b.writeBack = if c.input.entry.outArg.isSome then some c.input.writeCond else none := by
  rw [BridgeInput.emitStructConvertBody, if_neg, structArgIdx_first]
  · exact ⟨_, rfl, rfl, rfl, rfl, rfl⟩
  · rintro (empty | undeclared)
    · exact c.input.named empty
    · obtain ⟨a, mem, none⟩ := List.any_eq_true.mp undeclared
      have some := c.input.declared a mem
      rw [Option.isNone_iff_eq_none.mp none] at some
      cases some

theorem rest_kinds {b : ConvertBody} {event : ConvertEvent} (mem : event ∈ c.rest b) :
    (∃ v, event = .store v) ∨ (∃ v, event = .errno v) ∨ ∃ v, event = .returns v := by
  rcases List.mem_append.mp mem with mem | mem
  · rcases List.mem_append.mp mem with mem | mem
    · obtain ⟨p, -, mem⟩ := List.mem_filterMap.mp mem
      obtain ⟨-, same⟩ := Option.ite_none_right_eq_some.mp mem
      exact .inl ⟨_, (Option.some.inj same).symm⟩
    · obtain ⟨-, mem⟩ := List.mem_ite_nil_right.mp mem
      exact .inr (.inl ⟨_, List.mem_singleton.mp mem⟩)
  · refine .inr (.inr ?_)
    cases result : b.result with
    | nothing =>
      rw [result] at mem
      cases mem
    | outOrNull | zero | cast =>
      rw [result] at mem
      exact ⟨_, List.mem_singleton.mp mem⟩

/-- What comes before is none of it. -/
theorem notMem_rest {b : ConvertBody} {event : ConvertEvent} (before : (∃ args, event = .hostCall args) ∨
    (∃ offset, event = .toHost offset) ∨ ∃ offset, event = .toGuest offset) : event ∉ c.rest b := by
  intro mem
  rcases before with ⟨x, rfl⟩ | ⟨x, rfl⟩ | ⟨x, rfl⟩ <;>
    rcases c.rest_kinds mem with ⟨v, no⟩ | ⟨v, no⟩ | ⟨v, no⟩ <;> cases no

theorem hostCall_mem_run {b : ConvertBody} {args : List HostArg} : .hostCall args ∈ c.run b ↔
    args = b.args.zipIdx.map fun p => c.pass p.1 p.2 := by
  have noRest : .hostCall args ∉ c.rest b := c.notMem_rest (.inl ⟨args, rfl⟩)
  unfold run
  cases b.fromGuest <;> simp [noRest]

theorem toHost_mem_run {b : ConvertBody} {offset : ℤ} : .toHost offset ∈ c.run b ↔
    b.fromGuest = true ∧ offset = c.values b.structArg := by
  have noRest : .toHost offset ∉ c.rest b := c.notMem_rest (.inr (.inl ⟨offset, rfl⟩))
  unfold run
  cases b.fromGuest <;> simp [noRest]

theorem toGuest_mem_run {b : ConvertBody} {offset : ℤ} : .toGuest offset ∈ c.run b ↔
    (∃ cond, b.writeBack = some cond ∧ cond.Holds c.result) ∧ offset = c.values b.structArg := by
  have noRest : .toGuest offset ∉ c.rest b := c.notMem_rest (.inr (.inr ⟨offset, rfl⟩))
  unfold run
  cases b.fromGuest <;> cases b.writeBack <;> simp [noRest]

theorem passes_iff {i : ℕ} {arg : HostArg} : c.Passes i arg ↔ c.hostArgs[i]? = some arg := by
  obtain ⟨b, emits, -, -, args, -⟩ := c.emitted
  have mem (l : List HostArg) : .hostCall l ∈ c.trace ↔ l = c.hostArgs := by
    rw [trace, emits, hostArgs, ← args]
    exact c.hostCall_mem_run
  unfold Passes
  simp only [mem, exists_eq_left]

theorem toHost_mem_iff {offset : ℤ} : .toHost offset ∈ c.trace ↔
    c.input.entry.inArg.isSome = true ∧ offset = c.values c.first := by
  obtain ⟨b, emits, structArg, fromGuest, -⟩ := c.emitted
  rw [trace, emits, ← structArg, ← fromGuest]
  exact c.toHost_mem_run

theorem toGuest_mem_iff {offset : ℤ} : .toGuest offset ∈ c.trace ↔
    c.input.entry.outArg.isSome = true ∧ c.Writes ∧ offset = c.values c.first := by
  obtain ⟨b, emits, structArg, -, -, writeBack⟩ := c.emitted
  rw [trace, emits, ← structArg, ← and_assoc]
  refine c.toGuest_mem_run.trans (and_congr_left fun _ => ?_)
  rw [writeBack, Writes]
  cases c.input.entry.outArg with
  | none => simp
  | some i => simp

theorem passes_of_param {i : ℕ} {a : Arg} {arg : HostArg} (at' : c.input.guest.args[i]? = some a) :
    c.Passes i arg ↔ arg = c.pass (c.input.convertArg c.first (a, i)) i := by
  rw [passes_iff, hostArgs, List.getElem?_map, List.getElem?_zipIdx, List.getElem?_map,
    List.getElem?_zipIdx, at']
  simp only [Option.map_some, zero_add, Option.some.injEq]
  exact eq_comm

theorem convertArg_scratch_iff {d : BridgeInput} {k i : ℕ} {a : Arg} :
    d.convertArg k (a, i) = .scratch ↔ i = k := by
  constructor
  · intro scratch
    by_contra other
    rw [BridgeInput.convertArg, if_neg other] at scratch
    dsimp only at scratch
    split at scratch
    · cases scratch
    · split at scratch
      · cases scratch
      · split at scratch <;> cases scratch
      · split at scratch
        · split at scratch
          · cases scratch
          · split at scratch <;> cases scratch
        · cases scratch
  · intro same
    rw [BridgeInput.convertArg, if_pos same]

theorem pass_scratch_iff {arg : CallArg} {i : ℕ} : c.pass arg i = .scratch ↔ arg = .scratch := by
  unfold pass
  cases arg with
  | scratch => simp
  | narrow | path | pointer =>
    dsimp only
    split <;> simp
  | dfd | atFlags | cast | raw => simp

/-- A parameter that points to the structure is passed as the variable exactly when it is the first. -/
theorem passes_scratch_iff {i : ℕ} {a : Arg} (at' : c.input.guest.args[i]? = some a) :
    c.Passes i .scratch ↔ i = c.first := by
  rw [c.passes_of_param at', eq_comm, pass_scratch_iff, convertArg_scratch_iff]

/-- What is passed for `NULL`. -/
theorem pass_null {arg : CallArg} {i : ℕ} (zero : c.values i = 0) : (c.pass arg i).IsNull ↔
    arg ≠ .scratch ∧ (arg = .dfd → (yosFdGet c.fds 0).value = 0) := by
  unfold pass
  rw [zero]
  cases arg with
  | atFlags => simp [HostArg.IsNull, yosAtFlagsFbToLx]
  | _ => simp [HostArg.IsNull]

/-! ## The calls that are right -/

theorem isPointerArg_of_pointsTo {d : BridgeInput} {type : String} {a : Arg}
    (points : d.pointsTo type a = true) : d.isPointerArg a = true := by
  have pointer : ∃ pointee isConst, d.gtypes.type a.typeUid = some (.pointer pointee isConst) := by
    unfold BridgeInput.pointsTo at points
    split at points
    · rename_i pointer
      exact ⟨_, _, pointer⟩
    · cases points
  obtain ⟨pointee, isConst, pointer⟩ := pointer
  rw [BridgeInput.isPointerArg, pointer]

/-- What is right about the parameter `out`. -/
theorem right_output_iff {j : ℕ} (out : c.input.entry.outArg = some j) (present : c.values c.first ≠ 0) :
    ((c.values j ≠ 0 →
        c.Passes j .scratch ∧ (c.success = true → .toGuest (c.values j) ∈ c.trace)) ∧
      ∀ offset, .toGuest offset ∈ c.trace → c.success = true ∧ offset = c.values j) ↔
    (j = c.first ∧ (c.Writes ↔ c.success = true)) ∨ (j ≠ c.first ∧ c.values j = 0 ∧ ¬ c.Writes) := by
  obtain ⟨a, at', -⟩ := c.input.slots j (.inr out)
  simp only [c.passes_scratch_iff at', toGuest_mem_iff, out, Option.isSome_some, true_and]
  constructor
  · rintro ⟨output, quiet⟩
    by_cases first : j = c.first
    · refine .inl ⟨first, fun writes => (quiet _ ⟨writes, rfl⟩).1, fun success => ?_⟩
      exact ((output (first ▸ present)).2 success).1
    · have null : c.values j = 0 := by_contra fun given => first (output given).1
      refine .inr ⟨first, null, fun writes => ?_⟩
      exact present ((quiet _ ⟨writes, rfl⟩).2.trans null)
  · rintro (⟨rfl, success⟩ | ⟨-, null, quiet⟩)
    · refine ⟨fun _ => ⟨rfl, fun succeeded => ⟨success.mpr succeeded, rfl⟩⟩, ?_⟩
      rintro offset ⟨writes, rfl⟩
      exact ⟨success.mp writes, rfl⟩
    · exact ⟨fun given => absurd null given, fun offset written => absurd written.1 quiet⟩

/-- What is right about the parameter `in`. -/
theorem right_input_iff {i : ℕ} (inArg : c.input.entry.inArg = some i) :
    (c.values i ≠ 0 → c.Passes i .scratch ∧ .toHost (c.values i) ∈ c.trace) ↔
      i = c.first ∨ c.values i = 0 := by
  obtain ⟨a, at', -⟩ := c.input.slots i (.inl inArg)
  simp only [c.passes_scratch_iff at', toHost_mem_iff, inArg, Option.isSome_some, true_and]
  constructor
  · intro input
    by_contra neither
    obtain ⟨other, given⟩ := not_or.mp neither
    exact other (input given).1
  · rintro (rfl | null) given
    · exact ⟨rfl, rfl⟩
    · exact absurd null given

/-- What is right about `NULL`. -/
theorem right_null_iff {i : ℕ} {a : Arg} (at' : c.input.guest.args[i]? = some a)
    (null : c.values i = 0) : (∃ arg, c.Passes i arg ∧ arg.IsNull) ↔
      i ≠ c.first ∧ (c.input.convertArg c.first (a, i) = .dfd → (yosFdGet c.fds 0).value = 0) := by
  simp only [c.passes_of_param at', exists_eq_left]
  rw [c.pass_null null, Ne, convertArg_scratch_iff]

/-- A call of a bridge with a converted structure is right exactly when the parameters of the entry are
the first one that points to its structure, that one is not `NULL`, and the result says how the call
ended. -/
theorem convert_right_iff (c : ConvertCall) : c.Right ↔ c.Ok := by
  constructor
  · intro right
    have given : c.values c.first ≠ 0 := by
      intro null
      obtain ⟨a, at', points⟩ := c.first_points
      have passed := right.null c.first a at' (isPointerArg_of_pointsTo points) null
      exact ((c.right_null_iff at' null).mp passed).1 rfl
    refine ⟨right.compiles, ?_, ?_, given, ?_⟩
    · intro i inArg
      exact (c.right_input_iff inArg).mp (right.input i inArg)
    · intro j out
      exact (c.right_output_iff out given).mp ⟨right.output j out, right.quiet j out⟩
    · intro i a at' pointer null
      exact ((c.right_null_iff at' null).mp (right.null i a at' pointer null)).2
  · intro ok
    refine ⟨ok.compiles, ?_, ?_, ?_, ?_⟩
    · intro i inArg
      exact (c.right_input_iff inArg).mpr (ok.input i inArg)
    · intro j out
      exact ((c.right_output_iff out ok.first).mpr (ok.output j out)).1
    · intro i a at' pointer null
      refine (c.right_null_iff at' null).mpr ⟨?_, ok.null i a at' pointer null⟩
      rintro rfl
      exact ok.first null
    · intro j out
      exact ((c.right_output_iff out ok.first).mpr (ok.output j out)).2

/-- `int nanosleep(const struct timespec *rqtp, struct timespec *rmtp)`. -/
def nanosleepInput : ConvertInput where
  name := "nanosleep"
  guest := ⟨[⟨"rqtp", 3⟩, ⟨"rmtp", 4⟩], 1, false⟩
  host := ⟨[⟨"rqtp", 3⟩, ⟨"rmtp", 4⟩], 1, false⟩
  gtypes := [(1, .builtin .int false 4), (2, .struct "timespec" 12 []), (3, .pointer 2 true),
    (4, .pointer 2 false)]
  htypes := [(1, .builtin .int false 4), (2, .struct "timespec" 16 []), (3, .pointer 2 true),
    (4, .pointer 2 false)]
  publicHeader := true
  entry := ⟨"timespec", some 0, some 1⟩
  named := by decide
  used := by decide
  slots := by
    rintro i (inArg | outArg)
    · cases inArg
      exact ⟨_, rfl, by decide⟩
    · cases outArg
      exact ⟨_, rfl, by decide⟩
  declared := by decide

/-- `nanosleep` is interrupted: the guest's `rmtp` is passed as it is. -/
def nanosleepInterrupted : ConvertCall :=
  ⟨nanosleepInput, ⟨fun _ => 0, 0, fun _ => -1, none⟩, fun i => if i = 0 then 16 else 32, -1, 4, false⟩

/-- `nanosleep` with `rqtp` and no `rmtp` succeeds: the time is converted to `rqtp`. -/
def nanosleepDone : ConvertCall :=
  ⟨nanosleepInput, ⟨fun _ => 0, 0, fun _ => -1, none⟩, fun i => if i = 0 then 16 else 0, 0, 0, true⟩

/-- The host gets the guest's memory for `rmtp`, and the time that is left goes to `rqtp`. -/
theorem nanosleep_wrong : ¬ nanosleepInterrupted.Right ∧ ¬ nanosleepDone.Right := by
  constructor
  · intro right
    have passes := (right.output 1 rfl (by decide)).1
    exact absurd ((passes_scratch_iff _ rfl).mp passes) (by decide)
  · intro right
    have written : .toGuest 16 ∈ nanosleepDone.trace :=
      (toGuest_mem_iff _).mpr ⟨rfl, by decide, by decide⟩
    exact absurd (right.quiet 1 rfl 16 written).2 (by decide)

end ConvertCall

end Yos.Codegen
