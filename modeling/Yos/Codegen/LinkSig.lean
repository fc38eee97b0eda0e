import Yos.Codegen.Bridge

/-!
# Link signatures and the wasm32 C ABI

`_wasm_sig` gives a function the signature under which its bridge is linked.  `lowered` is what the C ABI
of wasm32 makes of the same type: a `long double` is two `i64`, a record that is no single scalar goes
through a pointer, which for a result is a hidden first parameter, and variadic arguments go through one
pointer.  Both agree, or the function is skipped, unless a type on the way is one of those that the
generator takes for another (`link_signature_iff`).
-/

namespace Yos.Codegen

/-! ## The ABI -/

/-- The size of a builtin type on wasm32. -/
def Builtin.size32 : Builtin → ℤ
  | .bool | .char | .schar | .uchar => 1
  | .short | .ushort => 2
  | .int | .uint | .long | .ulong | .float | .wchar => 4
  | .longlong | .ulonglong | .double => 8
  | .longDouble => 16

/-- How a value is passed: not at all, as one value, as two `i64`, or through a pointer. -/
inductive Passing where
  | ignored
  | direct (c : Char)
  | twoI64
  | indirect
deriving DecidableEq, Repr

/-- The parameters for an argument. -/
def Passing.argChars : Passing → List Char
  | .ignored => []
  | .direct c => [c]
  | .twoI64 => ['I', 'I']
  | .indirect => ['i']

/-- The hidden parameters for a result, and the result that remains. -/
def Passing.retChars : Passing → List Char × Char
  | .ignored => ([], 'v')
  | .direct c => ([], c)
  | .twoI64 => (['i'], 'v')
  | .indirect => (['i'], 'v')

/-- A builtin type. -/
def Builtin.passing : Builtin → Passing
  | .float => .direct 'f'
  | .double => .direct 'F'
  | .longDouble => .twoI64
  | .longlong | .ulonglong => .direct 'I'
  | _ => .direct 'i'

/-- A record: an empty one is not passed, one with a single member that fills it is passed like the
member.  `undescribed` is for a record whose members are not described. -/
def recordPassing (member : Uid → Passing) (undescribed : Passing) (size : ℤ) (fields : List Field) :
    Passing :=
  match fields.filter fun f => f.size ≠ 0 with
  | [] => if size = 0 then .ignored else undescribed
  | [f] => if f.size = size then member f.typeUid else .indirect
  | _ => .indirect

section Abi

variable (other : TypeInfo → Passing) (types : TypeTable)

/-- A resolved type; `other` says how types are passed that their description does not show. -/
def passing : ℕ → TypeInfo → Passing
  | _, .void => .ignored
  | _, .pointer .. => .direct 'i'
  | _, .flexArray _ => .direct 'i'
  | _, .builtin b _ _ => b.passing
  | _, .enum size => .direct (if size = 8 then 'I' else 'i')
  | n + 1, .struct name size fields =>
    recordPassing (fun uid => ((types.type uid).map (passing n)).getD .indirect)
      (other (.struct name size fields)) size fields
  | n + 1, .union name size fields =>
    recordPassing (fun uid => ((types.type uid).map (passing n)).getD .indirect)
      (other (.union name size fields)) size fields
  | n + 1, .array count element =>
    if count = 1 then ((types.type element).map (passing n)).getD .indirect else .indirect
  | _, t => other t

/-- A value of a type of the table. -/
def valuePassing (t : TypeInfo) : Passing := passing other types (types.length + 1) t

/-- A parameter; one of an array or function type is a pointer. -/
def paramPassing : TypeInfo → Passing
  | .array .. => .direct 'i'
  | .function .. => .direct 'i'
  | t => valuePassing other types t

end Abi

namespace BridgeInput

variable (other : TypeInfo → Passing) (d : BridgeInput)

/-- The parameters for a parameter of the guest's function. -/
def loweredArg (a : Arg) : List Char :=
  match d.gtypes.type a.typeUid with
  | none => []
  | some t => (paramPassing other d.gtypes t).argChars

/-- The hidden parameters and the result of the guest's function. -/
def loweredRet : List Char × Char :=
  match d.guestRet with
  | none => ([], 'v')
  | some t => (valuePassing other d.gtypes t).retChars

/-- The signature of the guest's function on wasm32. -/
def lowered : Char × List Char :=
  let (hidden, ret) := d.loweredRet other
  (ret, hidden ++ d.guest.args.flatMap (d.loweredArg other) ++
    if d.guest.variadic then ['i'] else [])

/-- What is known of the description of a function for wasm32. -/
structure Guest32 : Prop where
  /-- No type is missing. -/
  ret : d.guestRet.isSome
  args : ∀ a ∈ d.guest.args, ∃ t, d.gtypes.type a.typeUid = some t ∧ t ≠ .void
  sizes : ∀ uid b isConst size, d.gtypes.type uid = some (.builtin b isConst size) → size = b.size32

end BridgeInput

/-! ## Where the generator agrees -/

/-- The type is neither a `long double`, nor a floating type spelled with `const`, nor an enumeration of
64 bits. -/
def SigPlain : TypeInfo → Bool
  | .builtin b isConst _ => b ≠ .longDouble && !(isConst && (b == .float || b == .double))
  | .enum size => size ≠ 8
  | _ => true

/-- The type is rendered, with its right size. -/
def TypeInfo.isScalar : TypeInfo → Bool
  | .void => true
  | .pointer .. => true
  | .flexArray _ => true
  | .builtin .. => true
  | .enum _ => true
  | _ => false

section Agree

variable {other : TypeInfo → Passing} {types : TypeTable} {t : TypeInfo}

/-- A builtin type is rendered as it is passed just if it is plain. -/
theorem builtin_agrees (b : Builtin) (isConst : Bool) :
    ((wasmType (.builtin b isConst b.size32)).map fun w => [BridgeInput.sigChar w]) =
      some b.passing.argChars ↔ SigPlain (.builtin b isConst b.size32) = true := by
  cases b <;> cases isConst <;> decide

theorem builtin_ret_agrees (b : Builtin) (isConst : Bool) :
    ([], ((wasmType (.builtin b isConst b.size32)).map BridgeInput.sigChar).getD 'i') =
      b.passing.retChars ↔ SigPlain (.builtin b isConst b.size32) = true := by
  cases b <;> cases isConst <;> decide

/-- Only scalars are rendered. -/
theorem wasmType_eq_none (agg : t.isScalar = false) : wasmType t = none := by
  cases t <;> first | rfl | simp [TypeInfo.isScalar] at agg

/-- A rendered parameter has the ABI's character just if its type is plain. -/
theorem arg_agrees {w : WasmType} (value : t ≠ .void) (rendered : wasmType t = some w)
    (sized : ∀ b isConst size, t = .builtin b isConst size → size = b.size32) :
    (paramPassing other types t).argChars = [BridgeInput.sigChar w] ↔ SigPlain t = true := by
  cases t with
  | void => exact absurd rfl value
  | pointer pointee isConst =>
    cases Option.some.inj rendered
    exact iff_of_true rfl rfl
  | flexArray element =>
    cases Option.some.inj rendered
    exact iff_of_true rfl rfl
  | builtin b isConst size =>
    obtain rfl := sized b isConst size rfl
    have agrees := builtin_agrees b isConst
    rw [rendered, Option.map_some, Option.some.injEq, eq_comm] at agrees
    exact agrees
  | enum size =>
    cases Option.some.inj rendered
    by_cases long : size = 8 <;> simp [paramPassing, valuePassing, passing, SigPlain, Passing.argChars,
      BridgeInput.sigChar, long]
  | _ => simp [wasmType] at rendered

/-- A result is not rendered as it is passed when its type is not plain, or when it is a record that is
passed in another way than one `i32`. -/
def ResultPlain (other : TypeInfo → Passing) (types : TypeTable) (t : TypeInfo) : Prop :=
  if t.isScalar then SigPlain t = true else valuePassing other types t = .direct 'i'

theorem ret_agrees (sized : ∀ b isConst size, t = .builtin b isConst size → size = b.size32) :
    (valuePassing other types t).retChars =
      ([], ((wasmType t).map BridgeInput.sigChar).getD 'i') ↔ ResultPlain other types t := by
  unfold ResultPlain
  cases scalar : t.isScalar with
  | false =>
    rw [if_neg Bool.false_ne_true, wasmType_eq_none scalar]
    cases valuePassing other types t <;> simp [Passing.retChars]
  | true =>
    rw [if_pos rfl]
    cases t with
    | void => exact iff_of_true rfl rfl
    | pointer pointee isConst => exact iff_of_true rfl rfl
    | flexArray element => exact iff_of_true rfl rfl
    | builtin b isConst size =>
      obtain rfl := sized b isConst size rfl
      rw [eq_comm]
      exact builtin_ret_agrees b isConst
    | enum size =>
      by_cases long : size = 8 <;> simp [valuePassing, passing, SigPlain, Passing.retChars, wasmType,
        BridgeInput.sigChar, long]
    | _ => exact absurd scalar Bool.false_ne_true

/-- A rendered parameter is passed. -/
theorem arg_ne_nil {w : WasmType} (value : t ≠ .void) (rendered : wasmType t = some w) :
    (paramPassing other types t).argChars ≠ [] := by
  cases t with
  | void => exact absurd rfl value
  | pointer pointee isConst => exact List.cons_ne_nil _ _
  | flexArray element => exact List.cons_ne_nil _ _
  | builtin b isConst size => cases b <;> exact List.cons_ne_nil _ _
  | enum size => exact List.cons_ne_nil _ _
  | _ => simp [wasmType] at rendered

/-- Only `void` is rendered as no result. -/
theorem eq_void_of_sigChar
    (none : ((wasmType t).map BridgeInput.sigChar).getD 'i' = 'v') : t = .void := by
  cases t with
  | void => rfl
  | builtin b isConst size =>
    simp only [wasmType] at none
    split_ifs at none <;> simp [BridgeInput.sigChar] at none
  | _ => simp [wasmType, BridgeInput.sigChar] at none

/-- If the result agrees, there is no hidden parameter. -/
theorem hidden_eq_nil (same : (valuePassing other types t).retChars.2 =
    ((wasmType t).map BridgeInput.sigChar).getD 'i') : (valuePassing other types t).retChars.1 = [] := by
  cases how : valuePassing other types t with
  | ignored => rfl
  | direct c => rfl
  | twoI64 =>
    rw [how] at same
    rw [eq_void_of_sigChar same.symm] at how
    exact absurd how nofun
  | indirect =>
    rw [how] at same
    rw [eq_void_of_sigChar same.symm] at how
    exact absurd how nofun

end Agree

/-- Characters for elements are the same as lists for them just if each list is the one character. -/
theorem flatMap_eq_map_iff {α β : Type*} {l : List α} {f : α → β} {g : α → List β}
    (some : ∀ a ∈ l, g a ≠ []) : l.flatMap g = l.map f ↔ ∀ a ∈ l, g a = [f a] := by
  have long {l : List α} (some : ∀ a ∈ l, g a ≠ []) : l.length ≤ (l.flatMap g).length := by
    induction l with
    | nil => simp
    | cons a l ih =>
      have first := List.length_pos_iff.mpr (some a List.mem_cons_self)
      have rest := ih fun b mem => some b (List.mem_cons_of_mem a mem)
      rw [List.flatMap_cons, List.length_append, List.length_cons]
      omega
  induction l with
  | nil => simp
  | cons a l ih =>
    have tail : l.flatMap g = l.map f ↔ ∀ b ∈ l, g b = [f b] :=
      ih fun b mem => some b (List.mem_cons_of_mem a mem)
    rw [List.flatMap_cons, List.map_cons, List.forall_mem_cons]
    constructor
    · intro same
      have bound := long fun b mem => some b (List.mem_cons_of_mem a mem)
      have total := congrArg List.length same
      rw [List.length_append, List.length_cons, List.length_map] at total
      have first := List.length_pos_iff.mpr (some a List.mem_cons_self)
      have apart : g a ++ l.flatMap g = [f a] ++ l.map f := same
      obtain ⟨head, rest⟩ := List.append_inj apart (by rw [List.length_singleton]; omega)
      exact ⟨head, tail.mp rest⟩
    · rintro ⟨head, rest⟩
      rw [head, tail.mpr rest]
      rfl

theorem mapM_eq_map {α β : Type} {f : α → Option β} {g : α → β} {l : List α}
    (all : ∀ a ∈ l, f a = some (g a)) : l.mapM f = some (l.map g) := by
  induction l with
  | nil => rfl
  | cons a l ih =>
    rw [List.mapM_cons, all a List.mem_cons_self, ih fun b mem => all b (List.mem_cons_of_mem a mem)]
    rfl

theorem mapM_eq_none_iff {α β : Type} {f : α → Option β} {l : List α} :
    l.mapM f = none ↔ ∃ a ∈ l, f a = none := by
  induction l with
  | nil => simp
  | cons a l ih =>
    rw [List.mapM_cons, List.exists_mem_cons_iff, ← ih]
    cases f a with
    | none => simp
    | some b => cases l.mapM f <;> simp

namespace BridgeInput

/-- A parameter has a type that is not rendered, so that the function is skipped. -/
def Skipped (d : BridgeInput) : Prop := ∃ a ∈ d.guest.args, d.argType a = none

/-- The types of the parameters are plain, and so is that of the result. -/
def LinkPlain (other : TypeInfo → Passing) (d : BridgeInput) : Prop :=
  (∀ a ∈ d.guest.args, ∀ t, d.gtypes.type a.typeUid = some t → SigPlain t = true) ∧
    ∀ t, d.guestRet = some t → ResultPlain other d.gtypes t

variable {other : TypeInfo → Passing} {d : BridgeInput}

/-- A function is skipped just if it has no signature. -/
theorem wasmSig_eq_none_iff : d.wasmSig = none ↔ d.Skipped := by
  rw [wasmSig, Option.map_eq_none_iff, mapM_eq_none_iff]
  simp only [Option.map_eq_none_iff]
  rfl

/-- The signature of a function that is not skipped. -/
theorem wasmSig_eq {w : Arg → WasmType} (rendered : ∀ a ∈ d.guest.args, d.argType a = some (w a)) :
    d.wasmSig = some ((d.wret.map sigChar).getD 'i',
      (d.guest.args.map fun a => sigChar (w a)) ++ if d.guest.variadic then ['i'] else []) := by
  have chars : (d.guest.args.mapM fun a => (d.argType a).map sigChar) =
      some (d.guest.args.map fun a => sigChar (w a)) :=
    mapM_eq_map fun a mem => by rw [rendered a mem, Option.map_some]
  rw [wasmSig, chars, Option.map_some]
  cases d.guest.variadic <;> simp

end BridgeInput

/-- The signature is that of the ABI, or the function is skipped, just if all its types are plain. -/
theorem link_signature_iff (other : TypeInfo → Passing) (d : BridgeInput) (guest : d.Guest32) :
    (∀ sig, d.wasmSig = some sig → sig = d.lowered other) ↔ d.Skipped ∨ d.LinkPlain other := by
  by_cases skipped : d.Skipped
  · rw [d.wasmSig_eq_none_iff.mpr skipped]
    exact iff_of_true nofun (.inl skipped)
  rw [or_iff_right skipped]
  have rendered : ∀ a ∈ d.guest.args, d.argType a = some ((d.argType a).getD .void) := by
    intro a mem
    cases found : d.argType a with
    | none => exact absurd ⟨a, mem, found⟩ skipped
    | some w => rfl
  obtain ⟨ret, result⟩ := Option.isSome_iff_exists.mp guest.ret
  have sizedRet : ∀ b isConst size, ret = .builtin b isConst size → size = b.size32 := by
    rintro b isConst size rfl
    exact guest.sizes d.guest.ret b isConst size result
  have agreeArgs : d.guest.args.flatMap (d.loweredArg other) =
      (d.guest.args.map fun a => BridgeInput.sigChar ((d.argType a).getD .void)) ↔
        ∀ a ∈ d.guest.args, ∀ t, d.gtypes.type a.typeUid = some t → SigPlain t = true := by
    have each : ∀ a ∈ d.guest.args, d.loweredArg other a ≠ [] ∧
        (d.loweredArg other a = [BridgeInput.sigChar ((d.argType a).getD .void)] ↔
          ∀ t, d.gtypes.type a.typeUid = some t → SigPlain t = true) := by
      intro a mem
      obtain ⟨t, found, value⟩ := guest.args a mem
      have shown : wasmType t = some ((d.argType a).getD .void) := by
        rw [← rendered a mem, BridgeInput.argType, found]
        rfl
      rw [BridgeInput.loweredArg, found]
      refine ⟨arg_ne_nil value shown, (arg_agrees value shown ?_).trans (by simp)⟩
      rintro b isConst size rfl
      exact guest.sizes a.typeUid b isConst size found
    rw [flatMap_eq_map_iff fun a mem => (each a mem).1]
    exact forall₂_congr fun a mem => (each a mem).2
  have agreeRet : _ ↔ ResultPlain other d.gtypes ret := ret_agrees sizedRet
  have wret : d.wret = wasmType ret := by
    rw [BridgeInput.wret, result]
    rfl
  have loweredRet : d.loweredRet other = (valuePassing other d.gtypes ret).retChars := by
    rw [BridgeInput.loweredRet, result]
  rw [BridgeInput.wasmSig_eq rendered, wret]
  simp only [Option.some.injEq, forall_eq', BridgeInput.lowered, loweredRet, Prod.mk.injEq,
    List.append_cancel_right_eq]
  rw [BridgeInput.LinkPlain, ← agreeArgs, result]
  simp only [Option.some.injEq, forall_eq']
  rw [← agreeRet, Prod.ext_iff]
  constructor
  · rintro ⟨same, params⟩
    have hidden := hidden_eq_nil same.symm
    rw [hidden, List.nil_append] at params
    exact ⟨params.symm, hidden, same.symm⟩
  · rintro ⟨params, hidden, same⟩
    dsimp only at hidden same
    rw [hidden, List.nil_append]
    exact ⟨same.symm, params.symm⟩

/-- `off_t lseek(int fd, off_t offset, int whence)`. -/
def lseekInput : BridgeInput where
  name := "lseek"
  guest := ⟨[⟨"fd", 1⟩, ⟨"offset", 2⟩, ⟨"whence", 1⟩], 2, false⟩
  host := ⟨[⟨"fd", 1⟩, ⟨"offset", 2⟩, ⟨"whence", 1⟩], 2, false⟩
  gtypes := [(1, .builtin .int false 4), (2, .builtin .longlong false 8)]
  htypes := [(1, .builtin .int false 4), (2, .builtin .long false 8)]
  publicHeader := true

theorem lseek_guest32 : lseekInput.Guest32 where
  ret := by decide
  args := by
    intro a mem
    simp only [lseekInput, List.mem_cons, List.not_mem_nil, or_false] at mem
    rcases mem with rfl | rfl | rfl
    · exact ⟨.builtin .int false 4, by decide, nofun⟩
    · exact ⟨.builtin .longlong false 8, by decide, nofun⟩
    · exact ⟨.builtin .int false 4, by decide, nofun⟩
  sizes := by
    intro uid b isConst size found
    by_cases one : uid = 1
    · subst one
      cases found
      rfl
    by_cases two : uid = 2
    · subst two
      cases found
      rfl
    have missing : lseekInput.gtypes.get uid = none := by
      rw [TypeTable.get, lseekInput, List.lookup_cons, beq_eq_false_iff_ne.mpr one, List.lookup_cons,
        beq_eq_false_iff_ne.mpr two]
      rfl
    rw [TypeTable.type, missing] at found
    cases found

theorem link_signature_lseek :
    lseekInput.lowered (fun _ => .indirect) = ('I', ['i', 'I', 'i']) := by
  have agrees := link_signature_iff (fun _ => .indirect) lseekInput lseek_guest32
  refine (agrees.mpr (.inr ⟨fun a mem t found => ?_, fun t found => ?_⟩) _ (by decide +kernel)).symm
  · simp only [lseekInput, List.mem_cons, List.not_mem_nil, or_false] at mem
    rcases mem with rfl | rfl | rfl <;> cases found <;> rfl
  · cases found
    rfl

/-- `long double ceill(long double x)`. -/
def ceillInput : BridgeInput where
  name := "ceill"
  guest := ⟨[⟨"x", 1⟩], 1, false⟩
  host := ⟨[⟨"x", 1⟩], 1, false⟩
  gtypes := [(1, .builtin .longDouble false 16)]
  htypes := [(1, .builtin .longDouble false 16)]
  publicHeader := true

/-- `div_t div(int numer, int denom)`. -/
def divInput : BridgeInput where
  name := "div"
  guest := ⟨[⟨"numer", 1⟩, ⟨"denom", 1⟩], 2, false⟩
  host := ⟨[⟨"numer", 1⟩, ⟨"denom", 1⟩], 2, false⟩
  gtypes := [(1, .builtin .int false 4), (2, .struct "div_t" 8 [⟨"quot", 0, 4, 1⟩, ⟨"rem", 4, 4, 1⟩])]
  htypes := [(1, .builtin .int false 4), (2, .struct "div_t" 8 [⟨"quot", 0, 4, 1⟩, ⟨"rem", 4, 4, 1⟩])]
  publicHeader := true

/-- `double scale(const double x)`. -/
def constInput : BridgeInput where
  name := "scale"
  guest := ⟨[⟨"x", 1⟩], 2, false⟩
  host := ⟨[⟨"x", 1⟩], 2, false⟩
  gtypes := [(1, .builtin .double true 8), (2, .builtin .double false 8)]
  htypes := [(1, .builtin .double true 8), (2, .builtin .double false 8)]
  publicHeader := true

/-- A `long double` is linked as one `f64`, a record result as a plain integer, and a `const double` as
an integer. -/
theorem link_signature_shifted :
    (ceillInput.wasmSig = some ('F', ['F']) ∧
      ceillInput.lowered (fun _ => .indirect) = ('v', ['i', 'I', 'I'])) ∧
    (divInput.wasmSig = some ('i', ['i', 'i']) ∧
      divInput.lowered (fun _ => .indirect) = ('v', ['i', 'i', 'i'])) ∧
    constInput.wasmSig = some ('F', ['I']) ∧ constInput.lowered (fun _ => .indirect) = ('F', ['F']) := by
  exact ⟨⟨by decide +kernel, rfl⟩, ⟨by decide +kernel, rfl⟩, by decide +kernel, rfl⟩

end Yos.Codegen
