import Yos.Codegen.Bridge
import Yos.Codegen.StructConvert

/-!
# Pointers to narrower scalars (`codegen/bridge.py`)

Where the builtin types behind a pair of pointers differ in size `_arg_translation_full` emits a thunk: a
temporary of the host's type is filled from guest memory, the host is given its address, and it is
written back after the call.  Guest memory is accessed under the name of the guest's type, which is that of
the host's type of this name once the thunk is compiled.  `narrow_thunks_iff` says for which functions just
the guest's object is read and written.

Parameters are known by their positions here.
-/

namespace Yos.Codegen

open Bytes

/-! ## Integers of the host's compiler -/

/-- All of them. -/
def Builtin.all : List Builtin :=
  [.bool, .char, .schar, .uchar, .short, .ushort, .int, .uint, .long, .ulong, .longlong, .ulonglong, .float,
    .double, .longDouble, .wchar]

/-- It is an integer type. -/
def Builtin.isInteger (b : Builtin) : Bool := b.reading != .float && b.reading != .longDouble

/-- Its values may be negative. -/
def Builtin.isSigned (b : Builtin) : Bool := b.reading != .bool && b.reading != .unsigned

/-- The builtin type of a name in emitted code. -/
def typeNamed (text : String) : Builtin :=
  (Builtin.all.find? fun b => text = builtinName b false ∨ text = builtinName b true).getD .int

/-- The value that a number is converted to, in an integer type of `n` bytes. -/
def castTo (b : Builtin) (n : ℕ) (z : ℤ) : ℤ :=
  if b = .bool then if z = 0 then 0 else 1
  else if b.isSigned then z.bmod (256 ^ n) else z % 256 ^ n

/-- The value of an object of `n` bytes. -/
def load (b : Builtin) (n : ℕ) (m : Bytes) (a : ℕ) : ℤ := intValue b.isSigned (fun i => m (a + i)) n

/-- The store of a number that is converted. -/
def storeAs (b : Builtin) (n : ℕ) (a : ℕ) (z : ℤ) : Write := ⟨a, n, leByte (castTo b n z)⟩

/-! ## The thunk -/

/-- `_guest_type`, of a builtin type. -/
def guestType (b : Builtin) (isConst : Bool) : String :=
  let name := builtinName b isConst
  if name.startsWith "const " then (name.drop 6).toString else name

/-- The builtin types that two pointers point to, with their sizes, and whether the guest's is constant. -/
structure Pointees where
  guest : Builtin
  guestConst : Bool
  guestSize : ℤ
  host : Builtin
  hostConst : Bool
  hostSize : ℤ
  isConst : Bool

/-- The names of the types in a thunk, and whether it does not write back. -/
structure NarrowThunk where
  guestT : String
  hostT : String
  isConst : Bool

namespace BridgeInput

variable (d : BridgeInput) {p : (Arg × Arg) × ℕ}

/-- The pointees of a parameter. -/
def pointees (p : (Arg × Arg) × ℕ) : Option Pointees :=
  match d.gtypes.type p.1.1.typeUid, d.htypes.type p.1.2.typeUid with
  | some (.pointer gp isConst), some (.pointer hp _) =>
    match d.gtypes.type gp, d.htypes.type hp with
    | some (.builtin g guestConst gs), some (.builtin h hostConst hs) =>
      some ⟨g, guestConst, gs, h, hostConst, hs, isConst || guestConst⟩
    | _, _ => none
  | _, _ => none

/-- The thunk of `_arg_translation_full`. -/
def thunk (p : (Arg × Arg) × ℕ) : Option NarrowThunk :=
  (d.pointees p).bind fun q =>
    if q.guestSize ≠ 0 ∧ q.hostSize ≠ 0 ∧ q.guestSize ≠ q.hostSize then
      some ⟨guestType q.guest q.guestConst, builtinName q.host q.hostConst, q.isConst⟩
    else none

/-- A thunk is emitted where the argument is translated through a temporary. -/
theorem argKind_narrow_iff {isConst : Bool} :
    d.argKind p = some (.narrow isConst) ↔ ∃ t, d.thunk p = some t ∧ t.isConst = isConst := by
  constructor
  · intro narrow
    unfold argKind at narrow
    split at narrow
    case h_2 guestPointer hostPointer =>
      split at narrow
      case h_1 g guestConst gs h hostConst hs guest host =>
        split_ifs at narrow with differ
        · have same := ArgKind.narrow.inj (Option.some.inj narrow)
          refine ⟨⟨guestType g guestConst, builtinName h hostConst, _⟩, ?_, same⟩
          simp only [thunk, pointees, guestPointer, hostPointer, guest, host, Option.bind_some]
          exact if_pos differ
        · cases narrow
      case h_2 => cases narrow
    all_goals cases narrow
  · rintro ⟨t, found, rfl⟩
    obtain ⟨q, pointees, found⟩ := Option.bind_eq_some_iff.mp found
    split_ifs at found with differ
    obtain rfl := Option.some.inj found
    unfold BridgeInput.pointees at pointees
    split at pointees
    case h_1 guestPointer hostPointer =>
      split at pointees
      case h_1 guest host =>
        obtain rfl := Option.some.inj pointees
        simp only [argKind, guestPointer, hostPointer, guest, host]
        exact if_pos differ
      case h_2 => cases pointees
    case h_2 => cases pointees

end BridgeInput

/-! ## Calls -/

/-- A function with a bridge, and the sizes of the types on the host, which the host's description has. -/
structure NarrowInput extends BridgeInput where
  emitted : toBridgeInput.canEmit = true
  sizeof : Builtin → ℕ
  described : ∀ uid b isConst size, htypes.type uid = some (.builtin b isConst size) → size = sizeof b

/-- What the host is given for a pointer: `NULL`, a temporary with its value, or what
`yos_path_resolve` makes of it. -/
inductive GivenPtr where
  | null
  | temp (value : ℤ)
  | resolved
deriving DecidableEq, Repr

/-- A call of the bridge: the offsets that the guest passes, its memory, and what the host's function does:
from what it is given and the memory it makes the values of the temporaries, by position, and the
memory. -/
structure NarrowCall (d : NarrowInput) where
  offs : ℕ → ℕ
  mem : Bytes
  callee : List GivenPtr → Bytes → (ℕ → ℤ) × Bytes

namespace NarrowInput

variable (d : NarrowInput)

/-- `{host_t} {var}_v = ({host_t})*({guest_t} *)(ctx->memory + {var})`. -/
def filled (t : NarrowThunk) (m : Bytes) (off : ℕ) : ℤ :=
  let g := typeNamed t.guestT
  let h := typeNamed t.hostT
  castTo h (d.sizeof h) (load g (d.sizeof g) m off)

/-- `*({guest_t} *)(ctx->memory + {var}) = ({guest_t}){var}_v`. -/
def writeBack (t : NarrowThunk) (off : ℕ) (z : ℤ) : Write :=
  let g := typeNamed t.guestT
  storeAs g (d.sizeof g) off z

/-- The parameter is an argument of `_PATH_ARG_FNS`. -/
def isPath (p : (Arg × Arg) × ℕ) : Bool := p.2 ∈ (pathArgFns.lookup d.name).getD []

/-- The parameter points to an integer that is narrower in the guest. -/
def narrow (p : (Arg × Arg) × ℕ) : Option Pointees :=
  (d.pointees p).filter fun q =>
    q.guest.isInteger && q.host.isInteger && decide (0 < q.guestSize ∧ q.guestSize < q.hostSize)

/-- The type of each such integer has on the host the size that it has in the guest, and none is an
argument for a path. -/
def WidthsOk : Prop :=
  ∀ p ∈ d.pairs, ∀ q, d.narrow p = some q → (d.sizeof q.guest : ℤ) = q.guestSize ∧ d.isPath p = false

end NarrowInput

namespace NarrowCall

variable {d : NarrowInput} (c : NarrowCall d)

/-- What the host is given for a parameter with a thunk. -/
def given (p : (Arg × Arg) × ℕ) : Option GivenPtr :=
  (d.thunk p).map fun t =>
    if d.isPath p then .resolved
    else if c.offs p.2 = 0 then .null else .temp (d.filled t c.mem (c.offs p.2))

/-- The temporaries and the memory after the host's function. -/
def after : (ℕ → ℤ) × Bytes := c.callee (d.pairs.filterMap c.given) c.mem

/-- What the thunk of a parameter writes after the call. -/
def post (p : (Arg × Arg) × ℕ) : List Write :=
  match d.thunk p with
  | some t => if t.isConst ∨ c.offs p.2 = 0 then [] else [d.writeBack t (c.offs p.2) (c.after.1 p.2)]
  | none => []

/-- The memory after the thunks. -/
def final : Bytes := Write.runAll (d.pairs.flatMap c.post) c.after.2

/-- What should be written: just the guest's object. -/
def wanted (p : (Arg × Arg) × ℕ) : List Write :=
  match d.narrow p with
  | some q =>
    if q.isConst ∨ c.offs p.2 = 0 then []
    else [storeAs q.guest q.guestSize.toNat (c.offs p.2) (c.after.1 p.2)]
  | none => c.post p

/-- The thunks are right: for a pointer to a narrower integer the host is given `NULL` for `NULL`, and else
the value of the guest's object in a temporary, and the value that it leaves there goes to the guest's
object and to no other byte, unless that is constant. -/
structure Right : Prop where
  entry : ∀ p ∈ d.pairs, ∀ q, d.narrow p = some q → c.given p = some
    (if c.offs p.2 = 0 then .null
      else .temp (castTo q.host q.hostSize.toNat (load q.guest q.guestSize.toNat c.mem (c.offs p.2))))
  exit : c.final = Write.runAll (d.pairs.flatMap c.wanted) c.after.2

end NarrowCall

/-! ## Names of types -/

theorem typeNamed_guestType (b : Builtin) (isConst : Bool) : typeNamed (guestType b isConst) = b := by
  cases b <;> cases isConst <;> decide +kernel

theorem typeNamed_builtinName (b : Builtin) (isConst : Bool) : typeNamed (builtinName b isConst) = b := by
  cases b <;> cases isConst <;> decide +kernel

/-! ## Objects of two sizes -/

section Sizes

variable {b : Builtin} {n k : ℕ}

/-- A memory with a single 1, `k` bytes after an address. -/
def oneAt (a k : ℕ) : Bytes := fun x => if x = a + k then 1 else 0

theorem readLE_oneAt (a k n : ℕ) :
    readLE (fun i => oneAt a k (a + i)) n = if k < n then 256 ^ k else 0 := by
  induction n with
  | zero => rfl
  | succ n ih =>
    rw [readLE, ih, oneAt]
    by_cases here : n = k
    · subst here
      simp
    · have other : ¬ a + n = a + k := by omega
      have same : k < n + 1 ↔ k < n := by omega
      simp [same, here]

/-- A power of 256 below the sign bit stays as it is. -/
theorem bmod_pow (lt : k < n) : Int.bmod (256 ^ k) (256 ^ n) = 256 ^ k := by
  obtain ⟨j, rfl⟩ := Nat.exists_eq_add_of_lt lt
  have pos : (0 : ℤ) < 256 ^ k := by positivity
  have le : (256 : ℤ) ^ k ≤ 256 ^ (k + j) := pow_le_pow_right₀ (by norm_num) (Nat.le_add_right k j)
  have modulus : ((256 ^ (k + j + 1) : ℕ) : ℤ) = 256 * 256 ^ (k + j) := by
    push_cast
    ring
  apply Int.bmod_eq_of_le
  · rw [modulus]
    omega
  · rw [modulus]
    omega

theorem load_oneAt (b : Builtin) (a k n : ℕ) :
    load b n (oneAt a k) a = if k < n then 256 ^ k else 0 := by
  unfold load intValue
  rw [readSigned, readLE_oneAt]
  by_cases lt : k < n
  · rw [if_pos lt, if_pos lt]
    push_cast
    rw [bmod_pow lt, ite_self]
  · rw [if_neg lt, if_neg lt]
    simp

theorem castTo_zero (b : Builtin) (n : ℕ) : castTo b n 0 = 0 := by
  unfold castTo
  by_cases bool : b = .bool
  · rw [if_pos bool, if_pos rfl]
  · rw [if_neg bool, Int.zero_emod, Int.zero_bmod, ite_self]

theorem castTo_pow (b : Builtin) (lt : k < n) : castTo b n (256 ^ k) ≠ 0 := by
  have some : (256 : ℤ) ^ k ≠ 0 := by positivity
  have pos : (0 : ℤ) ≤ 256 ^ k := by positivity
  unfold castTo
  by_cases bool : b = .bool
  · rw [if_pos bool, if_neg some]
    exact one_ne_zero
  · rwa [if_neg bool, bmod_pow lt, Int.emod_eq_of_lt pos (pow_lt_pow_right₀ (by norm_num) lt), ite_self]

/-- An object that is read with another size than its own has another value, in some memory. -/
theorem load_differs (g h : Builtin) {own other wide : ℕ} (ne : other ≠ own) (narrow : own < wide) (a : ℕ) :
    castTo h wide (load g other (oneAt a (min own other)) a) ≠
      castTo h wide (load g own (oneAt a (min own other)) a) := by
  rw [load_oneAt, load_oneAt]
  rcases lt_or_gt_of_ne ne with short | long
  · rw [if_neg (by omega), if_pos (by omega), castTo_zero]
    exact (castTo_pow h (by omega)).symm
  · rw [if_pos (by omega), if_neg (by omega), castTo_zero]
    exact castTo_pow h (by omega)

end Sizes

/-! ## Which thunks are right -/

namespace NarrowInput

variable {d : NarrowInput} {p : (Arg × Arg) × ℕ} {q : Pointees}

theorem pointees_of_narrow (narrow : d.narrow p = some q) :
    d.pointees p = some q ∧ 0 < q.guestSize ∧ q.guestSize < q.hostSize := by
  obtain ⟨pointees, some⟩ := Option.filter_eq_some_iff.mp narrow
  simp only [Bool.and_eq_true, decide_eq_true_eq] at some
  exact ⟨pointees, some.2⟩

/-- A thunk is emitted for it. -/
theorem thunk_of_narrow (narrow : d.narrow p = some q) : d.thunk p =
    some ⟨guestType q.guest q.guestConst, builtinName q.host q.hostConst, q.isConst⟩ := by
  obtain ⟨pointees, pos, lt⟩ := pointees_of_narrow narrow
  rw [BridgeInput.thunk, pointees, Option.bind_some, if_pos ⟨by omega, by omega, by omega⟩]

/-- The size of the temporary. -/
theorem sizeof_host (narrow : d.narrow p = some q) : (d.sizeof q.host : ℤ) = q.hostSize := by
  have pointees := (pointees_of_narrow narrow).1
  unfold BridgeInput.pointees at pointees
  split at pointees
  case h_1 =>
    split at pointees
    case h_1 host =>
      obtain rfl := Option.some.inj pointees
      exact (d.described _ _ _ _ host).symm
    case h_2 => cases pointees
  case h_2 => cases pointees

end NarrowInput

namespace NarrowCall

variable {d : NarrowInput} (c : NarrowCall d) {p : (Arg × Arg) × ℕ} {q : Pointees}

theorem given_of_narrow (narrow : d.narrow p = some q) : c.given p = some
    (if d.isPath p then .resolved else if c.offs p.2 = 0 then .null
      else .temp (castTo q.host q.hostSize.toNat
        (load q.guest (d.sizeof q.guest) c.mem (c.offs p.2)))) := by
  have size : d.sizeof q.host = q.hostSize.toNat := by
    have := NarrowInput.sizeof_host narrow
    omega
  rw [given, NarrowInput.thunk_of_narrow narrow, Option.map_some]
  unfold NarrowInput.filled
  simp only [typeNamed_guestType, typeNamed_builtinName, size]

/-- What is written for it. -/
theorem post_of_narrow (narrow : d.narrow p = some q) : c.post p =
    if q.isConst ∨ c.offs p.2 = 0 then []
    else [storeAs q.guest (d.sizeof q.guest) (c.offs p.2) (c.after.1 p.2)] := by
  unfold post
  rw [NarrowInput.thunk_of_narrow narrow]
  simp only [NarrowInput.writeBack, typeNamed_guestType]

/-- Where the sizes are the same just the object is written. -/
theorem post_eq_wanted (ok : d.WidthsOk) (mem : p ∈ d.pairs) : c.post p = c.wanted p := by
  unfold wanted
  cases narrow : d.narrow p with
  | none => rfl
  | some q =>
    have size : d.sizeof q.guest = q.guestSize.toNat := by
      have := (ok p mem q narrow).1
      omega
    rw [c.post_of_narrow narrow, size]

end NarrowCall

/-- The thunks of a function are right in every call exactly when the type of each integer that is narrower
in the guest has on the host the size that it has in the guest, and none is an argument for a path. -/
theorem narrow_thunks_iff (d : NarrowInput) : (∀ c : NarrowCall d, c.Right) ↔ d.WidthsOk := by
  constructor
  · intro right p mem q narrow
    obtain ⟨-, pos, lt⟩ := NarrowInput.pointees_of_narrow narrow
    -- a memory in which the sizes tell the value, and a host function that does nothing
    let c : NarrowCall d := ⟨fun _ => 1, oneAt 1 (min q.guestSize.toNat (d.sizeof q.guest)), fun _ m => (fun _ => 0, m)⟩
    have entry := ((c.given_of_narrow narrow).symm.trans ((right c).entry p mem q narrow))
    have offset : ¬ c.offs p.2 = 0 := Nat.one_ne_zero
    rw [if_neg offset, if_neg offset] at entry
    cases path : d.isPath p with
    | true =>
      rw [path, if_pos rfl] at entry
      cases entry
    | false =>
      rw [path, if_neg Bool.false_ne_true] at entry
      refine ⟨?_, rfl⟩
      by_contra differ
      exact load_differs q.guest q.host (by omega) (by omega) 1 (GivenPtr.temp.inj (Option.some.inj entry))
  · intro ok c
    refine ⟨fun p mem q narrow => ?_, ?_⟩
    · obtain ⟨size, path⟩ := ok p mem q narrow
      have size : d.sizeof q.guest = q.guestSize.toNat := by omega
      rw [c.given_of_narrow narrow, path, if_neg Bool.false_ne_true, size]
    · unfold NarrowCall.final
      congr 1
      exact List.flatMap_congr fun p mem => c.post_eq_wanted ok mem

example : guestType .ulong true = "unsigned long" := by decide +kernel

/-! ## A `long` -/

/-- The sizes on a host with a `long` of 64 bits. -/
def sizeof64 : Builtin → ℕ
  | .bool | .char | .schar | .uchar => 1
  | .short | .ushort => 2
  | .int | .uint | .float | .wchar => 4
  | .long | .ulong | .longlong | .ulonglong | .double => 8
  | .longDouble => 16

/-- `int getlong(long *value)`. -/
def getlongInput : BridgeInput where
  name := "getlong"
  guest := ⟨[⟨"value", 3⟩], 1, false⟩
  host := ⟨[⟨"value", 3⟩], 1, false⟩
  gtypes := [(1, .builtin .int false 4), (2, .builtin .long false 4), (3, .pointer 2 false)]
  htypes := [(1, .builtin .int false 4), (2, .builtin .long false 8), (3, .pointer 2 false)]
  publicHeader := true

theorem getlong_described (uid : Uid) (b : Builtin) (isConst : Bool) (size : ℤ)
    (found : getlongInput.htypes.type uid = some (.builtin b isConst size)) : size = sizeof64 b := by
  by_cases one : uid = 1
  · subst one
    cases found
    rfl
  by_cases two : uid = 2
  · subst two
    cases found
    rfl
  by_cases three : uid = 3
  · subst three
    cases found
  have missing : getlongInput.htypes.get uid = none := by
    rw [TypeTable.get, getlongInput, List.lookup_cons, beq_eq_false_iff_ne.mpr one, List.lookup_cons,
      beq_eq_false_iff_ne.mpr two, List.lookup_cons, beq_eq_false_iff_ne.mpr three]
    rfl
  rw [TypeTable.type, missing] at found
  cases found

theorem getlong_emitted : getlongInput.canEmit = true := by decide +kernel

/-- The function on a host with a `long` of 64 bits. -/
def getlongThunk : NarrowInput := ⟨getlongInput, getlong_emitted, sizeof64, getlong_described⟩

/-- A guest whose `long` is at 4096, before another variable that is 1; the host stores 5. -/
def getlongCall : NarrowCall getlongThunk where
  offs := fun _ => 4096
  mem := fun x => if x = 4100 then 1 else 0
  callee := fun _ m => (fun _ => 5, m)

/-- The variable behind the `long` is overwritten. -/
theorem getlong_wrong : getlongCall.final 4100 = 0 ∧ ¬ getlongCall.Right := by
  have overwritten : getlongCall.final 4100 = 0 := by decide +kernel
  refine ⟨overwritten, fun right => ?_⟩
  have kept : Write.runAll (getlongThunk.pairs.flatMap getlongCall.wanted) getlongCall.after.2 4100 = 1 := by
    decide +kernel
  rw [← right.exit, overwritten] at kept
  exact absurd kept (by decide)

end Yos.Codegen
