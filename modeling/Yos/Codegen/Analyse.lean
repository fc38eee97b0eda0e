import Yos.Codegen.StructConvert

/-!
# Mechanical differences (`codegen/analyse.py`)

`_classify_delta` says which differences an emitter can handle by itself.  A pair of structures is
compared field by field only when all sizes and offsets are the same, so of the differences that are
called mechanical none can be left but arrays with different numbers of elements of different sizes,
which the converters do not handle: `mechanical_never_sound`.
-/

namespace Yos.Codegen

/-! ## The classification -/

/-- The verdicts, from the best to the worst. -/
inductive Verdict where
  | mechanical
  | needsPolicy
  | unsupported
deriving DecidableEq, Repr

/-- The worse of two verdicts. -/
def Verdict.worst : Verdict → Verdict → Verdict
  | .unsupported, _ => .unsupported
  | _, .unsupported => .unsupported
  | .needsPolicy, _ => .needsPolicy
  | _, .needsPolicy => .needsPolicy
  | .mechanical, .mechanical => .mechanical

mutual

/-- `_classify_delta`. -/
def classifyDelta : Delta → Verdict
  | .missingUid .. | .recursionLimit => .unsupported
  | .pointerDescent pointee => classifyDelta pointee
  | .arrayDescent element => classifyDelta element
  | .convertStruct _ _ fields => classifyFields fields
  | .widen .. | .narrow .. | .arrayResize .. => .mechanical
  | .convertStructLayout .. | .kindMismatch .. | .reinterpretSize .. | .unionSizeDiffer ..
  | .enumSizeDiffer .. | .opaqueSizeDiffer .. => .needsPolicy
  | .offsetShift .. | .fieldSize .. | .fieldType .. => .unsupported

/-- Its loop over the differences of fields. -/
def classifyFields : List Delta → Verdict
  | [] => .mechanical
  | .fieldType _ _ delta :: fields => (classifyDelta delta).worst (classifyFields fields)
  | _ :: fields => Verdict.needsPolicy.worst (classifyFields fields)

end

/-! ## Differences that a converter handles -/

/-- The difference is one that the converters handle: integers of different sizes, arrays of different
numbers of the same bytes, and tracked structures with such differences. -/
inductive Handled (gtypes htypes : TypeTable) : Uid → Uid → Delta → Prop where
  | widen {g h : Uid} {a b : Builtin} {ac bc : Bool} {gs hs : ℤ}
    (guest : gtypes.typeOrDangling g = some (.builtin a ac gs))
    (host : htypes.typeOrDangling h = some (.builtin b bc hs)) : Handled gtypes htypes g h (.widen a b gs hs)
  | narrow {g h : Uid} {a b : Builtin} {ac bc : Bool} {gs hs : ℤ}
    (guest : gtypes.typeOrDangling g = some (.builtin a ac gs))
    (host : htypes.typeOrDangling h = some (.builtin b bc hs)) : Handled gtypes htypes g h (.narrow a b gs hs)
  | resize {g h ge he : Uid} {a b : Builtin} {ac bc : Bool} {gc hc : ℤ}
    (guest : gtypes.typeOrDangling g = some (.array gc ge))
    (host : htypes.typeOrDangling h = some (.array hc he))
    (guestByte : gtypes.typeOrDangling ge = some (.builtin a ac 1))
    (hostByte : htypes.typeOrDangling he = some (.builtin b bc 1)) (same : a.reading = b.reading) :
    Handled gtypes htypes g h (.arrayResize gc hc)
  | struct {g h : Uid} {a b : String} {gs hs : ℤ} {gf hf : List Field} {name : String} {size : ℤ}
    {deltas : List Delta} (guest : gtypes.typeOrDangling g = some (.struct a gs gf))
    (host : htypes.typeOrDangling h = some (.struct b hs hf)) (tracked : a ∈ trackedStructs)
    (types : ∀ d ∈ deltas, ∃ i n delta, d = .fieldType i n delta)
    (fields : ∀ i n delta p, .fieldType i n delta ∈ deltas → (gf.zip hf)[i]? = some p →
      Handled gtypes htypes p.1.typeUid p.2.typeUid delta) :
    Handled gtypes htypes g h (.convertStruct name size deltas)

/-- The sizes of fields are those of their types, as clang gives them. -/
def SizedFields (types : TypeTable) : Prop :=
  ∀ uid name size fields, types.typeOrDangling uid = some (.struct name size fields) → ∀ f ∈ fields,
    (∀ b c s, types.typeOrDangling f.typeUid = some (.builtin b c s) → f.size = s) ∧
    ∀ count e b c s, types.typeOrDangling f.typeUid = some (.array count e) →
      types.typeOrDangling e = some (.builtin b c s) → f.size = count * s

/-- A pair of structures whose differences are called mechanical. -/
structure MechanicalPair extends ConvertTables where
  guestSized : SizedFields gtypes
  hostSized : SizedFields htypes
  guest : Uid
  host : Uid
  name : String
  isGuestStruct : ∃ size fields, gtypes.typeOrDangling guest = some (.struct name size fields)
  isHostStruct : ∃ size fields, htypes.typeOrDangling host = some (.struct name size fields)
  delta : Delta
  compared : typesCompatible gtypes htypes 17 guest host = some delta
  mechanical : classifyDelta delta = .mechanical

namespace MechanicalPair

variable (m : MechanicalPair)

/-- The elements of an array of integers. -/
def element (signed : Bool) (size : ℕ) (content : ℕ → UInt8) (j : ℕ) : ℤ :=
  intValue signed (fun i => content (j * size + i)) size

/-- The field has the same value at the host, of an array as many elements as both have; a number that
does not fit keeps its low bytes. -/
structure SameValue (gf hf : Field) : Prop where
  scalar : ∀ sg sh, m.guestInt gf = some sg → m.hostInt hf = some sh → ∀ guest w host h,
    let value := intValue sh (fun i => m.cvW2h m.name host h guest w (h + hf.offset + i)) hf.len
    let original := intValue sg (fun i => guest (w + gf.offset + i)) gf.len
    value ≡ original [ZMOD 256 ^ hf.len] ∧ (gf.len ≤ hf.len → value = original)
  array : ∀ gc ge hc he a ac gs b bc hs sg sh, m.gtypes.typeOrDangling gf.typeUid = some (.array gc ge) →
    m.htypes.typeOrDangling hf.typeUid = some (.array hc he) →
    m.gtypes.typeOrDangling ge = some (.builtin a ac gs) →
    m.htypes.typeOrDangling he = some (.builtin b bc hs) → TypeInfo.signed? (.builtin a ac gs) = some sg →
    TypeInfo.signed? (.builtin b bc hs) = some sh → ∀ guest w host h, ∀ j < (min gc hc).toNat,
      element sh hs.toNat (fun i => m.cvW2h m.name host h guest w (h + hf.offset + i)) j =
        element sg gs.toNat (fun i => guest (w + gf.offset + i)) j

/-- The verdict is sound: the converters handle the differences, and each field has the same value after
the conversion. -/
structure Sound : Prop where
  handled : Handled m.gtypes m.htypes m.guest m.host m.delta
  values : ∀ size fields size' fields', m.gtypes.typeOrDangling m.guest = some (.struct m.name size fields) →
    m.htypes.typeOrDangling m.host = some (.struct m.name size' fields') →
    ∀ gf ∈ fields, ∀ hf ∈ fields', hf.name = gf.name → m.SameValue gf hf

end MechanicalPair

/-! ## Why no mechanical difference is handled -/

section Never

variable {gtypes htypes : TypeTable} {n : ℕ} {g h : Uid} {delta : Delta}

/-- A difference of fields whose types are compared comes from fields of one size. -/
theorem fieldDelta_eq_fieldType {compare : Uid → Uid → Option Delta} {p : (Field × Field) × ℕ} {i : ℕ}
    {name : String} (found : fieldDelta compare p = some (.fieldType i name delta)) :
    i = p.2 ∧ p.1.1.size = p.1.2.size ∧ compare p.1.1.typeUid p.1.2.typeUid = some delta := by
  unfold fieldDelta at found
  dsimp only at found
  split at found
  · cases found
  · split at found
    · cases found
    · rename_i size
      obtain ⟨other, compared, same⟩ := Option.map_eq_some_iff.mp found
      cases same
      exact ⟨rfl, not_not.mp size, compared⟩

/-- Types of one size, if they are scalars or arrays of bytes. -/
structure SameSize (gtypes htypes : TypeTable) (g h : Uid) : Prop where
  scalar : ∀ a ac gs b bc hs, gtypes.typeOrDangling g = some (.builtin a ac gs) →
    htypes.typeOrDangling h = some (.builtin b bc hs) → gs = hs
  bytes : ∀ gc ge a ac hc he b bc, gtypes.typeOrDangling g = some (.array gc ge) →
    htypes.typeOrDangling h = some (.array hc he) → gtypes.typeOrDangling ge = some (.builtin a ac 1) →
    htypes.typeOrDangling he = some (.builtin b bc 1) → gc = hc

theorem sameSize_of_fields {gname hname : String} {gs hs : ℤ} {gf hf : List Field} {p : Field × Field}
    (guestSized : SizedFields gtypes) (hostSized : SizedFields htypes)
    (guest : gtypes.typeOrDangling g = some (.struct gname gs gf))
    (host : htypes.typeOrDangling h = some (.struct hname hs hf)) (mem : p ∈ gf.zip hf)
    (size : p.1.size = p.2.size) : SameSize gtypes htypes p.1.typeUid p.2.typeUid := by
  obtain ⟨left, right⟩ := List.of_mem_zip mem
  obtain ⟨gscalar, garray⟩ := guestSized g gname gs gf guest p.1 left
  obtain ⟨hscalar, harray⟩ := hostSized h hname hs hf host p.2 right
  constructor
  · intro a ac s b bc s' isGuest isHost
    rw [← gscalar a ac s isGuest, ← hscalar b bc s' isHost, size]
  · intro gc ge a ac hc he b bc isGuest isHost guestByte hostByte
    have guestSize := garray gc ge a ac 1 isGuest guestByte
    have hostSize := harray hc he b bc 1 isHost hostByte
    omega

/-- A difference between types of one size is not handled. -/
theorem not_handled (guestSized : SizedFields gtypes) (hostSized : SizedFields htypes)
    (handled : Handled gtypes htypes g h delta) (same : SameSize gtypes htypes g h)
    (compared : typesCompatible gtypes htypes n g h = some delta) : False := by
  induction handled generalizing n with
  | widen guest host =>
    cases n with
    | zero => cases compared
    | succ n =>
      rw [typesCompatible, guest, host] at compared
      dsimp only at compared
      rw [if_pos (same.scalar _ _ _ _ _ _ guest host)] at compared
      cases compared
  | narrow guest host =>
    cases n with
    | zero => cases compared
    | succ n =>
      rw [typesCompatible, guest, host] at compared
      dsimp only at compared
      rw [if_pos (same.scalar _ _ _ _ _ _ guest host)] at compared
      cases compared
  | resize guest host guestByte hostByte reading =>
    cases n with
    | zero => cases compared
    | succ n =>
      rw [typesCompatible, guest, host] at compared
      dsimp only at compared
      rw [if_neg (not_not.mpr (same.bytes _ _ _ _ _ _ _ _ guest host guestByte hostByte))] at compared
      obtain ⟨inner, -, no⟩ := Option.map_eq_some_iff.mp compared
      cases no
  | @struct g h a b gs hs gf hf name size deltas guest host tracked types fields ih =>
    cases n with
    | zero => cases compared
    | succ n =>
      rw [typesCompatible, guest, host] at compared
      dsimp only at compared
      split at compared
      · split at compared
        · cases compared
        · rename_i nonempty
          cases compared
          -- Any of the differences will do; there is one.
          obtain ⟨d, mem⟩ := List.exists_mem_of_ne_nil _ fun nil => nonempty (List.isEmpty_iff.mpr nil)
          obtain ⟨i, fieldName, inner, rfl⟩ := types d mem
          obtain ⟨p, listed, found⟩ := List.mem_filterMap.mp mem
          obtain ⟨rfl, size, comparedInner⟩ := fieldDelta_eq_fieldType found
          have place := List.mem_zipIdx_iff_getElem?.mp listed
          have sameInner := sameSize_of_fields guestSized hostSized guest host
            (List.mem_of_getElem? place) size
          exact ih _ _ _ _ mem place sameInner comparedInner
      · cases compared

end Never

/-- No verdict that a pair of structures is mechanical is sound. -/
theorem mechanical_never_sound (m : MechanicalPair) : ¬ m.Sound := by
  intro sound
  obtain ⟨gs, gf, guest⟩ := m.isGuestStruct
  obtain ⟨hs, hf, host⟩ := m.isHostStruct
  refine not_handled m.guestSized m.hostSized sound.handled ⟨?_, ?_⟩ m.compared
  · intro a ac s b bc s' isGuest
    cases guest.symm.trans isGuest
  · intro gc ge a ac hc he b bc isGuest
    cases guest.symm.trans isGuest

/-- `struct utsname` with a field `char data[8]` in the guest and `short data[4]` at the host. -/
def mixedContext : ConvertContext where
  gtypes := [(1, .builtin .char false 1), (2, .array 8 1), (3, .struct "utsname" 8 [⟨"data", 0, 8, 2⟩])]
  htypes := [(1, .builtin .short false 2), (2, .array 4 1), (3, .struct "utsname" 8 [⟨"data", 0, 8, 2⟩])]
  casts := ⟨fun _ _ => 0, fun _ _ _ => 0⟩
  rank := fun _ => 0

/-- Its bytes are copied. -/
def mixedConverter : Converter := ⟨8, 8, [((⟨"data", 0, 8, 2⟩, ⟨"data", 0, 8, 2⟩), .bytes 8)]⟩

theorem mixed_only (n : String) (other : n ≠ "utsname") : mixedContext.gtypes.findStruct n = none := by
  simp [mixedContext, TypeTable.findStruct, TypeInfo.isStruct, other.symm]

/-- A table of scalars, an array of them and a structure with it has the sizes of C. -/
theorem sizedFields_array (b : Builtin) (s count : ℤ) (name : String) :
    SizedFields [(1, .builtin b false s), (2, .array count 1),
      (3, .struct name (count * s) [⟨"data", 0, count * s, 2⟩])] := by
  intro uid sname size fields found f mem
  obtain ⟨entry, got, loop⟩ := Option.bind_eq_some_iff.mp found
  obtain ⟨before, after, split, -⟩ := List.lookup_eq_some_iff.mp got
  have listed : (uid, entry) ∈ [(1, .builtin b false s), (2, .array count 1),
      (3, .struct name (count * s) [⟨"data", 0, count * s, 2⟩])] := by
    rw [split]
    exact List.mem_append_right _ List.mem_cons_self
  simp only [List.mem_cons, Prod.mk.injEq, List.not_mem_nil, or_false] at listed
  rcases listed with ⟨rfl, rfl⟩ | ⟨rfl, rfl⟩ | ⟨rfl, rfl⟩
  · cases loop
  · cases loop
  · cases loop
    cases List.mem_singleton.mp mem
    constructor
    · intro b' c s' isBuiltin
      change some (TypeInfo.array count 1) = some (.builtin b' c s') at isBuiltin
      cases isBuiltin
    · intro count' e b' c s' isArray isElement
      change some (TypeInfo.array count 1) = some (.array count' e) at isArray
      cases isArray
      change some (TypeInfo.builtin b false s) = some (.builtin b' c s') at isElement
      cases isElement
      rfl

def mixedPair : MechanicalPair where
  toConvertContext := mixedContext
  placed := by
    intro name cv conv
    obtain rfl := ConvertTables.converter_only mixed_only conv
    obtain rfl : cv = mixedConverter := (Option.some.inj conv).symm
    apply ConvertTables.placed_single
    · intro side
      cases side <;> decide
    · exact fun k no => nomatch no
    · exact fun s no => nomatch no
  guestSized := sizedFields_array .char 1 8 "utsname"
  hostSized := sizedFields_array .short 2 4 "utsname"
  guest := 3
  host := 3
  name := "utsname"
  isGuestStruct := ⟨_, _, rfl⟩
  isHostStruct := ⟨_, _, rfl⟩
  delta := .convertStruct "utsname" 8 [.fieldType 0 "data" (.arrayResize 8 4)]
  compared := by rfl
  mechanical := by rfl

/-- Two characters become one short number. -/
theorem mechanical_mixes_elements : ¬ mixedPair.Sound := by
  intro sound
  have same := (sound.values _ _ _ _ rfl rfl ⟨"data", 0, 8, 2⟩ (by decide) ⟨"data", 0, 8, 2⟩ (by decide)
    rfl).array 8 1 4 1 .char false 1 .short false 2 true true rfl rfl rfl rfl rfl rfl (fun _ => 1) 0
    (fun _ => 0) 0 0 (by decide)
  have shared : mixedPair.Shared "utsname" (0, 0) (⟨"data", 0, 8, 2⟩, ⟨"data", 0, 8, 2⟩) (.bytes 8) :=
    ⟨"utsname", mixedConverter, (0, 0), .self _, rfl, by decide, rfl⟩
  have bytes : MechanicalPair.element true 2 (fun i => mixedPair.cvW2h "utsname" (fun _ => 0) 0 (fun _ => 1)
      0 (0 + 0 + i)) 0 = MechanicalPair.element true 2 (fun _ => 1) 0 := by
    apply ConvertTables.intValue_congr
    intro i lt
    exact ConvertTables.cvW2h_bytes shared (by omega)
  exact absurd (bytes.symm.trans same) (by decide)

end Yos.Codegen
