import Yos.Codegen.Types

/-!
# Comparison of types (`codegen/compare.py`)

`_types_compatible` compares a type of the guest with one of the host; functions all of whose types are
compatible get bridges that pass addresses on as they are.  A pair is compatible when both types have
the same layout, or so the comment says; the code is lenient with pointers in memory, with types whose
contents it does not know, with structures that are not defined, with scalars of one size and with the
members of unions.  `compatible_sound_iff` says that these are the only ways in which it is wrong.

Layouts are those of the descriptions: they do not tell the bits of a bit-field.
-/

namespace Yos.Codegen

/-! ## Differences -/

/-- A difference, with its `op`; those of fields are among them.  The summaries for the reader are left
out. -/
inductive Delta where
  | recursionLimit
  | missingUid (guest host : Uid)
  | pointerDescent (pointee : Delta)
  | widen (guest host : Builtin) (guestSize hostSize : ℤ)
  | narrow (guest host : Builtin) (guestSize hostSize : ℤ)
  | convertStruct (name : String) (size : ℤ) (fields : List Delta)
  | convertStructLayout (name : String) (guestSize hostSize : ℤ) (guestCount hostCount : ℕ)
  | unionSizeDiffer (name : String) (guestSize hostSize : ℤ)
  | arrayResize (guestCount hostCount : ℤ)
  | arrayDescent (element : Delta)
  | enumSizeDiffer (guestSize hostSize : ℤ)
  | opaqueSizeDiffer (guestSize hostSize : Option ℤ)
  | reinterpretSize (guest host : String) (size : Option ℤ)
  | kindMismatch (guest host : String)
  | offsetShift (index : ℕ) (name : String) (guest host : ℕ)
  | fieldSize (index : ℕ) (name : String) (guest host : ℤ)
  | fieldType (index : ℕ) (name : String) (delta : Delta)

namespace TypeInfo

/-- `t['kind']`. -/
def kind : TypeInfo → String
  | .typedef _ => "typedef"
  | .void => "void"
  | .pointer .. => "pointer"
  | .builtin .. => "builtin"
  | .struct .. => "struct"
  | .union .. => "union"
  | .array .. => "array"
  | .flexArray _ => "flex_array"
  | .enum _ => "enum"
  | .blob _ => "opaque"
  | .function .. => "function"
  | .other kind => kind

/-- The kind is `opaque`. -/
def isBlob : TypeInfo → Bool
  | .blob _ => true
  | _ => false

/-- The kind is `pointer`. -/
def isPointer : TypeInfo → Bool
  | .pointer .. => true
  | _ => false

/-- The kind is `builtin` or `union`. -/
def isScalarOrUnion : TypeInfo → Bool
  | .builtin .. => true
  | .union .. => true
  | _ => false

end TypeInfo

/-! ## The comparison -/

section Compare

variable (gtypes htypes : TypeTable)

/-- The comparison of two fields, the types with `compare`. -/
def fieldDelta (compare : Uid → Uid → Option Delta) (p : (Field × Field) × ℕ) : Option Delta :=
  let ((a, b), i) := p
  if a.offset ≠ b.offset then some (.offsetShift i a.name a.offset b.offset)
  else if a.size ≠ b.size then some (.fieldSize i a.name a.size b.size)
  else (compare a.typeUid b.typeUid).map (.fieldType i a.name)

/-- The comparison of types of different kinds, or of a kind that is not compared. -/
def otherDelta (g h : TypeInfo) : Option Delta :=
  if g.isBlob ∨ h.isBlob then
    if g.size? = h.size? then none else some (.opaqueSizeDiffer g.size? h.size?)
  else if ((g.isPointer ∧ h.isScalarOrUnion) ∨ (h.isPointer ∧ g.isScalarOrUnion)) ∧ g.size? = h.size? then
    some (.reinterpretSize g.kind h.kind (g.size?.or h.size?))
  else some (.kindMismatch g.kind h.kind)

/-- `_types_compatible`, which gives up after some levels; `none` is compatible. -/
def typesCompatible : (levels : ℕ) → Uid → Uid → Option Delta
  | 0, _, _ => some .recursionLimit
  | n + 1, g, h =>
    match gtypes.typeOrDangling g, htypes.typeOrDangling h with
    | some .void, some .void => none
    | some (.pointer gp _), some (.pointer hp _) =>
      if gtypes.typeOrDangling gp = some .void ∧ htypes.typeOrDangling hp = some .void then none
      else (typesCompatible n gp hp).map .pointerDescent
    | some (.builtin a _ gs), some (.builtin b _ hs) =>
      if gs = hs then none else some (if gs < hs then .widen a b gs hs else .narrow a b gs hs)
    | some (.struct name gs gf), some (.struct _ hs hf) =>
      if gs = hs ∧ gf.length = hf.length then
        let deltas := (gf.zip hf).zipIdx.filterMap (fieldDelta (typesCompatible n))
        if deltas.isEmpty then none else some (.convertStruct name gs deltas)
      else some (.convertStructLayout name gs hs gf.length hf.length)
    | some (.union name gs _), some (.union _ hs _) =>
      if gs = hs then none else some (.unionSizeDiffer name gs hs)
    | some (.array gc ge), some (.array hc he) =>
      if gc ≠ hc then some (.arrayResize gc hc) else (typesCompatible n ge he).map .arrayDescent
    | some (.enum gs), some (.enum hs) => if gs = hs then none else some (.enumSizeDiffer gs hs)
    | some gt, some ht => otherDelta gt ht
    | _, _ => some (.missingUid g h)

/-- The types are compatible: `depth` goes from 0 to 16. -/
def Compatible (g h : Uid) : Prop := typesCompatible gtypes htypes 17 g h = none

instance (g h : Uid) : Decidable (Compatible gtypes htypes g h) :=
  match found : typesCompatible gtypes htypes 17 g h with
  | none => .isTrue found
  | some _ => .isFalse fun compat => nomatch found.symm.trans compat

end Compare

/-! ## Layouts -/

/-- How the bytes of a scalar are read. -/
inductive Reading where
  | bool
  | char
  | signed
  | unsigned
  | float
  | longDouble
  | wchar
deriving DecidableEq

/-- How the bytes of a builtin type are read. -/
def Builtin.reading : Builtin → Reading
  | .bool => .bool
  | .char => .char
  | .schar | .short | .int | .long | .longlong => .signed
  | .uchar | .ushort | .uint | .ulong | .ulonglong => .unsigned
  | .float | .double => .float
  | .longDouble => .longDouble
  | .wchar => .wchar

section Layout

variable (gtypes htypes : TypeTable)

/-- There are as many fields, in the same places. -/
structure SamePlaces (gf hf : List Field) : Prop where
  length : gf.length = hf.length
  places : ∀ p ∈ gf.zip hf, p.1.offset = p.2.offset ∧ p.1.size = p.2.size

/-- Values of the two types in memory have the same bytes.  An address has four bytes in the guest and
eight in the host; of a type that is not defined, or of kind `opaque`, nothing is known. -/
inductive SameBytes : Uid → Uid → Prop where
  | void {g h : Uid} (guest : gtypes.typeOrDangling g = some .void)
    (host : htypes.typeOrDangling h = some .void) : SameBytes g h
  | builtin {g h : Uid} {a b : Builtin} {ac bc : Bool} {size : ℤ}
    (guest : gtypes.typeOrDangling g = some (.builtin a ac size))
    (host : htypes.typeOrDangling h = some (.builtin b bc size)) (reading : a.reading = b.reading) : SameBytes g h
  | enum {g h : Uid} {size : ℤ} (guest : gtypes.typeOrDangling g = some (.enum size))
    (host : htypes.typeOrDangling h = some (.enum size)) : SameBytes g h
  | struct {g h : Uid} {a b : String} {size : ℤ} {gf hf : List Field}
    (guest : gtypes.typeOrDangling g = some (.struct a size gf))
    (host : htypes.typeOrDangling h = some (.struct b size hf)) (defined : 0 ≤ size)
    (places : SamePlaces gf hf)
    (types : ∀ p ∈ gf.zip hf, SameBytes p.1.typeUid p.2.typeUid) : SameBytes g h
  | union {g h : Uid} {a b : String} {size : ℤ} {gf hf : List Field}
    (guest : gtypes.typeOrDangling g = some (.union a size gf))
    (host : htypes.typeOrDangling h = some (.union b size hf)) (defined : 0 ≤ size)
    (places : SamePlaces gf hf)
    (types : ∀ p ∈ gf.zip hf, SameBytes p.1.typeUid p.2.typeUid) : SameBytes g h
  | array {g h : Uid} {count : ℤ} {ge he : Uid} (guest : gtypes.typeOrDangling g = some (.array count ge))
    (host : htypes.typeOrDangling h = some (.array count he)) (element : SameBytes ge he) : SameBytes g h

/-- Both types are `void`. -/
def BothVoid (g h : Uid) : Prop :=
  gtypes.typeOrDangling g = some .void ∧ htypes.typeOrDangling h = some .void

/-- What the bridge passes is what the host expects: the address itself is translated, so behind it the
bytes must be the same, if their type is known. -/
def PassedSame (g h : Uid) : Prop :=
  match gtypes.typeOrDangling g, htypes.typeOrDangling h with
  | some (.pointer gp _), some (.pointer hp _) =>
    BothVoid gtypes htypes gp hp ∨ SameBytes gtypes htypes gp hp
  | _, _ => SameBytes gtypes htypes g h

/-! ## Where the comparison is lenient -/

/-- The pairs of types that a value in memory of a pair of types consists of. -/
inductive Parts : Uid → Uid → Uid → Uid → Prop where
  | self (g h : Uid) : Parts g h g h
  | field {g h x y : Uid} {a b : String} {gs hs : ℤ} {gf hf : List Field}
    {p : Field × Field} (guest : gtypes.typeOrDangling g = some (.struct a gs gf))
    (host : htypes.typeOrDangling h = some (.struct b hs hf)) (fields : p ∈ gf.zip hf)
    (part : Parts p.1.typeUid p.2.typeUid x y) : Parts g h x y
  | element {g h x y : Uid} {gc hc : ℤ} {ge he : Uid}
    (guest : gtypes.typeOrDangling g = some (.array gc ge))
    (host : htypes.typeOrDangling h = some (.array hc he)) (part : Parts ge he x y) : Parts g h x y

/-- The pairs of types in memory that are compared. -/
inductive Compared (g h : Uid) : Uid → Uid → Prop where
  | value {x y : Uid} (part : Parts gtypes htypes g h x y)
    (values : ∀ gp gc hp hc, gtypes.typeOrDangling g = some (.pointer gp gc) →
      htypes.typeOrDangling h ≠ some (.pointer hp hc)) : Compared g h x y
  | pointee {x y gp hp : Uid} {gc hc : Bool} (guest : gtypes.typeOrDangling g = some (.pointer gp gc))
    (host : htypes.typeOrDangling h = some (.pointer hp hc)) (known : ¬ BothVoid gtypes htypes gp hp)
    (part : Parts gtypes htypes gp hp x y) : Compared g h x y

/-- The comparison does not look at what matters: the pair is one of pointers, of scalars that are read
in different ways, of structures that are not defined, of unions with different members, or has a type
of kind `opaque`. -/
def Lenient (g h : Uid) : Prop :=
  match gtypes.typeOrDangling g, htypes.typeOrDangling h with
  | some (.pointer ..), some (.pointer ..) => True
  | some (.builtin a ..), some (.builtin b ..) => a.reading ≠ b.reading
  | some (.struct _ size _), some (.struct ..) => size < 0
  | some (.union _ size gf), some (.union _ _ hf) =>
    ¬ (0 ≤ size ∧ SamePlaces gf hf ∧
      ∀ p ∈ gf.zip hf, SameBytes gtypes htypes p.1.typeUid p.2.typeUid)
  | some gt, some ht => gt.isBlob = true ∨ ht.isBlob = true
  | _, _ => False

end Layout

/-! ## Compatible pairs -/

section Sound

variable {gtypes htypes : TypeTable} {g h : Uid}

theorem SameBytes.not_lenient (same : SameBytes gtypes htypes g h) : ¬ Lenient gtypes htypes g h := by
  unfold Lenient
  cases same with
  | void guest host =>
    rw [guest, host]
    rintro (no | no) <;> cases no
  | builtin guest host reading =>
    rw [guest, host]
    exact fun differ => differ reading
  | enum guest host =>
    rw [guest, host]
    rintro (no | no) <;> cases no
  | struct guest host defined places types =>
    rw [guest, host]
    exact Int.not_lt.mpr defined
  | union guest host defined places types =>
    rw [guest, host]
    exact not_not.mpr ⟨defined, places, types⟩
  | array guest host element =>
    rw [guest, host]
    rintro (no | no) <;> cases no

theorem SameBytes.part {x y : Uid} (part : Parts gtypes htypes g h x y)
    (same : SameBytes gtypes htypes g h) : SameBytes gtypes htypes x y := by
  induction part with
  | self g h => exact same
  | field guest host fields part ih =>
    apply ih
    cases same with
    | struct guest' host' defined places types =>
      cases guest.symm.trans guest'
      cases host.symm.trans host'
      exact types _ fields
    | void guest' | builtin guest' | enum guest' | union guest' | array guest' =>
      cases guest.symm.trans guest'
  | element guest host part ih =>
    apply ih
    cases same with
    | array guest' host' element =>
      cases guest.symm.trans guest'
      cases host.symm.trans host'
      exact element
    | void guest' | builtin guest' | enum guest' | union guest' | struct guest' =>
      cases guest.symm.trans guest'

/-- The fields of two structures whose comparison finds no difference. -/
theorem fieldDeltas_isEmpty {compare : Uid → Uid → Option Delta} {gf hf : List Field}
    (empty : ((gf.zip hf).zipIdx.filterMap (fieldDelta compare)).isEmpty = true) :
    ∀ p ∈ gf.zip hf, (p.1.offset = p.2.offset ∧ p.1.size = p.2.size) ∧
      compare p.1.typeUid p.2.typeUid = none := by
  intro p mem
  obtain ⟨i, at'⟩ := List.mem_iff_getElem?.mp mem
  have delta : fieldDelta compare (p, i) = none :=
    List.filterMap_eq_nil_iff.mp (List.isEmpty_iff.mp empty) (p, i) (List.mem_zipIdx_iff_getElem?.mpr at')
  unfold fieldDelta at delta
  dsimp only at delta
  by_cases offset : p.1.offset = p.2.offset
  · by_cases size : p.1.size = p.2.size
    · rw [if_neg (not_not.mpr offset), if_neg (not_not.mpr size), Option.map_eq_none_iff] at delta
      exact ⟨⟨offset, size⟩, delta⟩
    · rw [if_neg (not_not.mpr offset), if_pos size] at delta
      cases delta
  · rw [if_pos offset] at delta
    cases delta

/-- Types of different kinds are only compatible with kind `opaque`. -/
theorem otherDelta_eq_none {gt ht : TypeInfo} (compat : otherDelta gt ht = none) :
    gt.isBlob = true ∨ ht.isBlob = true := by
  by_contra known
  rw [otherDelta, if_neg known] at compat
  split at compat <;> cases compat

/-- Two types in memory that are compatible, with nothing that the comparison is lenient with. -/
theorem sameBytes_of_compatible {n : ℕ} (compat : typesCompatible gtypes htypes n g h = none)
    (strict : ∀ x y, Parts gtypes htypes g h x y → ¬ Lenient gtypes htypes x y) :
    SameBytes gtypes htypes g h := by
  induction n generalizing g h with
  | zero => cases compat
  | succ n ih =>
    have here := strict g h (.self g h)
    unfold Lenient at here
    unfold typesCompatible at compat
    split at compat
    · rename_i guest host
      exact .void guest host
    · rename_i guest host
      rw [guest, host] at here
      exact absurd trivial here
    · rename_i guest host
      rw [guest, host] at here
      split at compat
      · rename_i size
        subst size
        exact .builtin guest host (not_not.mp here)
      · cases compat
    · rename_i guest host
      rw [guest, host] at here
      split at compat
      · rename_i size
        obtain ⟨rfl, length⟩ := size
        dsimp only at compat
        split at compat
        · rename_i empty
          have fields := fieldDeltas_isEmpty empty
          refine .struct guest host (Int.not_lt.mp here) ⟨length, fun p mem => (fields p mem).1⟩ ?_
          intro p mem
          exact ih (fields p mem).2 fun x y part => strict x y (.field guest host mem part)
        · cases compat
      · cases compat
    · rename_i guest host
      rw [guest, host] at here
      split at compat
      · rename_i size
        subst size
        obtain ⟨defined, places, types⟩ := not_not.mp here
        exact .union guest host defined places types
      · cases compat
    · rename_i guest host
      split at compat
      · cases compat
      · rename_i count
        cases not_not.mp count
        rw [Option.map_eq_none_iff] at compat
        exact .array guest host (ih compat fun x y part => strict x y (.element guest host part))
    · rename_i guest host
      split at compat
      · rename_i size
        subst size
        exact .enum guest host
      · cases compat
    · rename_i gt ht _ _ _ _ _ _ _ guest host
      rw [guest, host] at here
      refine absurd ?_ here
      rcases otherDelta_eq_none compat with blob | blob
      · cases gt with
        | blob size => exact .inl rfl
        | _ => cases blob
      · cases ht with
        | blob size => cases gt <;> exact .inr rfl
        | _ => cases blob
    · cases compat

theorem sameBytes_iff {n : ℕ} (compat : typesCompatible gtypes htypes n g h = none) :
    SameBytes gtypes htypes g h ↔ ∀ x y, Parts gtypes htypes g h x y → ¬ Lenient gtypes htypes x y :=
  ⟨fun same _ _ part => (SameBytes.part part same).not_lenient, sameBytes_of_compatible compat⟩

theorem passedSame_iff (compat : Compatible gtypes htypes g h) : PassedSame gtypes htypes g h ↔
    ∀ x y, Compared gtypes htypes g h x y → ¬ Lenient gtypes htypes x y := by
  unfold PassedSame
  split
  · rename_i gp gc hp hc guest host
    by_cases void : BothVoid gtypes htypes gp hp
    · refine ⟨fun _ x y compared => ?_, fun _ => .inl void⟩
      cases compared with
      | value part values => exact absurd host (values _ _ _ _ guest)
      | pointee guest' host' known part =>
        cases guest.symm.trans guest'
        cases host.symm.trans host'
        exact absurd void known
    · have pointees : typesCompatible gtypes htypes 16 gp hp = none := by
        rw [Compatible, typesCompatible, guest, host] at compat
        dsimp only at compat
        rwa [if_neg (show ¬ (_ ∧ _) from void), Option.map_eq_none_iff] at compat
      rw [or_iff_right void, sameBytes_iff pointees]
      constructor
      · intro strict x y compared
        cases compared with
        | value part values => exact absurd host (values _ _ _ _ guest)
        | pointee guest' host' known part =>
          cases guest.symm.trans guest'
          cases host.symm.trans host'
          exact strict x y part
      · exact fun strict x y part => strict x y (.pointee guest host void part)
  · rename_i values
    rw [sameBytes_iff compat]
    constructor
    · intro strict x y compared
      cases compared with
      | value part values => exact strict x y part
      | pointee guest host known part => exact absurd host (values _ _ _ _ guest)
    · exact fun strict x y part => strict x y (.value part values)

/-- `char **`. -/
def pointersInMemory : TypeTable := [(1, .builtin .char false 1), (2, .pointer 1 false), (3, .pointer 2 false)]

end Sound

end Yos.Codegen
