import Mathlib.Data.Int.Notation
import Mathlib.Data.List.Nodup
import Mathlib.Data.List.Perm.Subperm
import Mathlib.Data.Nat.Notation
import Mathlib.Tactic.Common

/-!
# API descriptions (`codegen/extract.py`)

`extract.py` describes the functions of a libc and their types.  The types are in a table; they refer
to each other by their uids.  The stages after it look types up with `_resolve`, which follows the
entries of kind `typedef`.
-/

namespace Yos.Codegen

/-- The uid of a type; only compared. -/
abbrev Uid := ℕ

/-- The types of kind `builtin`. -/
inductive Builtin where
  | bool
  | char
  | schar
  | uchar
  | short
  | ushort
  | int
  | uint
  | long
  | ulong
  | longlong
  | ulonglong
  | float
  | double
  | longDouble
  | wchar
deriving DecidableEq, Repr

/-- The spelling without `const`. -/
def Builtin.spelling : Builtin → String
  | .bool => "_Bool"
  | .char => "char"
  | .schar => "signed char"
  | .uchar => "unsigned char"
  | .short => "short"
  | .ushort => "unsigned short"
  | .int => "int"
  | .uint => "unsigned int"
  | .long => "long"
  | .ulong => "unsigned long"
  | .longlong => "long long"
  | .ulonglong => "unsigned long long"
  | .float => "float"
  | .double => "double"
  | .longDouble => "long double"
  | .wchar => "wchar_t"

/-- A field of a structure or union. -/
structure Field where
  name : String
  offset : ℕ
  size : ℤ
  typeUid : Uid
deriving DecidableEq, Repr

/-- An entry of the table.  Sizes are what clang gives, which is negative for an incomplete type;
`blob` is the kind `opaque`. -/
inductive TypeInfo where
  | typedef (typeUid : Option Uid)
  | void
  | pointer (pointee : Uid) (pointeeIsConst : Bool)
  | builtin (name : Builtin) (isConst : Bool) (size : ℤ)
  | struct (name : String) (size : ℤ) (fields : List Field)
  | union (name : String) (size : ℤ) (fields : List Field)
  | array (count : ℤ) (element : Uid)
  | flexArray (element : Uid)
  | enum (size : ℤ)
  | blob (size : ℤ)
  | function (ret : Uid) (args : List Uid)
  | other (kind : String)
deriving DecidableEq, Repr

/-- `t.get('size')`. -/
def TypeInfo.size? : TypeInfo → Option ℤ
  | .builtin _ _ size => some size
  | .struct _ size _ => some size
  | .union _ size _ => some size
  | .enum size => some size
  | .blob size => some size
  | _ => none

/-- The types of an API description. -/
abbrev TypeTable := List (Uid × TypeInfo)

/-- `types.get(uid)`. -/
def TypeTable.get (types : TypeTable) (uid : Uid) : Option TypeInfo := types.lookup uid

/-- The loop of `_resolve`; `missing` says what becomes of a typedef without target. -/
def resolveLoop (missing : TypeInfo → Option TypeInfo) (types : TypeTable) :
    ℕ → (seen : List Uid) → TypeInfo → Option TypeInfo
  | 0, _, t => some t
  | n + 1, seen, .typedef (some uid) =>
    if uid ∈ seen then some (.typedef (some uid))
    else
      match types.get uid with
      | none => missing (.typedef (some uid))
      | some t => resolveLoop missing types n (uid :: seen) t
  | _ + 1, _, t => some t

/-- `_resolve(types.get(uid), types)` of `bridge.py` and `struct_convert.py`. -/
def TypeTable.type (types : TypeTable) (uid : Uid) : Option TypeInfo :=
  (types.get uid).bind (resolveLoop (fun _ => none) types (types.length + 1) [])

/-- `_resolve(types.get(uid), types)` of `compare.py`. -/
def TypeTable.typeOrDangling (types : TypeTable) (uid : Uid) : Option TypeInfo :=
  (types.get uid).bind (resolveLoop some types (types.length + 1) [])

/-- A parameter of a function. -/
structure Arg where
  name : String
  typeUid : Uid
deriving DecidableEq, Repr

/-- The description of a function. -/
structure Fn where
  args : List Arg
  ret : Uid
  variadic : Bool
deriving DecidableEq, Repr

/-- The loop of `_resolve` ends by itself: each uid it comes to is another key of the table. -/
theorem resolveLoop_eq {missing : TypeInfo → Option TypeInfo} {types : TypeTable} {n m : ℕ}
    {seen : List Uid} {t : TypeInfo} (distinct : seen.Nodup) (keys : seen ⊆ types.map Prod.fst)
    (enough : types.length < n + seen.length) (le : n ≤ m) :
    resolveLoop missing types m seen t = resolveLoop missing types n seen t := by
  induction n generalizing m seen t with
  | zero =>
    have fits := (List.subperm_of_subset distinct keys).length_le
    rw [List.length_map] at fits
    omega
  | succ n ih =>
    cases m with
    | zero => exact absurd le (Nat.not_succ_le_zero n)
    | succ m =>
      cases t with
      | typedef target =>
        cases target with
        | none => rfl
        | some uid =>
          simp only [resolveLoop]
          by_cases again : uid ∈ seen
          · rw [if_pos again, if_pos again]
          · rw [if_neg again, if_neg again]
            cases found : types.get uid with
            | none => rfl
            | some t =>
              have isKey : uid ∈ types.map Prod.fst := by
                have some : (types.lookup uid).isSome := by
                  rw [show types.lookup uid = _ from found]
                  rfl
                obtain ⟨entry, mem, same⟩ := List.lookup_isSome_iff.mp some
                exact List.mem_map.mpr ⟨entry, mem, (beq_iff_eq.mp same).symm⟩
              have longer : types.length < n + (uid :: seen).length := by
                rw [List.length_cons]
                omega
              exact ih (List.nodup_cons.mpr ⟨again, distinct⟩) (List.cons_subset.mpr ⟨isKey, keys⟩)
                longer (Nat.le_of_succ_le_succ le)
      | _ => rfl

end Yos.Codegen
