import Yos.Codegen.Compare
import Yos.Lib.Writes
import Mathlib.Data.List.Pairwise

/-!
# Structure converters (`codegen/struct_convert.py`)

For the structures it tracks the generator writes two functions, from the guest's structure to the
host's and back.  They clear the destination and copy the fields that both structures have: scalars by
a cast to a signed type of the guest's width, byte arrays, and tracked structures within.  Everything
else is 0 in the destination.  A converter is the list of its copies here, and what it does is the
sequence of its writes; the memory it reads is not the one it writes.
-/

open Bytes Write

namespace Yos.Codegen

/-! ## What is emitted -/

/-- `TRACKED_STRUCTS`. -/
def trackedStructs : List String :=
  ["tm", "timespec", "timeval", "itimerspec", "itimerval", "stat", "statfs", "rlimit", "rusage",
    "sockaddr", "sockaddr_in", "sockaddr_in6", "sockaddr_un", "sockaddr_storage", "iovec", "msghdr",
    "cmsghdr", "dirent", "pollfd", "flock", "utsname"]

/-- The size and the fields of an entry that is this structure. -/
def TypeInfo.isStruct (name : String) : TypeInfo → Option (ℤ × List Field)
  | .struct n size fields => if n = name then some (size, fields) else none
  | _ => none

/-- `_find_struct`. -/
def TypeTable.findStruct (types : TypeTable) (name : String) : Option (ℤ × List Field) :=
  types.findSome? fun entry => entry.2.isStruct name

/-- The bytes of the type that `_scalar_C_type` gives, `int32_t` for other sizes.  It is a signed type:
the descriptions have no `signed`, whose default is `True`. -/
def scalarBytes (size : ℤ) : ℕ := if size = 1 then 1 else if size = 2 then 2 else if size = 8 then 8 else 4

/-- What is emitted for a field: a cast through a type of so many bytes, the call of another converter,
a `memcpy`. -/
inductive Copy where
  | scalar (bytes : ℕ)
  | inner (name : String)
  | bytes (count : ℕ)
deriving DecidableEq, Repr

/-- The cases of `_emit_h2w` and `_emit_w2h`, which are the same. -/
def fieldCopy (gtypes : TypeTable) (gf hf : Field) : Option Copy :=
  match gtypes.type gf.typeUid with
  | some (.builtin ..) => some (.scalar (scalarBytes gf.size))
  | some (.enum _) => some (.scalar (scalarBytes gf.size))
  | some (.struct name ..) => if name ∈ trackedStructs then some (.inner name) else none
  | some (.array _ element) =>
    match gtypes.type element with
    | some (.builtin _ _ 1) => some (.bytes (min gf.size hf.size).toNat)
    | _ => none
  | _ => none

/-- Both converters of a structure: the sizes that they clear, and the copies. -/
structure Converter where
  guestSize : ℕ
  hostSize : ℕ
  copies : List ((Field × Field) × Copy)
deriving DecidableEq, Repr

/-- `_emit_h2w` and `_emit_w2h`; of two host fields of one name the last counts. -/
def converter (gtypes htypes : TypeTable) (name : String) : Option Converter :=
  if name ∈ trackedStructs then
    match gtypes.findStruct name, htypes.findStruct name with
    | some (gs, gfields), some (hs, hfields) =>
      some ⟨gs.toNat, hs.toNat, gfields.filterMap fun gf =>
        (hfields.reverse.find? fun hf => hf.name == gf.name).bind fun hf =>
          (fieldCopy gtypes gf hf).map fun copy => ((gf, hf), copy)⟩
    | _, _ => none
  else none

/-! ## What a converter does -/

/-- Whose structure is written. -/
inductive Side where
  | guest
  | host
deriving DecidableEq, Repr

namespace Side

/-- That of the two that is the side's. -/
def pick {α : Type} : Side → α × α → α
  | .guest, p => p.1
  | .host, p => p.2

/-- The side that is read. -/
def other : Side → Side
  | .guest => .host
  | .host => .guest

end Side

/-- The bytes of a field. -/
def Field.len (f : Field) : ℕ := f.size.toNat

/-- An integer type, and whether it is signed; an enumeration is an `int`. -/
def TypeInfo.signed? : TypeInfo → Option Bool
  | .builtin b _ _ =>
    match b.reading with
    | .signed | .char | .wchar => some true
    | .unsigned => some false
    | _ => none
  | .enum _ => some true
  | _ => none

/-- The number in the bytes of an integer type. -/
def intValue (signed : Bool) (content : ℕ → UInt8) (n : ℕ) : ℤ :=
  if signed then readSigned content n else readLE content n

/-- The casts from and to host fields that are not integers. -/
structure HostCasts where
  load : Field → (ℕ → UInt8) → ℤ
  store : Field → ℤ → ℕ → UInt8

/-- The descriptions of both libcs.  The rank of a structure is above those of the structures in it. -/
structure ConvertContext where
  gtypes : TypeTable
  htypes : TypeTable
  casts : HostCasts
  rank : String → ℕ

namespace ConvertContext

variable (c : ConvertContext)

/-- The converters of a structure. -/
def converter (name : String) : Option Converter := Codegen.converter c.gtypes c.htypes name

/-- The integer type of a field of the host. -/
def hostInt (f : Field) : Option Bool := (c.htypes.type f.typeUid).bind TypeInfo.signed?

/-- The integer type of a field of the guest. -/
def guestInt (f : Field) : Option Bool := (c.gtypes.type f.typeUid).bind TypeInfo.signed?

/-- The value of a field of the host. -/
def hostLoad (f : Field) (content : ℕ → UInt8) : ℤ :=
  match c.hostInt f with
  | some signed => intValue signed content f.len
  | none => c.casts.load f content

/-- The bytes of a value that is assigned to a field of the host. -/
def hostStore (f : Field) (z : ℤ) : ℕ → UInt8 :=
  match c.hostInt f with
  | some _ => leByte z
  | none => c.casts.store f z

/-- The write of a field that is no structure. -/
def leafWrite (side : Side) (p : Field × Field) (place : ℕ) (content : ℕ → UInt8) : Copy → Option Write
  | .scalar k =>
    match side with
    | .guest => some ⟨place, k, leByte (c.hostLoad p.2 content)⟩
    | .host => some ⟨place, p.2.len, c.hostStore p.2 (readSigned content k)⟩
  | .bytes count => some ⟨place, count, content⟩
  | .inner _ => none

/-- The writes of a converter, from a structure at `origin` to one at `place`; `depth` bounds the calls
of converters. -/
def writes (side : Side) (src : Bytes) : (depth : ℕ) → String → (place origin : ℕ) → List Write
  | 0, _, _, _ => []
  | depth + 1, name, place, origin =>
    match c.converter name with
    | none => []
    | some cv => ⟨place, side.pick (cv.guestSize, cv.hostSize), fun _ => 0⟩ ::
      cv.copies.flatMap fun field =>
        let place := place + (side.pick field.1).offset
        let origin := origin + (side.other.pick field.1).offset
        match field.2 with
        | .inner name => writes side src depth name place origin
        | copy => (c.leafWrite side field.1 place (fun i => src (origin + i)) copy).toList

/-- `cv_<name>_w2h`, from the guest's structure at `w` to the host's at `h`. -/
def cvW2h (name : String) (host : Bytes) (h : ℕ) (guest : Bytes) (w : ℕ) : Bytes :=
  runAll (c.writes .host guest (c.rank name + 1) name h w) host

/-- `cv_<name>_h2w`. -/
def cvH2w (name : String) (guest : Bytes) (w : ℕ) (host : Bytes) (h : ℕ) : Bytes :=
  runAll (c.writes .guest host (c.rank name + 1) name w h) guest

/-! ## Layouts -/

end ConvertContext

/-- The sizes of both structures. -/
def Converter.sizes (cv : Converter) : ℕ × ℕ := (cv.guestSize, cv.hostSize)

/-- Two fields do not overlap. -/
def Field.Apart (f g : Field) : Prop := f.offset + f.len ≤ g.offset ∨ g.offset + g.len ≤ f.offset

/-- What C says of the fields that are copied: they lie in the structure and do not overlap, casts do
not write more than the field, and a structure within has converters for its size. -/
structure Placed (c : ConvertContext) (name : String) (cv : Converter) : Prop where
  inside : ∀ side, ∀ p ∈ cv.copies,
    (Side.pick side p.1).offset + (side.pick p.1).len ≤ side.pick cv.sizes
  apart : ∀ side, cv.copies.Pairwise fun p q => (Side.pick side p.1).Apart (side.pick q.1)
  scalar : ∀ p k, (p, .scalar k) ∈ cv.copies → k ≤ p.1.len
  inner : ∀ p s, (p, .inner s) ∈ cv.copies → ∃ cv', c.converter s = some cv' ∧
    (∀ side, Side.pick side cv'.sizes ≤ (side.pick p).len) ∧ c.rank s < c.rank name

/-- Descriptions whose structures are laid out as C does, without bit-fields. -/
structure ConvertTables extends ConvertContext where
  placed : ∀ name cv, toConvertContext.converter name = some cv → Placed toConvertContext name cv

namespace ConvertTables

variable {t : ConvertTables} {side : Side} {src : Bytes} {name : String} {cv : Converter}

theorem fieldCopy_of_mem {field : (Field × Field) × Copy} (conv : t.converter name = some cv)
    (mem : field ∈ cv.copies) : fieldCopy t.gtypes field.1.1 field.1.2 = some field.2 := by
  unfold ConvertContext.converter Codegen.converter at conv
  split at conv
  · split at conv
    · cases conv
      obtain ⟨gf, -, found⟩ := List.mem_filterMap.mp mem
      obtain ⟨hf, -, found⟩ := Option.bind_eq_some_iff.mp found
      obtain ⟨copy, copies, rfl⟩ := Option.map_eq_some_iff.mp found
      exact copies
    · cases conv
  · cases conv

/-- The count of a `memcpy` is the lesser length. -/
theorem bytes_fit {p : Field × Field} {count : ℕ} (conv : t.converter name = some cv)
    (mem : (p, .bytes count) ∈ cv.copies) : count = min p.1.len p.2.len := by
  have copy := fieldCopy_of_mem conv mem
  unfold fieldCopy at copy
  split at copy
  · cases copy
  · cases copy
  · split at copy <;> cases copy
  · split at copy
    · have count := Copy.bytes.inj (Option.some.inj copy)
      rw [← count, Field.len, Field.len]
      dsimp only
      omega
    · cases copy
  · cases copy

/-- The writes of one field. -/
def fieldWrites (t : ConvertTables) (side : Side) (src : Bytes) (depth place origin : ℕ)
    (field : (Field × Field) × Copy) : List Write :=
  let place := place + (side.pick field.1).offset
  let origin := origin + (side.other.pick field.1).offset
  match field.2 with
  | .inner name => t.writes side src depth name place origin
  | copy => (t.leafWrite side field.1 place (fun i => src (origin + i)) copy).toList

theorem writes_eq {depth place origin : ℕ} (conv : t.converter name = some cv) :
    t.writes side src (depth + 1) name place origin = ⟨place, side.pick cv.sizes, fun _ => 0⟩ ::
      cv.copies.flatMap (t.fieldWrites side src depth place origin) := by
  rw [ConvertContext.writes, conv]
  rfl

theorem leafWrite_within {p : Field × Field} {copy : Copy} {place : ℕ} {content : ℕ → UInt8} {w : Write}
    (conv : t.converter name = some cv) (mem : (p, copy) ∈ cv.copies)
    (write : t.leafWrite side p place content copy = some w) :
    w.start = place ∧ w.length ≤ (side.pick p).len := by
  cases copy with
  | inner s => cases write
  | bytes count =>
    cases write
    have fit := bytes_fit conv mem
    refine ⟨rfl, ?_⟩
    cases side <;> simp only [Side.pick] <;> omega
  | scalar k =>
    cases side with
    | guest =>
      cases write
      exact ⟨rfl, (t.placed name cv conv).scalar p k mem⟩
    | host =>
      cases write
      exact ⟨rfl, le_refl _⟩

/-- The writes of a field stay in it, if those of converters stay in their structures. -/
theorem fieldWrites_within_of {depth place origin : ℕ} {field : (Field × Field) × Copy}
    (within : ∀ {s : String} {cv' : Converter} {place origin : ℕ}, t.converter s = some cv' →
      ∀ w ∈ t.writes side src depth s place origin, w.Within place (side.pick cv'.sizes))
    (conv : t.converter name = some cv) (mem : field ∈ cv.copies) :
    ∀ w ∈ t.fieldWrites side src depth place origin field,
      w.Within (place + (side.pick field.1).offset) (side.pick field.1).len := by
  obtain ⟨p, copy⟩ := field
  have leaf (content : ℕ → UInt8) (w : Write)
      (write : t.leafWrite side p (place + (side.pick p).offset) content copy = some w) :
      w.Within (place + (side.pick p).offset) (side.pick p).len := by
    obtain ⟨start, length⟩ := leafWrite_within conv mem write
    exact ⟨start ▸ le_refl _, start ▸ Nat.add_le_add_left length _⟩
  intro w written
  cases copy with
  | inner s =>
    obtain ⟨cv', conv', sizes, -⟩ := (t.placed name cv conv).inner p s mem
    obtain ⟨low, high⟩ := within conv' w written
    exact ⟨low, high.trans (Nat.add_le_add_left (sizes side) _)⟩
  | scalar k => exact leaf _ w (Option.mem_toList.mp written)
  | bytes count => exact leaf _ w (Option.mem_toList.mp written)

/-- The writes of a converter stay in the structure. -/
theorem writes_within {depth place origin : ℕ} (conv : t.converter name = some cv) :
    ∀ w ∈ t.writes side src depth name place origin, w.Within place (side.pick cv.sizes) := by
  induction depth generalizing name cv place origin with
  | zero => exact fun w mem => nomatch mem
  | succ depth ih =>
    rw [writes_eq conv]
    intro w mem
    rcases List.mem_cons.mp mem with rfl | mem
    · exact ⟨le_refl _, le_refl _⟩
    · obtain ⟨field, listed, mem⟩ := List.mem_flatMap.mp mem
      have inside := (t.placed name cv conv).inside side field listed
      obtain ⟨low, high⟩ := fieldWrites_within_of ih conv listed w mem
      exact ⟨by omega, by omega⟩

theorem fieldWrites_within {depth place origin : ℕ} {field : (Field × Field) × Copy}
    (conv : t.converter name = some cv) (mem : field ∈ cv.copies) :
    ∀ w ∈ t.fieldWrites side src depth place origin field,
      w.Within (place + (side.pick field.1).offset) (side.pick field.1).len :=
  fieldWrites_within_of writes_within conv mem

/-! ## What a converter leaves -/

/-- Fields that do not overlap have writes that avoid each other. -/
theorem fieldWrites_avoid {depth place origin : ℕ} {f : Field} {other : (Field × Field) × Copy}
    (conv : t.converter name = some cv) (mem : other ∈ cv.copies) (apart : f.Apart (side.pick other.1)) :
    ∀ w ∈ t.fieldWrites side src depth place origin other, w.Avoids (place + f.offset) f.len := by
  intro w written
  apply (fieldWrites_within conv mem w written).avoids
  rcases apart with below | above
  · exact .inr (by omega)
  · exact .inl (by omega)

/-- What the writes of a field settle within it, the converter of the structure settles. -/
theorem writes_settles {depth place origin n : ℕ} {content : ℕ → UInt8}
    (field : (Field × Field) × Copy) (o : ℕ) (conv : t.converter name = some cv) (mem : field ∈ cv.copies)
    (settles : Settles (t.fieldWrites side src depth place origin field)
      (place + (side.pick field.1).offset + o) n content)
    (fits : o + n ≤ (side.pick field.1).len) :
    Settles (t.writes side src (depth + 1) name place origin)
      (place + (side.pick field.1).offset + o) n content := by
  obtain ⟨before, after, split⟩ := List.append_of_mem mem
  have apart := (t.placed name cv conv).apart side
  rw [split, List.pairwise_append] at apart
  have later := (List.pairwise_cons.mp apart.2.1).1
  rw [writes_eq conv, split, List.flatMap_append, List.flatMap_cons, ← List.cons_append]
  refine Settles.prepend (Settles.append settles ?_)
  intro w written
  obtain ⟨other, listed, written⟩ := List.mem_flatMap.mp written
  have here : other ∈ cv.copies := by
    rw [split]
    exact List.mem_append_right _ (List.mem_cons_of_mem _ listed)
  rcases fieldWrites_avoid conv here (later other listed) w written with below | above
  · exact .inl (by omega)
  · exact .inr (by omega)

/-- What no field covers is cleared. -/
theorem writes_clear {depth place origin o n : ℕ} (conv : t.converter name = some cv)
    (fits : o + n ≤ side.pick cv.sizes)
    (avoids : ∀ field ∈ cv.copies, ∀ w ∈ t.fieldWrites side src depth place origin field,
      w.Avoids (place + o) n) :
    Settles (t.writes side src (depth + 1) name place origin) (place + o) n fun _ => 0 := by
  rw [writes_eq conv]
  have cleared := (settles_singleton ⟨place, side.pick cv.sizes, fun _ => 0⟩).inside fits
  apply Settles.append cleared
  intro w written
  obtain ⟨field, mem, written⟩ := List.mem_flatMap.mp written
  exact avoids field mem w written

/-! ## Structures within -/

/-- A structure within another one that the converter comes to, with its offsets in both. -/
inductive Nested (t : ConvertTables) : String → ℕ × ℕ → String → Prop where
  | self (name : String) : Nested t name (0, 0) name
  | field {name s u : String} {cv : Converter} {p : Field × Field} {offs : ℕ × ℕ}
    (conv : t.converter name = some cv) (mem : (p, .inner s) ∈ cv.copies) (rest : Nested t s offs u) :
    Nested t name (p.1.offset + offs.1, p.2.offset + offs.2) u

theorem pick_add (a b : ℕ × ℕ) : side.pick (a.1 + b.1, a.2 + b.2) = side.pick a + side.pick b := by
  cases side <;> rfl

theorem pick_offsets (p : Field × Field) : side.pick (p.1.offset, p.2.offset) = (side.pick p).offset := by
  cases side <;> rfl

theorem Nested.inside {offs : ℕ × ℕ} {u : String} {cvu : Converter} (nested : Nested t name offs u)
    (side : Side) (conv : t.converter u = some cvu) :
    ∃ cv, t.converter name = some cv ∧ side.pick offs + side.pick cvu.sizes ≤ side.pick cv.sizes := by
  induction nested with
  | self name =>
    refine ⟨cvu, conv, ?_⟩
    cases side <;> exact (Nat.zero_add _).le
  | @field name s u cv p offs conv' mem rest ih =>
    obtain ⟨cvs, convs, within⟩ := ih conv
    obtain ⟨cvs', convs', sizes, -⟩ := (t.placed name cv conv').inner p s mem
    cases convs.symm.trans convs'
    have fits := sizes side
    have here := (t.placed name cv conv').inside side _ mem
    refine ⟨cv, conv', ?_⟩
    rw [pick_add (p.1.offset, p.2.offset) offs, pick_offsets]
    dsimp only at here
    omega

/-- What the converter of a structure within settles, the converter of the whole settles. -/
theorem Nested.settles {offs : ℕ × ℕ} {u : String} {cvu : Converter} {o n : ℕ} {content : ℕ → ℕ → UInt8}
    (nested : Nested t name offs u) (conv : t.converter u = some cvu) (fits : o + n ≤ side.pick cvu.sizes)
    (inner : ∀ depth place origin, t.rank u ≤ depth →
      Settles (t.writes side src (depth + 1) u place origin) (place + o) n (content origin))
    (depth place origin : ℕ) (deep : t.rank name ≤ depth) :
    Settles (t.writes side src (depth + 1) name place origin) (place + (side.pick offs + o)) n
      (content (origin + side.other.pick offs)) := by
  induction nested generalizing depth place origin with
  | self name =>
    have settled := inner depth place origin deep
    cases side <;> simpa [Side.pick, Side.other] using settled
  | @field name s u cv p offs conv' mem rest ih =>
    obtain ⟨cvs, convs, within⟩ := rest.inside side conv
    obtain ⟨cvs', convs', sizes, ranks⟩ := (t.placed name cv conv').inner p s mem
    cases convs.symm.trans convs'
    obtain ⟨depth, rfl⟩ : ∃ d, depth = d + 1 := ⟨depth - 1, by omega⟩
    have settled := ih conv inner depth (place + (side.pick p).offset)
      (origin + (side.other.pick p).offset) (by omega)
    have room := sizes side
    have whole : Settles (t.writes side src (depth + 1 + 1) name place origin)
        (place + (side.pick p).offset + (side.pick offs + o)) n
        (content (origin + (side.other.pick p).offset + side.other.pick offs)) :=
      writes_settles (p, .inner s) _ conv' mem settled (by dsimp only; omega)
    rw [pick_add (p.1.offset, p.2.offset) offs, pick_add (p.1.offset, p.2.offset) offs, pick_offsets,
      pick_offsets, Nat.add_assoc (side.pick p).offset, ← Nat.add_assoc place,
      ← Nat.add_assoc origin]
    exact whole

/-- A field that is copied, in a structure or in one within it, with its offsets in both. -/
structure Shared (t : ConvertTables) (name : String) (offs : ℕ × ℕ) (p : Field × Field) (copy : Copy) :
    Prop where
  found : ∃ u cv at', Nested t name at' u ∧ t.converter u = some cv ∧ (p, copy) ∈ cv.copies ∧
    offs = (at'.1 + p.1.offset, at'.2 + p.2.offset)

/-- What is written for a field is what the converter of the whole leaves there. -/
theorem Shared.settles {offs : ℕ × ℕ} {p : Field × Field} {copy : Copy} {n : ℕ}
    {content : (ℕ → UInt8) → ℕ → UInt8} (shared : Shared t name offs p copy)
    (write : ∀ place bytes, t.leafWrite side p place bytes copy = some ⟨place, n, content bytes⟩)
    (place origin : ℕ) :
    Settles (t.writes side src (t.rank name + 1) name place origin) (place + side.pick offs) n
      (content fun i => src (origin + side.other.pick offs + i)) := by
  obtain ⟨u, cv, at', nested, conv, mem, rfl⟩ := shared.found
  have length : n ≤ (side.pick p).len := (leafWrite_within conv mem (write 0 fun _ => 0)).2
  have inside := (t.placed u cv conv).inside side _ mem
  dsimp only at inside
  have here (depth place origin : ℕ) : Settles (t.writes side src (depth + 1) u place origin)
      (place + (side.pick p).offset) n
      (content fun i => src (origin + (side.other.pick p).offset + i)) := by
    refine writes_settles (p, copy) 0 conv mem ?_ (by dsimp only; omega)
    have own : t.fieldWrites side src depth place origin (p, copy) =
        [⟨place + (side.pick p).offset, n,
          content fun i => src (origin + (side.other.pick p).offset + i)⟩] := by
      have here := write (place + (side.pick p).offset) fun i => src (origin + (side.other.pick p).offset + i)
      cases copy with
      | inner s => cases here
      | scalar k =>
        unfold fieldWrites
        dsimp only
        rw [here]
        rfl
      | bytes count =>
        unfold fieldWrites
        dsimp only
        rw [here]
        rfl
    rw [own]
    exact settles_singleton _
  have whole := nested.settles conv (by omega) (fun depth place origin _ => here depth place origin)
    (t.rank name) place origin (le_refl _)
  rw [pick_add at' (p.1.offset, p.2.offset), pick_add at' (p.1.offset, p.2.offset), pick_offsets,
    pick_offsets, ← Nat.add_assoc origin]
  exact whole

/-- A range that no field covers which is copied, in a structure or in one within it. -/
structure Gap (t : ConvertTables) (side : Side) (name : String) (start n : ℕ) : Prop where
  found : ∃ u cv at' o, Nested t name at' u ∧ t.converter u = some cv ∧ o + n ≤ side.pick cv.sizes ∧
    (∀ field ∈ cv.copies, (side.pick field.1).offset + (side.pick field.1).len ≤ o ∨
      o + n ≤ (side.pick field.1).offset) ∧ start = side.pick at' + o

theorem Gap.settles {start n : ℕ} (gap : Gap t side name start n) (place origin : ℕ) :
    Settles (t.writes side src (t.rank name + 1) name place origin) (place + start) n fun _ => 0 := by
  obtain ⟨u, cv, at', o, nested, conv, fits, apart, rfl⟩ := gap.found
  have here (depth place origin : ℕ) :
      Settles (t.writes side src (depth + 1) u place origin) (place + o) n fun _ => 0 := by
    apply writes_clear conv fits
    intro field mem w written
    apply (fieldWrites_within conv mem w written).avoids
    rcases apart field mem with below | above
    · exact .inl (by omega)
    · exact .inr (by omega)
  exact nested.settles conv fits (fun depth place origin _ => here depth place origin) (t.rank name) place
    origin (le_refl _)

/-- The bytes of a byte array after those that are copied. -/
theorem Shared.rest_settles {offs : ℕ × ℕ} {p : Field × Field} {count : ℕ}
    (shared : Shared t name offs p (.bytes count)) (place origin : ℕ) :
    Settles (t.writes side src (t.rank name + 1) name place origin) (place + (side.pick offs + count))
      ((side.pick p).len - count) fun _ => 0 := by
  obtain ⟨u, cv, at', nested, conv, mem, rfl⟩ := shared.found
  have inside := (t.placed u cv conv).inside side _ mem
  have fit : count ≤ (side.pick p).len := by
    have least := bytes_fit conv mem
    cases side <;> simp only [Side.pick] <;> omega
  dsimp only at inside
  have here (depth place origin : ℕ) : Settles (t.writes side src (depth + 1) u place origin)
      (place + ((side.pick p).offset + count)) ((side.pick p).len - count) fun _ => 0 := by
    apply writes_clear conv (by omega)
    intro field listed w written
    rcases eq_or_ne field (p, .bytes count) with rfl | other
    · cases List.mem_singleton.mp written
      exact .inl (Nat.add_assoc _ _ _).le
    · have symm : Std.Symm fun p q : (Field × Field) × Copy => (side.pick p.1).Apart (side.pick q.1) :=
        ⟨fun _ _ => Or.symm⟩
      have apart : (side.pick p).Apart (side.pick field.1) :=
        ((t.placed u cv conv).apart side).forall mem listed other.symm
      rcases fieldWrites_avoid conv listed apart w written with below | above
      · exact .inl (by omega)
      · exact .inr (by omega)
  have whole := nested.settles conv (by omega) (fun depth place origin _ => here depth place origin)
    (t.rank name) place origin (le_refl _)
  rw [pick_add at' (p.1.offset, p.2.offset), pick_offsets, Nat.add_assoc]
  exact whole

/-! ## The bytes of a field -/

section Fields

variable {offs : ℕ × ℕ} {p : Field × Field} {guest host : Bytes} {w h k count i : ℕ}

theorem cvH2w_scalar (shared : Shared t name offs p (.scalar k)) (lt : i < k) :
    t.cvH2w name guest w host h (w + offs.1 + i) =
      leByte (t.hostLoad p.2 fun i => host (h + offs.2 + i)) i := by
  have write (place : ℕ) (bytes : ℕ → UInt8) : t.leafWrite .guest p place bytes (.scalar k) =
      some ⟨place, k, leByte (t.hostLoad p.2 bytes)⟩ := rfl
  exact shared.settles write w h guest i lt

theorem cvW2h_scalar (shared : Shared t name offs p (.scalar k)) (lt : i < p.2.len) :
    t.cvW2h name host h guest w (h + offs.2 + i) =
      t.hostStore p.2 (readSigned (fun i => guest (w + offs.1 + i)) k) i := by
  have write (place : ℕ) (bytes : ℕ → UInt8) : t.leafWrite .host p place bytes (.scalar k) =
      some ⟨place, p.2.len, t.hostStore p.2 (readSigned bytes k)⟩ := rfl
  exact shared.settles write h w host i lt

theorem cvH2w_bytes (shared : Shared t name offs p (.bytes count)) (lt : i < count) :
    t.cvH2w name guest w host h (w + offs.1 + i) = host (h + offs.2 + i) := by
  have write (place : ℕ) (bytes : ℕ → UInt8) : t.leafWrite .guest p place bytes (.bytes count) =
      some ⟨place, count, bytes⟩ := rfl
  exact shared.settles write w h guest i lt

theorem cvW2h_bytes (shared : Shared t name offs p (.bytes count)) (lt : i < count) :
    t.cvW2h name host h guest w (h + offs.2 + i) = guest (w + offs.1 + i) := by
  have write (place : ℕ) (bytes : ℕ → UInt8) : t.leafWrite .host p place bytes (.bytes count) =
      some ⟨place, count, bytes⟩ := rfl
  exact shared.settles write h w host i lt

theorem Shared.count_eq (shared : Shared t name offs p (.bytes count)) : count = min p.1.len p.2.len := by
  obtain ⟨u, cv, at', nested, conv, mem, rfl⟩ := shared.found
  exact bytes_fit conv mem

end Fields

/-! ## What converters preserve -/

/-- What the converters of a structure do with its values, at every place in memory: scalars and byte
arrays that fit the host's field come back to the guest; signed scalars have the same value at the host,
as do scalars of one width and sign; what is not copied, such as a pointer, is 0; and scalars of the host
in the range of the guest's cast come back to the host, as do byte arrays with zeros after the bytes of
the guest. -/
structure Preserves (t : ConvertTables) (name : String) : Prop where
  scalarTrip : ∀ offs p k, Shared t name offs p (.scalar k) → (t.hostInt p.2).isSome → p.1.len = k →
    k ≤ p.2.len → ∀ guest w host h guest' w', ∀ i < k,
      t.cvH2w name guest' w' (t.cvW2h name host h guest w) h (w' + offs.1 + i) = guest (w + offs.1 + i)
  bytesTrip : ∀ offs p count, Shared t name offs p (.bytes count) → p.1.len ≤ p.2.len →
    ∀ guest w host h guest' w', ∀ i < p.1.len,
      t.cvH2w name guest' w' (t.cvW2h name host h guest w) h (w' + offs.1 + i) = guest (w + offs.1 + i)
  value : ∀ offs p k sg sh, Shared t name offs p (.scalar k) → t.guestInt p.1 = some sg →
    t.hostInt p.2 = some sh → p.1.len = k →
    (sg = true ∧ sh = true ∧ k ≤ p.2.len) ∨ (sg = sh ∧ p.2.len = k) → ∀ guest w host h,
      intValue sh (fun i => t.cvW2h name host h guest w (h + offs.2 + i)) p.2.len =
        intValue sg (fun i => guest (w + offs.1 + i)) k
  guestClear : ∀ start n, Gap t .guest name start n → ∀ guest w host h, ∀ i < n,
    t.cvH2w name guest w host h (w + start + i) = 0
  hostClear : ∀ start n, Gap t .host name start n → ∀ host h guest w, ∀ i < n,
    t.cvW2h name host h guest w (h + start + i) = 0
  scalarBack : ∀ offs p k s, Shared t name offs p (.scalar k) → t.hostInt p.2 = some s →
    ∀ host h guest w host' h' z, intValue s (fun i => host (h + offs.2 + i)) p.2.len = z →
      p.2.len ≤ k ∨ (-(256 ^ k / 2) ≤ z ∧ z < 256 ^ k / 2) → ∀ i < p.2.len,
        t.cvW2h name host' h' (t.cvH2w name guest w host h) w (h' + offs.2 + i) = host (h + offs.2 + i)
  bytesBack : ∀ offs p count, Shared t name offs p (.bytes count) → ∀ host h guest w host' h',
    (∀ i, p.1.len ≤ i → i < p.2.len → host (h + offs.2 + i) = 0) → ∀ i < p.2.len,
      t.cvW2h name host' h' (t.cvH2w name guest w host h) w (h' + offs.2 + i) = host (h + offs.2 + i)

theorem intValue_modEq (signed : Bool) (content : ℕ → UInt8) (n : ℕ) :
    intValue signed content n ≡ readLE content n [ZMOD 256 ^ n] := by
  cases signed with
  | true => exact readSigned_modEq content n
  | false => exact Int.ModEq.refl _

theorem intValue_congr {signed : Bool} {f g : ℕ → UInt8} {n : ℕ} (same : ∀ i < n, f i = g i) :
    intValue signed f n = intValue signed g n := by
  rw [intValue, intValue, readSigned_congr same, readLE_congr same]

/-- The bytes of the value of an integer. -/
theorem leByte_intValue {signed : Bool} {content : ℕ → UInt8} {n i : ℕ} (lt : i < n) :
    leByte (intValue signed content n) i = content i := by
  rw [leByte_congr (intValue_modEq signed content n) lt, leByte_readLE content lt]

/-- The integer in the bytes of a number. -/
theorem intValue_leByte_modEq (signed : Bool) (z : ℤ) (n : ℕ) :
    intValue signed (leByte z) n ≡ z [ZMOD 256 ^ n] := by
  apply (intValue_modEq signed _ n).trans
  rw [readLE_leByte]
  exact Int.mod_modEq z _

theorem modEq_of_le {a b : ℤ} {m n : ℕ} (same : a ≡ b [ZMOD 256 ^ n]) (le : m ≤ n) :
    a ≡ b [ZMOD 256 ^ m] :=
  same.of_dvd (pow_dvd_pow 256 le)

section Fields

variable {offs : ℕ × ℕ} {p : Field × Field} {guest host : Bytes} {w h k count i : ℕ} {signed : Bool}

theorem Shared.bytes_pos (shared : Shared t name offs p (.scalar k)) : 0 < k := by
  obtain ⟨u, cv, at', nested, conv, mem, rfl⟩ := shared.found
  have copy := fieldCopy_of_mem conv mem
  unfold fieldCopy at copy
  have pos (size : ℤ) : 0 < scalarBytes size := by
    unfold scalarBytes
    split
    · decide
    · split
      · decide
      · split <;> decide
  split at copy
  · exact Copy.scalar.inj (Option.some.inj copy) ▸ pos _
  · exact Copy.scalar.inj (Option.some.inj copy) ▸ pos _
  · split at copy <;> cases copy
  · split at copy <;> cases copy
  · cases copy

/-- The host's integer after the conversion of a field. -/
theorem cvW2h_int (shared : Shared t name offs p (.scalar k)) (int : t.hostInt p.2 = some signed)
    (lt : i < p.2.len) : t.cvW2h name host h guest w (h + offs.2 + i) =
      leByte (readSigned (fun i => guest (w + offs.1 + i)) k) i := by
  rw [cvW2h_scalar shared lt, ConvertContext.hostStore, int]

/-- The guest's bytes after the conversion of an integer of the host. -/
theorem cvH2w_int (shared : Shared t name offs p (.scalar k)) (int : t.hostInt p.2 = some signed)
    (lt : i < k) : t.cvH2w name guest w host h (w + offs.1 + i) =
      leByte (intValue signed (fun i => host (h + offs.2 + i)) p.2.len) i := by
  rw [cvH2w_scalar shared lt, ConvertContext.hostLoad, int]

end Fields

/-- The converters of every structure preserve what they are meant to preserve. -/
theorem converters_preserve (t : ConvertTables) (name : String) : t.Preserves name := by
  refine ⟨?_, ?_, ?_, ?_, ?_, ?_, ?_⟩
  · intro offs p k shared int len fits guest w host h guest' w' i lt
    obtain ⟨signed, int⟩ := Option.isSome_iff_exists.mp int
    rw [cvH2w_int shared int lt, intValue_congr fun j inside => cvW2h_int shared int inside]
    have value := modEq_of_le (intValue_leByte_modEq signed
      (readSigned (fun i => guest (w + offs.1 + i)) k) p.2.len) fits
    rw [leByte_congr (value.trans (readSigned_modEq _ k)) lt, leByte_readLE _ lt]
  · intro offs p count shared fits guest w host h guest' w' i lt
    have all : i < count := by
      rw [shared.count_eq, Nat.min_eq_left fits]
      exact lt
    rw [cvH2w_bytes shared all, cvW2h_bytes shared all]
  · intro offs p k sg sh shared guestInt hostInt len case guest w host h
    rw [intValue_congr fun j inside => cvW2h_int shared hostInt inside]
    rcases case with ⟨rfl, rfl, fits⟩ | ⟨rfl, same⟩
    · obtain ⟨low, high⟩ := readSigned_range (fun i => guest (w + offs.1 + i)) shared.bytes_pos
      have wider : (256 : ℤ) ^ k ≤ 256 ^ p.2.len := pow_le_pow_right₀ (by decide) fits
      exact readSigned_leByte (by omega) (by omega)
    · rw [same]
      apply intValue_congr
      intro j inside
      rw [leByte_congr (readSigned_modEq _ k) inside, leByte_readLE _ inside]
  · intro start n gap guest w host h i lt
    exact gap.settles w h guest i lt
  · intro start n gap host h guest w i lt
    exact gap.settles h w host i lt
  · intro offs p k s shared int host h guest w host' h' z value case i lt
    rw [cvW2h_int shared int lt, readSigned_congr fun j inside => cvH2w_int shared int inside, value]
    have bytes : leByte z i = host (h + offs.2 + i) := by
      rw [← value, leByte_intValue lt]
    rcases case with fits | ⟨low, high⟩
    · have same := modEq_of_le (intValue_leByte_modEq true z k) fits
      rw [← bytes]
      exact leByte_congr same lt
    · rw [readSigned_leByte low high, bytes]
  · intro offs p count shared host h guest w host' h' zeros i lt
    have least := shared.count_eq
    by_cases inside : i < count
    · rw [cvW2h_bytes shared inside, cvH2w_bytes shared inside]
    · rw [zeros i (by omega) lt]
      have cleared : Settles (t.writes .host (t.cvH2w name guest w host h) (t.rank name + 1) name h' w)
          (h' + (offs.2 + count)) (p.2.len - count) fun _ => 0 := shared.rest_settles h' w
      have here := cleared host' (i - count) (by omega)
      rw [show h' + (offs.2 + count) + (i - count) = h' + offs.2 + i by omega] at here
      exact here

/-- Every field that both structures have comes back to the guest. -/
def RoundTrips (t : ConvertTables) (name : String) : Prop :=
  ∀ gs hs, t.gtypes.findStruct name = some gs → t.htypes.findStruct name = some hs →
    ∀ gf ∈ gs.2, (∃ hf ∈ hs.2, hf.name = gf.name) → ∀ guest w host h guest' w', ∀ i < gf.len,
      t.cvH2w name guest' w' (t.cvW2h name host h guest w) h (w' + gf.offset + i) =
        guest (w + gf.offset + i)

/-- `struct iovec { void *iov_base; size_t iov_len; }`. -/
def iovecContext : ConvertContext where
  gtypes := [(1, .void), (2, .pointer 1 false), (3, .builtin .ulong false 4),
    (4, .struct "iovec" 8 [⟨"iov_base", 0, 4, 2⟩, ⟨"iov_len", 4, 4, 3⟩])]
  htypes := [(1, .void), (2, .pointer 1 false), (3, .builtin .ulong false 8),
    (4, .struct "iovec" 16 [⟨"iov_base", 0, 8, 2⟩, ⟨"iov_len", 8, 8, 3⟩])]
  casts := ⟨fun _ _ => 0, fun _ _ _ => 0⟩
  rank := fun _ => 0

/-- Only the length is copied. -/
def iovecConverter : Converter :=
  ⟨8, 16, [((⟨"iov_len", 4, 4, 3⟩, ⟨"iov_len", 8, 8, 3⟩), .scalar 4)]⟩

/-- With one structure in the description there is one converter. -/
theorem converter_only {c : ConvertContext} {only : String} (others : ∀ n ≠ only, c.gtypes.findStruct n = none)
    (conv : c.converter name = some cv) : name = only := by
  by_contra other
  unfold ConvertContext.converter Codegen.converter at conv
  split at conv
  · rw [others name other] at conv
    cases conv
  · cases conv

/-- One field that is copied has no other to overlap. -/
theorem placed_single {c : ConvertContext} {p : Field × Field} {copy : Copy} {gs hs : ℕ}
    (inside : ∀ side, (Side.pick side p).offset + (side.pick p).len ≤ side.pick (gs, hs))
    (scalar : ∀ k, copy = .scalar k → k ≤ p.1.len) (leaf : ∀ s, copy ≠ .inner s) :
    Placed c name ⟨gs, hs, [(p, copy)]⟩ := by
  refine ⟨?_, ?_, ?_, ?_⟩
  · intro side q mem
    cases List.mem_singleton.mp mem
    exact inside side
  · exact fun side => List.pairwise_singleton _ _
  · intro q k mem
    cases List.mem_singleton.mp mem
    exact scalar k rfl
  · intro q s mem
    cases List.mem_singleton.mp mem
    exact absurd rfl (leaf s)

theorem iovec_only (n : String) (other : n ≠ "iovec") : iovecContext.gtypes.findStruct n = none := by
  simp [iovecContext, TypeTable.findStruct, TypeInfo.isStruct, other.symm]

def iovecTables : ConvertTables where
  toConvertContext := iovecContext
  placed := by
    intro name cv conv
    obtain rfl := converter_only iovec_only conv
    obtain rfl : cv = iovecConverter := (Option.some.inj conv).symm
    apply placed_single
    · intro side
      cases side <;> decide
    · intro k same
      cases same
      decide
    · exact fun s no => nomatch no

/-- A pointer in a structure does not come back. -/
theorem iovec_base_lost : ¬ iovecTables.RoundTrips "iovec" := by
  intro trips
  have gap : Gap iovecTables .guest "iovec" 0 4 := by
    refine ⟨"iovec", iovecConverter, (0, 0), 0, .self _, rfl, by decide, ?_, rfl⟩
    intro field mem
    cases List.mem_singleton.mp mem
    decide
  have kept := trips _ _ rfl rfl ⟨"iov_base", 0, 4, 2⟩ (by decide)
    ⟨⟨"iov_base", 0, 8, 2⟩, by decide, rfl⟩ (fun _ => 1) 0 (fun _ => 0) 0 (fun _ => 0) 0 0 (by decide)
  exact absurd ((gap.settles 0 0 _ 0 (by decide)).symm.trans kept) (by decide)

end ConvertTables

end Yos.Codegen
