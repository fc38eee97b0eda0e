import Yos.Codegen.Bridge
import Mathlib.Data.List.TakeWhile
import Mathlib.Tactic.NormNum

/-!
# Pointer results of bridges

The bridge of a function in `RET_IS_DST` returns its first argument; that of a function in
`RET_OFFSET_INTO_FIRST` returns 0 for `NULL` and else the distance of the result from what the host was
given, added to the first argument.  `documented` says what the functions of both tables return, for
every content of their arguments.  The offset is the one of the host's pointer if the host was given
guest memory and the result is the destination itself (`dstEnd`), or a place in guest memory behind
offset 0; elsewhere it is not (`ptr_return_exact_iff`).
-/

namespace Yos.Codegen

/-! ## Documented results -/

/-- Where a result points: nowhere, to an element of the first argument, or to an element of an object
of the host's own. -/
inductive Place where
  | null
  | inFirst (i : ℕ)
  | inStorage (i : ℕ)
deriving DecidableEq, Repr

/-- What the arguments of a function of the tables give: the elements of the first, those of the second
(of a string without the terminator), the character searched for as an element, and the count.  For
`wcstok` of `NULL` the elements are those of the rest it saved. -/
structure HostArgs where
  text : List ℕ
  other : List ℕ
  char : ℕ
  count : ℕ
deriving DecidableEq, Repr

/-- An element of the first argument, if there is one. -/
def Place.ofIndex : Option ℕ → Place
  | none => .null
  | some i => .inFirst i

/-- The last index of an element with the property. -/
def lastIdx? (p : ℕ → Bool) (l : List ℕ) : Option ℕ :=
  (l.reverse.findIdx? p).map fun i => l.length - 1 - i

/-- The first index at which the needle begins. -/
def searchIdx? (needle hay : List ℕ) : Option ℕ :=
  (List.range (hay.length + 1)).find? fun i => needle.isPrefixOf (hay.drop i)

/-- `tolower` in the C locale. -/
def lower (c : ℕ) : ℕ := if 65 ≤ c ∧ c ≤ 90 then c + 32 else c

/-- The beginning of the last component of a path, slashes at the end aside. -/
def componentStart (path : List ℕ) : ℕ :=
  ((path.reverse.dropWhile (· == 47)).dropWhile (· != 47)).length

/-- The element of the destination at which a function of `RET_IS_DST` returns. -/
def dstEnd (name : String) (h : HostArgs) : ℕ :=
  match name with
  | "mempcpy" => h.count
  | "stpcpy" | "wcpcpy" => h.other.length
  | "stpncpy" | "wcpncpy" => min h.count h.other.length
  | _ => 0

/-- The results that the documentation of a function of `RET_OFFSET_INTO_FIRST` allows; `isNull` says
that the first argument is `NULL`.  Only for `basename` there are several: it may return a string of its
own. -/
def foundAt (name : String) (isNull : Bool) (h : HostArgs) : List Place :=
  match name with
  | "strchr" | "index" | "wcschr" => [.ofIndex ((h.text ++ [0]).findIdx? (· == h.char))]
  | "strrchr" | "rindex" | "wcsrchr" => [.ofIndex (lastIdx? (· == h.char) (h.text ++ [0]))]
  | "strchrnul" => [.inFirst (h.text.findIdx (· == h.char))]
  | "memchr" | "wmemchr" => [.ofIndex ((h.text.take h.count).findIdx? (· == h.char))]
  | "memrchr" => [.ofIndex (lastIdx? (· == h.char) (h.text.take h.count))]
  | "strstr" | "wcsstr" | "memmem" => [.ofIndex (searchIdx? h.other h.text)]
  | "strcasestr" => [.ofIndex (searchIdx? (h.other.map lower) (h.text.map lower))]
  | "strpbrk" | "wcspbrk" => [.ofIndex (h.text.findIdx? (· ∈ h.other))]
  | "memccpy" =>
    [.ofIndex (((h.other.take h.count).findIdx? (· == h.char)).map (· + 1))]
  | "wcstok" =>
    match h.text.findIdx? (· ∉ h.other) with
    | none => [.null]
    | some i => [if isNull then .inStorage i else .inFirst i]
  | "basename" =>
    if isNull ∨ h.text = [] then [.inStorage 0]
    else if h.text.all (· == 47) then
      .inStorage 0 :: (List.range h.text.length).map .inFirst
    else [.inStorage 0, .inFirst (componentStart h.text)]
  | _ => []

/-- The results that the documentation allows. -/
def documented (name : String) (isNull : Bool) (h : HostArgs) : List Place :=
  if name ∈ BridgeInput.retIsDst then [.inFirst (dstEnd name h)] else foundAt name isNull h

example : documented "strrchr" false ⟨[47, 97, 47, 98], [], 47, 0⟩ = [.inFirst 2] := by decide

section FoundAt

variable {name : String} {isNull : Bool} {h : HostArgs} {i : ℕ}

theorem inFirst_eq_ofIndex {o : Option ℕ} : Place.inFirst i = .ofIndex o ↔ o = some i := by
  cases o with
  | none => simp [Place.ofIndex]
  | some j => simp [Place.ofIndex, eq_comm]

theorem lt_of_findIdx? {p : ℕ → Bool} {l : List ℕ} (found : l.findIdx? p = some i) :
    i < l.length :=
  (List.findIdx?_eq_some_iff_getElem.mp found).1

theorem lt_of_lastIdx? {p : ℕ → Bool} {l : List ℕ} (found : lastIdx? p l = some i) :
    i < l.length := by
  obtain ⟨j, back, rfl⟩ := Option.map_eq_some_iff.mp found
  have bound := lt_of_findIdx? back
  rw [List.length_reverse] at bound
  omega

theorem le_of_searchIdx? {needle hay : List ℕ} (found : searchIdx? needle hay = some i) :
    i ≤ hay.length := by
  have bound := List.mem_range.mp (List.mem_of_find?_eq_some found)
  omega

theorem componentStart_le (path : List ℕ) : componentStart path ≤ path.length := by
  unfold componentStart
  refine (List.length_dropWhile_le _ _).trans ((List.length_dropWhile_le _ _).trans ?_)
  rw [List.length_reverse]

/-- What is found in the first argument lies in it. -/
theorem foundAt_le (doc : .inFirst i ∈ foundAt name isNull h) : i ≤ max h.text.length h.count := by
  unfold foundAt at doc
  split at doc
  case h_1 | h_2 | h_3 =>
    have bound := lt_of_findIdx? (inFirst_eq_ofIndex.mp (List.mem_singleton.mp doc))
    rw [List.length_append, List.length_singleton] at bound
    omega
  case h_4 | h_5 | h_6 =>
    have bound := lt_of_lastIdx? (inFirst_eq_ofIndex.mp (List.mem_singleton.mp doc))
    rw [List.length_append, List.length_singleton] at bound
    omega
  case h_7 =>
    have here := Place.inFirst.inj (List.mem_singleton.mp doc)
    have bound : h.text.findIdx (· == h.char) ≤ h.text.length := List.findIdx_le_length
    omega
  case h_8 | h_9 =>
    have bound := lt_of_findIdx? (inFirst_eq_ofIndex.mp (List.mem_singleton.mp doc))
    rw [List.length_take] at bound
    omega
  case h_10 =>
    have bound := lt_of_lastIdx? (inFirst_eq_ofIndex.mp (List.mem_singleton.mp doc))
    rw [List.length_take] at bound
    omega
  case h_11 | h_12 | h_13 =>
    have bound := le_of_searchIdx? (inFirst_eq_ofIndex.mp (List.mem_singleton.mp doc))
    omega
  case h_14 =>
    have bound := le_of_searchIdx? (inFirst_eq_ofIndex.mp (List.mem_singleton.mp doc))
    rw [List.length_map] at bound
    omega
  case h_15 | h_16 =>
    have bound := lt_of_findIdx? (inFirst_eq_ofIndex.mp (List.mem_singleton.mp doc))
    omega
  case h_17 =>
    obtain ⟨j, found, rfl⟩ :=
      Option.map_eq_some_iff.mp (inFirst_eq_ofIndex.mp (List.mem_singleton.mp doc))
    have bound := lt_of_findIdx? found
    rw [List.length_take] at bound
    omega
  case h_18 =>
    split at doc
    · exact absurd (List.mem_singleton.mp doc) nofun
    · have here := List.mem_singleton.mp doc
      split at here
      · cases here
      · have bound := lt_of_findIdx? (by assumption)
        have same := Place.inFirst.inj here
        omega
  case h_19 =>
    split_ifs at doc with empty slashes
    · simp at doc
    · obtain ⟨j, bound, same⟩ := List.mem_map.mp ((List.mem_cons.mp doc).resolve_left nofun)
      rw [List.mem_range] at bound
      have here := Place.inFirst.inj same
      omega
    · have here := List.mem_singleton.mp ((List.mem_cons.mp doc).resolve_left nofun)
      have bound := componentStart_le h.text
      have same := Place.inFirst.inj here
      omega
  case h_20 => exact absurd doc List.not_mem_nil

/-- Only `basename` returns an object of its own. -/
theorem inStorage_not_mem (other : name ≠ "basename") : .inStorage i ∉ foundAt name false h := by
  have ofIndex (o : Option ℕ) : Place.inStorage i ≠ .ofIndex o := by
    cases o <;> simp [Place.ofIndex]
  intro doc
  unfold foundAt at doc
  split at doc
  case h_7 => simp at doc
  case h_18 => split at doc <;> simp at doc
  case h_19 => exact other rfl
  case h_20 => exact absurd doc List.not_mem_nil
  all_goals exact ofIndex _ (List.mem_singleton.mp doc)

end FoundAt

/-! ## The bridge -/

/-- One call of a bridge: the guest's memory in the host, the guest's first argument, the temporary of
the host's width that may stand for it, an object of the host's own, and the size of an element. -/
structure PtrCall where
  base : ℕ
  size : ℕ
  off : ℕ
  temp : ℕ
  storage : ℕ
  width : ℕ
  base_pos : 0 < base
  size_lt : size < 2 ^ 32
  off_lt : off < 2 ^ 32
  temp_pos : 0 < temp
  storage_pos : 0 < storage
  width_pos : 0 < width

namespace PtrCall

variable (c : PtrCall)

/-- `<first>_h`, what the host is given. -/
def hostFirst (narrow : Bool) : ℕ :=
  if narrow then if c.off = 0 then 0 else c.temp else c.base + c.off

/-- The address of a place. -/
def address (narrow : Bool) : Place → ℕ
  | .null => 0
  | .inFirst i => c.hostFirst narrow + c.width * i
  | .inStorage i => c.storage + c.width * i

/-- An address at which there is no guest memory. -/
def Outside (r : ℕ) : Prop := r < c.base ∨ c.base + c.size < r

/-- The guest's offset is 0 exactly for `NULL`, and else that of the host's pointer. -/
def Exact (r ret : ℕ) : Prop :=
  (ret = 0 ↔ r = 0) ∧ (r ≠ 0 → c.base ≤ r ∧ r ≤ c.base + c.size ∧ ret = r - c.base)

end PtrCall

namespace BridgeInput

variable (d : BridgeInput)

/-- The first pointer goes through a temporary of the host's width. -/
def narrowFirst (i : ℕ) : Bool :=
  match (d.pairs[i]?).bind d.argKind with
  | some (.narrow _) => true
  | _ => false

/-- What the bridge returns when the host's function returns the pointer `r`; the functions that return
a new copy are left out. -/
def ptrReturn (c : PtrCall) (r : ℕ) : Option ℕ :=
  if d.canEmit then
    match d.ptrRet with
    | some (.firstArgAlias, _) => some c.off
    | some (.offsetIntoFirst, i) =>
      if r = 0 then some 0
      else some (((c.off : ℤ) + ((r : ℤ) - c.hostFirst (d.narrowFirst i))) % 2 ^ 32).toNat
    | _ => none
  else some 0

/-- The first argument reaches the host as it is, and the result lies where the table has it. -/
def PtrReturnOk (c : PtrCall) (h : HostArgs) (p : Place) : Prop :=
  if d.narrowFirst 0 then c.address true p = 0
  else if d.name ∈ retIsDst then 0 < c.off ∧ c.off ≤ c.size ∧ dstEnd d.name h = 0
  else p = .null ∨ ∃ i, p = .inFirst i ∧ 0 < c.off + c.width * i ∧ c.off + c.width * i ≤ c.size

end BridgeInput

/-! ## When the offset is exact -/

section Exact

variable {c : PtrCall} {r : ℕ}

/-- A pointer of the host's own has no offset. -/
theorem exact_outside_iff {ret : ℕ} (outside : c.Outside r) : c.Exact r ret ↔ ret = 0 ∧ r = 0 := by
  unfold PtrCall.Outside at outside
  constructor
  · intro exact
    have null : r = 0 := by
      by_contra some
      have inside := exact.2 some
      omega
    exact ⟨exact.1.mpr null, null⟩
  · rintro ⟨rfl, rfl⟩
    exact ⟨Iff.rfl, fun some => absurd rfl some⟩

/-- The sum that the bridge computes is the distance from the base. -/
theorem offset_eq {r : ℕ} (above : c.base ≤ r) (small : r - c.base < 2 ^ 32) :
    (((c.off : ℤ) + ((r : ℤ) - c.hostFirst false)) % 2 ^ 32).toNat = r - c.base := by
  have distance : (c.off : ℤ) + ((r : ℤ) - c.hostFirst false) = ((r - c.base : ℕ) : ℤ) := by
    have given : c.hostFirst false = c.base + c.off := if_neg Bool.false_ne_true
    rw [given]
    omega
  rw [distance]
  omega

/-- A place in guest memory has the offset that the bridge computes, unless it is offset 0. -/
theorem exact_offset_iff (some : r ≠ 0) :
    c.Exact r (((c.off : ℤ) + ((r : ℤ) - c.hostFirst false)) % 2 ^ 32).toNat ↔
      c.base < r ∧ r ≤ c.base + c.size := by
  have size := c.size_lt
  constructor
  · intro exact
    obtain ⟨above, below, ret⟩ := exact.2 some
    refine ⟨lt_of_le_of_ne above fun start => ?_, below⟩
    exact some (exact.1.mp (by omega))
  · rintro ⟨above, below⟩
    rw [offset_eq above.le (by omega)]
    exact ⟨by omega, fun _ => ⟨above.le, below, rfl⟩⟩

end Exact

variable {d : BridgeInput} {c : PtrCall} {h : HostArgs} {p : Place}

/-- The first argument is returned. -/
theorem ptrReturn_dst (emits : d.canEmit = true) (ptr : d.retIsPtr = true)
    (first : d.firstPtrArg = some 0) (dst : d.name ∈ BridgeInput.retIsDst) (r : ℕ) :
    d.ptrReturn c r = some c.off := by
  have kind : d.ptrRet = some (.firstArgAlias, 0) := by
    rw [BridgeInput.ptrRet, if_pos ptr, BridgeInput.retKind, if_pos dst, first]
    rfl
  rw [BridgeInput.ptrReturn, if_pos emits, kind]

/-- The distance is returned. -/
theorem ptrReturn_found (emits : d.canEmit = true) (ptr : d.retIsPtr = true)
    (first : d.firstPtrArg = some 0) (notDst : d.name ∉ BridgeInput.retIsDst)
    (found : d.name ∈ BridgeInput.retOffsetIntoFirst) (r : ℕ) :
    d.ptrReturn c r = if r = 0 then some 0
      else some (((c.off : ℤ) + ((r : ℤ) - c.hostFirst (d.narrowFirst 0))) % 2 ^ 32).toNat := by
  have kind : d.ptrRet = some (.offsetIntoFirst, 0) := by
    rw [BridgeInput.ptrRet, if_pos ptr, BridgeInput.retKind, if_neg notDst, if_pos found, first]
    rfl
  rw [BridgeInput.ptrReturn, if_pos emits, kind]

/-- Every place but `NULL` has an address. -/
theorem eq_null_of_address (null : c.address false p = 0) : p = .null := by
  have base := c.base_pos
  have storage := c.storage_pos
  cases p with
  | null => rfl
  | inFirst i =>
    have given : c.hostFirst false = c.base + c.off := if_neg Bool.false_ne_true
    rw [PtrCall.address, given] at null
    omega
  | inStorage i =>
    rw [PtrCall.address] at null
    omega

/-- A function of `RET_IS_DST`. -/
theorem exact_dst_iff (own : d.narrowFirst 0 = true → c.Outside (c.address true p))
    (dst : d.name ∈ BridgeInput.retIsDst) (doc : p = .inFirst (dstEnd d.name h)) :
    c.Exact (c.address (d.narrowFirst 0) p) c.off ↔ d.PtrReturnOk c h p := by
  unfold BridgeInput.PtrReturnOk
  cases narrow : d.narrowFirst 0 with
  | true =>
    rw [if_pos rfl, exact_outside_iff (own narrow), and_iff_right_iff_imp]
    intro null
    by_contra some
    have given : c.hostFirst true = c.temp := by
      rw [PtrCall.hostFirst, if_pos rfl, if_neg some]
    rw [doc, PtrCall.address, given] at null
    have := c.temp_pos
    omega
  | false =>
    have given : c.hostFirst false = c.base + c.off := if_neg Bool.false_ne_true
    have pos := c.base_pos
    rw [if_neg Bool.false_ne_true, if_pos dst, doc, PtrCall.address, given]
    constructor
    · intro exact
      obtain ⟨-, below, same⟩ := exact.2 (by omega)
      have stay : c.width * dstEnd d.name h = 0 := by omega
      refine ⟨?_, by omega, (Nat.mul_eq_zero.mp stay).resolve_left c.width_pos.ne'⟩
      by_contra zero
      have := exact.1.mp (by omega)
      omega
    · rintro ⟨some, inside, stay⟩
      rw [stay, Nat.mul_zero]
      exact ⟨by omega, fun _ => ⟨by omega, by omega, by omega⟩⟩

/-- A function of `RET_OFFSET_INTO_FIRST`. -/
theorem exact_found_iff
    (own : d.narrowFirst 0 = true ∨ (∃ i, p = .inStorage i) →
      c.Outside (c.address (d.narrowFirst 0) p))
    (notDst : d.name ∉ BridgeInput.retIsDst) :
    (∃ ret ∈ if c.address (d.narrowFirst 0) p = 0 then some 0
        else some (((c.off : ℤ) + ((c.address (d.narrowFirst 0) p : ℤ) -
          c.hostFirst (d.narrowFirst 0))) % 2 ^ 32).toNat,
      c.Exact (c.address (d.narrowFirst 0) p) ret) ↔ d.PtrReturnOk c h p := by
  unfold BridgeInput.PtrReturnOk
  rw [if_neg notDst]
  by_cases null : c.address (d.narrowFirst 0) p = 0
  · rw [if_pos null, null]
    have exact : c.Exact 0 0 := ⟨Iff.rfl, fun some => absurd rfl some⟩
    refine iff_of_true ⟨0, rfl, exact⟩ ?_
    cases narrow : d.narrowFirst 0 with
    | true =>
      rw [narrow] at null
      rwa [if_pos rfl]
    | false =>
      rw [narrow] at null
      rw [if_neg Bool.false_ne_true]
      exact .inl (eq_null_of_address null)
  · rw [if_neg null]
    simp only [Option.mem_some_iff, exists_eq_left']
    cases narrow : d.narrowFirst 0 with
    | true =>
      rw [narrow] at null own
      rw [exact_outside_iff (own (.inl rfl)), if_pos rfl]
      exact iff_of_false (fun both => null both.2) null
    | false =>
      rw [narrow] at null own
      rw [exact_offset_iff null, if_neg Bool.false_ne_true]
      cases p with
      | null => exact absurd rfl null
      | inFirst i =>
        have given : c.hostFirst false = c.base + c.off := if_neg Bool.false_ne_true
        simp only [PtrCall.address, given, reduceCtorEq, false_or, Place.inFirst.injEq,
          exists_eq_left']
        omega
      | inStorage i =>
        have outside := own (.inr ⟨i, rfl⟩)
        unfold PtrCall.Outside at outside
        refine iff_of_false (fun inside => ?_) (by simp)
        omega

/-- A pointer result has the exact offset just when the host is given guest memory and returns the
destination itself, `NULL`, or a place behind offset 0. -/
theorem ptr_return_exact_iff (d : BridgeInput) (c : PtrCall) (h : HostArgs) (p : Place)
    (emits : d.canEmit = true) (ptr : d.retIsPtr = true) (first : d.firstPtrArg = some 0)
    (table : d.name ∈ BridgeInput.retIsDst ++ BridgeInput.retOffsetIntoFirst)
    (doc : p ∈ documented d.name (c.hostFirst (d.narrowFirst 0) == 0) h)
    (own : d.narrowFirst 0 = true ∨ (∃ i, p = .inStorage i) →
      c.Outside (c.address (d.narrowFirst 0) p)) :
    (∃ ret ∈ d.ptrReturn c (c.address (d.narrowFirst 0) p),
      c.Exact (c.address (d.narrowFirst 0) p) ret) ↔ d.PtrReturnOk c h p := by
  by_cases dst : d.name ∈ BridgeInput.retIsDst
  · rw [documented, if_pos dst, List.mem_singleton] at doc
    rw [ptrReturn_dst emits ptr first dst]
    simp only [Option.mem_some_iff, exists_eq_left']
    refine exact_dst_iff (fun narrow => ?_) dst doc
    have outside := own (.inl narrow)
    rwa [narrow] at outside
  · have found := (List.mem_append.mp table).resolve_left dst
    rw [ptrReturn_found emits ptr first dst found]
    exact exact_found_iff own dst

/-- A search of guest memory behind offset 0 is translated exactly, found or not, but for `basename`. -/
theorem ptrReturnOk_of_inside (shared : d.narrowFirst 0 = false) (notDst : d.name ∉ BridgeInput.retIsDst)
    (other : d.name ≠ "basename") (doc : p ∈ documented d.name false h) (start : 0 < c.off)
    (inside : c.off + c.width * max h.text.length h.count ≤ c.size) : d.PtrReturnOk c h p := by
  rw [documented, if_neg notDst] at doc
  rw [BridgeInput.PtrReturnOk, shared, if_neg Bool.false_ne_true, if_neg notDst]
  cases p with
  | null => exact .inl rfl
  | inFirst i =>
    have bound : c.width * i ≤ c.width * max h.text.length h.count :=
      Nat.mul_le_mul_left _ (foundAt_le doc)
    exact .inr ⟨i, rfl, by omega, by omega⟩
  | inStorage i => exact absurd doc (inStorage_not_mem other)

/-- `char *name(char *s, const char *t)`, or with `s` alone. -/
def stringInput (name : String) (arity : ℕ) : BridgeInput where
  name := name
  guest := ⟨[⟨"s", 2⟩, ⟨"t", 3⟩].take arity, 2, false⟩
  host := ⟨[⟨"s", 2⟩, ⟨"t", 3⟩].take arity, 2, false⟩
  gtypes := [(1, .builtin .char false 1), (2, .pointer 1 false), (3, .pointer 1 true)]
  htypes := [(1, .builtin .char false 1), (2, .pointer 1 false), (3, .pointer 1 true)]
  publicHeader := true

/-- A call with guest offset 256. -/
def stringCall : PtrCall where
  base := 0x10000
  size := 0x1000
  off := 0x100
  temp := 1
  storage := 0x20000
  width := 1
  base_pos := by decide
  size_lt := by decide
  off_lt := by decide
  temp_pos := by decide
  storage_pos := by decide
  width_pos := by decide

/-- `strstr("a/b", "/")`. -/
theorem ptr_return_exact_strstr :
    ∃ ret ∈ (stringInput "strstr" 2).ptrReturn stringCall 0x10101, stringCall.Exact 0x10101 ret := by
  have doc : .inFirst 1 ∈ documented "strstr" false ⟨[97, 47, 98], [47], 0, 0⟩ := by decide
  have shared : (stringInput "strstr" 2).narrowFirst 0 = false := by decide
  have exact := ptr_return_exact_iff (stringInput "strstr" 2) stringCall ⟨[97, 47, 98], [47], 0, 0⟩
    (.inFirst 1) (by decide) (by decide) (by decide) (by decide) doc
    fun own => own.elim (fun narrow => absurd narrow (by decide)) fun ⟨_, same⟩ => nomatch same
  exact exact.mpr
    (ptrReturnOk_of_inside shared (by decide) (by decide) doc (by decide) (by decide))

/-- `stpcpy(s, "ab")` is translated to `s`, and the string of its own that `basename("")` returns to an
offset that has nothing to do with it. -/
theorem ptr_return_inexact :
    (∃ p ∈ documented "stpcpy" false ⟨[], [97, 98], 0, 0⟩,
      ¬ ∃ ret ∈ (stringInput "stpcpy" 2).ptrReturn stringCall (stringCall.address false p),
        stringCall.Exact (stringCall.address false p) ret) ∧
    ∃ p ∈ documented "basename" false ⟨[], [], 0, 0⟩,
      ¬ ∃ ret ∈ (stringInput "basename" 1).ptrReturn stringCall (stringCall.address false p),
        stringCall.Exact (stringCall.address false p) ret := by
  refine ⟨⟨.inFirst 2, by decide, ?_⟩, .inStorage 0, by decide, ?_⟩
  · rintro ⟨ret, returned, exact⟩
    obtain rfl : 0x100 = ret := Option.some.inj returned
    exact absurd (exact.2 (by decide)) (by decide)
  · rintro ⟨ret, -, exact⟩
    exact absurd (exact.2 (by decide)).2.1 (by decide)

end Yos.Codegen
