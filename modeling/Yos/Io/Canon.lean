import Mathlib.Data.List.TakeWhile
import Yos.Io.Path
import Yos.Lib.PathText

/-!
# Canonical paths (`canon_abs_path`, `impl/io/io.c`)

`canon_abs_path` rewrites an absolute path of at most `PATH_MAX - 1` bytes through the buffer `tmp` of
`PATH_MAX` bytes.  A component that would end at the last byte of the buffer is dropped, although it
fits: a separator is written behind every component, and only taken away at the end.  Only a path of
`PATH_MAX - 1` bytes that is already in normal form has such a component (`canon_normal_iff`).
-/

namespace Yos

namespace Canon

/-- The byte `.`. -/
def dot : UInt8 := 46

/-- The lexical normal form of a path. -/
abbrev normalForm (p : List UInt8) : List UInt8 := PathText.normal slash dot p

/-! ## The function -/

/-- The buffer `tmp`: the bytes before the write pointer, and the end of the part written so far. -/
structure Buf where
  out : List UInt8
  top : ℕ

/-- Write bytes and move the write pointer behind them. -/
def Buf.put (b : Buf) (bytes : List UInt8) : Buf :=
  ⟨b.out ++ bytes, max b.top (b.out.length + bytes.length)⟩

/-- `while (out > tmp + 1 && out[-1] != '/') out--;` -/
def backTo (out : List UInt8) : List UInt8 :=
  if 1 < out.length ∧ out.getLast? ≠ some slash then backTo out.dropLast else out
termination_by out.length
decreasing_by
  rw [List.length_dropLast]
  omega

/-- The branch for a component `..`. -/
def backUp (out : List UInt8) : List UInt8 := if 1 < out.length then backTo out.dropLast else out

/-- What is left after the separators starts with a component. -/
theorem component_head {inp : List UInt8} (more : inp.dropWhile (· = slash) ≠ []) :
    ∃ b tail, inp.dropWhile (· = slash) = b :: tail ∧ b ≠ slash := by
  obtain ⟨b, tail, left⟩ := List.exists_cons_of_ne_nil more
  refine ⟨b, tail, left, ?_⟩
  have stops := List.head?_dropWhile_not (fun b => decide (b = slash)) inp
  rw [left] at stops
  simpa using stops

theorem next_shorter {inp : List UInt8} (more : inp.dropWhile (· = slash) ≠ []) :
    ((inp.dropWhile (· = slash)).dropWhile (· ≠ slash)).length < inp.length := by
  obtain ⟨b, tail, left, other⟩ := component_head more
  have drops : (b :: tail).dropWhile (· ≠ slash) = tail.dropWhile (· ≠ slash) :=
    List.dropWhile_cons_of_pos (by simpa using other)
  have inner := (List.dropWhile_sublist (fun b => decide (b = slash)) (l := inp)).length_le
  have outer := (List.dropWhile_sublist (fun b => decide (b ≠ slash)) (l := tail)).length_le
  rw [left, List.length_cons] at inner
  rw [left, drops]
  omega

/-- The loop over the components. -/
def canonLoop (b : Buf) (inp : List UInt8) : Buf :=
  let rest := inp.dropWhile (· = slash)
  if rest = [] then b
  else
    let seg := rest.takeWhile (· ≠ slash)
    let next := rest.dropWhile (· ≠ slash)
    if seg = [dot] then canonLoop b next
    else if seg = [dot, dot] then canonLoop { b with out := backUp b.out } next
    else if pathMax ≤ b.out.length + seg.length + 1 then b
    else canonLoop ((b.put seg).put [slash]) next
termination_by inp.length
decreasing_by all_goals exact next_shorter ‹_›

/-- `canon_abs_path` on an absolute path: the buffer when its bytes are copied to `p`. -/
def canonRun (p : List UInt8) : Buf :=
  let b := canonLoop ((⟨[], 0⟩ : Buf).put [slash]) p.tail
  let b :=
    if 1 < b.out.length ∧ b.out.getLast? = some slash then { b with out := b.out.dropLast } else b
  -- The NUL behind the bytes.
  { b with top := max b.top (b.out.length + 1) }

/-- `canon_abs_path`. -/
def canonAbsPath (p : List UInt8) : List UInt8 := if isAbs p then (canonRun p).out else p

/-- The bytes written to `tmp` and copied back to the buffer of `p` fit in both. -/
def InBounds (p : List UInt8) : Prop :=
  isAbs p = true → (canonRun p).top ≤ pathMax ∧ (canonRun p).out.length + 1 ≤ pathMax

/-! ## The loop -/

/-- What `tmp` holds after the components `kept`. -/
def emitted (kept : List (List UInt8)) : List UInt8 := PathText.spell slash kept ++ [slash]

theorem emitted_append (kept : List (List UInt8)) (c : List UInt8) :
    emitted (kept ++ [c]) = emitted kept ++ c ++ [slash] := by
  simp [emitted, PathText.spell_append]

theorem length_emitted_append (kept : List (List UInt8)) (c : List UInt8) :
    (emitted (kept ++ [c])).length = (emitted kept).length + c.length + 1 := by
  rw [emitted_append, List.length_append, List.length_append, List.length_singleton]

theorem length_emitted_pos (kept : List (List UInt8)) : 0 < (emitted kept).length := by
  simp [emitted]

theorem backTo_component {base c : List UInt8} (whole : slash ∉ c) :
    backTo (base ++ [slash] ++ c) = base ++ [slash] := by
  induction c using List.reverseRecOn with
  | nil =>
    rw [List.append_nil, backTo, if_neg]
    simp
  | append_singleton c b ih =>
    rw [List.mem_append, not_or, List.mem_singleton] at whole
    rw [backTo, if_pos, ← List.append_assoc, List.dropLast_concat, ih whole.1]
    rw [← List.append_assoc, List.getLast?_concat]
    refine ⟨by simp; omega, fun h => whole.2 (Option.some.inj h).symm⟩

/-- A component `..` takes the last component away. -/
theorem backUp_emitted {kept : List (List UInt8)}
    (plain : ∀ c ∈ kept, PathText.Plain slash dot c) : backUp (emitted kept) = emitted kept.dropLast := by
  cases kept using List.reverseRecOn with
  | nil => simp [backUp, emitted]
  | append_singleton kept c =>
    have whole := (plain c (by simp)).whole
    have long := length_emitted_pos kept
    rw [emitted_append, backUp, if_pos (by simp; omega), List.dropLast_concat, List.dropLast_concat]
    exact backTo_component whole

theorem length_emitted_dropLast (kept : List (List UInt8)) :
    (emitted kept.dropLast).length ≤ (emitted kept).length := by
  have fewer := ((List.dropLast_sublist kept).flatMap fun c => slash :: c).length_le
  simpa [emitted, PathText.spell] using fewer

/-- The loop cuts one component off what is left. -/
structure Cut (inp seg next : List UInt8) : Prop where
  nonempty : seg ≠ []
  whole : slash ∉ seg
  starts : next = [] ∨ next.head? = some slash
  length : seg.length + next.length < inp.length
  walk : ∀ kept, PathText.walk slash dot kept inp =
    PathText.walk slash dot (PathText.push dot kept seg) next

theorem component_cut {inp : List UInt8} (more : inp.dropWhile (· = slash) ≠ [])
    (begins : inp = [] ∨ inp.head? = some slash) :
    Cut inp ((inp.dropWhile (· = slash)).takeWhile (· ≠ slash))
      ((inp.dropWhile (· = slash)).dropWhile (· ≠ slash)) := by
  obtain ⟨b, tail, left, other⟩ := component_head more
  have joined := List.takeWhile_append_dropWhile (p := fun b => decide (b ≠ slash))
    (l := inp.dropWhile (· = slash))
  have whole : slash ∉ (inp.dropWhile (· = slash)).takeWhile (· ≠ slash) := fun mem => by
    simpa using List.mem_takeWhile_imp mem
  have starts : (inp.dropWhile (· = slash)).dropWhile (· ≠ slash) = [] ∨
      ((inp.dropWhile (· = slash)).dropWhile (· ≠ slash)).head? = some slash := by
    have stops := List.head?_dropWhile_not (fun b => decide (b ≠ slash)) (inp.dropWhile (· = slash))
    cases ends : (inp.dropWhile (· = slash)).dropWhile (· ≠ slash) with
    | nil => exact .inl rfl
    | cons c next =>
      rw [ends] at stops
      exact .inr (by simpa using stops)
  refine ⟨?_, whole, starts, ?_, fun kept => ?_⟩
  · rw [left, List.takeWhile_cons_of_pos (by simpa using other)]
    exact List.cons_ne_nil _ _
  · rcases begins with rfl | first
    · exact absurd rfl more
    · obtain ⟨rest, rfl⟩ := List.head?_eq_some_iff.1 first
      have inner := (List.dropWhile_sublist (fun b => decide (b = slash)) (l := rest)).length_le
      rw [← List.length_append, joined, List.dropWhile_cons_of_pos (by simp), List.length_cons]
      omega
  · rw [← PathText.walk_dropWhile, ← PathText.walk_component whole starts, joined]

/-- The loop keeps the components that should be kept, except that one which would fill `tmp` is
dropped. -/
theorem canonLoop_spec {b : Buf} {inp : List UInt8} {kept : List (List UInt8)}
    (plain : ∀ c ∈ kept, PathText.Plain slash dot c) (holds : b.out = emitted kept)
    (starts : inp = [] ∨ inp.head? = some slash) (short : (emitted kept).length < pathMax)
    (fits : (emitted kept).length + inp.length ≤ pathMax) (top : b.top < pathMax) :
    (canonLoop b inp).top < pathMax ∧ (canonLoop b inp).out.length < pathMax ∧
      (canonLoop b inp).out =
        if (emitted (PathText.walk slash dot kept inp)).length < pathMax then
          emitted (PathText.walk slash dot kept inp)
        else emitted (PathText.walk slash dot kept inp).dropLast := by
  fun_induction canonLoop b inp generalizing kept with
  | case1 b inp rest =>
    rename_i empty
    have done : PathText.walk slash dot kept inp = kept := by
      rw [← PathText.walk_dropWhile]
      exact (congrArg _ empty).trans (PathText.walk_nil kept)
    rw [done, if_pos short]
    exact ⟨top, holds ▸ short, holds⟩
  | case2 b inp rest more seg next is_dot =>
    rename_i ih
    have cut : Cut inp seg next := component_cut more starts
    have len := cut.length
    rw [cut.walk, is_dot, PathText.push_dot]
    exact ih plain holds cut.starts short (by omega) top
  | case3 b inp rest more seg next not_dot is_dots =>
    rename_i ih
    have cut : Cut inp seg next := component_cut more starts
    have len := cut.length
    have shorter := length_emitted_dropLast kept
    rw [cut.walk, is_dots, PathText.push_dots]
    exact ih (fun c mem => plain c (List.mem_of_mem_dropLast mem))
      ((congrArg backUp holds).trans (backUp_emitted plain)) cut.starts (by omega) (by omega) top
  | case4 b inp rest more seg not_dot not_dots =>
    rename_i full
    have cut : Cut inp seg (rest.dropWhile (· ≠ slash)) := component_cut more starts
    have len := cut.length
    have longer := length_emitted_append kept seg
    rw [holds] at full
    -- The component ends the path.
    have last : rest.dropWhile (· ≠ slash) = [] := List.eq_nil_of_length_eq_zero (by omega)
    rw [cut.walk, PathText.push_plain ⟨cut.nonempty, not_dot, not_dots, cut.whole⟩, last,
      PathText.walk_nil, if_neg (by omega), List.dropLast_concat]
    exact ⟨top, holds ▸ short, holds⟩
  | case5 b inp rest more seg next not_dot not_dots room =>
    rename_i ih
    have cut : Cut inp seg next := component_cut more starts
    have len := cut.length
    have longer := length_emitted_append kept seg
    have seg_plain : PathText.Plain slash dot seg := ⟨cut.nonempty, not_dot, not_dots, cut.whole⟩
    rw [holds] at room
    rw [cut.walk, PathText.push_plain seg_plain]
    refine ih ?_ ?_ cut.starts (by omega) (by omega) ?_
    · intro c mem
      rcases List.mem_append.1 mem with old | new
      · exact plain c old
      · obtain rfl := List.mem_singleton.1 new
        exact seg_plain
    · rw [emitted_append, Buf.put, Buf.put, holds]
    · simp only [Buf.put, holds, List.length_append, List.length_singleton]
      omega

/-! ## The result -/

/-- The separator behind the last component is taken away. -/
theorem strip_emitted (kept : List (List UInt8)) :
    (if 1 < (emitted kept).length ∧ (emitted kept).getLast? = some slash then (emitted kept).dropLast
      else emitted kept) = PathText.text slash kept := by
  by_cases empty : kept = []
  · simp [empty, emitted, PathText.text_nil]
  · have long : 1 < (emitted kept).length := by
      obtain ⟨c, cs, rfl⟩ := List.exists_cons_of_ne_nil empty
      simp [emitted]
    rw [if_pos ⟨long, by rw [emitted, List.getLast?_concat]⟩, PathText.text_of_ne_nil empty, emitted,
      List.dropLast_concat]

theorem length_emitted {kept : List (List UInt8)} (some_left : kept ≠ []) :
    (emitted kept).length = (PathText.text slash kept).length + 1 := by
  rw [PathText.text_of_ne_nil some_left, emitted, List.length_append, List.length_singleton]

/-- The loop drops the separators it starts with. -/
theorem canonLoop_cons_slash (b : Buf) (inp : List UInt8) :
    canonLoop b (slash :: inp) = canonLoop b inp := by
  rw [canonLoop, canonLoop.eq_def b inp, List.dropWhile_cons_of_pos (by simp)]

/-- The components of `p` that are left. -/
abbrev left (p : List UInt8) : List (List UInt8) := PathText.walk slash dot [] p

theorem left_plain (p : List UInt8) : ∀ c ∈ left p, PathText.Plain slash dot c :=
  PathText.walk_plain (by simp) p

theorem isAbs_iff {p : List UInt8} : isAbs p = true ↔ ∃ q, p = slash :: q := by
  cases p with
  | nil => simp [isAbs]
  | cons b q => simp [isAbs]

theorem canonRun_spec {p : List UInt8} (abs : isAbs p = true) (short : p.length < pathMax) :
    (canonRun p).top ≤ pathMax ∧ (canonRun p).out.length < pathMax ∧
      (canonRun p).out =
        if (emitted (left p)).length < pathMax then PathText.text slash (left p)
        else PathText.text slash (left p).dropLast := by
  obtain ⟨q, rfl⟩ := isAbs_iff.1 abs
  have starts : (slash :: q) = [] ∨ (slash :: q).head? = some slash := .inr rfl
  have holds : ((⟨[], 0⟩ : Buf).put [slash]).out = emitted [] := rfl
  have fits : (emitted []).length + (slash :: q).length ≤ pathMax := by
    rw [show (emitted []).length = 1 from rfl]
    omega
  obtain ⟨top, len, out⟩ := canonLoop_spec (by simp) holds starts (by decide) fits (by decide)
  rw [canonLoop_cons_slash] at top len out
  have stripped : (canonRun (slash :: q)).out =
      if (emitted (left (slash :: q))).length < pathMax then PathText.text slash (left (slash :: q))
      else PathText.text slash (left (slash :: q)).dropLast := by
    rw [← apply_ite (PathText.text slash), ← strip_emitted, apply_ite emitted, ← out]
    rw [canonRun, List.tail_cons]
    split_ifs <;> rfl
  have inside : (canonRun (slash :: q)).out.length < pathMax ∧ (canonRun (slash :: q)).top ≤ pathMax := by
    rw [canonRun, List.tail_cons]
    split_ifs
    · simp only [List.length_dropLast]
      omega
    · simp only
      omega
  exact ⟨inside.2, inside.1, stripped⟩

theorem length_text_left_le {p : List UInt8} (abs : isAbs p = true) :
    (PathText.text slash (left p)).length ≤ p.length := by
  obtain ⟨q, rfl⟩ := isAbs_iff.1 abs
  exact PathText.normal_length_le q

/-- The result is the text of plain components that leave room in `tmp`. -/
theorem canon_components {p : List UInt8} (abs : isAbs p = true) (short : p.length < pathMax) :
    ∃ cs, canonAbsPath p = PathText.text slash cs ∧ (∀ c ∈ cs, PathText.Plain slash dot c) ∧
      (emitted cs).length < pathMax ∧ cs.Sublist (left p) := by
  have out := (canonRun_spec abs short).2.2
  rw [canonAbsPath, if_pos abs, out]
  split_ifs with room
  · exact ⟨left p, rfl, left_plain p, room, List.Sublist.refl _⟩
  · refine ⟨(left p).dropLast, rfl, fun c mem => left_plain p c (List.mem_of_mem_dropLast mem), ?_,
      List.dropLast_sublist _⟩
    have some_left : left p ≠ [] := by
      intro empty
      rw [empty] at room
      exact room (by decide)
    have len := length_emitted some_left
    have bound := length_text_left_le abs
    have last := length_emitted_append (left p).dropLast ((left p).getLast some_left)
    rw [List.dropLast_append_getLast] at last
    omega

/-- A text of plain components that leaves room in `tmp` is not changed. -/
theorem canon_text {cs : List (List UInt8)} (plain : ∀ c ∈ cs, PathText.Plain slash dot c)
    (room : (emitted cs).length < pathMax) :
    canonAbsPath (PathText.text slash cs) = PathText.text slash cs := by
  have abs : isAbs (PathText.text slash cs) = true := rfl
  have same : left (PathText.text slash cs) = cs := PathText.walk_text plain
  have short : (PathText.text slash cs).length < pathMax := by
    by_cases empty : cs = []
    · rw [empty]
      decide
    · have len := length_emitted empty
      omega
  rw [canonAbsPath, if_pos abs, (canonRun_spec abs short).2.2, same, if_pos room]

/-- `canon_abs_path` never writes outside its buffers. -/
theorem canon_inBounds {p : List UInt8} (short : p.length < pathMax) : InBounds p := by
  intro abs
  obtain ⟨top, len, _⟩ := canonRun_spec abs short
  exact ⟨top, len⟩

/-- A second run changes nothing. -/
theorem canon_idem {p : List UInt8} (abs : isAbs p = true) (short : p.length < pathMax) :
    canonAbsPath (canonAbsPath p) = canonAbsPath p := by
  obtain ⟨cs, out, plain, room, _⟩ := canon_components abs short
  rw [out, canon_text plain room]

theorem length_text_sublist {cs ds : List (List UInt8)} (sub : cs.Sublist ds) :
    (PathText.text slash cs).length ≤ (PathText.text slash ds).length := by
  by_cases empty : cs = []
  · rw [empty, PathText.text_nil, PathText.text]
    simp
  · have more : ds ≠ [] := by
      rintro rfl
      exact empty (List.sublist_nil.1 sub)
    rw [PathText.text_of_ne_nil empty, PathText.text_of_ne_nil more]
    exact (sub.flatMap _).length_le

/-- The result is not longer than the path. -/
theorem canon_length_le {p : List UInt8} (abs : isAbs p = true) (short : p.length < pathMax) :
    (canonAbsPath p).length ≤ p.length := by
  obtain ⟨cs, out, _, _, sub⟩ := canon_components abs short
  rw [out]
  exact (length_text_sublist sub).trans (length_text_left_le abs)

/-- The result is the normal form, unless the path is its own and fills the buffer. -/
theorem canon_eq_normal_iff {p : List UInt8} (abs : isAbs p = true) (short : p.length < pathMax) :
    canonAbsPath p = normalForm p ↔ ¬ (p.length + 1 = pathMax ∧ normalForm p = p) := by
  have normal : normalForm p = PathText.text slash (left p) := PathText.normal_eq_walk p
  have bound := length_text_left_le abs
  constructor
  · rintro same ⟨full, is_normal⟩
    obtain ⟨cs, out, _, room, _⟩ := canon_components abs short
    rw [is_normal, out] at same
    by_cases empty : cs = []
    · rw [← same, empty] at full
      exact absurd full (by decide)
    · have len := length_emitted empty
      rw [same] at len
      omega
  · intro other
    rw [canonAbsPath, if_pos abs, (canonRun_spec abs short).2.2, normal, if_pos]
    by_contra full
    have some_left : left p ≠ [] := by
      intro empty
      rw [empty] at full
      exact full (by decide)
    have len := length_emitted some_left
    obtain ⟨q, rfl⟩ := isAbs_iff.1 abs
    refine other ⟨by omega, PathText.normal_eq_of_length ?_⟩
    rw [← PathText.normal_eq_walk] at bound len
    omega

/-- What `canon_abs_path` should do with a path: put it in normal form, without growing it or writing
outside a buffer, and leave the result alone when it is run again. -/
structure Canonical (p : List UInt8) : Prop where
  normal : canonAbsPath p = normalForm p
  idem : canonAbsPath (canonAbsPath p) = canonAbsPath p
  length : (canonAbsPath p).length ≤ p.length
  inBounds : InBounds p

/-- On an absolute path that fits the buffer, `canon_abs_path` does what it should exactly when the path
is not one of `PATH_MAX - 1` bytes in normal form. -/
theorem canonical_iff (p : List UInt8) (abs : isAbs p = true) (short : p.length < pathMax) :
    Canonical p ↔ ¬ (p.length + 1 = pathMax ∧ normalForm p = p) := by
  rw [← canon_eq_normal_iff abs short]
  exact ⟨Canonical.normal, fun same =>
    ⟨same, canon_idem abs short, canon_length_le abs short, canon_inBounds short⟩⟩

/-- The path `/a/./b` becomes `/a/b`. -/
theorem canonical_dot : Canonical [slash, 97, slash, dot, slash, 98] :=
  (canonical_iff _ rfl (by decide)).2 fun full => absurd full.1 (by decide)

/-- A directory name of 14 bytes. -/
def longName : List UInt8 := List.replicate 14 97

/-- A path of 273 such names, 4095 bytes in all. -/
def fullPath : List UInt8 := PathText.text slash (List.replicate 273 longName)

theorem length_text_replicate (n : ℕ) (c : List UInt8) :
    (PathText.text slash (List.replicate (n + 1) c)).length = (n + 1) * (c.length + 1) := by
  have some_left : List.replicate (n + 1) c ≠ [] := List.cons_ne_nil c _
  rw [PathText.text_of_ne_nil some_left, PathText.spell, List.length_flatMap]
  simp

/-- The last component of the longest path in normal form is dropped. -/
theorem full_path_cut : fullPath.length + 1 = pathMax ∧ isAbs fullPath = true ∧ ¬ Canonical fullPath := by
  have plain : ∀ c ∈ List.replicate 273 longName, PathText.Plain slash dot c := by
    intro c mem
    rw [List.eq_of_mem_replicate mem]
    exact ⟨by decide, by decide, by decide, by decide⟩
  have len : fullPath.length + 1 = pathMax := congrArg (· + 1) (length_text_replicate 272 longName)
  refine ⟨len, rfl, fun canonical => ?_⟩
  have short : fullPath.length < pathMax := by omega
  exact (canon_eq_normal_iff rfl short).1 canonical.normal ⟨len, PathText.normal_text plain⟩

end Canon

end Yos
