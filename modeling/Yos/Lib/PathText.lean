import Mathlib.Data.List.Flatten
import Mathlib.Data.List.Infix
import Mathlib.Tactic.Common

/-!
# Paths as text and as components

A path is a list over any alphabet with a separator `sep` and a dot `dot`; its components are the
pieces between separators, which may be empty.  `reduce` drops the empty and the single-dot components
and lets a double dot cancel the component before it; `text` writes components back behind separators,
and `normal` is the lexical normal form.  The text of plain components is its own normal form
(`normal_text`), and normalising a path that starts with a separator only deletes characters
(`normal_sublist`).

`splitOn_prefix_iff` says what it means for the text that the components of one path are a prefix of
those of another.
-/

namespace PathText

variable {α : Type*} [DecidableEq α] {sep dot : α}

/-! ## Normal forms -/

/-- The effect of one component on the components kept so far. -/
def push (dot : α) (kept : List (List α)) (c : List α) : List (List α) :=
  if c = [] ∨ c = [dot] then kept else if c = [dot, dot] then kept.dropLast else kept ++ [c]

/-- What is left of a list of components. -/
def reduce (dot : α) (cs : List (List α)) : List (List α) := cs.foldl (push dot) []

/-- The components behind a separator, joined by single separators. -/
def text (sep : α) (cs : List (List α)) : List α := sep :: [sep].intercalate cs

/-- The lexical normal form. -/
def normal (sep dot : α) (p : List α) : List α := text sep (reduce dot (p.splitOn sep))

/-- A component that names an entry of a directory. -/
structure Plain (sep dot : α) (c : List α) : Prop where
  nonempty : c ≠ []
  notDot : c ≠ [dot]
  notDots : c ≠ [dot, dot]
  whole : sep ∉ c

/-- Each component with a separator before it. -/
def spell (sep : α) (cs : List (List α)) : List α := cs.flatMap fun c => sep :: c

omit [DecidableEq α] in
@[simp] theorem spell_nil : spell sep [] = [] := rfl

omit [DecidableEq α] in
@[simp] theorem spell_cons (c : List α) (cs : List (List α)) :
    spell sep (c :: cs) = sep :: c ++ spell sep cs := by
  simp [spell]

omit [DecidableEq α] in
theorem spell_append (cs ds : List (List α)) :
    spell sep (cs ++ ds) = spell sep cs ++ spell sep ds := by
  simp [spell]

omit [DecidableEq α] in
theorem text_nil : text sep [] = [sep] := rfl

omit [DecidableEq α] in
theorem text_of_ne_nil {cs : List (List α)} (some_left : cs ≠ []) : text sep cs = spell sep cs := by
  induction cs with
  | nil => exact absurd rfl some_left
  | cons c cs ih =>
    cases cs with
    | nil => simp [text]
    | cons d ds =>
      have tail := ih (by simp)
      rw [text] at tail ⊢
      rw [List.intercalate_cons_cons, spell_cons, ← tail]
      simp

section Push

variable {kept : List (List α)} {c : List α}

theorem push_plain (plain : Plain sep dot c) : push dot kept c = kept ++ [c] := by
  rw [push, if_neg (by simp [plain.nonempty, plain.notDot]), if_neg plain.notDots]

theorem push_dot : push dot kept [dot] = kept := by simp [push]

theorem push_dots : push dot kept [dot, dot] = kept.dropLast := by simp [push]

theorem push_nil : push dot kept [] = kept := by simp [push]

theorem push_sublist (kept : List (List α)) (c : List α) :
    (push dot kept c).Sublist (kept ++ [c]) := by
  unfold push
  split_ifs
  · exact List.sublist_append_left _ _
  · exact (List.dropLast_sublist _).trans (List.sublist_append_left _ _)
  · exact List.Sublist.refl _

theorem push_all_plain (kept_plain : ∀ d ∈ kept, Plain sep dot d) (whole : sep ∉ c) :
    ∀ d ∈ push dot kept c, Plain sep dot d := by
  intro d mem
  unfold push at mem
  split_ifs at mem with empty dots
  · exact kept_plain d mem
  · exact kept_plain d (List.mem_of_mem_dropLast mem)
  · rcases List.mem_append.1 mem with old | new
    · exact kept_plain d old
    · obtain rfl := List.mem_singleton.1 new
      exact ⟨fun h => empty (.inl h), fun h => empty (.inr h), dots, whole⟩

end Push

theorem foldl_push_sublist (cs kept : List (List α)) :
    (cs.foldl (push dot) kept).Sublist (kept ++ cs) := by
  induction cs generalizing kept with
  | nil => simp
  | cons c cs ih =>
    refine (ih (push dot kept c)).trans ?_
    rw [← List.singleton_append, ← List.append_assoc]
    exact (push_sublist kept c).append_right cs

theorem reduce_sublist (cs : List (List α)) : (reduce dot cs).Sublist cs := foldl_push_sublist cs []

theorem foldl_push_plain {cs kept : List (List α)} (kept_plain : ∀ d ∈ kept, Plain sep dot d)
    (whole : ∀ c ∈ cs, sep ∉ c) : ∀ d ∈ cs.foldl (push dot) kept, Plain sep dot d := by
  induction cs generalizing kept with
  | nil => exact kept_plain
  | cons c cs ih =>
    refine ih (push_all_plain kept_plain (whole c (by simp))) fun d mem => ?_
    exact whole d (List.mem_cons_of_mem c mem)

theorem foldl_push_of_plain {cs : List (List α)} (plain : ∀ c ∈ cs, Plain sep dot c)
    (kept : List (List α)) : cs.foldl (push dot) kept = kept ++ cs := by
  induction cs generalizing kept with
  | nil => simp
  | cons c cs ih =>
    rw [List.foldl_cons, push_plain (plain c (by simp)), ih fun d mem =>
      plain d (List.mem_cons_of_mem c mem), List.append_assoc, List.singleton_append]

theorem reduce_of_plain {cs : List (List α)} (plain : ∀ c ∈ cs, Plain sep dot c) :
    reduce dot cs = cs :=
  (foldl_push_of_plain plain []).trans (List.nil_append cs)

/-! ## Splitting -/

theorem splitOn_cons_sep (p : List α) : (sep :: p).splitOn sep = [] :: p.splitOn sep := by
  simpa using List.splitOn_append_cons_self (a := sep) [] p

/-- No component contains a separator. -/
theorem sep_notMem_of_mem_splitOn {p c : List α} (mem : c ∈ p.splitOn sep) : sep ∉ c := by
  induction p generalizing c with
  | nil =>
    obtain rfl := List.mem_singleton.1 mem
    simp
  | cons b p ih =>
    rw [List.splitOn_cons_eq_if_modifyHead] at mem
    split at mem
    · rcases List.mem_cons.1 mem with rfl | later
      · simp
      · exact ih later
    · next other =>
      obtain ⟨d, ds, cut⟩ := List.exists_cons_of_ne_nil (List.splitOn_ne_nil sep p)
      rw [cut] at ih
      rw [cut, List.modifyHead_cons] at mem
      rcases List.mem_cons.1 mem with rfl | later
      · have rest := ih (List.mem_cons_self (a := d))
        have first : ¬ b = sep := by simpa using other
        rw [List.mem_cons, not_or]
        exact ⟨fun h => first h.symm, rest⟩
      · exact ih (List.mem_cons_of_mem d later)

theorem spell_splitOn (p : List α) : spell sep (p.splitOn sep) = sep :: p := by
  rw [← text_of_ne_nil (List.splitOn_ne_nil sep p), text, List.intercalate_splitOn]

theorem splitOn_text {cs : List (List α)} (some_left : cs ≠ []) (whole : ∀ c ∈ cs, sep ∉ c) :
    (text sep cs).splitOn sep = [] :: cs := by
  rw [text, splitOn_cons_sep, List.splitOn_intercalate sep whole some_left]

/-- The components of one path are a prefix of those of another: the paths are the same, or the first
and a separator start the second. -/
theorem splitOn_prefix_iff {m p : List α} :
    m.splitOn sep <+: p.splitOn sep ↔ m = p ∨ m ++ [sep] <+: p := by
  constructor
  · rintro ⟨rest, cut⟩
    cases rest with
    | nil =>
      refine .inl ?_
      rw [List.append_nil] at cut
      have whole : [sep].intercalate (m.splitOn sep) = m := List.intercalate_splitOn sep
      rw [← whole, cut, List.intercalate_splitOn]
    | cons r rest =>
      refine .inr ⟨[sep].intercalate (r :: rest), ?_⟩
      have spelt : spell sep (p.splitOn sep) = sep :: p := spell_splitOn p
      rw [← cut, spell_append, spell_splitOn, ← text_of_ne_nil (by simp), text] at spelt
      simpa using spelt
  · rintro (rfl | ⟨rest, rfl⟩)
    · exact List.prefix_refl _
    · rw [List.append_assoc, List.singleton_append, List.splitOn_append_cons_self]
      exact List.prefix_append _ _

theorem splitOn_prefix_length_le {m m' : List α} (pre : m.splitOn sep <+: m'.splitOn sep) :
    m.length ≤ m'.length := by
  rcases splitOn_prefix_iff.1 pre with rfl | starts
  · exact Nat.le_refl _
  · have := starts.length_le
    rw [List.length_append] at this
    omega

/-- Of two paths whose components start the same list, the one with more components is the longer. -/
theorem splitOn_length_le_iff {m m' : List α} {cs : List (List α)} (pre : m.splitOn sep <+: cs)
    (pre' : m'.splitOn sep <+: cs) :
    (m.splitOn sep).length ≤ (m'.splitOn sep).length ↔ m.length ≤ m'.length := by
  constructor
  · intro fewer
    exact splitOn_prefix_length_le (List.prefix_of_prefix_length_le pre pre' fewer)
  · intro shorter
    by_contra more
    have nested := List.prefix_of_prefix_length_le pre' pre (by omega)
    rcases splitOn_prefix_iff.1 nested with rfl | starts
    · exact more (Nat.le_refl _)
    · have := starts.length_le
      rw [List.length_append, List.length_singleton] at this
      omega

/-! ## Reading a path from left to right -/

/-- The components kept after those of `p` as well. -/
def walk (sep dot : α) (kept : List (List α)) (p : List α) : List (List α) :=
  (p.splitOn sep).foldl (push dot) kept

theorem walk_nil (kept : List (List α)) : walk sep dot kept [] = kept := by
  simp [walk, push_nil]

theorem walk_cons_sep (kept : List (List α)) (p : List α) :
    walk sep dot kept (sep :: p) = walk sep dot kept p := by
  rw [walk, splitOn_cons_sep, List.foldl_cons, push_nil, walk]

theorem walk_dropWhile (kept : List (List α)) (p : List α) :
    walk sep dot kept (p.dropWhile (· = sep)) = walk sep dot kept p := by
  induction p with
  | nil => rfl
  | cons b p ih =>
    by_cases same : b = sep
    · rw [List.dropWhile_cons_of_pos (by simpa using same), ih, same, walk_cons_sep]
    · rw [List.dropWhile_cons_of_neg (by simpa using same)]

/-- A path, a separator and another path. -/
theorem walk_append_sep (kept : List (List α)) (p q : List α) :
    walk sep dot kept (p ++ sep :: q) = walk sep dot (walk sep dot kept p) q := by
  rw [walk, List.splitOn_append_cons_self, List.foldl_append, walk, walk]

/-- A component and what follows it. -/
theorem walk_component {c rest : List α} (whole : sep ∉ c)
    (ends : rest = [] ∨ rest.head? = some sep) (kept : List (List α)) :
    walk sep dot kept (c ++ rest) = walk sep dot (push dot kept c) rest := by
  rcases ends with rfl | starts
  · rw [List.append_nil, walk_nil, walk, List.splitOn_eq_singleton whole, List.foldl_cons,
      List.foldl_nil]
  · obtain ⟨tail, rfl⟩ := List.head?_eq_some_iff.1 starts
    rw [walk, List.splitOn_append_cons_self_of_not_mem whole, List.foldl_cons, walk_cons_sep, walk]

theorem normal_eq_walk (p : List α) : normal sep dot p = text sep (walk sep dot [] p) := rfl

theorem walk_plain {kept : List (List α)} (plain : ∀ c ∈ kept, Plain sep dot c) (p : List α) :
    ∀ c ∈ walk sep dot kept p, Plain sep dot c :=
  foldl_push_plain plain fun _ mem => sep_notMem_of_mem_splitOn mem

/-! ## Laws of the normal form -/

theorem reduce_cons_nil (cs : List (List α)) : reduce dot ([] :: cs) = reduce dot cs := by
  rw [reduce, List.foldl_cons, push_nil, reduce]

theorem normal_cons_sep (p : List α) :
    normal sep dot (sep :: p) = text sep (reduce dot (p.splitOn sep)) := by
  rw [normal, splitOn_cons_sep, reduce_cons_nil]

/-- Plain components are read back from their text. -/
theorem walk_text {cs : List (List α)} (plain : ∀ c ∈ cs, Plain sep dot c) :
    walk sep dot [] (text sep cs) = cs := by
  by_cases empty : cs = []
  · rw [empty, text_nil, walk_cons_sep, walk_nil]
  · rw [walk, splitOn_text empty fun c mem => (plain c mem).whole]
    exact (reduce_cons_nil cs).trans (reduce_of_plain plain)

/-- The text of plain components is its own normal form. -/
theorem normal_text {cs : List (List α)} (plain : ∀ c ∈ cs, Plain sep dot c) :
    normal sep dot (text sep cs) = text sep cs := by
  rw [normal_eq_walk, walk_text plain]

omit [DecidableEq α] in
/-- Only the root has a separator at its end. -/
theorem eq_nil_of_text_ends {cs : List (List α)} (plain : ∀ c ∈ cs, Plain sep dot c)
    (ends : (text sep cs).getLast? = some sep) : cs = [] := by
  cases cs using List.reverseRecOn with
  | nil => rfl
  | append_singleton cs c =>
    have last := plain c (by simp)
    obtain ⟨b, rest, rfl⟩ := List.exists_cons_of_ne_nil last.nonempty
    rw [text_of_ne_nil (by simp), spell_append, spell_cons, spell_nil, List.append_nil,
      List.getLast?_append_of_ne_nil _ (by simp), List.getLast?_cons_cons] at ends
    exact absurd (List.mem_of_getLast? ends) last.whole

/-- Normalising a path that starts with a separator only deletes characters. -/
theorem normal_sublist (p : List α) : (normal sep dot (sep :: p)).Sublist (sep :: p) := by
  rw [normal_cons_sep]
  by_cases empty : reduce dot (p.splitOn sep) = []
  · rw [empty, text_nil]
    simp
  · rw [text_of_ne_nil empty]
    conv_rhs => rw [← spell_splitOn p]
    exact (reduce_sublist (p.splitOn sep)).flatMap _

theorem normal_length_le (p : List α) : (normal sep dot (sep :: p)).length ≤ (sep :: p).length :=
  (normal_sublist p).length_le

theorem normal_eq_of_length {p : List α}
    (same : (normal sep dot (sep :: p)).length = (sep :: p).length) :
    normal sep dot (sep :: p) = sep :: p :=
  (normal_sublist p).eq_of_length same

end PathText
