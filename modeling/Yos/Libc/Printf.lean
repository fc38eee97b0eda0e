import Mathlib.Data.List.GetD
import Yos.Libc.FormatWalk

/-!
# The core of `snprintf` (`impl/libc/printf.c`)

`yos_vsnprintf_core` puts what the walk makes of a format into a buffer: literal characters, and what the host's
`snprintf` makes of each conversion in a scratch buffer of 1024 bytes.  It returns the length of the full output
and stores as much of it as fits exactly if each conversion is complete and has at most 60 characters before its
conversion character, the length is one of an `int`, and no conversion makes more than 1023 bytes where the buffer
still has room for more (`snprintf_core_met_iff`).  A wide field copies what is on the host's stack behind the
scratch buffer.
-/

namespace Yos

namespace Printf

open Bytes

/-! ## The code -/

/-- `sizeof(buf)` in `format_one`. -/
def bufSize : ℕ := 1024

/-- The host's `snprintf`: all that it would write, or nothing where it fails, as for lengths beyond an `int`. -/
structure HostSnprintf where
  render : HostCall → Option (List UInt8)
  short : ∀ call r, render call = some r → r.length < 2 ^ 31

namespace HostSnprintf

variable (host : HostSnprintf)

/-- What a step of the walk makes: the `n` bytes that a conversion stands for. -/
def rendered : Item → Option (List UInt8)
  | .lit _ => none
  | .conv e => e.made.bind fun
    | (_, .host call) => host.render call
    | (_, .text s) => some s

end HostSnprintf

/-- `buf` behind the host's `snprintf`; `stack` is what stands there otherwise. -/
def scratch (stack : ℕ → UInt8) (r : List UInt8) (i : ℕ) : UInt8 :=
  if i < min r.length (bufSize - 1) then r.getD i 0 else if i = min r.length (bufSize - 1) then 0 else stack i

/-- The output so far: the buffer, `pos`, and how many bytes of `buf` were copied at most. -/
structure Output where
  bytes : Bytes
  pos : ℕ
  reach : ℕ

/-- `cp`. -/
def copied (cap pos n : ℕ) : ℕ := if cap < pos + n then if pos < cap then cap - pos else 0 else n

/-- One turn of the loop; `stack` is what stands on the host's stack at a conversion. -/
def HostSnprintf.emit (host : HostSnprintf) (stack : ℕ → ℕ → UInt8) (cap : ℕ) (o : Output) : Item → Output
  | .lit c => ⟨if o.pos < cap then fill o.bytes o.pos 1 c else o.bytes, o.pos + 1, o.reach⟩
  | .conv e =>
    match host.rendered (.conv e) with
    | none => o
    | some r =>
      let cp := copied cap o.pos r.length
      ⟨fun x => if o.pos ≤ x ∧ x < o.pos + cp then scratch (stack e.start) r (x - o.pos) else o.bytes x,
        o.pos + r.length, max o.reach cp⟩

/-- The mapped bytes from an offset on. -/
def Guest.mapped (g : Guest) (off : ℕ) : List UInt8 :=
  (List.range (g.memorySize - off)).map fun i => g.memory (off + i)

/-- `yos_vsnprintf_core` -/
def HostSnprintf.vsnprintfCore (host : HostSnprintf) (stack : ℕ → ℕ → UInt8) (g : Guest) (out : Bytes)
    (cap fmt va : ℕ) : Output × ℤ :=
  match wstrCheck g.memory g.memorySize fmt with
  | none => (⟨if 0 < cap then fill out 0 1 0 else out, 0, 0⟩, 0)
  | some _ =>
    let o := (g.walk (g.mapped fmt) 0 0 va).foldl (host.emit stack cap) ⟨out, 0, 0⟩
    (⟨if 0 < cap then fill o.bytes (if o.pos < cap then o.pos else cap - 1) 1 0 else o.bytes, o.pos, o.reach⟩,
      Int.bmod o.pos (2 ^ 32))

/-! ## What it should do -/

/-- A part of a format. -/
inductive Token where
  | lit (c : UInt8)
  | conv (start : ℕ) (c : Conversion)
deriving DecidableEq, Repr

/-- The literal characters and the conversions of a format; `skip` bytes belong to a conversion before. -/
def tokens : (text : List UInt8) → (skip pos : ℕ) → List Token
  | [], _, _ => []
  | _ :: rest, skip + 1, pos => tokens rest skip (pos + 1)
  | c :: rest, 0, pos =>
    if c = percent then .conv pos (readConv rest) :: tokens rest (readConv rest).length (pos + 1)
    else .lit c :: tokens rest 0 (pos + 1)

/-- A step of the walk is for a part of the format: it takes a literal character, or renders a conversion. -/
def Serves : Item → Token → Prop
  | .lit c, .lit c' => c = c'
  | .conv e, .conv start c => e.start = start ∧ ∃ conv made, c.conv = some conv ∧ e.made = some (conv, made)
  | _, _ => False

/-- The walk takes the conversion whole. -/
def Conversion.Short (c : Conversion) : Prop := c.conv ≠ none ∧ c.chars.length ≤ 60

/-- The bytes that a step stands for in the output. -/
def HostSnprintf.piece (host : HostSnprintf) (item : Item) : List UInt8 :=
  match item with
  | .lit c => [c]
  | .conv e => (host.rendered (.conv e)).getD []

/-- The full output. -/
def HostSnprintf.fullOutput (host : HostSnprintf) (items : List Item) : List UInt8 := items.flatMap host.piece

/-- The core returns the length of the full output `s` and stores it as far as there is room, and a NUL; it copies
nothing from behind `buf`, and writes nothing behind the end of the buffer. -/
structure Stored (cap : ℕ) (out : Bytes) (s : List UInt8) (o : Output × ℤ) : Prop where
  ret : o.2 = s.length
  text : 0 < cap → ∀ i < min s.length (cap - 1), o.1.bytes i = s.getD i 0
  nul : 0 < cap → o.1.bytes (min s.length (cap - 1)) = 0
  copies : o.1.reach ≤ bufSize
  frame : ∀ x, cap ≤ x → o.1.bytes x = out x

/-- A conversion that makes `r` at a position stays in `buf`, or has no more room than that, or is cut at a NUL. -/
def Held (cap pos : ℕ) (r : List UInt8) : Prop :=
  r.length < bufSize ∨ cap ≤ pos + bufSize ∨ r.length = bufSize ∧ r.getD (bufSize - 1) 0 = 0

/-- All conversions are so. -/
def HostSnprintf.Fits (host : HostSnprintf) (cap : ℕ) : List Item → (pos : ℕ) → Prop
  | [], _ => True
  | item :: items, pos =>
    (∀ r, host.rendered item = some r → Held cap pos r) ∧ host.Fits cap items (pos + (host.piece item).length)

/-! ## The parts of a format -/

theorem tokens_skip (a b : List UInt8) (pos : ℕ) : tokens (a ++ b) a.length pos = tokens b 0 (pos + a.length) := by
  induction a generalizing pos with
  | nil => rfl
  | cons c a ih =>
    rw [List.cons_append, List.length_cons, tokens, ih]
    congr 1
    omega

theorem tokens_literal {l : List UInt8} (plain : percent ∉ l) (pos : ℕ) : tokens l 0 pos = l.map .lit := by
  induction l generalizing pos with
  | nil => rfl
  | cons c l ih =>
    rw [List.mem_cons, not_or] at plain
    rw [tokens, if_neg (Ne.symm plain.1), ih plain.2, List.map_cons]

theorem Parts.tokens_taken {l l₁ l₂ l₃ tail : List UInt8} {c : Conversion} {conv : UInt8}
    (h : Parts l c l₁ l₂ l₃ (conv :: tail)) (complete : c.conv = some conv) (pos : ℕ) :
    tokens l c.length pos = tokens tail 0 (pos + (c.chars.length + 1)) := by
  have text : l = (c.chars ++ [conv]) ++ tail := by
    conv_lhs => rw [h.text]
    simp
  have skipped := tokens_skip (c.chars ++ [conv]) tail pos
  rw [← text, List.length_append, List.length_singleton] at skipped
  rw [Conversion.length, complete]
  exact skipped

/-- The step at a conversion renders it exactly if it is short. -/
theorem serves_conv_iff {l l₁ l₂ l₃ l₄ r : List UInt8} {c : Conversion} (g : Guest) (h : Parts l c l₁ l₂ l₃ l₄)
    (solid : 0 ∉ l) (pos va : ℕ) :
    Serves (.conv (g.formatOne (l ++ 0 :: r) pos va).1) (.conv pos c) ↔ c.Short := by
  rw [Conversion.Short]
  cases complete : c.conv with
  | none =>
    refine iff_of_false (fun serves => ?_) fun short => short.1 rfl
    obtain ⟨-, conv, made, some_, -⟩ := serves
    rw [complete] at some_
    cases some_
  | some conv =>
    by_cases short : c.chars.length ≤ 60
    · refine iff_of_true ?_ ⟨by simp, short⟩
      rw [g.formatOne_taken (h.taken (r := r) solid complete short)]
      exact ⟨rfl, conv, _, complete, rfl⟩
    · refine iff_of_false (fun serves => ?_) fun h => short h.2
      have d := h.dropped (r := r) solid (by omega) fun none => by rw [complete] at none; cases none
      obtain ⟨-, conv', made, -, eq⟩ := serves
      rw [g.formatOne_givenUp d.givenUp] at eq
      cases eq

/-- The steps of the walk render the conversions of the format exactly if these are short. -/
theorem walk_serves_iff (g : Guest) {f : List UInt8} (solid : 0 ∉ f) (r : List UInt8) (va : ℕ) :
    List.Forall₂ Serves (g.walk (f ++ 0 :: r) 0 0 va) (tokens f 0 0) ↔ ∀ c ∈ conversions f 0 0, c.2.Short := by
  suffices all : ∀ n pos va, ∀ f : List UInt8, f.length ≤ n → 0 ∉ f →
      (List.Forall₂ Serves (g.walk (f ++ 0 :: r) 0 pos va) (tokens f 0 pos) ↔
        ∀ c ∈ conversions f 0 pos, c.2.Short) from all f.length 0 va f le_rfl solid
  have none_ (pos va : ℕ) : List.Forall₂ Serves (g.walk ([] ++ 0 :: r) 0 pos va) (tokens [] 0 pos) ↔
      ∀ c ∈ conversions [] 0 pos, c.2.Short := by
    rw [List.nil_append, g.walk_nul, tokens, conversions]
    exact iff_of_true .nil (List.forall_mem_nil _)
  intro n
  induction n with
  | zero =>
    intro pos va f size solid
    obtain rfl := List.eq_nil_of_length_eq_zero (Nat.le_zero.1 size)
    exact none_ pos va
  | succ n ih =>
    intro pos va f size solid
    rcases f with _ | ⟨c, f⟩
    · exact none_ pos va
    rw [List.mem_cons, not_or] at solid
    rw [List.length_cons] at size
    rw [List.cons_append, conversions, tokens]
    by_cases pct : c = percent
    swap
    · rw [g.walk_lit solid.1 pct, if_neg pct, if_neg pct, List.forall₂_cons]
      exact (and_iff_right rfl).trans (ih (pos + 1) va f (by omega) solid.2)
    obtain ⟨l₁, l₂, l₃, l₄, h⟩ := readConv_parts f
    generalize readConv f = conversion at h ⊢
    have total := congrArg List.length h.text
    rw [List.length_append] at total
    rw [if_pos pct, if_pos pct, pct, g.walk_percent, List.forall₂_cons, List.forall_mem_cons,
      serves_conv_iff g h solid.2]
    refine and_congr_right fun short => ?_
    obtain ⟨conv, complete⟩ := Option.ne_none_iff_exists'.1 short.1
    obtain ⟨tail, rfl⟩ : ∃ tail, l₄ = conv :: tail := by
      rw [h.conv_eq] at complete
      exact List.head?_eq_some_iff.1 complete
    rw [List.length_cons] at total
    have skip : (g.formatOne (f ++ 0 :: r) pos va).2 = conversion.chars.length + 1 :=
      congrArg Prod.snd (g.formatOne_taken (h.taken (r := r) solid.2 complete short.2) pos va)
    generalize g.formatOne (f ++ 0 :: r) pos va = out at skip ⊢
    rw [skip, h.walk_taken, h.tokens_taken complete, h.conversions_taken complete]
    exact ih _ _ tail (by omega) fun mem => solid.2 (by rw [h.text]; simp [mem])

/-! ## The buffer -/

/-- A text laid over memory, as far as it stays below `cap`. -/
def overlay (m : Bytes) (pos cap : ℕ) (text : List UInt8) : Bytes := fun x =>
  if pos ≤ x ∧ x < min cap (pos + text.length) then text.getD (x - pos) 0 else m x

theorem overlay_nil (m : Bytes) (pos cap : ℕ) : overlay m pos cap [] = m := by
  funext x
  exact if_neg (by simp; omega)

theorem overlay_append (m : Bytes) (pos cap : ℕ) (a b : List UInt8) :
    overlay (overlay m pos cap a) (pos + a.length) cap b = overlay m pos cap (a ++ b) := by
  funext x
  simp only [overlay, List.length_append]
  by_cases first : x < pos + a.length
  · rw [if_neg (by omega)]
    by_cases inside : pos ≤ x ∧ x < cap
    · rw [if_pos (by omega), if_pos (by omega), List.getD_append _ _ _ _ (by omega)]
    · rw [if_neg (by omega), if_neg (by omega)]
  · by_cases inside : x < min cap (pos + (a.length + b.length))
    · rw [if_pos (by omega), if_pos (by omega), List.getD_append_right _ _ _ _ (by omega), Nat.sub_sub]
    · rw [if_neg (by omega), if_neg (by omega), if_neg (by omega)]

theorem overlay_frame {m : Bytes} {pos cap x : ℕ} {text : List UInt8} (h : cap ≤ x) : overlay m pos cap text x = m x :=
  if_neg (by omega)

variable (host : HostSnprintf) (stack : ℕ → ℕ → UInt8) (cap : ℕ)

/-- The bytes that a step has for the buffer. -/
def HostSnprintf.buffered (item : Item) : List UInt8 :=
  match item with
  | .lit c => [c]
  | .conv e =>
    match host.rendered (.conv e) with
    | none => []
    | some r => (List.range r.length).map (scratch (stack e.start) r)

theorem HostSnprintf.length_buffered (item : Item) : (host.buffered stack item).length = (host.piece item).length := by
  cases item with
  | lit c => rfl
  | conv e =>
    simp only [buffered, piece]
    cases host.rendered (.conv e) <;> simp

theorem copied_eq (pos n : ℕ) : copied cap pos n = min n (cap - pos) := by
  unfold copied
  split_ifs <;> omega

/-- How many bytes a step copies out of `buf`. -/
def HostSnprintf.reachOf (item : Item) (pos : ℕ) : ℕ :=
  match item with
  | .lit _ => 0
  | .conv e => ((host.rendered (.conv e)).map fun r => copied cap pos r.length).getD 0

theorem HostSnprintf.emit_eq (o : Output) (item : Item) :
    host.emit stack cap o item =
      ⟨overlay o.bytes o.pos cap (host.buffered stack item), o.pos + (host.piece item).length,
        max o.reach (host.reachOf cap item o.pos)⟩ := by
  cases item with
  | lit c =>
    simp only [emit, buffered, piece, reachOf, List.length_singleton, Nat.max_zero]
    congr 1
    funext x
    by_cases room : o.pos < cap
    · rw [if_pos room, fill, overlay, List.length_singleton]
      by_cases here : o.pos ≤ x ∧ x < o.pos + 1
      · rw [if_pos here, if_pos (by omega), show x - o.pos = 0 by omega]
        rfl
      · rw [if_neg here, if_neg (by omega)]
    · rw [if_neg room, overlay, if_neg (by omega)]
  | conv e =>
    simp only [emit, buffered, piece, reachOf]
    cases host.rendered (.conv e) with
    | none => simp [overlay_nil]
    | some r =>
      simp only [Option.getD_some, Option.map_some]
      congr 1
      funext x
      rw [overlay, copied_eq, List.length_map, List.length_range]
      by_cases here : o.pos ≤ x ∧ x < min cap (o.pos + r.length)
      · rw [if_pos here, if_pos (by omega)]
        simp [show x - o.pos < r.length by omega]
      · rw [if_neg here, if_neg (by omega)]

/-- The most bytes that the steps copy out of `buf`. -/
def HostSnprintf.reach : List Item → (pos : ℕ) → ℕ
  | [], _ => 0
  | item :: items, pos => max (host.reachOf cap item pos) (reach items (pos + (host.piece item).length))

theorem HostSnprintf.foldl_emit (items : List Item) (o : Output) :
    items.foldl (host.emit stack cap) o =
      ⟨overlay o.bytes o.pos cap (items.flatMap (host.buffered stack)), o.pos + (host.fullOutput items).length,
        max o.reach (host.reach cap items o.pos)⟩ := by
  induction items generalizing o with
  | nil => simp [fullOutput, reach, overlay_nil]
  | cons item items ih =>
    have size := host.length_buffered stack item
    rw [List.foldl_cons, ih, host.emit_eq]
    simp only [fullOutput, List.flatMap_cons, List.length_append, reach, ← size, overlay_append]
    congr 1
    · omega
    · omega

/-- The bytes of a conversion in the buffer are right, and inside `buf`, exactly if it is held. -/
theorem held_iff (stack : ℕ → UInt8) (pos : ℕ) (r : List UInt8) :
    (∀ i < r.length, pos + i + 1 < cap → scratch stack r i = r.getD i 0) ∧ copied cap pos r.length ≤ bufSize ↔
      Held cap pos r := by
  rw [copied_eq]
  unfold Held
  by_cases small : r.length < bufSize
  · refine iff_of_true ⟨fun i lt _ => ?_, by omega⟩ (.inl small)
    rw [scratch, if_pos (by omega)]
  by_cases room : cap ≤ pos + bufSize
  · refine iff_of_true ⟨fun i lt in_ => ?_, by omega⟩ (.inr (.inl room))
    rw [scratch, if_pos (by omega)]
  have cut : scratch stack r (bufSize - 1) = 0 := by
    rw [scratch, if_neg (by omega), if_pos (by omega)]
  constructor
  · rintro ⟨right, reach⟩
    have whole : r.length = bufSize := by omega
    have last := right (bufSize - 1) (by rw [whole]; decide) (by unfold bufSize at room ⊢; omega)
    exact .inr (.inr ⟨whole, by rw [← last, cut]⟩)
  · intro held
    obtain ⟨whole, nul⟩ := (held.resolve_left small).resolve_left room
    refine ⟨fun i lt _ => ?_, by omega⟩
    by_cases last : i = bufSize - 1
    · rw [last, cut, nul]
    · rw [scratch, if_pos (by omega)]

theorem forall_getD_append {a a' b b' : List UInt8} (size : a'.length = a.length) {p : ℕ → Prop} :
    (∀ i, p i → (a' ++ b').getD i 0 = (a ++ b).getD i 0) ↔
      (∀ i < a.length, p i → a'.getD i 0 = a.getD i 0) ∧
        ∀ i, p (a.length + i) → b'.getD i 0 = b.getD i 0 := by
  constructor
  · intro same
    refine ⟨fun i lt h => ?_, fun i h => ?_⟩
    · have := same i h
      rwa [List.getD_append _ _ _ _ (by omega), List.getD_append _ _ _ _ lt] at this
    · have := same (a.length + i) h
      rwa [List.getD_append_right _ _ _ _ (by omega), List.getD_append_right _ _ _ _ (by omega), size,
        Nat.add_sub_cancel_left] at this
  · rintro ⟨first, second⟩ i h
    by_cases lt : i < a.length
    · rw [List.getD_append _ _ _ _ (by omega), List.getD_append _ _ _ _ lt, first i lt h]
    · rw [List.getD_append_right _ _ _ _ (by omega), List.getD_append_right _ _ _ _ (by omega), size]
      exact second _ (by rwa [Nat.add_sub_cancel' (by omega)])

theorem HostSnprintf.fits_iff (items : List Item) (pos : ℕ) :
    (∀ i, pos + i + 1 < cap → (items.flatMap (host.buffered stack)).getD i 0 = (host.fullOutput items).getD i 0) ∧
      host.reach cap items pos ≤ bufSize ↔ host.Fits cap items pos := by
  induction items generalizing pos with
  | nil => simp [fullOutput, reach, Fits]
  | cons item items ih =>
    have head : (∀ i < (host.piece item).length, pos + i + 1 < cap →
          (host.buffered stack item).getD i 0 = (host.piece item).getD i 0) ∧ host.reachOf cap item pos ≤ bufSize ↔
        ∀ r, host.rendered item = some r → Held cap pos r := by
      cases item with
      | lit c => simp [buffered, piece, reachOf, rendered]
      | conv e =>
        simp only [buffered, piece, reachOf]
        cases host.rendered (.conv e) with
        | none => simp
        | some r =>
          simp only [Option.getD_some, Option.map_some, Option.some.injEq, forall_eq']
          rw [← held_iff cap (stack e.start) pos r]
          refine and_congr_left fun _ => forall₂_congr fun i lt => ?_
          rw [List.getD_eq_getElem _ _ (by simpa using lt)]
          simp
    rw [Fits, ← ih, ← head, reach, max_le_iff, fullOutput, List.flatMap_cons, List.flatMap_cons,
      forall_getD_append (host.length_buffered stack item), ← fullOutput]
    simp only [← Nat.add_assoc]
    tauto

/-! ## The format in memory -/

theorem cString_takeWhile (m : Bytes) (fuel off : ℕ) :
    cString m fuel off = ((List.range fuel).map fun i => m (off + i)).takeWhile (· ≠ 0) := by
  induction fuel generalizing off with
  | zero => rfl
  | succ fuel ih =>
    rw [cString, List.range_succ_eq_map, List.map_cons, List.map_map, ih]
    by_cases nul : m off = 0
    · simp [nul]
    · rw [if_neg nul, List.takeWhile_cons_of_pos (by simpa using nul)]
      congr 3
      funext i
      simp only [Function.comp_apply, Nat.succ_eq_add_one]
      congr 1
      omega

/-- A format that `wstr_check` accepts ends in the memory. -/
theorem Guest.mapped_eq {g : Guest} {off : ℕ} {f : List UInt8}
    (found : wstrCheck g.memory g.memorySize off = some f) : ∃ r, g.mapped off = f ++ 0 :: r ∧ 0 ∉ f := by
  unfold wstrCheck at found
  split_ifs at found with bad ends
  have eq : (g.mapped off).takeWhile (· ≠ 0) = f := (cString_takeWhile _ _ _).symm.trans (Option.some.inj found)
  obtain ⟨k, mem, zero⟩ := List.any_eq_true.1 ends
  have hit : (0 : UInt8) ∈ g.mapped off := List.mem_map.2 ⟨k, mem, by simpa using zero⟩
  have split := List.takeWhile_append_dropWhile (p := fun x => decide (x ≠ 0)) (l := g.mapped off)
  have solid : (0 : UInt8) ∉ f := by
    intro mem
    rw [← eq] at mem
    exact absurd (List.mem_takeWhile_imp mem) (by decide)
  rcases tail : (g.mapped off).dropWhile (fun x => decide (x ≠ 0)) with _ | ⟨c, r⟩
  · rw [tail, List.append_nil, eq] at split
    exact absurd (split ▸ hit) solid
  · have nul := front_dropWhile (p := fun x => decide (x ≠ 0)) rfl (g.mapped off)
    rw [tail, front_cons, decide_eq_false_iff_not, not_not] at nul
    exact ⟨r, by rw [← split, eq, tail, nul], solid⟩

/-! ## The core -/

theorem HostSnprintf.length_flatMap_buffered (items : List Item) :
    (items.flatMap (host.buffered stack)).length = (host.fullOutput items).length := by
  simp only [fullOutput, List.length_flatMap, length_buffered]

theorem HostSnprintf.vsnprintfCore_eq {g : Guest} {fmt : ℕ} {f : List UInt8}
    (found : wstrCheck g.memory g.memorySize fmt = some f) (out : Bytes) (va : ℕ) {items : List Item}
    (walk : g.walk (g.mapped fmt) 0 0 va = items) :
    host.vsnprintfCore stack g out cap fmt va =
      (⟨if 0 < cap then
          fill (overlay out 0 cap (items.flatMap (host.buffered stack))) (min (host.fullOutput items).length (cap - 1))
            1 0
        else overlay out 0 cap (items.flatMap (host.buffered stack)),
        (host.fullOutput items).length, host.reach cap items 0⟩, Int.bmod (host.fullOutput items).length (2 ^ 32)) := by
  have run := host.foldl_emit stack cap items ⟨out, 0, 0⟩
  simp only [Nat.zero_add, Nat.zero_max] at run
  simp only [vsnprintfCore, found, walk, run]
  congr 2
  split_ifs
  · congr 1
    omega
  · congr 1
    omega
  · rfl

theorem bmod_eq_iff (n : ℕ) : Int.bmod n (2 ^ 32) = n ↔ n < 2 ^ 31 := by
  rw [Int.bmod_def]
  omega

/-- What the core stores is right exactly if the bytes that reach the buffer are. -/
theorem stored_iff {cap reach : ℕ} {out : Bytes} {s b : List UInt8} (size : b.length = s.length) :
    Stored cap out s (⟨if 0 < cap then fill (overlay out 0 cap b) (min s.length (cap - 1)) 1 0
        else overlay out 0 cap b, s.length, reach⟩, Int.bmod s.length (2 ^ 32)) ↔
      s.length < 2 ^ 31 ∧ (∀ i, i + 1 < cap → b.getD i 0 = s.getD i 0) ∧ reach ≤ bufSize := by
  have bytes (room : 0 < cap) (i : ℕ) (lt : i < min s.length (cap - 1)) :
      (if 0 < cap then fill (overlay out 0 cap b) (min s.length (cap - 1)) 1 0 else overlay out 0 cap b) i =
        b.getD i 0 := by
    rw [if_pos room, fill, if_neg (by omega), overlay, if_pos (by omega), Nat.sub_zero]
  constructor
  · rintro ⟨ret, text, -, copies, -⟩
    simp only [bmod_eq_iff] at ret
    refine ⟨ret, fun i lt => ?_, copies⟩
    by_cases inside : i < s.length
    · rw [← text (by omega) i (by omega)]
      exact (bytes (by omega) i (by omega)).symm
    · rw [List.getD_eq_default _ _ (by omega), List.getD_eq_default _ _ (by omega)]
  · rintro ⟨small, right, copies⟩
    have ret := (bmod_eq_iff s.length).2 small
    refine ⟨by simpa only using ret, fun room i lt => ?_, fun room => ?_, copies, fun x ge => ?_⟩
    · rw [← right i (by omega)]
      exact bytes room i lt
    · simp only [if_pos room]
      exact fill_of_mem ⟨le_rfl, Nat.lt_succ_self _⟩
    · by_cases room : 0 < cap
      · simp only [if_pos room]
        rw [fill, if_neg (by omega), overlay_frame ge]
      · simp only [if_neg room]
        exact overlay_frame ge

/-- The core stores the output exactly if its length is one of an `int` and its conversions are held. -/
theorem HostSnprintf.stored_iff_fits {g : Guest} {fmt : ℕ} {f : List UInt8}
    (found : wstrCheck g.memory g.memorySize fmt = some f) (out : Bytes) (va : ℕ) {items : List Item}
    (walk : g.walk (g.mapped fmt) 0 0 va = items) :
    Stored cap out (host.fullOutput items) (host.vsnprintfCore stack g out cap fmt va) ↔
      (host.fullOutput items).length < 2 ^ 31 ∧ host.Fits cap items 0 := by
  rw [host.vsnprintfCore_eq stack cap found out va walk, stored_iff (host.length_flatMap_buffered stack items),
    ← host.fits_iff stack cap items 0]
  simp only [Nat.zero_add]

/-- The core does what it should exactly if each conversion of the format is short, the length is one of an `int`,
and no conversion makes more than 1023 bytes where the buffer has room for more. -/
theorem snprintf_core_met_iff (host : HostSnprintf) (stack : ℕ → ℕ → UInt8) (g : Guest) (out : Bytes) (cap va : ℕ)
    {fmt : ℕ} {f : List UInt8} (found : wstrCheck g.memory g.memorySize fmt = some f) :
    List.Forall₂ Serves (g.walk (g.mapped fmt) 0 0 va) (tokens f 0 0) ∧
        Stored cap out (host.fullOutput (g.walk (g.mapped fmt) 0 0 va)) (host.vsnprintfCore stack g out cap fmt va) ↔
      (∀ c ∈ conversions f 0 0, c.2.Short) ∧ (host.fullOutput (g.walk (g.mapped fmt) 0 0 va)).length < 2 ^ 31 ∧
        host.Fits cap (g.walk (g.mapped fmt) 0 0 va) 0 := by
  obtain ⟨r, text, solid⟩ := g.mapped_eq found
  have serves := walk_serves_iff g solid r va
  rw [← text] at serves
  rw [serves, host.stored_iff_fits stack cap found out va rfl]

/-- A host for one format. -/
def hostOf (call : HostCall) (r : List UInt8) (short : r.length < 2 ^ 31) : HostSnprintf where
  render c := if c = call then some r else none
  short c s eq := by
    split_ifs at eq
    exact Option.some.inj eq ▸ short

/-- A guest with a text at 16. -/
def textGuest (text : List UInt8) (size : ℕ) : Guest := ⟨fun x => if 16 ≤ x then text.getD (x - 16) 0 else 0, size⟩

/-- The host's `snprintf` for `%d` and 0. -/
def numberHost : HostSnprintf := hostOf ⟨[percent, 100], [.int 0]⟩ [48] (by decide)

/-- The core writes a number. -/
theorem snprintf_core_met_number : Stored 8 (fun _ => 0) [48]
    (numberHost.vsnprintfCore (fun _ _ => 0) (textGuest [percent, 100] 24) (fun _ => 0) 8 16 1024) := by
  have found : wstrCheck (textGuest [percent, 100] 24).memory (textGuest [percent, 100] 24).memorySize 16 =
      some [percent, 100] := by decide +kernel
  have walk : (textGuest [percent, 100] 24).walk ((textGuest [percent, 100] 24).mapped 16) 0 0 1024 =
      [.conv ⟨0, 1, 3, some (100, .host ⟨[percent, 100], [.int 0]⟩), 1024, 1028⟩] := by decide +kernel
  have full : numberHost.fullOutput
      [.conv ⟨0, 1, 3, some (100, .host ⟨[percent, 100], [.int 0]⟩), 1024, 1028⟩] = [48] := by decide +kernel
  have met := snprintf_core_met_iff numberHost (fun _ _ => 0) (textGuest [percent, 100] 24) (fun _ => 0) 8 1024 found
  rw [walk, full] at met
  refine (met.2 ⟨?_, by decide, ?_, trivial⟩).2
  · have only : conversions [percent, 100] 0 0 = [(0, ⟨[], [], none, [], some 100⟩)] := by decide +kernel
    rw [only]
    simp [Conversion.Short, Conversion.chars, precText]
  · intro r eq
    obtain rfl : [48] = r := by simpa [HostSnprintf.rendered, numberHost, hostOf] using eq
    exact .inl (by decide)

/-- `%2000d` -/
def wideFormat : List UInt8 := [percent, 50, 48, 48, 48, 100]

/-- What the host makes of it for 0: a digit behind 1999 blanks. -/
def wideText : List UInt8 := List.replicate 1999 32 ++ [48]

theorem length_wideText : wideText.length = 2000 := by
  rw [wideText, List.length_append, List.length_replicate]
  rfl

/-- The host's `snprintf` for it. -/
def wideHost : HostSnprintf := hostOf ⟨wideFormat, [.int 0]⟩ wideText (by rw [length_wideText]; decide)

/-- The core copies 2000 bytes out of its scratch buffer for `%2000d`. -/
theorem snprintf_copies_stack : ¬ Stored 4096 (fun _ => 0) wideText
    (wideHost.vsnprintfCore (fun _ _ => 0) (textGuest wideFormat 24) (fun _ => 0) 4096 16 1024) := by
  intro met
  have copies := met.copies
  have found : wstrCheck (textGuest wideFormat 24).memory (textGuest wideFormat 24).memorySize 16 =
      some wideFormat := by decide +kernel
  have walk : (textGuest wideFormat 24).walk ((textGuest wideFormat 24).mapped 16) 0 0 1024 =
      [.conv ⟨0, 5, 7, some (100, .host ⟨wideFormat, [.int 0]⟩), 1024, 1028⟩] := by decide +kernel
  rw [wideHost.vsnprintfCore_eq _ 4096 found _ _ walk] at copies
  have rendered : wideHost.rendered (.conv ⟨0, 5, 7, some (100, .host ⟨wideFormat, [.int 0]⟩), 1024, 1028⟩) =
      some wideText := by simp [HostSnprintf.rendered, wideHost, hostOf]
  simp only [HostSnprintf.reach, HostSnprintf.reachOf, rendered, Option.map_some, Option.getD_some, length_wideText,
    copied_eq, bufSize] at copies
  omega

end Printf

end Yos
