import Mathlib.Data.List.TakeWhile
import Yos.Io.Path

/-!
# The walk over a format (`impl/libc/printf.c`)

`yos_vsnprintf_core` walks a format and rebuilds each conversion in a buffer of 64 bytes, fetches its arguments
and calls the host's `snprintf`.  The walk does what it should exactly if each conversion is complete, has at
most 60 characters before its conversion character, is not one of those whose argument has another size or is
not fetched, and is no `%c` with a `*` (`format_walk_met_iff`).  A format that ends inside a conversion is read
past its end, because `strchr` finds the NUL in the sets of flags and modifiers.
-/

namespace Yos

namespace Printf

open Word Bytes

/-! ## The code -/

/-- `%`. -/
def percent : UInt8 := 37

/-- `*`. -/
def star : UInt8 := 42

/-- `.`. -/
def point : UInt8 := 46

/-- `l`. -/
def el : UInt8 := 108

/-- The flags `-+ #0'`. -/
def flagChars : List UInt8 := [45, 43, 32, 35, 48, 39]

/-- The length modifiers `hlLjztq`. -/
def modChars : List UInt8 := [104, 108, 76, 106, 122, 116, 113]

/-- The conversions `d`, `i`, `u`, `x`, `X` and `o`. -/
def intConvs : List UInt8 := [100, 105, 117, 120, 88, 111]

/-- The conversions `f`, `F`, `e`, `E`, `g`, `G`, `a` and `A`. -/
def floatConvs : List UInt8 := [102, 70, 101, 69, 103, 71, 97, 65]

/-- The byte `*p`; `rest` is what is mapped from `p` on. -/
def front (rest : List UInt8) : UInt8 := rest.headD 0

/-- `strchr(set, c)`, which also finds the NUL that ends the set. -/
def strchr (set : List UInt8) (c : UInt8) : Bool := c == 0 || set.contains c

/-- `c >= '0' && c <= '9'`. -/
def isDigitChar (c : UInt8) : Bool := 48 ≤ c && c ≤ 57

/-- `sizeof(spec)`. -/
def specSize : ℕ := 64

/-- A scan of a conversion: the bytes stored in `spec`, what is mapped from `p` on, and how far `p` is behind the
`%`. -/
structure Scan where
  spec : List UInt8
  rest : List UInt8
  used : ℕ

/-- `spec[sp++] = *p++`. -/
def Scan.take (s : Scan) : Scan := ⟨s.spec ++ [front s.rest], s.rest.tail, s.used + 1⟩

/-- `while (sp + 1 < sizeof(spec) && hit(*p)) spec[sp++] = *p++`; `fuel` is never used up. -/
def scanLoop (hit : UInt8 → Bool) : (fuel : ℕ) → Scan → Scan
  | 0, s => s
  | n + 1, s => if s.spec.length + 1 < specSize ∧ hit (front s.rest) then scanLoop hit n s.take else s

/-- The flags that the length modifiers set. -/
structure Mods where
  isLl : Bool
  isL : Bool
  isH : Bool
  isZ : Bool
  isJ : Bool
deriving DecidableEq, Repr

/-- No modifier. -/
def noMods : Mods := ⟨false, false, false, false, false⟩

/-- One modifier other than `ll`. -/
def Mods.add (m : Mods) (c : UInt8) : Mods :=
  if c = el then { m with isL := true }
  else if c = 104 then { m with isH := true }
  else if c = 122 then { m with isZ := true }
  else if c = 106 then { m with isJ := true }
  else m

/-- The loop over the length modifiers. -/
def modLoop : (fuel : ℕ) → Scan → Mods → Scan × Mods
  | 0, s, m => (s, m)
  | n + 1, s, m =>
    if s.spec.length + 1 < specSize ∧ strchr modChars (front s.rest) then
      if front s.rest = el ∧ front s.rest.tail = el then modLoop n s.take.take { m with isLl := true }
      else modLoop n s.take (m.add (front s.rest))
    else (s, m)

/-- A `*`, and whether there is one, or digits. -/
def amountScan (s : Scan) : Scan × Bool :=
  if front s.rest = star then (s.take, true) else (scanLoop isDigitChar specSize s, false)

/-- The precision, and whether it is a `*`. -/
def precScan (s : Scan) : Scan × Bool := if front s.rest = point then amountScan s.take else (s, false)

/-- A scanned conversion, up to its conversion character. -/
structure Spec where
  scan : Scan
  widthStar : Bool
  precStar : Bool
  modStart : ℕ
  mods : Mods

/-- The first half of `format_one`; `rest` is what is mapped behind the `%`. -/
def parseSpec (rest : List UInt8) : Spec :=
  let s := scanLoop (strchr flagChars) specSize ⟨[percent], rest, 0⟩
  let (s, widthStar) := amountScan s
  let (s, precStar) := precScan s
  let (scan, mods) := modLoop specSize s noMods
  ⟨scan, widthStar, precStar, s.spec.length, mods⟩

/-- The conversion character. -/
def Spec.conv (p : Spec) : UInt8 := front p.scan.rest

/-- `sp + 2 >= sizeof(spec) || conv == '\0'`: the conversion is given up. -/
def Spec.givenUp (p : Spec) : Bool := specSize ≤ p.scan.spec.length + 2 || p.conv == 0

/-- The conversion for the host, without a modifier for a type that is longer there. -/
def Spec.rebuilt (p : Spec) : List UInt8 :=
  let spec := p.scan.spec ++ [p.conv]
  if ((p.mods.isL && !p.mods.isLl) || p.mods.isZ) && intConvs.contains p.conv then spec.eraseIdx p.modStart else spec

/-- `va_align`. -/
def vaAlign (off a : ℕ) : ℕ := bclr (u32 (off + a - 1)) (a - 1)

/-- An argument of the host's `snprintf`. -/
inductive HostArg where
  | int (v : ℕ)
  | quad (v : ℕ)
  | double (bits : ℕ)
  | str (s : List UInt8)
deriving DecidableEq, Repr

/-- A call of the host's `snprintf`. -/
structure HostCall where
  spec : List UInt8
  args : List HostArg
deriving DecidableEq, Repr

/-- What `format_one` puts in its scratch buffer. -/
inductive Made where
  | host (call : HostCall)
  | text (s : List UInt8)
deriving DecidableEq, Repr

/-- The guest's memory, where its arguments and strings are. -/
structure Guest where
  memory : Bytes
  memorySize : ℕ

/-- `va_i32`. -/
def Guest.vaI32 (g : Guest) (off : ℕ) : ℕ × ℕ :=
  let off := vaAlign off 4
  (if g.memorySize < off + 4 then 0 else g.memory.read32 off, u32 (off + 4))

/-- `va_i64`, and `va_f64`, which fetches the bits of a double. -/
def Guest.vaI64 (g : Guest) (off : ℕ) : ℕ × ℕ :=
  let off := vaAlign off 8
  (if g.memorySize < off + 8 then 0 else g.memory.read32 off + 2 ^ 32 * g.memory.read32 (off + 4), u32 (off + 8))

/-- The argument for a `*`. -/
def Guest.starArg (g : Guest) (has : Bool) (va : ℕ) : List HostArg × ℕ :=
  if has then ([.int (g.vaI32 va).1], (g.vaI32 va).2) else ([], va)

/-- `(null)` -/
def nullText : List UInt8 := [40, 110, 117, 108, 108, 41]

/-- The second half of `format_one`: the arguments are fetched; what is made, and the next argument.  The host
reads the spec up to its first NUL. -/
def Guest.convert (g : Guest) (p : Spec) (va : ℕ) : Made × ℕ :=
  let spec := p.rebuilt.takeWhile (· ≠ 0)
  let (starW, va) := g.starArg p.widthStar va
  let (starP, va) := g.starArg p.precStar va
  let stars := starW ++ starP
  let conv := p.conv
  if intConvs.contains conv then
    if p.mods.isLl || p.mods.isJ then (.host ⟨spec, stars ++ [.quad (g.vaI64 va).1]⟩, (g.vaI64 va).2)
    else (.host ⟨spec, stars ++ [.int (g.vaI32 va).1]⟩, (g.vaI32 va).2)
  else if conv = 112 then (.host ⟨[48, 120, 37, 120], [.int (g.vaI32 va).1]⟩, (g.vaI32 va).2)
  else if conv = 99 then (.host ⟨spec, [.int (g.vaI32 va).1]⟩, (g.vaI32 va).2)
  else if conv = 115 then
    let s := (wstrCheck g.memory g.memorySize (g.vaI32 va).1).getD nullText
    (.host ⟨spec, stars ++ [.str s]⟩, (g.vaI32 va).2)
  else if floatConvs.contains conv then
    (.host ⟨spec, stars ++ [.double (g.vaI64 va).1]⟩, (g.vaI64 va).2)
  else if conv = percent then (.text [percent], va)
  else if conv = 110 then (.text [], va)
  else (.host ⟨[37, 37, 37, 99], [.int conv.toNat]⟩, va)

/-- What `format_one` did at a `%`: the position of the `%`, the last byte it read, how many bytes of `spec` it
wrote, what it made if it did not give the conversion up, and the argument cursor before and after. -/
structure ConvEvent where
  start : ℕ
  stop : ℕ
  stores : ℕ
  made : Option (UInt8 × Made)
  va : ℕ
  va' : ℕ
deriving DecidableEq, Repr

/-- `format_one` at the position `pos`, and how many bytes behind the `%` it passes. -/
def Guest.formatOne (g : Guest) (rest : List UInt8) (pos va : ℕ) : ConvEvent × ℕ :=
  let p := parseSpec rest
  if p.givenUp then (⟨pos, pos + 1 + p.scan.used, p.scan.spec.length, none, va, va⟩, p.scan.used)
  else
    let (made, va') := g.convert p va
    (⟨pos, pos + 1 + p.scan.used, p.scan.spec.length + 2, some (p.conv, made), va, va'⟩, p.scan.used + 1)

/-- A step of the walk. -/
inductive Item where
  | lit (c : UInt8)
  | conv (e : ConvEvent)
deriving DecidableEq, Repr

/-- The loop of `yos_vsnprintf_core`, without the output; `skip` bytes are passed already. -/
def Guest.walk (g : Guest) : (text : List UInt8) → (skip pos va : ℕ) → List Item
  | [], _, _, _ => []
  | _ :: rest, skip + 1, pos, va => g.walk rest skip (pos + 1) va
  | c :: rest, 0, pos, va =>
    if c = 0 then []
    else if c ≠ percent then .lit c :: g.walk rest 0 (pos + 1) va
    else .conv (g.formatOne rest pos va).1 ::
      g.walk rest (g.formatOne rest pos va).2 (pos + 1) (g.formatOne rest pos va).1.va'

/-- The conversions among the steps. -/
def events (items : List Item) : List ConvEvent :=
  items.filterMap fun
    | .lit _ => none
    | .conv e => some e

/-! ## What it should do -/

/-- A width or a precision: `*`, or digits. -/
def amount (l : List UInt8) : List UInt8 := if front l = star then [star] else l.takeWhile isDigitChar

/-- A conversion of a format, behind its `%`; the conversion character is missing if the format ends first. -/
structure Conversion where
  flags : List UInt8
  width : List UInt8
  prec : Option (List UInt8)
  mods : List UInt8
  conv : Option UInt8
deriving DecidableEq, Repr

/-- A point and a precision. -/
def precText : Option (List UInt8) → List UInt8
  | none => []
  | some digits => point :: digits

/-- What stands between the `%` and the conversion character. -/
def Conversion.chars (c : Conversion) : List UInt8 := c.flags ++ c.width ++ precText c.prec ++ c.mods

/-- A precision at the front. -/
def readPrec (l : List UInt8) : Option (List UInt8) := if front l = point then some (amount l.tail) else none

/-- The conversion behind a `%`. -/
def readConv (l : List UInt8) : Conversion :=
  let flags := l.takeWhile flagChars.contains
  let l := l.drop flags.length
  let width := amount l
  let l := l.drop width.length
  let prec := readPrec l
  let l := l.drop (precText prec).length
  let mods := l.takeWhile modChars.contains
  ⟨flags, width, prec, mods, (l.drop mods.length).head?⟩

/-- How long the conversion is behind its `%`. -/
def Conversion.length (c : Conversion) : ℕ := c.chars.length + c.conv.toList.length

/-- The conversions of a format and where they start; `skip` bytes belong to one before. -/
def conversions : (text : List UInt8) → (skip pos : ℕ) → List (ℕ × Conversion)
  | [], _, _ => []
  | _ :: rest, skip + 1, pos => conversions rest skip (pos + 1)
  | c :: rest, 0, pos =>
    if c = percent then (pos, readConv rest) :: conversions rest (readConv rest).length (pos + 1)
    else conversions rest 0 (pos + 1)

/-- How many arguments are `*`. -/
def Conversion.stars (c : Conversion) : ℕ := c.width.count star + (precText c.prec).count star

/-- The slot of an argument on wasm32. -/
inductive Slot where
  | empty
  | word
  | quad
  | wide
deriving DecidableEq, Repr

/-- The next argument behind a slot. -/
def Slot.next : Slot → ℕ → ℕ
  | .empty, va => va
  | .word, va => u32 (vaAlign va 4 + 4)
  | .quad, va => u32 (vaAlign va 8 + 8)
  | .wide, va => u32 (vaAlign va 16 + 16)

/-- The modifiers of the integer conversions for types of 4 bytes: none, `h`, `hh`, `l`, `z` and `t`. -/
def wordMods : List (List UInt8) := [[], [104], [104, 104], [108], [122], [116]]

/-- The modifiers of the integer conversions for types of 8 bytes: `ll`, `j` and `q`. -/
def quadMods : List (List UInt8) := [[108, 108], [106], [113]]

/-- The slot of a conversion's value, if the modifiers and the conversion character go together. -/
def argSlot (mods : List UInt8) (conv : UInt8) : Option Slot :=
  if intConvs.contains conv then
    if wordMods.contains mods then some .word else if quadMods.contains mods then some .quad else none
  else if floatConvs.contains conv then
    if mods = [] ∨ mods = [108] then some .quad else if mods = [76] then some .wide else none
  else if conv = 99 ∨ conv = 115 then if mods = [] ∨ mods = [108] then some .word else none
  else if conv = 112 ∨ conv = 67 ∨ conv = 83 then if mods = [] then some .word else none
  else if conv = 110 then if (wordMods ++ quadMods).contains mods then some .word else none
  else if conv = percent then if mods = [] then some .empty else none
  else none

/-- How many arguments a conversion names: its `*`s and its value. -/
def namedArgs (spec : List UInt8) : ℕ := spec.count star + 1

/-- The walk follows a conversion: it takes it whole, and goes on behind its arguments. -/
structure Follows (e : ConvEvent) (at_ : ℕ) (c : Conversion) (conv : UInt8) : Prop where
  stop : e.stop = at_ + 1 + c.chars.length
  taken : ∃ made, e.made = some (conv, made)
  args : ∀ slot, argSlot c.mods conv = some slot → e.va' = slot.next (Slot.word.next^[c.stars] e.va)

/-- The walk reads no byte behind the end of the format at `stop`, stores nothing behind the end of `spec`,
follows each complete conversion, and calls the host with as many arguments as the spec names. -/
structure WalkMet (stop : ℕ) (es : List ConvEvent) (cs : List (ℕ × Conversion)) : Prop where
  reads : ∀ e ∈ es, e.stop ≤ stop
  stores : ∀ e ∈ es, e.stores ≤ specSize
  follows : List.Forall₂ (fun e c => e.start = c.1 ∧ ∀ conv, c.2.conv = some conv → Follows e c.1 c.2 conv) es cs
  calls : ∀ e ∈ es, ∀ conv call, e.made = some (conv, .host call) → call.args.length = namedArgs call.spec

/-- The value has another slot than the code thinks: `q`, `L`, `%n`, `%C` and `%S`. -/
def Misread (mods : List UInt8) (conv : UInt8) : Prop :=
  conv ∈ intConvs ∧ mods = [113] ∨ conv ∈ floatConvs ∧ mods = [76] ∨
    conv = 110 ∧ mods ∈ wordMods ++ quadMods ∨ (conv = 67 ∨ conv = 83) ∧ mods = []

/-- The point, or the `*` behind it, is stored behind the end of `spec`. -/
def Conversion.Overflows (c : Conversion) : Prop :=
  c.flags.length ≤ 62 ∧ (c.width ≠ [star] → c.flags.length + c.width.length ≤ 62) ∧
    (c.prec.isSome ∧ c.width = [star] ∧ c.flags.length = 62 ∨
      c.prec = some [star] ∧ 62 ≤ c.flags.length + c.width.length)

/-- The conversions that the walk can do: short and complete ones that it reads rightly, and ones that the format
breaks off so late that the walk gives them up before it gets there. -/
def Conversion.Good (c : Conversion) : Prop :=
  match c.conv with
  | none => 62 ≤ c.chars.length ∧ ¬ c.Overflows
  | some conv => c.chars.length ≤ 60 ∧ ¬ Misread c.mods conv ∧ ¬ (conv = 99 ∧ c.stars ≠ 0)

/-! ## Lists -/

@[simp] theorem front_nil : front [] = 0 := rfl

@[simp] theorem front_cons (c : UInt8) (l : List UInt8) : front (c :: l) = c := rfl

theorem front_append_nul (l r : List UInt8) : front (l ++ 0 :: r) = front l := by
  cases l <;> rfl

theorem front_ne_nul {l : List UInt8} (ne : l ≠ []) (solid : (0 : UInt8) ∉ l) : front l ≠ 0 := by
  cases l with
  | nil => exact absurd rfl ne
  | cons c l => exact fun h => solid (by rw [← h]; simp)

theorem front_dropWhile {p : UInt8 → Bool} (nul : p 0 = false) (l : List UInt8) :
    p (front (l.dropWhile p)) = false := by
  induction l with
  | nil => exact nul
  | cons c l ih => by_cases h : p c <;> simp [h, ih]

theorem drop_takeWhile (p : UInt8 → Bool) (l : List UInt8) : l.drop (l.takeWhile p).length = l.dropWhile p := by
  conv_lhs => rw [← List.takeWhile_append_dropWhile (p := p) (l := l), List.drop_append]
  simp

theorem drop_of_append {a b l : List UInt8} (h : l = a ++ b) : l.drop a.length = b := by
  rw [h, List.drop_left]

theorem strchr_of_ne {set : List UInt8} {c : UInt8} (h : c ≠ 0) : strchr set c = set.contains c := by
  simp [strchr, h]

/-! ## The scan -/

/-- The scan `n` bytes behind the `%`. -/
def Scan.upto (text : List UInt8) (n : ℕ) : Scan := ⟨percent :: text.take n, text.drop n, n⟩

section Stages

variable {text run rest : List UInt8} {n : ℕ}

theorem Scan.take_upto (h : n < text.length) : (Scan.upto text n).take = Scan.upto text (n + 1) := by
  simp only [Scan.take, Scan.upto, Scan.mk.injEq, List.tail_drop, and_true]
  rw [List.take_succ_eq_append_getElem h, List.drop_eq_getElem_cons h, front_cons]
  rfl

theorem Scan.length_upto (h : n ≤ text.length) : (Scan.upto text n).spec.length = n + 1 := by
  simp [Scan.upto, h]

/-- Where a loop over a run stops. -/
def runEnd (n len : ℕ) : ℕ := max n (min 62 (n + len))

/-- A loop takes a run as far as there is room for it. -/
theorem scanLoop_upto {hit : UInt8 → Bool} (split : text.drop n = run ++ rest) (hits : ∀ c ∈ run, hit c = true)
    (stop : hit (front rest) = false ∨ 62 ≤ n + run.length) (room : n ≤ text.length) {fuel : ℕ}
    (enough : 62 - n < fuel) : scanLoop hit fuel (Scan.upto text n) = Scan.upto text (runEnd n run.length) := by
  induction fuel generalizing n run with
  | zero => omega
  | succ fuel ih =>
    rw [scanLoop, Scan.length_upto room, show (Scan.upto text n).rest = run ++ rest from split]
    cases run with
    | nil =>
      rw [if_neg]
      · congr 1
        simp only [runEnd, List.length_nil]
        omega
      · rintro ⟨short, hit'⟩
        rcases stop with stop | stop
        · simp [stop] at hit'
        · simp [specSize] at short stop
          omega
    | cons c run =>
      have long := congrArg List.length split
      simp only [List.length_drop, List.length_append, List.length_cons] at long
      by_cases full : 62 ≤ n
      · rw [if_neg (by simp [specSize]; omega)]
        congr 1
        simp only [runEnd]
        omega
      · have behind : text.drop (n + 1) = run ++ rest := by
          rw [← List.drop_drop, split]
          rfl
        rw [if_pos ⟨by simp [specSize]; omega, hits c (by simp)⟩, Scan.take_upto (by omega),
          ih behind (fun c h => hits c (by simp [h])) (stop.imp_right fun h => by simp at h; omega) (by omega)
            (by omega)]
        congr 1
        simp only [runEnd, List.length_cons]
        omega


theorem isDigitChar_ne_nul {c : UInt8} (h : isDigitChar c = true) : c ≠ 0 := by
  rintro rfl
  simp [isDigitChar] at h

/-- Where a `*` or digits end. -/
def amountEnd (n : ℕ) (a : List UInt8) : ℕ := if a = [star] then n + 1 else runEnd n a.length

theorem amountEnd_fits {a : List UInt8} (h : a = [star] ∨ a = [] ∨ n + a.length ≤ 62) :
    amountEnd n a = n + a.length := by
  unfold amountEnd runEnd
  split_ifs with star
  · rw [star, List.length_singleton]
  · rcases h.resolve_left star with rfl | fits
    · rw [List.length_nil]
      omega
    · omega

theorem amountEnd_cut {a : List UInt8} (star : a ≠ [star]) (h : 62 < n + a.length) : amountEnd n a = max n 62 := by
  unfold amountEnd runEnd
  rw [if_neg star]
  omega

theorem amount_of_star {l : List UInt8} (h : front l = star) : amount l = [star] := if_pos h

theorem amount_of_digits {l : List UInt8} (h : front l ≠ star) : amount l = l.takeWhile isDigitChar := if_neg h

theorem amount_ne_star {l : List UInt8} (h : front l ≠ star) : amount l ≠ [star] := by
  rw [amount_of_digits h]
  intro eq
  have digit := List.mem_takeWhile_imp (p := isDigitChar) (l := l) (by rw [eq]; exact List.mem_cons_self)
  simp [isDigitChar, star] at digit

variable {l r : List UInt8}

theorem amountScan_upto (split : text.drop n = l ++ 0 :: r) (room : n ≤ text.length) :
    amountScan (Scan.upto text n) = (Scan.upto text (amountEnd n (amount l)), decide (amount l = [star])) := by
  have head : front (Scan.upto text n).rest = front l := by
    rw [show (Scan.upto text n).rest = l ++ 0 :: r from split, front_append_nul]
  rw [amountScan, head]
  by_cases h : front l = star
  · have more : n < text.length := by
      have long := congrArg List.length split
      simp at long
      omega
    rw [if_pos h, Scan.take_upto more, amountEnd, amount_of_star h, if_pos rfl]
    rfl
  · rw [if_neg h, amountEnd, if_neg (amount_ne_star h), decide_eq_false (amount_ne_star h), amount_of_digits h]
    have digits : text.drop n = l.takeWhile isDigitChar ++ (l.dropWhile isDigitChar ++ 0 :: r) := by
      rw [← List.append_assoc, List.takeWhile_append_dropWhile, split]
    have stop : isDigitChar (front (l.dropWhile isDigitChar ++ 0 :: r)) = false := by
      rw [front_append_nul]
      exact front_dropWhile rfl l
    rw [scanLoop_upto digits (fun c h => List.mem_takeWhile_imp h) (.inl stop) room (by unfold specSize; omega)]

theorem precScan_upto (split : text.drop n = l ++ 0 :: r) (room : n ≤ text.length) :
    precScan (Scan.upto text n) =
      match readPrec l with
      | none => (Scan.upto text n, false)
      | some a => (Scan.upto text (amountEnd (n + 1) a), decide (a = [star])) := by
  have head : front (Scan.upto text n).rest = front l := by
    rw [show (Scan.upto text n).rest = l ++ 0 :: r from split, front_append_nul]
  rw [precScan, head, readPrec]
  by_cases h : front l = point
  · obtain ⟨tail, rfl⟩ : ∃ tail, l = point :: tail := by
      cases l with
      | nil => exact absurd h (by decide)
      | cons c l => exact ⟨l, by rw [← h]; rfl⟩
    have more : n < text.length := by
      have long := congrArg List.length split
      simp at long
      omega
    rw [if_pos h, if_pos h, Scan.take_upto more]
    refine amountScan_upto (r := r) ?_ more
    rw [← List.drop_drop, split]
    rfl
  · rw [if_neg h, if_neg h]

/-- The flags of a run of modifiers. -/
def modsOf : List UInt8 → Mods → Mods
  | [], m => m
  | [c], m => m.add c
  | c :: d :: run, m => if c = el ∧ d = el then modsOf run { m with isLl := true } else modsOf (d :: run) (m.add c)

/-- The loop over the modifiers takes them as far as there is room, but a second `l` without looking. -/
theorem modLoop_upto {m : Mods} (split : text.drop n = run ++ rest) (hits : ∀ c ∈ run, strchr modChars c = true)
    (stop : strchr modChars (front rest) = false ∨ front rest ≠ el ∧ 62 ≤ n + run.length)
    (room : n ≤ text.length) {fuel : ℕ} (enough : 62 - n < fuel) :
    ∃ j ≤ run.length, (modLoop fuel (Scan.upto text n) m).1 = Scan.upto text (n + j) ∧
      (j = run.length ∨ 62 ≤ n + j) ∧ (62 ≤ n → j = 0) ∧ n + j ≤ max n 63 ∧
      (j = run.length → (modLoop fuel (Scan.upto text n) m).2 = modsOf run m) := by
  induction fuel generalizing n run m with
  | zero => omega
  | succ fuel ih =>
    rw [modLoop, Scan.length_upto room, show (Scan.upto text n).rest = run ++ rest from split]
    have last : front rest ≠ el := by
      rcases stop with stop | stop
      · intro h
        simp [h, strchr, modChars, el] at stop
      · exact stop.1
    have long := congrArg List.length split
    simp only [List.length_drop, List.length_append] at long
    by_cases full : 62 ≤ n
    · rw [if_neg (by simp [specSize]; omega)]
      refine ⟨0, Nat.zero_le _, rfl, .inr full, fun _ => rfl, by omega, fun h => ?_⟩
      rw [List.length_eq_zero_iff.1 h.symm]
      rfl
    · rcases run with _ | ⟨c, run⟩
      · rw [if_neg]
        · exact ⟨0, le_rfl, rfl, .inl rfl, fun _ => rfl, by omega, fun _ => rfl⟩
        · rintro ⟨-, hit⟩
          rcases stop with stop | stop
          · simp [stop] at hit
          · simp at stop
            omega
      · simp only [List.length_cons] at long stop
        rw [if_pos ⟨by simp [specSize]; omega, hits c (by simp)⟩, List.cons_append, front_cons, List.tail_cons]
        have next : (Scan.upto text n).take = Scan.upto text (n + 1) := Scan.take_upto (by omega)
        have behind : text.drop (n + 1) = run ++ rest := by
          rw [← List.drop_drop, split]
          rfl
        by_cases pair : c = el ∧ front (run ++ rest) = el
        · obtain ⟨run, rfl⟩ : ∃ run', run = el :: run' := by
            rcases run with _ | ⟨d, run⟩
            · exact absurd pair.2 last
            · exact ⟨run, by rw [← pair.2]; rfl⟩
          simp only [List.length_cons] at long stop
          rw [if_pos pair, next, Scan.take_upto (by omega)]
          have behind₂ : text.drop (n + 1 + 1) = run ++ rest := by
            rw [← List.drop_drop, behind]
            rfl
          obtain ⟨j, le, eq, end_, zero, bound, mods⟩ := ih (m := { m with isLl := true }) behind₂
            (fun c h => hits c (by simp [h])) (stop.imp_right fun h => ⟨h.1, by omega⟩) (by omega) (by omega)
          refine ⟨j + 2, by simp only [List.length_cons]; omega, by rw [eq]; congr 1; omega,
            end_.imp (fun h => by simp only [List.length_cons]; omega) (fun h => by omega), by omega, by omega,
            fun h => ?_⟩
          rw [mods (by simpa using h), modsOf, if_pos ⟨pair.1, rfl⟩]
        · rw [if_neg pair, next]
          obtain ⟨j, le, eq, end_, zero, bound, mods⟩ := ih (m := m.add c) behind
            (fun c h => hits c (by simp [h])) (stop.imp_right fun h => ⟨h.1, by omega⟩) (by omega) (by omega)
          refine ⟨j + 1, by simp only [List.length_cons]; omega, by rw [eq]; congr 1; omega,
            end_.imp (fun h => by simp only [List.length_cons]; omega) (fun h => by omega), by omega, by omega,
            fun h => ?_⟩
          rw [mods (by simpa using h)]
          rcases run with _ | ⟨d, run⟩
          · rfl
          · rw [modsOf, if_neg]
            simpa using pair

theorem Scan.take_cursor {s : Scan} (h : s.spec.length = s.used + 1) : s.take.spec.length = s.take.used + 1 := by
  simp [Scan.take, h]

theorem scanLoop_mono (hit : UInt8 → Bool) (fuel : ℕ) (s : Scan) : s.used ≤ (scanLoop hit fuel s).used := by
  induction fuel generalizing s with
  | zero => exact le_rfl
  | succ fuel ih =>
    rw [scanLoop]
    split_ifs
    · exact (Nat.le_succ _).trans (ih s.take)
    · exact le_rfl

theorem amountScan_mono (s : Scan) : s.used ≤ (amountScan s).1.used := by
  unfold amountScan
  split_ifs
  · exact Nat.le_succ _
  · exact scanLoop_mono _ _ _

theorem precScan_mono (s : Scan) : s.used ≤ (precScan s).1.used := by
  unfold precScan
  split_ifs
  · exact (Nat.le_succ _).trans (amountScan_mono s.take)
  · exact le_rfl

theorem modLoop_mono (fuel : ℕ) (s : Scan) (m : Mods) : s.used ≤ (modLoop fuel s m).1.used := by
  induction fuel generalizing s m with
  | zero => exact le_rfl
  | succ fuel ih =>
    rw [modLoop]
    split_ifs
    · exact (Nat.le_add_right _ 2).trans (ih s.take.take _)
    · exact (Nat.le_succ _).trans (ih s.take _)
    · exact le_rfl

/-- A loop takes a run at least as far as there is room, whatever is behind it. -/
theorem scanLoop_used {hit : UInt8 → Bool} {s : Scan} (split : s.rest = run ++ rest) (hits : ∀ c ∈ run, hit c = true)
    (cursor : s.spec.length = s.used + 1) {fuel : ℕ} (enough : 62 - s.used < fuel) :
    min 62 (s.used + run.length) ≤ (scanLoop hit fuel s).used := by
  induction fuel generalizing s run with
  | zero => omega
  | succ fuel ih =>
    by_cases full : 62 ≤ s.used
    · exact le_trans (by omega) (scanLoop_mono _ _ s)
    · rcases run with _ | ⟨c, run⟩
      · exact le_trans (by simp) (scanLoop_mono _ _ s)
      · have one : s.take.used = s.used + 1 := rfl
        rw [scanLoop, cursor, split, List.cons_append, front_cons,
          if_pos ⟨by simp [specSize]; omega, hits c (by simp)⟩]
        have next : s.take.rest = run ++ rest := by simp [Scan.take, split]
        have := ih next (fun c h => hits c (by simp [h])) (Scan.take_cursor cursor) (by omega)
        simp only [List.length_cons]
        omega

theorem modLoop_used {s : Scan} {m : Mods} (split : s.rest = run ++ rest)
    (hits : ∀ c ∈ run, strchr modChars c = true) (cursor : s.spec.length = s.used + 1) {fuel : ℕ}
    (enough : 62 - s.used < fuel) : min 62 (s.used + run.length) ≤ (modLoop fuel s m).1.used := by
  induction fuel generalizing s run rest m with
  | zero => omega
  | succ fuel ih =>
    by_cases full : 62 ≤ s.used
    · exact le_trans (by omega) (modLoop_mono _ s m)
    · rcases run with _ | ⟨c, run⟩
      · exact le_trans (by simp) (modLoop_mono _ s m)
      · have next : s.take.rest = run ++ rest := by simp [Scan.take, split]
        have one : s.take.used = s.used + 1 := rfl
        have two : s.take.take.used = s.used + 2 := rfl
        rw [modLoop, cursor, split, List.cons_append, front_cons, List.tail_cons,
          if_pos ⟨by simp [specSize]; omega, hits c (by simp)⟩]
        simp only [List.length_cons]
        split_ifs
        · rcases run with _ | ⟨d, run⟩
          · exact le_trans (by rw [two, List.length_nil]; omega) (modLoop_mono _ s.take.take _)
          · have next₂ : s.take.take.rest = run ++ rest := by
              rw [Scan.take, next]
              rfl
            have := ih (m := { m with isLl := true }) next₂ (fun c h => hits c (by simp [h]))
              (Scan.take_cursor (Scan.take_cursor cursor)) (by omega)
            simp only [List.length_cons]
            omega
        · have := ih (s := s.take) (m := m.add c) next (fun c h => hits c (by simp [h])) (Scan.take_cursor cursor)
            (by omega)
          omega

theorem scanLoop_full {hit : UInt8 → Bool} (fuel : ℕ) (room : n ≤ text.length) (full : 62 ≤ n) :
    scanLoop hit fuel (Scan.upto text n) = Scan.upto text n := by
  cases fuel with
  | zero => rfl
  | succ fuel =>
    rw [scanLoop, Scan.length_upto room, if_neg]
    simp [specSize]
    omega

theorem modLoop_full {m : Mods} (fuel : ℕ) (room : n ≤ text.length) (full : 62 ≤ n) :
    modLoop fuel (Scan.upto text n) m = (Scan.upto text n, m) := by
  cases fuel with
  | zero => rfl
  | succ fuel =>
    rw [modLoop, Scan.length_upto room, if_neg]
    simp [specSize]
    omega

end Stages

/-! ## The conversion behind a `%` -/

theorem amount_append (l : List UInt8) : ∃ l', l = amount l ++ l' ∧
    (amount l ≠ [star] → isDigitChar (front l') = false) := by
  by_cases h : front l = star
  · rw [amount_of_star h]
    refine ⟨l.tail, ?_, fun ne => absurd rfl ne⟩
    cases l with
    | nil => exact absurd h (by decide)
    | cons c l => rw [← h]; rfl
  · rw [amount_of_digits h]
    exact ⟨_, List.takeWhile_append_dropWhile.symm, fun _ => front_dropWhile rfl l⟩

theorem amount_digit {l : List UInt8} (h : amount l ≠ [star]) {x : UInt8} (mem : x ∈ amount l) :
    isDigitChar x = true := by
  rw [amount_of_digits fun head => h (amount_of_star head)] at mem
  exact List.mem_takeWhile_imp mem

theorem prec_append (l : List UInt8) : ∃ l', l = precText (readPrec l) ++ l' := by
  unfold readPrec
  split_ifs with h
  · cases l with
    | nil => exact absurd h (by decide)
    | cons c l =>
      obtain ⟨l', eq, -⟩ := amount_append l
      refine ⟨l', ?_⟩
      rw [show c = point from h, precText, List.tail_cons, List.cons_append, ← eq]
  · exact ⟨l, rfl⟩

theorem Conversion.chars_length (c : Conversion) :
    c.chars.length = c.flags.length + c.width.length + (precText c.prec).length + c.mods.length := by
  simp only [Conversion.chars, List.length_append]

/-- A text cut in the parts of a conversion. -/
structure Parts (l : List UInt8) (c : Conversion) (l₁ l₂ l₃ l₄ : List UInt8) : Prop where
  flags : l = c.flags ++ l₁
  width : l₁ = c.width ++ l₂
  prec : l₂ = precText c.prec ++ l₃
  mods : l₃ = c.mods ++ l₄
  width_eq : c.width = amount l₁
  prec_eq : c.prec = readPrec l₂
  conv_eq : c.conv = l₄.head?
  isFlag : ∀ x ∈ c.flags, flagChars.contains x = true
  noFlag : flagChars.contains (front l₁) = false
  isMod : ∀ x ∈ c.mods, modChars.contains x = true
  noMod : modChars.contains (front l₄) = false

theorem readConv_parts (l : List UInt8) : ∃ l₁ l₂ l₃ l₄, Parts l (readConv l) l₁ l₂ l₃ l₄ := by
  let l₁ := l.dropWhile flagChars.contains
  obtain ⟨l₂, width, -⟩ := amount_append l₁
  obtain ⟨l₃, prec⟩ := prec_append l₂
  have e₁ : l.drop (l.takeWhile flagChars.contains).length = l₁ := drop_takeWhile _ l
  have e₂ : l₁.drop (amount l₁).length = l₂ := drop_of_append width
  have e₃ : l₂.drop (precText (readPrec l₂)).length = l₃ := drop_of_append prec
  have e₄ : l₃.drop (l₃.takeWhile modChars.contains).length = l₃.dropWhile modChars.contains := drop_takeWhile _ l₃
  have eq : readConv l = ⟨l.takeWhile flagChars.contains, amount l₁, readPrec l₂, l₃.takeWhile modChars.contains,
      (l₃.dropWhile modChars.contains).head?⟩ := by
    simp only [readConv, e₁, e₂, e₃, e₄]
  rw [eq]
  exact ⟨l₁, l₂, l₃, l₃.dropWhile modChars.contains, List.takeWhile_append_dropWhile.symm, width, prec,
    List.takeWhile_append_dropWhile.symm, rfl, rfl, rfl, fun _ h => List.mem_takeWhile_imp h, front_dropWhile rfl l,
    fun _ h => List.mem_takeWhile_imp h, front_dropWhile rfl l₃⟩

namespace Parts

variable {l l₁ l₂ l₃ l₄ r : List UInt8} {c : Conversion} (h : Parts l c l₁ l₂ l₃ l₄)
include h

theorem text : l = c.chars ++ l₄ := by
  rw [Conversion.chars, List.append_assoc, List.append_assoc, List.append_assoc, ← h.mods, ← h.prec, ← h.width,
    ← h.flags]

/-- The scan behind the flags. -/
theorem flags_upto (solid : 0 ∉ l) (ends : c.flags.length < l.length ∨ 62 ≤ c.flags.length) :
    scanLoop (strchr flagChars) specSize ⟨[percent], l ++ 0 :: r, 0⟩ =
      Scan.upto (l ++ 0 :: r) (min 62 c.flags.length) := by
  have split : (l ++ 0 :: r).drop 0 = c.flags ++ (l₁ ++ 0 :: r) := by
    conv_lhs => rw [h.flags]
    simp
  have hits (x : UInt8) (mem : x ∈ c.flags) : strchr flagChars x = true := by
    simp only [strchr, h.isFlag x mem, Bool.or_true]
  have stop : strchr flagChars (front (l₁ ++ 0 :: r)) = false ∨ 62 ≤ 0 + c.flags.length := by
    refine ends.imp (fun more => ?_) fun full => by omega
    have long := congrArg List.length h.flags
    rw [List.length_append] at long
    have solid₁ : (0 : UInt8) ∉ l₁ := fun mem => solid (by rw [h.flags]; exact List.mem_append_right _ mem)
    rw [front_append_nul, strchr_of_ne (front_ne_nul (List.ne_nil_of_length_pos (by omega)) solid₁), h.noFlag]
  have run := scanLoop_upto split hits stop (Nat.zero_le _) (show 62 - 0 < specSize by decide)
  rw [show runEnd 0 c.flags.length = min 62 c.flags.length by simp [runEnd]] at run
  exact run

/-- The scan behind a width. -/
theorem width_upto :
    amountScan (Scan.upto (l ++ 0 :: r) c.flags.length) =
      (Scan.upto (l ++ 0 :: r) (amountEnd c.flags.length c.width), decide (c.width = [star])) := by
  have long := congrArg List.length h.flags
  rw [List.length_append] at long
  have behind : (l ++ 0 :: r).drop c.flags.length = l₁ ++ 0 :: r := by
    rw [h.flags, List.append_assoc, List.drop_left]
  rw [amountScan_upto behind (by simp only [List.length_append]; omega), ← h.width_eq]

/-- The scan behind a precision. -/
theorem prec_upto : precScan (Scan.upto (l ++ 0 :: r) (c.flags.length + c.width.length)) =
    match c.prec with
    | none => (Scan.upto (l ++ 0 :: r) (c.flags.length + c.width.length), false)
    | some a => (Scan.upto (l ++ 0 :: r) (amountEnd (c.flags.length + c.width.length + 1) a), decide (a = [star])) := by
  have long := congrArg List.length h.text
  rw [List.length_append, c.chars_length] at long
  have behind : (l ++ 0 :: r).drop (c.flags.length + c.width.length) = l₂ ++ 0 :: r := by
    rw [h.flags, h.width, ← List.append_assoc, List.append_assoc, ← List.length_append, List.drop_left]
  rw [precScan_upto behind (by simp only [List.length_append]; omega), ← h.prec_eq]

/-- The scan behind a precision that it takes whole. -/
theorem prec_fits (fits : ∀ a, c.prec = some a →
      a = [star] ∨ a = [] ∨ c.flags.length + c.width.length + 1 + a.length ≤ 62) :
    precScan (Scan.upto (l ++ 0 :: r) (c.flags.length + c.width.length)) =
      (Scan.upto (l ++ 0 :: r) (c.flags.length + c.width.length + (precText c.prec).length),
        decide (c.prec = some [star])) := by
  rw [h.prec_upto]
  cases eq : c.prec with
  | none => rfl
  | some a =>
    simp only [amountEnd_fits (fits a eq), precText, List.length_cons, Option.some.injEq]
    congr 2
    omega

theorem behind_prec : (l ++ 0 :: r).drop (c.flags.length + c.width.length + (precText c.prec).length) =
    c.mods ++ (l₄ ++ 0 :: r) := by
  rw [h.text, Conversion.chars, List.append_assoc, List.append_assoc, ← List.length_append, ← List.length_append,
    List.drop_left]

end Parts

theorem front_drop {pre a b text : List UInt8} {n : ℕ} (split : text = pre ++ (a ++ b)) (low : pre.length ≤ n)
    (high : n < pre.length + a.length) : front (text.drop n) ∈ a := by
  have inside : n - pre.length < a.length := by omega
  have more : n < text.length := by
    rw [split, List.length_append, List.length_append]
    omega
  rw [List.drop_eq_getElem_cons more, front_cons]
  simp only [split, List.getElem_append_right low, List.getElem_append_left inside, List.getElem_mem]

/-- A scan that has no room and stands on a flag or a digit stays there. -/
theorem stuck {text : List UInt8} {n : ℕ} {x : UInt8} (at_ : front (text.drop n) = x)
    (plain : flagChars.contains x = true ∨ isDigitChar x = true) (full : 62 ≤ n) (room : n ≤ text.length) :
    amountScan (Scan.upto text n) = (Scan.upto text n, false) ∧
      precScan (Scan.upto text n) = (Scan.upto text n, false) := by
  have rest : front (Scan.upto text n).rest = x := at_
  have noStar : x ≠ star := by
    rintro rfl
    exact absurd plain (by decide)
  have noPoint : x ≠ point := by
    rintro rfl
    exact absurd plain (by decide)
  constructor
  · rw [amountScan, rest, if_neg noStar, scanLoop_full specSize room full]
  · rw [precScan, rest, if_neg noPoint]

/-- The scan of a conversion that is complete or too long: how far it comes, what it stores, and what it finds if
the conversion is short. -/
structure Parsed (text : List UInt8) (c : Conversion) (p : Spec) (u : ℕ) : Prop where
  scan : p.scan = Scan.upto text u
  le : u ≤ c.chars.length
  whole : u = c.chars.length ∨ 62 ≤ u
  room : u ≤ 63 ↔ ¬ c.Overflows
  found : c.chars.length ≤ 60 →
    p.widthStar = decide (c.width = [star]) ∧ p.precStar = decide (c.prec = some [star]) ∧
    p.modStart + c.mods.length = c.chars.length + 1 ∧ p.mods = modsOf c.mods noMods

theorem parseSpec_used (rest : List UInt8) :
    (scanLoop (strchr flagChars) specSize ⟨[percent], rest, 0⟩).used ≤ (parseSpec rest).scan.used := by
  unfold parseSpec
  generalize scanLoop (strchr flagChars) specSize ⟨[percent], rest, 0⟩ = s
  exact (amountScan_mono s).trans ((precScan_mono _).trans (modLoop_mono specSize _ noMods))

theorem parseSpec_of {rest : List UInt8} {s₁ s₂ s₃ s₄ : Scan} {w p : Bool} {m : Mods}
    (e₁ : scanLoop (strchr flagChars) specSize ⟨[percent], rest, 0⟩ = s₁) (e₂ : amountScan s₁ = (s₂, w))
    (e₃ : precScan s₂ = (s₃, p)) (e₄ : modLoop specSize s₃ noMods = (s₄, m)) :
    parseSpec rest = ⟨s₄, w, p, s₃.spec.length, m⟩ := by
  simp only [parseSpec, e₁, e₂, e₃, e₄]

/-- The arithmetic of `Conversion.Overflows` for a precision of `a` characters. -/
theorem room_iff {f w a : ℕ} {star star' : Prop} (low : f ≤ 62) (width : star ∧ w = 1 ∨ ¬ star ∧ f + w ≤ 62)
    (prec : star' ∧ a = 1 ∨ ¬ star' ∧ (a = 0 ∨ f + w + 1 + a ≤ 62)) :
    f + w + (a + 1) ≤ 63 ↔
      ¬ (f ≤ 62 ∧ (¬ star → f + w ≤ 62) ∧ (star ∧ f = 62 ∨ star' ∧ 62 ≤ f + w)) := by
  rcases width with ⟨h, one⟩ | ⟨h, fits⟩ <;> rcases prec with ⟨h', one'⟩ | ⟨h', fits'⟩ <;>
    simp only [h, h', not_true_eq_false, not_false_eq_true, true_and, and_false, false_and, or_false, false_or,
      forall_const, IsEmpty.forall_iff, iff_true, low] <;> omega

theorem Parts.parsed {l l₁ l₂ l₃ l₄ r : List UInt8} {c : Conversion} (h : Parts l c l₁ l₂ l₃ l₄) (solid : 0 ∉ l)
    (ends : c.conv ≠ none ∨ 62 ≤ c.chars.length) : ∃ u, Parsed (l ++ 0 :: r) c (parseSpec (l ++ 0 :: r)) u := by
  have total := congrArg List.length h.text
  rw [List.length_append] at total
  have long : l.length < (l ++ 0 :: r).length := by simp
  have len := c.chars_length
  have flagsEnd : c.flags.length < l.length ∨ 62 ≤ c.flags.length := by
    rcases ends with conv | big
    · have : l₄ ≠ [] := by
        rintro rfl
        exact conv h.conv_eq
      have := List.length_pos_of_ne_nil this
      omega
    · omega
  have e₁ := h.flags_upto (r := r) solid flagsEnd
  by_cases f62 : c.flags.length ≤ 62
  swap
  · -- the flags alone fill the spec
    rw [Nat.min_eq_left (by omega)] at e₁
    have room : 62 ≤ (l ++ 0 :: r).length := by omega
    have flag : front ((l ++ 0 :: r).drop 62) ∈ c.flags :=
      front_drop (show l ++ 0 :: r = [] ++ (c.flags ++ (l₁ ++ 0 :: r)) by rw [h.flags, List.append_assoc]; rfl)
        (Nat.zero_le _) (by simp; omega)
    obtain ⟨e₂, e₃⟩ := stuck rfl (.inl (h.isFlag _ flag)) le_rfl room
    rw [parseSpec_of e₁ e₂ e₃ (modLoop_full _ room le_rfl)]
    exact ⟨62, rfl, by omega, .inr le_rfl, by simp [Conversion.Overflows, f62], by omega⟩
  rw [Nat.min_eq_right f62] at e₁
  have e₂ := h.width_upto (r := r)
  by_cases w62 : c.width = [star] ∨ c.flags.length + c.width.length ≤ 62
  swap
  · -- the digits of the width do
    obtain ⟨noStar, big⟩ := not_or.1 w62
    rw [amountEnd_cut noStar (by omega), Nat.max_eq_right f62, decide_eq_false noStar] at e₂
    have room : 62 ≤ (l ++ 0 :: r).length := by omega
    have digit : front ((l ++ 0 :: r).drop 62) ∈ c.width :=
      front_drop (show l ++ 0 :: r = c.flags ++ (c.width ++ (l₂ ++ 0 :: r)) by rw [h.flags, h.width]; simp) f62
        (by omega)
    have isDigit := amount_digit (h.width_eq ▸ noStar) (h.width_eq ▸ digit)
    obtain ⟨-, e₃⟩ := stuck rfl (.inr isDigit) le_rfl room
    rw [parseSpec_of e₁ e₂ e₃ (modLoop_full _ room le_rfl)]
    exact ⟨62, rfl, by omega, .inr le_rfl, by simp [Conversion.Overflows, noStar, big], by omega⟩
  rw [amountEnd_fits (by tauto)] at e₂
  have low : c.flags.length + c.width.length ≤ 63 := by
    rcases w62 with star | fits
    · rw [star, List.length_singleton]
      omega
    · omega
  have e₃ := h.prec_upto (r := r)
  by_cases p62 : ∀ a, c.prec = some a → a = [star] ∨ a = [] ∨ c.flags.length + c.width.length + 1 + a.length ≤ 62
  swap
  · -- the digits of the precision do
    push Not at p62
    obtain ⟨a, prec, noStar, some_, big⟩ := p62
    have more := List.length_pos_of_ne_nil some_
    rw [prec] at e₃ len
    simp only [precText, List.length_cons] at len
    simp only [amountEnd_cut noStar big, decide_eq_false noStar] at e₃
    have room : max (c.flags.length + c.width.length + 1) 62 ≤ (l ++ 0 :: r).length := by omega
    rw [parseSpec_of e₁ e₂ e₃ (modLoop_full _ room (Nat.le_max_right _ _))]
    refine ⟨_, rfl, by omega, .inr (Nat.le_max_right _ _), ?_, by omega⟩
    simp only [Conversion.Overflows, prec, Option.isSome_some, Option.some.injEq, noStar]
    by_cases star : c.width = [star]
    · simp [star]
      omega
    · have fits := w62.resolve_left star
      simp [star]
      omega
  -- the modifiers are reached
  have e₃ := h.prec_fits (r := r) p62
  have behind := h.behind_prec (r := r)
  have stop : strchr modChars (front (l₄ ++ 0 :: r)) = false ∨ front (l₄ ++ 0 :: r) ≠ el ∧
      62 ≤ c.flags.length + c.width.length + (precText c.prec).length + c.mods.length := by
    rw [front_append_nul, ← len]
    by_cases none : l₄ = []
    · right
      rw [none]
      exact ⟨by decide, ends.resolve_left fun some_ => some_ (by rw [h.conv_eq, none]; rfl)⟩
    · left
      have solid₄ : (0 : UInt8) ∉ l₄ := fun mem => solid (by rw [h.text]; exact List.mem_append_right _ mem)
      rw [strchr_of_ne (front_ne_nul none solid₄), h.noMod]
  have hits (x : UInt8) (mem : x ∈ c.mods) : strchr modChars x = true := by
    simp only [strchr, h.isMod x mem, Bool.or_true]
  have enough : 62 - (c.flags.length + c.width.length + (precText c.prec).length) < specSize := by
    unfold specSize
    omega
  obtain ⟨j, le, scan, whole, zero, bound, mods⟩ := modLoop_upto (m := noMods) behind hits stop (by omega) enough
  rw [parseSpec_of e₁ e₂ e₃ Prod.mk.eta.symm]
  refine ⟨_, scan, by omega, by omega, ?_, fun short => ⟨rfl, rfl, ?_, mods (by omega)⟩⟩
  · rw [show c.flags.length + c.width.length + (precText c.prec).length + j ≤ 63 ↔
      c.flags.length + c.width.length + (precText c.prec).length ≤ 63 by omega]
    cases eq : c.prec with
    | none => simp [Conversion.Overflows, eq, precText, low]
    | some a =>
      have fits := p62 a eq
      have digits : a ≠ [star] → a.length = 0 ∨ c.flags.length + c.width.length + 1 + a.length ≤ 62 := by
        intro ne
        rw [List.length_eq_zero_iff]
        exact fits.resolve_left ne
      have one : c.width = [star] → c.width.length = 1 := fun h => by rw [h]; rfl
      have two : a = [star] → a.length = 1 := fun h => by rw [h]; rfl
      simp only [Conversion.Overflows, eq, precText, List.length_cons, Option.isSome_some, Option.some.injEq, true_and]
      have width : c.width = [star] ∧ c.width.length = 1 ∨ c.width ≠ [star] ∧ c.flags.length + c.width.length ≤ 62 :=
        (em (c.width = [star])).imp (fun h => ⟨h, one h⟩) fun h => ⟨h, w62.resolve_left h⟩
      have prec : a = [star] ∧ a.length = 1 ∨
          a ≠ [star] ∧ (a.length = 0 ∨ c.flags.length + c.width.length + 1 + a.length ≤ 62) :=
        (em (a = [star])).imp (fun h => ⟨h, two h⟩) fun h => ⟨h, digits h⟩
      exact room_iff f62 width prec
  · have inside : c.flags.length + c.width.length + (precText c.prec).length ≤ (l ++ 0 :: r).length := by omega
    simp only [Scan.length_upto inside]
    omega

/-- A format that breaks off inside a conversion is read past its end, if the conversion is not too long. -/
theorem Parts.overread {l l₁ l₂ l₃ l₄ r : List UInt8} {c : Conversion} (h : Parts l c l₁ l₂ l₃ l₄) (solid : 0 ∉ l)
    (broken : c.conv = none) (short : c.chars.length ≤ 61) :
    c.chars.length < (parseSpec (l ++ 0 :: r)).scan.used := by
  have len := c.chars_length
  have none : l₄ = [] := List.head?_eq_none_iff.1 (h.conv_eq ▸ broken)
  have total := congrArg List.length h.text
  rw [none, List.append_nil] at total
  by_cases all : c.flags.length = c.chars.length
  · have l₁_nil : l₁ = [] := by
      have long := congrArg List.length h.flags
      rw [List.length_append] at long
      exact List.eq_nil_of_length_eq_zero (by omega)
    have split : l ++ 0 :: r = (c.flags ++ [0]) ++ r := by
      conv_lhs => rw [h.flags, l₁_nil]
      simp
    have hits (x : UInt8) (mem : x ∈ c.flags ++ [0]) : strchr flagChars x = true := by
      rcases List.mem_append.1 mem with flag | nul
      · simp only [strchr, h.isFlag x flag, Bool.or_true]
      · rw [List.mem_singleton.1 nul]
        rfl
    have past := scanLoop_used (s := ⟨[percent], l ++ 0 :: r, 0⟩) split hits rfl (show 62 - 0 < specSize by decide)
    rw [List.length_append, List.length_singleton] at past
    refine lt_of_lt_of_le ?_ (past.trans (parseSpec_used _))
    omega
  · have e₁ := h.flags_upto (r := r) solid (.inl (by omega))
    have e₂ := h.width_upto (r := r)
    rw [amountEnd_fits (.inr (.inr (by omega)))] at e₂
    have e₃ := h.prec_fits (r := r) fun a eq => by
      rw [eq, precText, List.length_cons] at len
      omega
    rw [Nat.min_eq_right (by omega)] at e₁
    rw [parseSpec_of e₁ e₂ e₃ Prod.mk.eta.symm]
    have split : (l ++ 0 :: r).drop (c.flags.length + c.width.length + (precText c.prec).length) =
        (c.mods ++ [0]) ++ r := by
      rw [h.behind_prec, none]
      simp
    have hits (x : UInt8) (mem : x ∈ c.mods ++ [0]) : strchr modChars x = true := by
      rcases List.mem_append.1 mem with mod | nul
      · simp only [strchr, h.isMod x mod, Bool.or_true]
      · rw [List.mem_singleton.1 nul]
        rfl
    have enough : 62 - (c.flags.length + c.width.length + (precText c.prec).length) < specSize := by
      unfold specSize
      omega
    have past := modLoop_used (m := noMods)
      (s := Scan.upto (l ++ 0 :: r) (c.flags.length + c.width.length + (precText c.prec).length)) split hits
      (Scan.length_upto (by simp only [List.length_append]; omega)) enough
    rw [List.length_append, List.length_singleton] at past
    refine lt_of_lt_of_le ?_ past
    simp only [Scan.upto]
    omega

/-! ## The arguments -/

theorem vaAlign_two_pow (off k : ℕ) : vaAlign off (2 ^ k) = u32 (off + 2 ^ k - 1) / 2 ^ k * 2 ^ k := bclr_two_pow _ k

theorem Slot.word_next (va : ℕ) : Slot.word.next va = u32 (u32 (va + 3) / 4 * 4 + 4) :=
  congrArg (fun n => u32 (n + 4)) (vaAlign_two_pow va 2)

theorem Slot.quad_next (va : ℕ) : Slot.quad.next va = u32 (u32 (va + 7) / 8 * 8 + 8) :=
  congrArg (fun n => u32 (n + 8)) (vaAlign_two_pow va 3)

theorem Slot.wide_next (va : ℕ) : Slot.wide.next va = u32 (u32 (va + 15) / 16 * 16 + 16) :=
  congrArg (fun n => u32 (n + 16)) (vaAlign_two_pow va 4)

/-- From the same place, two slots lead to two places. -/
theorem Slot.next_inj {slot slot' : Slot} {va : ℕ} (eq : slot.next va = slot'.next va) :
    slot = slot' := by
  have empty : Slot.empty.next va = va := rfl
  cases slot <;> cases slot' <;> try rfl
  all_goals
    simp only [Slot.word_next, Slot.quad_next, Slot.wide_next, empty, u32] at eq
    omega

/-- The slot that the code fetches for the value. -/
def codeSlot (m : Mods) (conv : UInt8) : Slot :=
  if intConvs.contains conv then if m.isLl || m.isJ then .quad else .word
  else if conv = 112 ∨ conv = 99 ∨ conv = 115 then .word
  else if floatConvs.contains conv then .quad
  else .empty

/-- How many `*`s the scan found. -/
def Spec.stars (p : Spec) : ℕ := p.widthStar.toNat + p.precStar.toNat

theorem Guest.starArg_next (g : Guest) (has : Bool) (va : ℕ) :
    (g.starArg has va).2 = Slot.word.next^[has.toNat] va ∧ (g.starArg has va).1.length = has.toNat := by
  cases has <;> exact ⟨rfl, rfl⟩

theorem Guest.convert_next (g : Guest) (p : Spec) (va : ℕ) :
    (g.convert p va).2 = (codeSlot p.mods p.conv).next (Slot.word.next^[p.stars] va) := by
  have stars : (g.starArg p.precStar (g.starArg p.widthStar va).2).2 = Slot.word.next^[p.stars] va := by
    rw [(g.starArg_next _ _).1, (g.starArg_next _ _).1, ← Function.iterate_add_apply, Spec.stars, Nat.add_comm]
  rw [← stars]
  simp only [convert, codeSlot]
  split_ifs <;> first | rfl | simp_all

/-- The host's call names as many arguments as it gets, but for a `%c` with a `*`. -/
theorem Guest.convert_args (g : Guest) {p : Spec} (va : ℕ) {made : Made} (eq : (g.convert p va).1 = made)
    (named : p.conv ≠ star → namedArgs (p.rebuilt.takeWhile (· ≠ 0)) = p.stars + 1) :
    (∀ call, made = .host call → call.args.length = namedArgs call.spec) ↔ ¬ (p.conv = 99 ∧ p.stars ≠ 0) := by
  have stars : ((g.starArg p.widthStar va).1 ++ (g.starArg p.precStar (g.starArg p.widthStar va).2).1).length =
      p.stars := by
    rw [List.length_append, (g.starArg_next _ _).2, (g.starArg_next _ _).2, Spec.stars]
  have whole (v : HostArg) :
      ((g.starArg p.widthStar va).1 ++ (g.starArg p.precStar (g.starArg p.widthStar va).2).1 ++ [v]).length =
        p.stars + 1 := by
    rw [List.length_append, stars, List.length_singleton]
  have other {set : List UInt8} (mem : set.contains p.conv = true) (c : UInt8) (free : set.contains c = false) :
      p.conv ≠ c := by
    rintro rfl
    rw [mem] at free
    exact absurd free (by decide)
  subst eq
  simp only [convert]
  split_ifs with int ll ptr chr str dbl pct n
  · -- an integer of 8 bytes
    simp only [Made.host.injEq, forall_eq', other int 99 rfl, false_and, not_false_eq_true, iff_true]
    rw [whole, named (other int star rfl)]
  · -- an integer of 4 bytes
    simp only [Made.host.injEq, forall_eq', other int 99 rfl, false_and, not_false_eq_true, iff_true]
    rw [whole, named (other int star rfl)]
  · simp [ptr, namedArgs, star]
  · rw [chr] at named
    simp only [Made.host.injEq, forall_eq', chr, true_and, not_not, named (by decide), List.length_singleton]
    omega
  · rw [str] at named
    simp only [Made.host.injEq, forall_eq', str, whole, named (by decide)]
    simp
  · -- a double
    simp only [Made.host.injEq, forall_eq', other dbl 99 rfl, false_and, not_false_eq_true, iff_true]
    rw [whole, named (other dbl star rfl)]
  · simp [chr]
  · simp [chr]
  · simp [chr, namedArgs, star]

/-- The conversion characters with a slot. -/
def knownConvs : List UInt8 := intConvs ++ floatConvs ++ [99, 115, 112, 67, 83, 110, percent]

/-- The modifiers with a slot. -/
def knownMods : List (List UInt8) := wordMods ++ quadMods ++ [[76]]

theorem argSlot_mem {mods : List UInt8} {conv : UInt8} {slot : Slot} (h : argSlot mods conv = some slot) :
    conv ∈ knownConvs ∧ mods ∈ knownMods := by
  unfold argSlot at h
  simp only [List.contains_iff_mem] at h
  split_ifs at h <;> simp_all [knownConvs, knownMods, wordMods] <;> tauto

instance (mods : List UInt8) (conv : UInt8) : Decidable (Misread mods conv) :=
  inferInstanceAs (Decidable (_ ∨ _ ∨ _ ∨ _))

/-- The code's slot is the right one, but for the conversions that it misreads. -/
theorem argSlot_code {mods : List UInt8} {conv : UInt8} {slot : Slot} (h : argSlot mods conv = some slot) :
    codeSlot (modsOf mods noMods) conv = slot ↔ ¬ Misread mods conv := by
  have all : ∀ conv ∈ knownConvs, ∀ mods ∈ knownMods, ∀ slot ∈ argSlot mods conv,
      codeSlot (modsOf mods noMods) conv = slot ↔ ¬ Misread mods conv := by decide +kernel
  have known := argSlot_mem h
  exact all conv known.1 mods known.2 slot h

theorem misread_slot {mods : List UInt8} {conv : UInt8} (h : Misread mods conv) :
    ∃ slot, argSlot mods conv = some slot := by
  rcases h with ⟨int, rfl⟩ | ⟨dbl, rfl⟩ | ⟨rfl, mem⟩ | ⟨rfl | rfl, rfl⟩
  · simp only [intConvs, List.mem_cons, List.not_mem_nil, or_false] at int
    rcases int with rfl | rfl | rfl | rfl | rfl | rfl <;> exact ⟨_, rfl⟩
  · simp only [floatConvs, List.mem_cons, List.not_mem_nil, or_false] at dbl
    rcases dbl with rfl | rfl | rfl | rfl | rfl | rfl | rfl | rfl <;> exact ⟨_, rfl⟩
  · exact ⟨.word, by rw [argSlot]; simp [intConvs, floatConvs, mem]⟩
  · exact ⟨.word, rfl⟩
  · exact ⟨.word, rfl⟩

/-! ## One conversion -/

theorem amount_star (l : List UInt8) : (amount l).count star = (decide (amount l = [star])).toNat := by
  by_cases h : amount l = [star]
  · rw [decide_eq_true h, h]
    rfl
  · rw [decide_eq_false h]
    exact List.count_eq_zero.2 fun mem => absurd (amount_digit h mem) (by decide)

theorem amount_plain (l : List UInt8) : percent ∉ amount l := by
  intro mem
  by_cases h : amount l = [star]
  · rw [h] at mem
    exact absurd mem (by decide)
  · exact absurd (amount_digit h mem) (by decide)

namespace Parts

variable {l l₁ l₂ l₃ l₄ r : List UInt8} {c : Conversion} (h : Parts l c l₁ l₂ l₃ l₄)
include h

theorem prec_count : (precText c.prec).count star = (decide (c.prec = some [star])).toNat := by
  rw [h.prec_eq, readPrec]
  split_ifs
  · rw [precText, List.count_cons_of_ne (by decide), amount_star]
    simp
  · rfl

theorem stars_eq : c.stars = (decide (c.width = [star])).toNat + (decide (c.prec = some [star])).toNat := by
  rw [Conversion.stars, h.prec_count, h.width_eq, amount_star]

theorem chars_count : c.chars.count star = c.stars := by
  have flags : c.flags.count star = 0 := List.count_eq_zero.2 fun mem => absurd (h.isFlag _ mem) (by decide)
  have mods : c.mods.count star = 0 := List.count_eq_zero.2 fun mem => absurd (h.isMod _ mem) (by decide)
  simp only [Conversion.chars, List.count_append, flags, mods, Conversion.stars]
  omega

theorem chars_plain : percent ∉ c.chars := by
  intro mem
  simp only [Conversion.chars, List.mem_append] at mem
  rcases mem with ((flag | width) | prec) | mod
  · exact absurd (h.isFlag _ flag) (by decide)
  · exact amount_plain _ (h.width_eq ▸ width)
  · rw [h.prec_eq, readPrec] at prec
    split_ifs at prec
    · rw [precText, List.mem_cons] at prec
      exact amount_plain _ (prec.resolve_left (by decide))
    · cases prec
  · exact absurd (h.isMod _ mod) (by decide)

end Parts

/-- The scan of a short and complete conversion. -/
structure Taken (c : Conversion) (conv : UInt8) (p : Spec) : Prop where
  used : p.scan.used = c.chars.length
  spec : p.scan.spec = percent :: c.chars
  conv_eq : p.conv = conv
  goes : p.givenUp = false
  stars : p.stars = c.stars
  mods : p.mods = modsOf c.mods noMods
  modStart : p.modStart + c.mods.length = c.chars.length + 1

theorem Parts.taken {l l₁ l₂ l₃ l₄ r : List UInt8} {c : Conversion} {conv : UInt8} (h : Parts l c l₁ l₂ l₃ l₄)
    (solid : 0 ∉ l) (complete : c.conv = some conv) (short : c.chars.length ≤ 60) :
    Taken c conv (parseSpec (l ++ 0 :: r)) := by
  obtain ⟨u, parsed⟩ := h.parsed (r := r) solid (.inl (by rw [complete]; simp))
  have all : u = c.chars.length := by
    have := parsed.le
    have := parsed.whole
    omega
  obtain ⟨w, p, start, mods⟩ := parsed.found short
  have scan := all ▸ parsed.scan
  obtain ⟨tail, rfl⟩ : ∃ tail, l₄ = conv :: tail := by
    rw [h.conv_eq] at complete
    exact List.head?_eq_some_iff.1 complete
  have text : l ++ 0 :: r = c.chars ++ (conv :: tail ++ 0 :: r) := by
    conv_lhs => rw [h.text]
    rw [List.append_assoc]
  have conv_eq : (parseSpec (l ++ 0 :: r)).conv = conv := by
    rw [Spec.conv, scan, Scan.upto, text, List.drop_left]
    rfl
  refine ⟨by rw [scan]; rfl, by rw [scan, Scan.upto, text, List.take_left], conv_eq, ?_, ?_, mods, start⟩
  · have solid' : conv ≠ 0 := by
      rintro rfl
      exact solid (by rw [h.text]; simp)
    rw [Spec.givenUp, conv_eq, scan, Scan.length_upto (by rw [text, List.length_append]; omega)]
    simp [specSize, solid']
    omega
  · rw [Spec.stars, w, p, h.stars_eq]

/-- The spec for the host names as many arguments as the conversion. -/
theorem Taken.named {l l₁ l₂ l₃ l₄ : List UInt8} {c : Conversion} {conv : UInt8} {p : Spec} (t : Taken c conv p)
    (h : Parts l c l₁ l₂ l₃ l₄) (solid : 0 ∉ l) (complete : c.conv = some conv) (noStar : p.conv ≠ star) :
    namedArgs (p.rebuilt.takeWhile (· ≠ 0)) = p.stars + 1 := by
  have pre_len := c.chars_length
  have cut : percent :: c.chars = (percent :: (c.flags ++ c.width ++ precText c.prec)) ++ c.mods := rfl
  have start : (percent :: (c.flags ++ c.width ++ precText c.prec)).length = p.modStart := by
    have := t.modStart
    simp only [List.length_cons, List.length_append]
    omega
  have mods : (c.mods ++ [p.conv]).count star = 0 := by
    rw [List.count_eq_zero, List.mem_append, List.mem_singleton, not_or]
    exact ⟨fun mem => absurd (h.isMod _ mem) (by decide), noStar.symm⟩
  have whole : (p.scan.spec ++ [p.conv]).count star = p.stars := by
    rw [t.spec, List.cons_append, List.count_cons_of_ne (by decide), List.count_append, h.chars_count, t.stars,
      List.count_singleton, if_neg (by simpa using noStar), Nat.add_zero]
  have spec : p.scan.spec ++ [p.conv] =
      (percent :: (c.flags ++ c.width ++ precText c.prec)) ++ (c.mods ++ [p.conv]) := by
    rw [t.spec, cut, List.append_assoc]
  have rebuilt : p.rebuilt.count star = p.stars ∧ p.rebuilt ⊆ p.scan.spec ++ [p.conv] := by
    unfold Spec.rebuilt
    simp only
    split_ifs
    · refine ⟨?_, List.eraseIdx_subset⟩
      rw [spec, List.eraseIdx_append_of_length_le start.le, List.count_append]
      rw [spec, List.count_append, mods] at whole
      have none : ((c.mods ++ [p.conv]).eraseIdx (p.modStart -
          (percent :: (c.flags ++ c.width ++ precText c.prec)).length)).count star ≤ 0 :=
        mods ▸ (List.eraseIdx_sublist _ _).count_le star
      omega
    · exact ⟨whole, fun _ mem => mem⟩
  have nonzero : ∀ x ∈ p.rebuilt, decide (x ≠ 0) = true := by
    intro x mem
    have byte := rebuilt.2 mem
    rw [decide_eq_true_eq]
    rintro rfl
    rw [t.spec, t.conv_eq, List.cons_append, List.mem_cons, List.mem_append, List.mem_singleton] at byte
    apply solid
    rw [h.text, List.mem_append]
    refine (byte.resolve_left (by decide)).imp_right fun nul => ?_
    rw [nul]
    exact List.mem_of_mem_head? (h.conv_eq ▸ complete)
  rw [List.takeWhile_eq_self_iff.2 nonzero, namedArgs, rebuilt.1]

theorem Guest.formatOne_taken {c : Conversion} {conv : UInt8} {rest : List UInt8} (g : Guest)
    (t : Taken c conv (parseSpec rest)) (pos va : ℕ) :
    g.formatOne rest pos va =
      (⟨pos, pos + 1 + c.chars.length, c.chars.length + 3, some (conv, (g.convert (parseSpec rest) va).1), va,
        (g.convert (parseSpec rest) va).2⟩, c.chars.length + 1) := by
  have size : (parseSpec rest).scan.spec.length = c.chars.length + 1 := by rw [t.spec, List.length_cons]
  simp only [formatOne, t.goes, t.conv_eq, t.used, size]
  rfl

theorem Guest.formatOne_givenUp {rest : List UInt8} (g : Guest) (h : (parseSpec rest).givenUp = true) (pos va : ℕ) :
    g.formatOne rest pos va = (⟨pos, pos + 1 + (parseSpec rest).scan.used, (parseSpec rest).scan.spec.length, none, va,
      va⟩, (parseSpec rest).scan.used) := by
  simp only [formatOne, h, if_true]

/-- What `WalkMet` says of one conversion. -/
structure HeadMet (stop : ℕ) (e : ConvEvent) (at_ : ℕ) (c : Conversion) : Prop where
  reads : e.stop ≤ stop
  stores : e.stores ≤ specSize
  start : e.start = at_
  follows : ∀ conv, c.conv = some conv → Follows e at_ c conv
  calls : ∀ conv call, e.made = some (conv, .host call) → call.args.length = namedArgs call.spec

theorem walkMet_cons {stop at_ : ℕ} {e : ConvEvent} {es : List ConvEvent} {c : Conversion}
    {cs : List (ℕ × Conversion)} :
    WalkMet stop (e :: es) ((at_, c) :: cs) ↔ HeadMet stop e at_ c ∧ WalkMet stop es cs := by
  constructor
  · rintro ⟨reads, stores, follows, calls⟩
    rw [List.forall₂_cons] at follows
    simp only [List.forall_mem_cons] at reads stores calls
    exact ⟨⟨reads.1, stores.1, follows.1.1, follows.1.2, calls.1⟩, ⟨reads.2, stores.2, follows.2, calls.2⟩⟩
  · rintro ⟨⟨reads, stores, start, follows, calls⟩, rest⟩
    exact ⟨List.forall_mem_cons.2 ⟨reads, rest.reads⟩, List.forall_mem_cons.2 ⟨stores, rest.stores⟩,
      List.forall₂_cons.2 ⟨⟨start, follows⟩, rest.follows⟩, List.forall_mem_cons.2 ⟨calls, rest.calls⟩⟩

/-- A short and complete conversion. -/
theorem headMet_taken {l l₁ l₂ l₃ l₄ r : List UInt8} {c : Conversion} {conv : UInt8} (g : Guest)
    (h : Parts l c l₁ l₂ l₃ l₄) (solid : 0 ∉ l) (complete : c.conv = some conv) (short : c.chars.length ≤ 60)
    {pos stop : ℕ} (va : ℕ) (inside : pos + 1 + c.chars.length ≤ stop) :
    HeadMet stop (g.formatOne (l ++ 0 :: r) pos va).1 pos c ↔ c.Good := by
  have t := h.taken (r := r) solid complete short
  have args := g.convert_args va rfl (t.named h solid complete)
  have next := g.convert_next (parseSpec (l ++ 0 :: r)) va
  rw [g.formatOne_taken t]
  rw [t.conv_eq, t.stars] at args
  rw [t.conv_eq, t.stars, t.mods] at next
  generalize g.convert (parseSpec (l ++ 0 :: r)) va = out at args next ⊢
  simp only [Conversion.Good, complete, short, true_and]
  rw [← args]
  constructor
  · intro met
    refine ⟨fun misread => ?_, fun call eq => met.calls conv call (by rw [← eq])⟩
    obtain ⟨slot, some_⟩ := misread_slot misread
    have same := (met.follows conv complete).args slot some_
    exact (argSlot_code some_).1 (Slot.next_inj (next.symm.trans same)) misread
  · rintro ⟨noMisread, calls⟩
    refine ⟨inside, by simp only [specSize]; omega, rfl, fun conv' eq => ?_, fun conv' call eq => ?_⟩
    · obtain rfl : conv = conv' := Option.some.inj (complete.symm.trans eq)
      refine ⟨rfl, ⟨_, rfl⟩, fun slot some_ => ?_⟩
      rw [next, (argSlot_code some_).2 noMisread]
    · exact calls call (Prod.mk.inj (Option.some.inj eq)).2

theorem Guest.formatOne_stop (g : Guest) (rest : List UInt8) (pos va : ℕ) :
    (g.formatOne rest pos va).1.stop = pos + 1 + (parseSpec rest).scan.used := by
  simp only [formatOne]
  split_ifs <;> rfl

/-- A conversion that the scan gives up. -/
structure Dropped (c : Conversion) (p : Spec) : Prop where
  givenUp : p.givenUp = true
  used : p.scan.used ≤ c.chars.length
  stores : p.scan.spec.length ≤ specSize ↔ ¬ c.Overflows

theorem Parts.dropped {l l₁ l₂ l₃ l₄ r : List UInt8} {c : Conversion} (h : Parts l c l₁ l₂ l₃ l₄) (solid : 0 ∉ l)
    (long : 61 ≤ c.chars.length) (broken : c.conv = none → 62 ≤ c.chars.length) :
    Dropped c (parseSpec (l ++ 0 :: r)) := by
  have ends : c.conv ≠ none ∨ 62 ≤ c.chars.length := by
    by_cases none : c.conv = none
    · exact .inr (broken none)
    · exact .inl none
  obtain ⟨u, p⟩ := h.parsed (r := r) solid ends
  have total := congrArg List.length h.text
  rw [List.length_append] at total
  have le := p.le
  have whole := p.whole
  have size : (parseSpec (l ++ 0 :: r)).scan.spec.length = u + 1 := by
    rw [p.scan, Scan.length_upto (by rw [List.length_append]; omega)]
  refine ⟨?_, ?_, ?_⟩
  · rw [Spec.givenUp, size]
    simp [specSize]
    omega
  · rw [p.scan]
    exact le
  · rw [size, ← p.room]
    exact Nat.lt_succ_iff

/-- A conversion that the format breaks off. -/
theorem headMet_broken {l l₁ l₂ l₃ l₄ r : List UInt8} {c : Conversion} (g : Guest) (h : Parts l c l₁ l₂ l₃ l₄)
    (solid : 0 ∉ l) (broken : c.conv = none) (pos va : ℕ) :
    HeadMet (pos + 1 + c.chars.length) (g.formatOne (l ++ 0 :: r) pos va).1 pos c ↔ c.Good := by
  simp only [Conversion.Good, broken]
  by_cases long : 62 ≤ c.chars.length
  · have d := h.dropped (r := r) solid (by omega) fun _ => long
    rw [g.formatOne_givenUp d.givenUp]
    generalize parseSpec (l ++ 0 :: r) = p at d ⊢
    rw [← d.stores]
    constructor
    · exact fun met => ⟨long, met.stores⟩
    · rintro ⟨-, room⟩
      refine ⟨Nat.add_le_add_left d.used _, room, rfl, fun conv eq => ?_, fun conv call eq => ?_⟩
      · rw [broken] at eq
        cases eq
      · cases eq
  · have past := h.overread (r := r) solid broken (by omega)
    refine ⟨fun met => ?_, fun good => absurd good.1 long⟩
    have reads := met.reads
    rw [g.formatOne_stop] at reads
    omega

/-- A complete conversion that is too long is given up. -/
theorem not_headMet_long {l l₁ l₂ l₃ l₄ r : List UInt8} {c : Conversion} {conv : UInt8} {stop : ℕ} (g : Guest)
    (h : Parts l c l₁ l₂ l₃ l₄) (solid : 0 ∉ l) (complete : c.conv = some conv) (long : 60 < c.chars.length)
    (pos va : ℕ) : ¬ HeadMet stop (g.formatOne (l ++ 0 :: r) pos va).1 pos c := by
  intro met
  have d := h.dropped (r := r) solid long fun none => by rw [complete] at none; cases none
  obtain ⟨made, eq⟩ := (met.follows conv complete).taken
  rw [g.formatOne_givenUp d.givenUp] at eq
  cases eq

/-! ## The walk -/

theorem Guest.walk_nul (g : Guest) (r : List UInt8) (pos va : ℕ) : g.walk (0 :: r) 0 pos va = [] := by
  rw [walk, if_pos rfl]

theorem Guest.walk_lit (g : Guest) {c : UInt8} (solid : 0 ≠ c) (plain : c ≠ percent) (text : List UInt8) (pos va : ℕ) :
    g.walk (c :: text) 0 pos va = .lit c :: g.walk text 0 (pos + 1) va := by
  rw [walk, if_neg solid.symm, if_pos plain]

theorem Guest.walk_percent (g : Guest) (text : List UInt8) (pos va : ℕ) :
    g.walk (percent :: text) 0 pos va = .conv (g.formatOne text pos va).1 ::
      g.walk text (g.formatOne text pos va).2 (pos + 1) (g.formatOne text pos va).1.va' := by
  rw [walk, if_neg (by decide), if_neg (by decide)]

theorem events_lit (c : UInt8) (items : List Item) : events (.lit c :: items) = events items := rfl

theorem events_conv (e : ConvEvent) (items : List Item) : events (.conv e :: items) = e :: events items := rfl

theorem Guest.walk_skip (g : Guest) (a b : List UInt8) (pos va : ℕ) :
    g.walk (a ++ b) a.length pos va = g.walk b 0 (pos + a.length) va := by
  induction a generalizing pos with
  | nil => rfl
  | cons c a ih =>
    rw [List.cons_append, List.length_cons, walk, ih]
    congr 1
    omega

theorem conversions_skip (a b : List UInt8) (pos : ℕ) :
    conversions (a ++ b) a.length pos = conversions b 0 (pos + a.length) := by
  induction a generalizing pos with
  | nil => rfl
  | cons c a ih =>
    rw [List.cons_append, List.length_cons, conversions, ih]
    congr 1
    omega

theorem Guest.walk_literal (g : Guest) {l : List UInt8} (plain : percent ∉ l) (solid : 0 ∉ l) (r : List UInt8)
    (pos va : ℕ) : g.walk (l ++ 0 :: r) 0 pos va = l.map .lit := by
  induction l generalizing pos with
  | nil => exact g.walk_nul r pos va
  | cons c l ih =>
    rw [List.mem_cons, not_or] at plain solid
    rw [List.cons_append, g.walk_lit solid.1 (Ne.symm plain.1), ih plain.2 solid.2, List.map_cons]

theorem events_literal (l : List UInt8) : events (l.map .lit) = [] := by
  induction l with
  | nil => rfl
  | cons c l ih => exact ih

/-- Behind its last conversion, which it breaks off, a format has no other. -/
theorem Parts.walk_broken {l l₁ l₂ l₃ l₄ : List UInt8} {c : Conversion} (h : Parts l c l₁ l₂ l₃ l₄) (solid : 0 ∉ l)
    (broken : c.conv = none) (g : Guest) (r : List UInt8) {skip : ℕ} (le : skip ≤ c.chars.length) (pos va : ℕ) :
    events (g.walk (l ++ 0 :: r) skip pos va) = [] := by
  have none : l₄ = [] := List.head?_eq_none_iff.1 (h.conv_eq ▸ broken)
  have text : l = c.chars := by rw [h.text, none, List.append_nil]
  have split : l ++ 0 :: r = l.take skip ++ (l.drop skip ++ 0 :: r) := by
    rw [← List.append_assoc, List.take_append_drop]
  have size : (l.take skip).length = skip := by rw [List.length_take, text, Nat.min_eq_left le]
  have skipped := g.walk_skip (l.take skip) (l.drop skip ++ 0 :: r) pos va
  rw [size] at skipped
  rw [split, skipped]
  rw [g.walk_literal (fun mem => h.chars_plain (text ▸ List.mem_of_mem_drop mem))
    fun mem => solid (List.mem_of_mem_drop mem)]
  exact events_literal _

/-- A text that is one conversion and no more. -/
theorem Parts.conversions_broken {l l₁ l₂ l₃ l₄ : List UInt8} {c : Conversion} (h : Parts l c l₁ l₂ l₃ l₄)
    (broken : c.conv = none) (pos : ℕ) : conversions l c.length pos = [] := by
  have none : l₄ = [] := List.head?_eq_none_iff.1 (h.conv_eq ▸ broken)
  have skipped := conversions_skip c.chars [] pos
  rw [show c.length = c.chars.length by simp [Conversion.length, broken], h.text, none]
  exact skipped

section Taken

variable {l l₁ l₂ l₃ tail : List UInt8} {c : Conversion} {conv : UInt8} (h : Parts l c l₁ l₂ l₃ (conv :: tail))
  (complete : c.conv = some conv)
include h

theorem Parts.walk_taken (g : Guest) (r : List UInt8) (pos va : ℕ) :
    g.walk (l ++ 0 :: r) (c.chars.length + 1) pos va =
      g.walk (tail ++ 0 :: r) 0 (pos + (c.chars.length + 1)) va := by
  have text : l ++ 0 :: r = (c.chars ++ [conv]) ++ (tail ++ 0 :: r) := by
    conv_lhs => rw [h.text]
    simp
  have skipped := g.walk_skip (c.chars ++ [conv]) (tail ++ 0 :: r) pos va
  rw [← text, List.length_append, List.length_singleton] at skipped
  exact skipped

include complete in
theorem Parts.conversions_taken (pos : ℕ) :
    conversions l c.length pos = conversions tail 0 (pos + (c.chars.length + 1)) := by
  have text : l = (c.chars ++ [conv]) ++ tail := by
    conv_lhs => rw [h.text]
    simp
  have skipped := conversions_skip (c.chars ++ [conv]) tail pos
  rw [← text, List.length_append, List.length_singleton] at skipped
  rw [Conversion.length, complete]
  exact skipped

end Taken

/-- The walk over a format does what it should exactly if each conversion is one that it can do. -/
theorem format_walk_met_iff (g : Guest) {f : List UInt8} (solid : 0 ∉ f) (r : List UInt8) (va : ℕ) :
    WalkMet f.length (events (g.walk (f ++ 0 :: r) 0 0 va)) (conversions f 0 0) ↔
      ∀ c ∈ conversions f 0 0, c.2.Good := by
  suffices all : ∀ n pos va, ∀ f : List UInt8, f.length ≤ n → 0 ∉ f →
      (WalkMet (pos + f.length) (events (g.walk (f ++ 0 :: r) 0 pos va)) (conversions f 0 pos) ↔
        ∀ c ∈ conversions f 0 pos, c.2.Good) by
    simpa using all f.length 0 va f le_rfl solid
  have done (stop : ℕ) : WalkMet stop [] [] := ⟨by simp, by simp, .nil, by simp⟩
  have none_ (pos va : ℕ) : WalkMet (pos + ([] : List UInt8).length) (events (g.walk ([] ++ 0 :: r) 0 pos va))
      (conversions [] 0 pos) ↔ ∀ c ∈ conversions [] 0 pos, c.2.Good := by
    rw [List.nil_append, g.walk_nul, conversions]
    exact iff_of_true (done _) (List.forall_mem_nil _)
  intro n
  induction n with
  | zero =>
    intro pos va f size solid
    obtain rfl := List.eq_nil_of_length_eq_zero (Nat.le_zero.1 size)
    exact none_ pos va
  | succ n ih =>
    intro pos va f size solid
    rcases f with _ | ⟨c, f⟩
    · exact none_ pos va
    rw [List.mem_cons, not_or] at solid
    have shift : pos + (c :: f).length = pos + 1 + f.length := by
      rw [List.length_cons]
      omega
    rw [List.length_cons] at size
    rw [List.cons_append, conversions, shift]
    by_cases pct : c = percent
    swap
    · rw [g.walk_lit solid.1 pct, events_lit, if_neg pct]
      exact ih (pos + 1) va f (by omega) solid.2
    obtain ⟨l₁, l₂, l₃, l₄, h⟩ := readConv_parts f
    generalize readConv f = conversion at h ⊢
    have total := congrArg List.length h.text
    rw [List.length_append] at total
    rw [if_pos pct, pct, g.walk_percent, events_conv, List.forall_mem_cons, walkMet_cons]
    cases complete : conversion.conv with
    | none =>
      have none : l₄ = [] := List.head?_eq_none_iff.1 (h.conv_eq ▸ complete)
      rw [none, List.length_nil, Nat.add_zero] at total
      have head := headMet_broken (r := r) g h solid.2 complete pos va
      have skip : conversion.Good → (g.formatOne (f ++ 0 :: r) pos va).2 ≤ conversion.chars.length := by
        intro good
        rw [Conversion.Good, complete] at good
        have d := h.dropped (r := r) solid.2 (by omega) fun _ => good.1
        rw [g.formatOne_givenUp d.givenUp]
        generalize parseSpec (f ++ 0 :: r) = p at d ⊢
        exact d.used
      generalize g.formatOne (f ++ 0 :: r) pos va = out at head skip ⊢
      rw [total, h.conversions_broken complete, head]
      refine and_congr_right fun good => ?_
      rw [h.walk_broken solid.2 complete g r (skip good)]
      exact iff_of_true (done _) (by simp)
    | some conv =>
      by_cases short : conversion.chars.length ≤ 60
      · obtain ⟨tail, rfl⟩ : ∃ tail, l₄ = conv :: tail := by
          rw [h.conv_eq] at complete
          exact List.head?_eq_some_iff.1 complete
        rw [List.length_cons] at total
        have inside : pos + 1 + conversion.chars.length ≤ pos + 1 + f.length := by omega
        have head := headMet_taken (r := r) g h solid.2 complete short va inside
        have skip : (g.formatOne (f ++ 0 :: r) pos va).2 = conversion.chars.length + 1 :=
          congrArg Prod.snd (g.formatOne_taken (h.taken (r := r) solid.2 complete short) pos va)
        generalize g.formatOne (f ++ 0 :: r) pos va = out at head skip ⊢
        rw [head, skip, h.walk_taken, h.conversions_taken complete,
          show pos + 1 + f.length = pos + 1 + (conversion.chars.length + 1) + tail.length by omega]
        exact and_congr_right fun _ => ih _ _ tail (by omega) fun mem => solid.2 (by rw [h.text]; simp [mem])
      · have long : 60 < conversion.chars.length := by omega
        refine iff_of_false (fun met => not_headMet_long g h solid.2 complete long pos va met.1) fun good => ?_
        have short' := good.1
        rw [Conversion.Good, complete] at short'
        exact short short'.1

/-- A format of a number and a newline. -/
theorem format_walk_met_number :
    WalkMet 3 (events (Guest.walk ⟨fun _ => 0, 65536⟩ ([percent, 100, 10] ++ 0 :: []) 0 0 1024))
      (conversions [percent, 100, 10] 0 0) := by
  refine (format_walk_met_iff (f := [percent, 100, 10]) ⟨fun _ => 0, 65536⟩ (by decide) [] 1024).2 fun c mem => ?_
  have only : conversions [percent, 100, 10] 0 0 = [(0, ⟨[], [], none, [], some 100⟩)] := by decide
  rw [only, List.mem_singleton] at mem
  subst mem
  exact ⟨by decide, by decide, by decide⟩

/-- The walk reads behind the end of `100%`. -/
theorem format_read_past_end : ¬ WalkMet 4
    (events (Guest.walk ⟨fun _ => 0, 65536⟩ ([49, 48, 48, percent] ++ 0 :: [65]) 0 0 1024))
    (conversions [49, 48, 48, percent] 0 0) := by
  intro met
  exact absurd met.reads (by decide)

end Printf

end Yos
