import Yos.Lib.Items
import Yos.Lib.Writes
import Yos.Libc.FormatWalk
import Yos.Libc.Strto

/-!
# The scanf family (`impl/libc/scanf.c`)

`do_scan` goes through a format and the input side by side.  A step of it is for one directive of the format, and
C's `sscanf` is given as a scan of the directives (`cScan`).  `fscanf` reads a line of the stream for each call, where
C goes on behind what the last call has read (`cCall`).  `Good` and `Lined` say what a directive and a call need for
the code to do what C does.
-/

namespace Yos

namespace Scanf

open Numeral Bytes
open Printf (Guest front percent isDigitChar)

/-! ## The code -/

/-- A store to the guest's memory. -/
structure Store where
  addr : ℕ
  bytes : List UInt8
deriving DecidableEq, Repr

/-- Where a scan stands: how much of the input it has read, its next argument, its matches and its stores. -/
structure Scan where
  pos : ℕ
  va : ℕ
  nmatches : ℕ
  stores : List Store
deriving DecidableEq, Repr

/-- `in += n` -/
def Scan.read (s : Scan) (n : ℕ) : Scan := { s with pos := s.pos + n }

/-- Some stores more. -/
def Scan.store (s : Scan) (l : List Store) : Scan := { s with stores := s.stores ++ l }

/-- `matches++` -/
def Scan.count (s : Scan) : Scan := { s with nmatches := s.nmatches + 1 }

/-- The guest after some stores. -/
def written (g : Guest) (l : List Store) : Guest :=
  { g with memory := l.foldl (fun m st => writeBytes m st.addr st.bytes) g.memory }

/-- `va_p` -/
def vaP (g : Guest) (s : Scan) : ℕ × Scan :=
  let (p, va) := (written g s.stores).vaI32 s.va
  (p, { s with va := va })

/-- `skip_ws` -/
def skipWs (src : List UInt8) (s : Scan) : Scan := s.read ((src.drop s.pos).takeWhile isSpace).length

/-- The loop over the digits of a width; `none` if the `int` overflows. -/
def widthLoop : (w : ℕ) → (f : List UInt8) → Option (ℕ × List UInt8)
  | w, [] => some (w, [])
  | w, c :: f =>
    if isDigitChar c then
      if w * 10 + (c.toNat - 48) < 2 ^ 31 then widthLoop (w * 10 + (c.toNat - 48)) f else none
    else some (w, c :: f)

/-- The width; `none` for -1. -/
def parseWidth (f : List UInt8) : Option (Option ℕ × List UInt8) :=
  if isDigitChar (front f) then (widthLoop 0 f).map fun (w, f) => (some w, f) else some (none, f)

/-- `length`: 1 for `h`, 2 for `hh`, 3 for `l`, 4 for `ll`, 5 for `j`, `z`, `t` and `L`. -/
def parseLength (f : List UInt8) : ℕ × List UInt8 :=
  if front f = 104 ∧ front f.tail = 104 then (2, f.drop 2)
  else if front f = 104 then (1, f.tail)
  else if front f = 108 ∧ front f.tail = 108 then (4, f.drop 2)
  else if front f = 108 then (3, f.tail)
  else if front f = 106 ∨ front f = 122 ∨ front f = 116 then (5, f.tail)
  else if front f = 76 then (5, f.tail)
  else (0, f)

/-- A conversion up to its character. -/
structure Spec where
  suppress : Bool
  width : Option ℕ
  length : ℕ
  rest : List UInt8

/-- The parser of a conversion, behind the `%`; `none` if the width overflows. -/
def parseSpec (f : List UInt8) : Option Spec :=
  let suppress : Bool := front f == Printf.star
  (parseWidth (if suppress then f.tail else f)).map fun (w, f) =>
    ⟨suppress, w, (parseLength f).1, (parseLength f).2⟩

/-- What an iteration of the loop does to the scan: it goes on, it leaves the loop with `hit_eof`, or the code
has no defined behaviour. -/
inductive Effect where
  | next (s : Scan)
  | stop (hitEof : Bool)
  | undefined
deriving DecidableEq, Repr

/-- `cap` for a number: `sizeof(scratch) - 1`, or the width. -/
def scratchCap : Option ℕ → ℕ
  | none => 63
  | some w => if 0 < w ∧ w < 63 then w else 63

/-- The characters that the loop takes for digits. -/
def scratchDigit (base : ℕ) (c : UInt8) : Bool :=
  (base == 10 || base == 0) && isDigit 10 c || (base == 16 || base == 0) && isDigit 16 c ||
    (base == 8 || base == 0) && isDigit 8 c

/-- `scratch`: a sign, `0x` in the base 16, and digits. -/
def scratchOf (base cap : ℕ) (l : List UInt8) : List UInt8 :=
  let sign := if 0 < cap then l.take (signLength l) else []
  let l := l.drop sign.length
  let mark := if base = 16 ∧ sign.length + 1 < cap ∧ front l = 48 ∧ isHexMark (front l.tail) then l.take 2 else []
  let l := l.drop mark.length
  sign ++ mark ++ (l.take (cap - sign.length - mark.length)).takeWhile (scratchDigit base)

/-- The conversions of integers: `d`, `i`, `u`, `o`, `x`, `X` and `p`. -/
def intConvs : List UInt8 := [100, 105, 117, 111, 120, 88, 112]

/-- `base` -/
def convBase (conv : UInt8) : ℕ :=
  if conv = 105 then 0 else if conv = 111 then 8
  else if conv = 120 ∨ conv = 88 ∨ conv = 112 then 16 else 10

/-- The size of the store for a `length`. -/
def storeSize (length : ℕ) : ℕ :=
  if length = 2 then 1 else if length = 1 then 2 else if length = 4 ∨ length = 5 then 8 else 4

/-- The low bytes of a number. -/
def lowBytes (n : ℕ) (v : ℤ) : List UInt8 := (List.range n).map (leByte v)

/-- A store at `p`, if `p` is not NULL and the bytes are in the guest's memory. -/
def object (g : Guest) (p : ℕ) (bytes : List UInt8) : List Store :=
  if p ≠ 0 ∧ p + bytes.length ≤ g.memorySize then [⟨p, bytes⟩] else []

/-- A store of a character. -/
def storeByte (g : Guest) (p i : ℕ) (c : UInt8) : List Store :=
  if p ≠ 0 ∧ p + i + 1 ≤ g.memorySize then [⟨p + i, [c]⟩] else []

/-- The loops of `%s`, `%c` and `%[`, which store the characters that pass a test, `cap` of them at most. -/
def runLoop (g : Guest) (p : ℕ) (ok : UInt8 → Bool) (cap : Option ℕ) :
    (l : List UInt8) → (i : ℕ) → List Store × ℕ
  | [], i => ([], i)
  | c :: l, i =>
    if ok c && cap.all (i < ·) then
      let (stores, n) := runLoop g p ok cap l (i + 1)
      (storeByte g p i c ++ stores, n)
    else ([], i)

/-- `cap` for `%s` and `%[`; `none` for `SIZE_MAX`. -/
def fieldCap (width : Option ℕ) : Option ℕ := width.filter (0 < ·)

/-- `a` and `b` in order, with what is between them. -/
def inRange (a b c : UInt8) : Bool := if b < a then b ≤ c && c ≤ a else a ≤ c && c ≤ b

/-- The loop over a scanset. -/
def setLoop : (fuel : ℕ) → (accept : UInt8 → Bool) → (f : List UInt8) → (UInt8 → Bool) × List UInt8
  | 0, accept, f => (accept, f)
  | fuel + 1, accept, f =>
    if front f = 0 ∨ front f = 93 then (accept, f)
    else if front f.tail = 45 ∧ front (f.drop 2) ≠ 0 ∧ front (f.drop 2) ≠ 93 then
      setLoop fuel (fun c => accept c || inRange (front f) (front (f.drop 2)) c) (f.drop 3)
    else setLoop fuel (fun c => accept c || c == front f) f.tail

/-- The parser of a scanset: which characters are in it, and the format behind it. -/
def parseSet (f : List UInt8) : (UInt8 → Bool) × List UInt8 :=
  let negate : Bool := front f == 94
  let f := if negate then f.tail else f
  let close : Bool := front f == 93
  let f := if close then f.tail else f
  let (accept, f) := setLoop f.length (fun c => close && c == 93) f
  (fun c => accept c != negate, if front f = 93 then f.tail else f)

/-- The host's `strtod`: how much it reads, and the bytes of the number as a `double` and as a `float`. -/
structure HostStrtod where
  length : List UInt8 → ℕ
  double : List UInt8 → List UInt8
  float : List UInt8 → List UInt8

section Conversions

variable (g : Guest) (src : List UInt8) (suppress : Bool) (width : Option ℕ)

/-- `uint32_t p = 0; if (!suppress) p = va_p(ctx, &va_off);` -/
def destination (s : Scan) : ℕ × Scan := if suppress then (0, s) else vaP g s

/-- `in` goes on, and a match is counted if it is for an argument. -/
def taken (s : Scan) (i : ℕ) : Scan := if suppress then s.read i else (s.read i).count

/-- `%n` -/
def scanCount (s : Scan) : Effect :=
  if suppress then .next s
  else
    let (p, s) := vaP g s
    .next (s.store (object g p (lowBytes 4 s.pos)))

/-- The conversions of integers. -/
def scanInt (length : ℕ) (conv : UInt8) (s : Scan) : Effect :=
  let s := skipWs src s
  if src.drop s.pos = [] then .stop (s.nmatches == 0)
  else
    let base := convBase conv
    let scratch := scratchOf base (scratchCap width) (src.drop s.pos)
    let s := s.read scratch.length
    let n := parse base scratch
    if scratch = [] then .stop false
    else if n.length = 0 then .stop false
    else if suppress then .next s
    else
      let v := if conv = 100 ∨ conv = 105 then (cStrtol 64 n).value else (cStrtoul 64 n).value
      let (p, s) := vaP g s
      .next (s.store (if p ≠ 0 ∧ p < g.memorySize then object g p (lowBytes (storeSize length) v) else [])).count

/-- `%s` -/
def scanWord (s : Scan) : Effect :=
  let s := skipWs src s
  if src.drop s.pos = [] then .stop (s.nmatches == 0)
  else
    let (p, s) := destination g suppress s
    let (stores, i) := runLoop g p (fun c => !isSpace c) (fieldCap width) (src.drop s.pos) 0
    .next (taken suppress (s.store (stores ++ storeByte g p i 0)) i)

/-- `%c` -/
def scanChars (s : Scan) : Effect :=
  if src.drop s.pos = [] then .stop (s.nmatches == 0)
  else
    let n := (fieldCap width).getD 1
    let (p, s) := destination g suppress s
    let (stores, i) := runLoop g p (fun _ => true) (some n) (src.drop s.pos) 0
    .next (taken suppress (s.store stores) i)

/-- `%[`, with the characters of the scanset. -/
def scanSet (accept : UInt8 → Bool) (s : Scan) : Effect :=
  if src.drop s.pos = [] then .stop (s.nmatches == 0)
  else
    let (p, s) := destination g suppress s
    let (stores, i) := runLoop g p accept (fieldCap width) (src.drop s.pos) 0
    if i = 0 then .stop false
    else .next (taken suppress (s.store (stores ++ storeByte g p i 0)) i)

/-- The conversions of floating-point numbers. -/
def scanFloat (strtod : HostStrtod) (length : ℕ) (s : Scan) : Effect :=
  let s := skipWs src s
  let l := src.drop s.pos
  if l = [] then .stop (s.nmatches == 0)
  else if strtod.length l = 0 then .stop false
  else if suppress then .next (s.read (strtod.length l))
  else
    let bytes := if 3 ≤ length then strtod.double l else strtod.float l
    let (p, s) := vaP g s
    .next ((s.store (if p ≠ 0 ∧ p < g.memorySize then object g p bytes else [])).count.read (strtod.length l))

end Conversions

/-- The conversions of floating-point numbers: `f`, `e`, `g`, `a`, `E`, `G` and `A`. -/
def floatConvs : List UInt8 := [102, 101, 103, 97, 69, 71, 65]

section Scanning

variable (strtod : HostStrtod) (g : Guest) (src : List UInt8)

/-- A conversion, and the format behind it. -/
def convert (p : Spec) (s : Scan) : Effect × List UInt8 :=
  let conv := front p.rest
  let f := p.rest.tail
  if conv = 0 then (.stop false, f)
  else if conv = percent then (if front (src.drop s.pos) = percent then .next (s.read 1) else .stop false, f)
  else if conv = 110 then (scanCount g p.suppress s, f)
  else if intConvs.contains conv then (scanInt g src p.suppress p.width p.length conv s, f)
  else if conv = 115 then (scanWord g src p.suppress p.width s, f)
  else if conv = 99 then (scanChars g src p.suppress p.width s, f)
  else if conv = 91 then (scanSet g src p.suppress p.width (parseSet f).1 s, (parseSet f).2)
  else if floatConvs.contains conv then (scanFloat g src p.suppress strtod p.length s, f)
  else (.stop false, f)

/-- An iteration of the loop of `do_scan`, and the format behind it. -/
def scanStep (f : List UInt8) (s : Scan) : Effect × List UInt8 :=
  if isSpace (front f) then (.next (skipWs src s), f.tail)
  else if front f ≠ percent then
    (if src.drop s.pos = [] then .stop true
      else if front (src.drop s.pos) ≠ front f then .stop false else .next (s.read 1), f.tail)
  else
    match parseSpec f.tail with
    | none => (.undefined, [])
    | some p => convert strtod g src p s

/-- A scan: where it stood after each directive, and what it returned; `none` if it has no defined behaviour. -/
structure Run where
  states : List Scan
  ret : Option ℤ
deriving DecidableEq, Repr

/-- A directive before a scan. -/
def Run.after (s : Scan) (r : Run) : Run := ⟨s :: r.states, r.ret⟩

/-- The loop of `do_scan`. -/
def scanLoop : (fuel : ℕ) → (f : List UInt8) → Scan → Run
  | 0, _, s => ⟨[], some s.nmatches⟩
  | fuel + 1, f, s =>
    if f = [] then ⟨[], some s.nmatches⟩
    else
      match scanStep strtod g src f s with
      | (.next s', f') => (scanLoop fuel f' s').after s'
      | (.stop hitEof, _) => ⟨[], some (if s.nmatches = 0 ∧ hitEof then -1 else s.nmatches)⟩
      | (.undefined, _) => ⟨[], none⟩

/-- `do_scan`.  The strings are read as they are at the call: C has no object overlap them. -/
def doScan (fmt : List UInt8) (va : ℕ) : Run := scanLoop strtod g src fmt.length fmt ⟨0, va, 0, []⟩

end Scanning

section Calls

variable (strtod : HostStrtod) (g : Guest)

/-- `yos_sscanf` -/
def yosSscanf (src fmt va : ℕ) : Run :=
  match wstrCheck g.memory g.memorySize src, wstrCheck g.memory g.memorySize fmt with
  | some src, some fmt => doScan strtod g src fmt va
  | _, _ => ⟨[], some (-1)⟩

/-- The host's `fgets` for a buffer of `room + 1` bytes: what it reads of a stream. -/
def fgets : (room : ℕ) → (stream : List UInt8) → List UInt8
  | 0, _ => []
  | _, [] => []
  | room + 1, c :: stream => if c = 10 then [c] else c :: fgets room stream

/-- `sizeof(buf)` in `yos_fscanf` and `yos_scanf`. -/
def lineSize : ℕ := 4096

/-- `yos_fscanf` of the stream that the handle stands for, if it does for one, and `yos_scanf` of the standard
input: the scan, and what is left of the stream. -/
def yosFscanf (f : Option (List UInt8)) (fmt va : ℕ) : Run × Option (List UInt8) :=
  match wstrCheck g.memory g.memorySize fmt, f with
  | some fmt, some stream =>
    let line := fgets (lineSize - 1) stream
    if line = [] then (⟨[], some (-1)⟩, some stream)
    else (doScan strtod g (line.takeWhile (· ≠ 0)) fmt va, some (stream.drop line.length))
  | _, _ => (⟨[], some (-1)⟩, f)

end Calls

/-! ## What it should do -/

/-- The length modifiers that C knows for integers. -/
inductive Length where
  | none
  | hh
  | h
  | l
  | ll
  | j
  | z
  | t
deriving DecidableEq, Repr

/-- The characters of a modifier. -/
def Length.chars : Length → List UInt8
  | none => []
  | hh => [104, 104]
  | h => [104]
  | l => [108]
  | ll => [108, 108]
  | j => [106]
  | z => [122]
  | t => [116]

/-- The size of the guest's type. -/
def Length.size : Length → ℕ
  | hh => 1
  | h => 2
  | none | l | z | t => 4
  | ll | j => 8

/-- The conversions of integers that C knows. -/
inductive IntConv where
  | d
  | i
  | u
  | o
  | x
  | X
deriving DecidableEq, Repr

/-- The character of a conversion. -/
def IntConv.char : IntConv → UInt8
  | d => 100
  | i => 105
  | u => 117
  | o => 111
  | x => 120
  | X => 88

/-- The base of a conversion. -/
def IntConv.base : IntConv → ℕ
  | d | u => 10
  | i => 0
  | o => 8
  | x | X => 16

/-- The number that a conversion makes of a numeral: that of `strtoll` or `strtoull`. -/
def IntConv.value (conv : IntConv) (n : Parsed) : ℤ :=
  match conv with
  | d | i => (cStrtol 64 n).value
  | u | o | x | X => (cStrtoul 64 n).value

/-- A digit behind a number. -/
def append (w : ℕ) (d : Fin 10) : ℕ := w * 10 + d.val

/-- The number of decimal digits. -/
def number (digits : List (Fin 10)) : ℕ := digits.foldl append 0

/-- A decimal digit as a character. -/
def digitChar (d : Fin 10) : UInt8 := UInt8.ofNat (48 + d.val)

/-- A field width: the digits of a positive number, or none. -/
structure Width where
  digits : List (Fin 10)
  pos : digits ≠ [] → 0 < number digits
deriving DecidableEq, Repr

/-- The characters of a width. -/
def Width.chars (w : Width) : List UInt8 := w.digits.map digitChar

/-- The number of a width. -/
def Width.value (w : Width) : Option ℕ := if w.digits = [] then none else some (number w.digits)

/-- The characters in the width. -/
def Width.cut (w : Width) (l : List UInt8) : List UInt8 :=
  match w.value with
  | none => l
  | some n => l.take n

/-- A part of a scanset. -/
inductive SetItem where
  | char (c : UInt8)
  | range (a b : UInt8)
deriving DecidableEq, Repr

/-- The characters of a part. -/
def SetItem.chars : SetItem → List UInt8
  | char c => [c]
  | range a b => [a, 45, b]

/-- The characters that a part stands for. -/
def SetItem.has : SetItem → UInt8 → Bool
  | char c, x => x == c
  | range a b, x => a ≤ x && x ≤ b

/-- A part that stands for itself: neither its character nor its ends are a `]`, and none but the last end is
a `-`. -/
def SetItem.Plain : SetItem → Prop
  | char c => c ≠ 0 ∧ c ≠ 93 ∧ c ≠ 45
  | range a b => (a ≠ 0 ∧ a ≠ 93 ∧ a ≠ 45) ∧ (b ≠ 0 ∧ b ≠ 93) ∧ a ≤ b

/-- A scanset: `^` or not, a `]` or a `-` in front or not, parts, and a `-` at the end or not. -/
structure ScanSet where
  negate : Bool
  lead : List UInt8
  items : List SetItem
  dash : Bool
  leads : lead = [] ∨ lead = [93] ∨ lead = [45]
  plain : ∀ item ∈ items, item.Plain
  ne : lead = [] → items = [] → dash = true
  caret : negate = false → lead = [] → front (items.flatMap SetItem.chars) ≠ 94

/-- The `-` at the end. -/
def ScanSet.tail (set : ScanSet) : List UInt8 := if set.dash then [45] else []

/-- The characters of a scanset. -/
def ScanSet.chars (set : ScanSet) : List UInt8 :=
  (if set.negate then [94] else []) ++ set.lead ++ set.items.flatMap SetItem.chars ++ set.tail ++ [93]

/-- The characters that a scanset stands for. -/
def ScanSet.has (set : ScanSet) (c : UInt8) : Bool :=
  (set.lead.contains c || set.items.any (·.has c) || set.tail.contains c) != set.negate

/-- A directive of a format: white space, another character, `%%`, `%n`, or a conversion of an integer or of
characters. -/
inductive Directive where
  | space (c : UInt8) (white : isSpace c = true)
  | lit (c : UInt8) (plain : isSpace c = false ∧ c ≠ percent ∧ c ≠ 0)
  | percent
  | count (len : Length)
  | int (suppress : Bool) (width : Width) (len : Length) (conv : IntConv)
  | word (suppress : Bool) (width : Width)
  | chars (suppress : Bool) (width : Width)
  | set (suppress : Bool) (width : Width) (set : ScanSet)

/-- A `*` or none. -/
def starChars (suppress : Bool) : List UInt8 := if suppress then [Printf.star] else []

/-- The text of a directive. -/
def Directive.text : Directive → List UInt8
  | space c _ => [c]
  | lit c _ => [c]
  | percent => [Printf.percent, Printf.percent]
  | count len => Printf.percent :: (len.chars ++ [110])
  | int suppress width len conv => Printf.percent :: (starChars suppress ++ width.chars ++ len.chars ++ [conv.char])
  | word suppress width => Printf.percent :: (starChars suppress ++ width.chars ++ [115])
  | chars suppress width => Printf.percent :: (starChars suppress ++ width.chars ++ [99])
  | set suppress width accept => Printf.percent :: (starChars suppress ++ width.chars ++ 91 :: accept.chars)

/-- The text of a format. -/
def formatText (ds : List Directive) : List UInt8 := ds.flatMap Directive.text

/-- The directive converts a part of the input. -/
def Directive.converts : Directive → Bool
  | space _ _ | lit _ _ | percent | count _ => false
  | int .. | word .. | chars .. | set .. => true

/-- What a directive does: it is executed, or it fails for want of input (`eof`) or for other input, with the
position in the input. -/
inductive Outcome where
  | done (s : Scan)
  | fails (eof : Bool) (pos : ℕ)
deriving DecidableEq, Repr

section Reference

variable (g : Guest) (src : List UInt8)

/-- The stores of characters from the place `i` of an array on. -/
def arrayStores (p : ℕ) : (i : ℕ) → List UInt8 → List Store
  | _, [] => []
  | i, c :: l => storeByte g p i c ++ arrayStores p (i + 1) l

/-- The assignment through the next argument, if it is not suppressed. -/
def assign (suppress : Bool) (s : Scan) (stores : ℕ → List Store) : Scan :=
  if suppress then s else ((vaP g s).2.store (stores (vaP g s).1)).count

/-- A character of the input is to be `c`. -/
def cLiteral (c : UInt8) (s : Scan) : Outcome :=
  if src.drop s.pos = [] then .fails true s.pos
  else if front (src.drop s.pos) = c then .done (s.read 1)
  else .fails false s.pos

/-- C's execution of a directive. -/
def cStep (s : Scan) : Directive → Outcome
  | .space _ _ => .done (skipWs src s)
  | .lit c _ => cLiteral src c s
  | .percent => cLiteral src percent (skipWs src s)
  | .count len => .done ((vaP g s).2.store (object g (vaP g s).1 (lowBytes len.size s.pos)))
  | .int suppress width len conv =>
    let s := skipWs src s
    if src.drop s.pos = [] then .fails true s.pos
    else
      let m := item conv.base (width.cut (src.drop s.pos))
      let s := s.read m.length
      let n := parse conv.base m
      if m ≠ [] ∧ n.length = m.length then
        .done (assign g suppress s fun p => object g p (lowBytes len.size (conv.value n)))
      else .fails false s.pos
  | .word suppress width =>
    let s := skipWs src s
    if src.drop s.pos = [] then .fails true s.pos
    else
      let m := (width.cut (src.drop s.pos)).takeWhile fun c => !isSpace c
      .done (assign g suppress (s.read m.length) fun p => arrayStores g p 0 (m ++ [0]))
  | .chars suppress width =>
    let n := width.value.getD 1
    if src.drop s.pos = [] then .fails true s.pos
    else if (src.drop s.pos).length < n then .fails false src.length
    else .done (assign g suppress (s.read n) fun p => arrayStores g p 0 ((src.drop s.pos).take n))
  | .set suppress width set =>
    if src.drop s.pos = [] then .fails true s.pos
    else
      let m := (width.cut (src.drop s.pos)).takeWhile set.has
      if m = [] then .fails false s.pos
      else .done (assign g suppress (s.read m.length) fun p => arrayStores g p 0 (m ++ [0]))

/-- C's scan: `EOF` for want of input before a conversion is completed, and else the number of assignments. -/
def cScan : List Directive → (converted : Bool) → Scan → Run
  | [], _, s => ⟨[], some s.nmatches⟩
  | d :: ds, converted, s =>
    match cStep g src s d with
    | .done s' => (cScan ds (converted || d.converts) s').after s'
    | .fails eof _ => ⟨[], some (if eof && !converted then -1 else s.nmatches)⟩

/-- How much of the input C's scan has read at its end. -/
def cEnd : List Directive → Scan → ℕ
  | [], s => s.pos
  | d :: ds, s =>
    match cStep g src s d with
    | .done s' => cEnd ds s'
    | .fails _ pos => pos

/-! ## Where it does -/

/-- A conversion is completed, but nothing is assigned yet. -/
def Unassigned (converted : Bool) (s : Scan) : Prop := s.nmatches = 0 ∧ converted = true

/-- The code takes the same characters for the numeral in front of a text: the numeral fits in its buffer, is not
`0x` alone, and for `%i` has no `0x` and no hexadecimal digit behind it. -/
def Readable (base : ℕ) (l : List UInt8) : Prop :=
  (item base l).length ≤ 63 ∧
    (marked base (l.drop (signLength l)) = true → base ≠ 0 ∧ itemDigits base (l.drop (signLength l)) ≠ []) ∧
    (base = 0 → itemDigits base (l.drop (signLength l)) = [] ∨ (item base l).length = 63 ∨
      isDigit 16 (front (l.drop (item base l).length)) = false)

/-- The code stores as many bytes as the object for the next argument has, or there is no object. -/
def Sized (s : Scan) (size stored : ℕ) : Prop :=
  size = stored ∨ (vaP g s).1 = 0 ∨ g.memorySize < (vaP g s).1 + min size stored

/-- The width is an `int`. -/
def Width.Small (w : Width) : Prop := ∀ n ∈ w.value, n < 2 ^ 31

/-- The text behind white space. -/
def behindSpace (s : Scan) : List UInt8 := src.drop (skipWs src s).pos

/-- `length` for a modifier. -/
def Length.code : Length → ℕ
  | none => 0
  | h => 1
  | hh => 2
  | l => 3
  | ll => 4
  | j | z | t => 5

/-- What the code needs of the input, and of the argument, to do what C does for a directive. -/
def Good (converted : Bool) (s : Scan) : Directive → Prop
  | .space _ _ => True
  | .lit _ _ => src.drop s.pos = [] → ¬ Unassigned converted s
  | .percent => front (src.drop s.pos) = percent ∨
      front (behindSpace src s) ≠ percent ∧ (behindSpace src s = [] → converted = true)
  | .count len => Sized g s len.size 4
  | .int suppress width len conv => width.Small ∧
      if behindSpace src s = [] then ¬ Unassigned converted s
      else
        let l := width.cut (behindSpace src s)
        Readable conv.base l ∧ (suppress = false → itemDigits conv.base (l.drop (signLength l)) ≠ [] →
          Sized g s len.size (storeSize len.code))
  | .word _ width => width.Small ∧ (behindSpace src s = [] → ¬ Unassigned converted s)
  | .chars _ width => width.Small ∧
      if src.drop s.pos = [] then ¬ Unassigned converted s
      else width.value.getD 1 ≤ (src.drop s.pos).length
  | .set _ width _ => width.Small ∧ (src.drop s.pos = [] → ¬ Unassigned converted s)

/-- Every directive that C's scan gets to is one that the code can do. -/
def AllGood : List Directive → (converted : Bool) → Scan → Prop
  | [], _, _ => True
  | d :: ds, converted, s => Good g src converted s d ∧
    match cStep g src s d with
    | .done s' => AllGood ds (converted || d.converts) s'
    | .fails _ _ => True

section Decide

variable (converted : Bool) (s : Scan)

instance : Decidable (Unassigned converted s) := inferInstanceAs (Decidable (_ ∧ _))

instance (base : ℕ) (l : List UInt8) : Decidable (Readable base l) := inferInstanceAs (Decidable (_ ∧ _))

instance (size stored : ℕ) : Decidable (Sized g s size stored) := inferInstanceAs (Decidable (_ ∨ _))

instance (w : Width) : Decidable w.Small := inferInstanceAs (Decidable (∀ n ∈ w.value, n < 2 ^ 31))

instance : (d : Directive) → Decidable (Good g src converted s d)
  | .space _ _ => .isTrue trivial
  | .lit _ _ => inferInstanceAs (Decidable (src.drop s.pos = [] → ¬ Unassigned converted s))
  | .percent => inferInstanceAs (Decidable (_ ∨ _))
  | .count len => inferInstanceAs (Decidable (Sized g s len.size 4))
  | .int _ _ _ _ => inferInstanceAs (Decidable (_ ∧ _))
  | .word _ _ => inferInstanceAs (Decidable (_ ∧ _))
  | .chars _ _ => inferInstanceAs (Decidable (_ ∧ _))
  | .set _ _ _ => inferInstanceAs (Decidable (_ ∧ _))

instance decideAllGood : (ds : List Directive) → (converted : Bool) → (s : Scan) →
    Decidable (AllGood g src ds converted s)
  | [], _, _ => .isTrue trivial
  | d :: ds, converted, s =>
    match outcome : cStep g src s d with
    | .done s' =>
      have := decideAllGood ds (converted || d.converts) s'
      decidable_of_iff (Good g src converted s d ∧ AllGood g src ds (converted || d.converts) s')
        (by rw [AllGood, outcome])
    | .fails _ _ => decidable_of_iff (Good g src converted s d) (by rw [AllGood, outcome, and_true])

end Decide

end Reference

/-! ## Calls on a stream -/

/-- A call of `fscanf`: where its format and its arguments are, and the directives of the format. -/
structure Call where
  fmt : ℕ
  va : ℕ
  format : List Directive

/-- The guest, and what is left of a stream. -/
structure Session where
  guest : Guest
  stream : List UInt8

/-- All stores of a scan. -/
def Run.stores (r : Run) : List Store := (r.states.getLast?.map Scan.stores).getD []

/-- A scan begins. -/
def Call.start (c : Call) : Scan := ⟨0, c.va, 0, []⟩

/-- A call of `yos_fscanf`. -/
def codeCall (strtod : HostStrtod) (h : Session) (c : Call) : Run × Session :=
  let (run, f) := yosFscanf strtod h.guest (some h.stream) c.fmt c.va
  (run, ⟨written h.guest run.stores, f.getD []⟩)

/-- C's `fscanf`: the scan is one of the stream, which goes on where the scan ends. -/
def cCall (h : Session) (c : Call) : Run × Session :=
  let run := cScan h.guest h.stream c.format false c.start
  (run, ⟨written h.guest run.stores, h.stream.drop (cEnd h.guest h.stream c.format c.start)⟩)

/-- What calls one after another return, and what they leave. -/
def calls (call : Session → Call → Run × Session) : List Call → Session → List (Run × Session)
  | [], _ => []
  | c :: cs, h => call h c :: calls call cs (call h c).2

/-- The line that the code reads. -/
def Session.line (h : Session) : List UInt8 := fgets (lineSize - 1) h.stream

/-- The code can do the call: C's scan of the stream is one of its line, and ends where the line does.  At the end of
the stream the format is to want input at once. -/
def Lined (h : Session) (c : Call) : Prop :=
  wstrCheck h.guest.memory h.guest.memorySize c.fmt = some (formatText c.format) ∧
    if h.stream = [] then cScan h.guest [] c.format false c.start = ⟨[], some (-1)⟩
    else 0 ∉ h.line ∧ cScan h.guest h.line c.format false c.start = cScan h.guest h.stream c.format false c.start ∧
      cEnd h.guest h.stream c.format c.start = h.line.length ∧ AllGood h.guest h.line c.format false c.start

instance (h : Session) (c : Call) : Decidable (Lined h c) := inferInstanceAs (Decidable (_ ∧ _))

/-- Every call is one that the code can do. -/
def AllLined : List Call → Session → Prop
  | [], _ => True
  | c :: cs, h => Lined h c ∧ AllLined cs (cCall h c).2

instance decideAllLined : (cs : List Call) → (h : Session) → Decidable (AllLined cs h)
  | [], _ => .isTrue trivial
  | c :: cs, h =>
    have := decideAllLined cs (cCall h c).2
    inferInstanceAs (Decidable (Lined h c ∧ AllLined cs (cCall h c).2))

end Scanf

end Yos
