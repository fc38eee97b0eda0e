import Mathlib.Data.UInt
import Yos.Lib.Source
import Yos.Lib.System

/-!
# One stream with two cursors (`impl/io/file.c`, `impl/libc/scanf.c`, `impl/libc/freebsd_userland.c`)

Handle 1 is the guest's `stdin`.  `fgetc`, `getc`, `fgets`, `fread` and `fgetwc` read the file behind
guest descriptor 0; `getline`, `getdelim`, `fgetln`, `scanf`, `ungetc` and `feof` go to the `stdin` of
the host process, which reads host descriptor 0 ahead and has an end-of-file flag of its own.  `Stdin` is
the stream that a program expects.

`StdinOk` are the calls after which the two still agree (`one_stream`).  A call that reads the descriptor
finds nothing pushed back or read ahead, and does not meet the end; a call that reads the host's `stdin`
is made while guest descriptor 0 refers to the same open file, and `scanf` uses the whole line.

The files have a fixed content and can be read.  `scanf` carries what `do_scan` makes of a line for the
format of the call: how many bytes it uses, and its result.
-/

namespace Yos

/-- The host's `read`, which returns at least one byte of those that are left, and `BUFSIZ`. -/
structure HostRead where
  amount : List UInt8 → ℕ → ℕ
  some : ∀ left n, left ≠ [] → 0 < n → 0 < amount left n
  most : ∀ left n, amount left n ≤ n
  bufsiz : ℕ
  room : 0 < bufsiz

/-- The unread bytes of each open file, the one guest descriptor 0 refers to, and the host's `stdin`: the
bytes pushed back, those read ahead and the end-of-file flag. -/
@[ext] structure StdinState (φ : Type) where
  rest : φ → List UInt8
  fd0 : Option φ
  pushed : List UInt8
  ahead : List UInt8
  eof : Bool

/-- What a call delivers, and the value it returns. -/
structure Delivery where
  bytes : List UInt8
  value : ℤ
  deriving DecidableEq

/-! ## When the bytes read are enough -/

/-- A number of bytes. -/
def manyBytes (n : ℕ) (got : List UInt8) : Bool := n ≤ got.length

/-- The bytes end with the delimiter. -/
def delimited (delim : ℤ) (got : List UInt8) : Bool :=
  match got.getLast? with
  | some b => (b.toNat : ℤ) == delim
  | none => false

/-- The bytes are a line, or fill a buffer of `n` bytes. -/
def lineIn (n : ℤ) (got : List UInt8) : Bool := n - 1 ≤ got.length || delimited 10 got

/-- What a first byte from 0x80 on says: how many bytes follow, and its bits of the code point. -/
def wcLead (b0 : UInt8) : Option (ℕ × ℕ) :=
  if b0 &&& 0xe0 = 0xc0 then some (1, (b0 &&& 0x1f).toNat)
  else if b0 &&& 0xf0 = 0xe0 then some (2, (b0 &&& 0x0f).toNat)
  else if b0 &&& 0xf8 = 0xf0 then some (3, (b0 &&& 0x07).toNat)
  else none

/-- The bytes are those of a character. -/
def wcWhole : List UInt8 → Bool
  | [] => false
  | b0 :: tail =>
    if b0 < 0x80 then true
    else
      match wcLead b0 with
      | none => true
      | some (extra, _) => extra ≤ tail.length

/-- The code point `fgetwc` returns for the bytes it has read. -/
def wcValue : List UInt8 → ℤ
  | [] => -1
  | b0 :: tail =>
    if b0 < 0x80 then b0.toNat
    else
      match wcLead b0 with
      | none => 0xfffd
      | some (extra, cp) =>
        if tail.length < extra then -1
        else (tail.foldl (fun cp b => cp <<< 6 ||| (b &&& 0x3f).toNat) cp : ℕ)

variable {φ : Type}

/-! ## The code -/

section Code

variable [DecidableEq φ] (host : HostRead) (std : φ)

namespace StdinState

/-- `read` of an open file. -/
def read (s : StdinState φ) (f : φ) (n : ℕ) : List UInt8 × StdinState φ :=
  ((s.rest f).take (host.amount (s.rest f) n),
    { s with rest := Function.update s.rest f ((s.rest f).drop (host.amount (s.rest f) n)) })

/-- `stdio_fgetc_via_fdmap` of an open file. -/
def fdGetc (f : φ) (s : StdinState φ) : Option UInt8 × StdinState φ :=
  match s.read host f 1 with
  | ([], s) => (none, s)
  | (b :: _, s) => (some b, s)

/-- `fgetc` of the host's `stdin`. -/
def hostGetc (s : StdinState φ) : Option UInt8 × StdinState φ :=
  match s.pushed, s.ahead with
  | b :: pushed, _ => (some b, { s with pushed })
  | [], b :: ahead => (some b, { s with ahead })
  | [], [] =>
    match s.read host std host.bufsiz with
    | ([], s) => (none, { s with eof := true })
    | (b :: ahead, s) => (some b, { s with ahead })

theorem read_none {s : StdinState φ} {f : φ} (n : ℕ) (left : s.rest f = []) :
    s.read host f n = ([], s) := by
  rw [read, left, List.take_nil, List.drop_nil, ← left, Function.update_eq_self]

theorem read_some {s : StdinState φ} {f : φ} {n : ℕ} {b : UInt8} {bytes : List UInt8} (pos : 0 < n)
    (left : s.rest f = b :: bytes) : ∃ k < n, s.read host f n =
      (b :: bytes.take k, { s with rest := Function.update s.rest f (bytes.drop k) }) := by
  have amount := host.some (b :: bytes) n (by simp) pos
  obtain ⟨k, found⟩ := Nat.exists_eq_add_of_lt amount
  have most := host.most (b :: bytes) n
  refine ⟨k, by omega, ?_⟩
  rw [read, left, found, Nat.zero_add, List.take_succ_cons, List.drop_succ_cons]

/-- A `read` that returns nothing has met the end. -/
theorem of_read_nil {s s' : StdinState φ} {f : φ} {n : ℕ} (pos : 0 < n)
    (reads : s.read host f n = ([], s')) : s.rest f = [] ∧ s' = s := by
  cases left : s.rest f with
  | nil =>
    rw [read_none host n left] at reads
    exact ⟨rfl, (Prod.mk.inj reads).2.symm⟩
  | cons c tail =>
    obtain ⟨k, -, found⟩ := read_some host pos left
    rw [found] at reads
    cases (Prod.mk.inj reads).1

/-- A `read` that returns bytes has taken them from the file. -/
theorem of_read_cons {s s' : StdinState φ} {f : φ} {n : ℕ} {b : UInt8} {bytes : List UInt8} (pos : 0 < n)
    (reads : s.read host f n = (b :: bytes, s')) :
    ∃ tail, ∃ k < n, s.rest f = b :: tail ∧ bytes = tail.take k ∧
      s' = { s with rest := Function.update s.rest f (tail.drop k) } := by
  cases left : s.rest f with
  | nil =>
    rw [read_none host n left] at reads
    cases (Prod.mk.inj reads).1
  | cons c tail =>
    obtain ⟨k, lt, found⟩ := read_some host pos left
    rw [found] at reads
    obtain ⟨taken, rfl⟩ := Prod.mk.inj reads
    obtain ⟨rfl, rfl⟩ := List.cons.inj taken
    exact ⟨tail, k, lt, rfl, rfl, rfl⟩

/-- The end of the host's `stdin`. -/
theorem hostGetc_none {s : StdinState φ} (pushed : s.pushed = []) (ahead : s.ahead = [])
    (left : s.rest std = []) : s.hostGetc host std = (none, { s with eof := true }) := by
  unfold hostGetc
  simp only [pushed, ahead, read_none host _ left]

/-- The file behind a descriptor. -/
def fdSource (f : φ) : Source (StdinState φ) UInt8 where
  get := fdGetc host f
  left s := (s.rest f).length
  less s b s' found := by
    rw [fdGetc] at found
    cases left : s.rest f with
    | nil => simp [read_none host 1 left] at found
    | cons c bytes =>
      obtain ⟨k, lt, reads⟩ := read_some host Nat.one_pos left
      obtain rfl : k = 0 := by omega
      rw [reads] at found
      obtain ⟨-, rfl⟩ := Prod.mk.inj found
      simp

/-- The host's `stdin`. -/
def hostSource : Source (StdinState φ) UInt8 where
  get := hostGetc host std
  left s := s.pushed.length + s.ahead.length + (s.rest std).length
  less s b s' found := by
    rw [hostGetc] at found
    cases pushed : s.pushed with
    | cons c rest =>
      simp only [pushed, Prod.mk.injEq] at found
      obtain ⟨-, rfl⟩ := found
      simp
    | nil =>
      cases ahead : s.ahead with
      | cons c rest =>
        simp only [pushed, ahead, Prod.mk.injEq] at found
        obtain ⟨-, rfl⟩ := found
        simp
      | nil =>
        simp only [pushed, ahead] at found
        cases left : s.rest std with
        | nil => simp [read_none host host.bufsiz left] at found
        | cons c bytes =>
          obtain ⟨k, -, reads⟩ := read_some host host.room left
          rw [reads] at found
          obtain ⟨-, rfl⟩ := Prod.mk.inj found
          simp [pushed]
          omega

/-- What the functions that follow `fd_map` read. -/
def source : Option φ → Source (StdinState φ) UInt8
  | some f => fdSource host f
  | none => hostSource host std

/-! ### The calls -/

/-- `yos_fgetc`. -/
def yosFgetc (s : StdinState φ) : Delivery × StdinState φ :=
  let (got, s) := (source host std s.fd0).readUntil (manyBytes 1) s []
  (⟨got, match got with | [] => -1 | b :: _ => b.toNat⟩, s)

/-- `yos_getc` and `yos_getc_unlocked`. -/
def yosGetc (s : StdinState φ) : Delivery × StdinState φ := s.yosFgetc host std

/-- `yos_fgetwc`. -/
def yosFgetwc (s : StdinState φ) : Delivery × StdinState φ :=
  let (got, s) := (source host std s.fd0).readUntil wcWhole s []
  (⟨got, wcValue got⟩, s)

/-- `yos_fgets`. -/
def yosFgets (buf : ℕ) (n : ℤ) (s : StdinState φ) : Delivery × StdinState φ :=
  if n ≤ 0 then (⟨[], 0⟩, s)
  else
    let (got, s') := (source host std s.fd0).readUntil (lineIn n) s []
    (⟨got, if got = [] ∧ (s.fd0.isSome ∨ n ≠ 1) then 0 else buf⟩, s')

/-- The loop of `yos_fread`. -/
def freadLoop (f : φ) (total : ℕ) (s : StdinState φ) (got : List UInt8) : List UInt8 × StdinState φ :=
  if got.length < total then
    match s.read host f (total - got.length) with
    | ([], s) => (got, s)
    | (b :: bytes, s) => freadLoop f total s (got ++ b :: bytes)
  else (got, s)
termination_by total - got.length
decreasing_by
  simp only [List.length_append, List.length_cons]
  omega

/-- `yos_fread`. -/
def yosFread (size nmemb : ℕ) (s : StdinState φ) : Delivery × StdinState φ :=
  if size = 0 ∨ nmemb = 0 then (⟨[], 0⟩, s)
  else
    let (got, s) :=
      match s.fd0 with
      | some f => freadLoop host f (size * nmemb) s []
      | none => (hostSource host std).readUntil (manyBytes (size * nmemb)) s []
    (⟨got, (got.length / size : ℕ)⟩, s)

/-- `do_getdelim`, with enough guest memory. -/
def doGetdelim (delim : ℤ) (s : StdinState φ) : Delivery × StdinState φ :=
  let (got, s) := (hostSource host std).readUntil (delimited delim) s []
  (⟨got, if got = [] then -1 else (got.length : ℤ).bmod (2 ^ 32)⟩, s)

/-- `yos_getline`. -/
def yosGetline (s : StdinState φ) : Delivery × StdinState φ := s.doGetdelim host std 10

/-- `yos_getdelim`. -/
def yosGetdelim (delim : ℤ) (s : StdinState φ) : Delivery × StdinState φ := s.doGetdelim host std delim

/-- `fgetln`; its value is the length it stores. -/
def fgetln (s : StdinState φ) : Delivery × StdinState φ :=
  let (got, s) := (hostSource host std).readUntil (delimited 10) s []
  (⟨got, got.length⟩, s)

/-- `yos_scanf`: a line of at most 4095 bytes is read, and the bytes that `do_scan` does not use are
lost. -/
def yosScanf (scan : List UInt8 → ℕ × ℤ) (s : StdinState φ) : Delivery × StdinState φ :=
  let (line, s) := (hostSource host std).readUntil (lineIn 4096) s []
  if line = [] then (⟨[], -1⟩, s) else (⟨line.take (scan line).1, (scan line).2⟩, s)

/-- `yos_ungetc`; `accepts` says that the host has room for the byte. -/
def yosUngetc (c : ℤ) (accepts : Bool) (s : StdinState φ) : Delivery × StdinState φ :=
  if c = -1 ∨ accepts = false then (⟨[], -1⟩, s)
  else
    let byte := UInt8.ofNat (c % 256).toNat
    (⟨[], byte.toNat⟩, { s with pushed := byte :: s.pushed, eof := false })

/-- `yos_feof`. -/
def yosFeof (s : StdinState φ) : Delivery × StdinState φ := (⟨[], if s.eof then 1 else 0⟩, s)

/-- `yos_clearerr`. -/
def yosClearerr (s : StdinState φ) : Delivery × StdinState φ := (⟨[], 0⟩, { s with eof := false })

end StdinState

/-- The calls on handle 1, and those that change what guest descriptor 0 refers to. -/
inductive StdinCall (φ : Type) where
  | fgetc
  | getc
  | fgetwc
  | fgets (buf : ℕ) (n : ℤ)
  | fread (size nmemb : ℕ)
  | getline
  | getdelim (delim : ℤ)
  | fgetln
  | scanf (scan : List UInt8 → ℕ × ℤ)
  | ungetc (c : ℤ) (accepts : Bool)
  | feof
  | clearerr
  | dup2 (f : φ)
  | close

/-- A call, and what it delivers. -/
def StdinState.call (s : StdinState φ) : StdinCall φ → Delivery × StdinState φ
  | .fgetc => s.yosFgetc host std
  | .getc => s.yosGetc host std
  | .fgetwc => s.yosFgetwc host std
  | .fgets buf n => s.yosFgets host std buf n
  | .fread size nmemb => s.yosFread host std size nmemb
  | .getline => s.yosGetline host std
  | .getdelim delim => s.yosGetdelim host std delim
  | .fgetln => s.fgetln host std
  | .scanf scan => s.yosScanf host std scan
  | .ungetc c accepts => s.yosUngetc c accepts
  | .feof => s.yosFeof
  | .clearerr => s.yosClearerr
  | .dup2 f => (⟨[], 0⟩, { s with fd0 := some f })
  | .close => (⟨[], 0⟩, { s with fd0 := none })

end Code

/-! ## The stream a program expects -/

/-- The bytes of each open file that are unread and those that were read through the stream, the file of
descriptor 0, the bytes pushed back, and the end-of-file flag. -/
@[ext] structure Stdin (φ : Type) where
  rest : φ → List UInt8
  read : φ → List UInt8
  fd0 : Option φ
  pushed : List UInt8
  eof : Bool

namespace Stdin

variable [DecidableEq φ] (t : Stdin φ)

/-- The unread bytes of the file of descriptor 0. -/
def unread : List UInt8 :=
  match t.fd0 with
  | some f => t.rest f
  | none => []

/-- The bytes the stream has: first those pushed back, the last one first. -/
def avail : List UInt8 := t.pushed ++ t.unread

/-- The next `n` bytes are taken. -/
def drop (n : ℕ) : Stdin φ :=
  match t.fd0 with
  | some f =>
    { t with
      pushed := t.pushed.drop n
      rest := Function.update t.rest f ((t.rest f).drop (n - t.pushed.length))
      read := Function.update t.read f (t.read f ++ (t.rest f).take (n - t.pushed.length)) }
  | none => { t with pushed := t.pushed.drop n }

/-- The flag after a read that met the end of the file. -/
def markEnd (met : Bool) : Stdin φ := { t with eof := t.eof || met && t.fd0.isSome }

/-- The next bytes until they are enough. -/
def take (enough : List UInt8 → Bool) : List UInt8 × Stdin φ :=
  let (got, met) := Source.cut enough [] t.avail
  (got, (t.drop got.length).markEnd met)

/-- A call, and the bytes it delivers. -/
def call : StdinCall φ → List UInt8 × Stdin φ
  | .fgetc | .getc => t.take (manyBytes 1)
  | .fgetwc => t.take wcWhole
  | .fgets _ n => t.take (lineIn n)
  | .fread size nmemb => t.take (manyBytes (size * nmemb))
  | .getline | .fgetln => t.take (delimited 10)
  | .getdelim delim => t.take (delimited delim)
  | .scanf scan =>
    -- What `scanf` does not use stays in the stream.
    let (line, met) := Source.cut (lineIn 4096) [] t.avail
    let used := line.take (scan line).1
    (used, (t.drop used.length).markEnd met)
  | .ungetc c accepts =>
    if c = -1 ∨ accepts = false then ([], t)
    else ([], { t with pushed := UInt8.ofNat (c % 256).toNat :: t.pushed, eof := false })
  | .feof => ([], t)
  | .clearerr => ([], { t with eof := false })
  | .dup2 f => ([], { t with fd0 := some f })
  | .close => ([], { t with fd0 := none })

end Stdin

/-! ## The runs -/

section System

variable [DecidableEq φ] (host : HostRead) (std : φ)

/-- The code, and the stream the program expects. -/
structure StdinRun (φ : Type) where
  code : StdinState φ
  stream : Stdin φ

/-- Both make each call.  At first nothing is read ahead, and descriptor 0 refers to the file of the
host's `stdin`. -/
def stdinSystem (content : φ → List UInt8) : System (StdinRun φ) (StdinCall φ) where
  init s := s.code = ⟨content, some std, [], [], false⟩ ∧
    s.stream = ⟨content, fun _ => [], some std, [], false⟩
  step s c s' := s' = ⟨(s.code.call host std c).2, (s.stream.call c).2⟩

/-- The bytes are enough. -/
def Suffices (enough : List UInt8 → Bool) (bytes : List UInt8) : Prop :=
  ∃ n ≤ bytes.length, enough (bytes.take n) = true

/-- Reading guest descriptor 0 is reading the stream. -/
def FdReadOk (s : StdinState φ) (enough : List UInt8 → Bool) : Prop :=
  match s.fd0 with
  | some f => enough [] = true ∨
      s.pushed = [] ∧ (f = std → s.ahead = []) ∧ (s.eof = true ∨ Suffices enough (s.rest f))
  | none => Suffices enough s.pushed

/-- Reading the host's `stdin` is reading the stream. -/
def HostReadOk (s : StdinState φ) (enough : List UInt8 → Bool) : Prop :=
  s.fd0 = some std ∨ Suffices enough s.pushed

/-- The calls for which code and stream agree. -/
def StdinOk (s : StdinRun φ) : StdinCall φ → Prop
  | .fgetc | .getc => FdReadOk std s.code (manyBytes 1)
  | .fgetwc => FdReadOk std s.code wcWhole
  | .fgets _ n => FdReadOk std s.code (lineIn n)
  | .fread size nmemb => FdReadOk std s.code (manyBytes (size * nmemb))
  | .getline | .fgetln => HostReadOk std s.code (delimited 10)
  | .getdelim delim => HostReadOk std s.code (delimited delim)
  | .scanf scan => HostReadOk std s.code (lineIn 4096) ∧
      let line := (Source.cut (lineIn 4096) [] (s.code.pushed ++ s.code.ahead ++ s.code.rest std)).1
      line.length ≤ (scan line).1
  | .ungetc _ _ | .feof | .clearerr | .dup2 _ | .close => True

/-- What the calls deliver is what the stream has: the bytes that were read from each file are its first
bytes, every allowed call delivers the next ones, and `feof` tells whether a read met the end. -/
structure OneStream (content : φ → List UInt8) (s : StdinRun φ) : Prop where
  once : ∀ f, s.stream.read f ++ s.stream.rest f = content f
  delivers : ∀ c, StdinOk std s c → (s.code.call host std c).1.bytes = (s.stream.call c).1
  feof : s.code.yosFeof.1.value ≠ 0 ↔ s.stream.eof = true

end System

/-! ## Reading the descriptor and reading the host's stream -/

section Reading

variable [DecidableEq φ] {host : HostRead} {std f : φ} {s s' : StdinState φ} {t : Stdin φ}
  {enough : List UInt8 → Bool} {n : ℕ}

/-- The next `n` bytes of a file are read. -/
def StdinState.skip (s : StdinState φ) (f : φ) (n : ℕ) : StdinState φ :=
  { s with rest := Function.update s.rest f ((s.rest f).drop n) }

theorem StdinState.skip_rest (s : StdinState φ) (f : φ) (n : ℕ) :
    (s.skip f n).rest f = (s.rest f).drop n := Function.update_self _ _ _

theorem StdinState.skip_zero (s : StdinState φ) (f : φ) : s.skip f 0 = s := by
  rw [skip, List.drop_zero, Function.update_eq_self]

/-- One byte is read. -/
theorem StdinState.fdGetc_skip {b : UInt8} {tail : List UInt8} (left : (s.rest f).drop n = b :: tail) :
    (s.skip f n).fdGetc host f = (some b, s.skip f (n + 1)) := by
  have left' := left
  rw [← skip_rest] at left'
  obtain ⟨k, lt, reads⟩ := read_some host Nat.one_pos left'
  obtain rfl : k = 0 := by omega
  rw [fdGetc, reads]
  have tail_eq : (s.rest f).drop (n + 1) = tail := (Source.of_drop_eq_cons left).2.2
  simp only [skip, Function.update_idem, tail_eq, List.drop_zero]

/-- The file has ended. -/
theorem StdinState.fdGetc_skip_end (left : (s.rest f).drop n = []) :
    (s.skip f n).fdGetc host f = (none, s.skip f n) := by
  rw [← skip_rest] at left
  rw [fdGetc, read_none host 1 left]

/-- A call that reads the descriptor takes what it needs from the file. -/
theorem readUntil_fdSource (host : HostRead) (s : StdinState φ) (f : φ) (enough : List UInt8 → Bool) :
    (StdinState.fdSource host f).readUntil enough s [] =
      ((Source.cut enough [] (s.rest f)).1, s.skip f (Source.cut enough [] (s.rest f)).1.length) := by
  obtain ⟨bytes, plenty, ended⟩ := Source.readUntil_sim (StdinState.fdSource host f) enough
    (l := s.rest f) (R := fun n s' => s' = s.skip f n) (E := fun n s' => s' = s.skip f n)
    (fun n s₁ b tail here left => ⟨_, here ▸ StdinState.fdGetc_skip left, rfl⟩)
    (fun n s₁ here left => ⟨_, here ▸ StdinState.fdGetc_skip_end left, rfl⟩)
    (s.skip_zero f).symm
  refine Prod.ext bytes ?_
  cases met : (Source.cut enough [] (s.rest f)).2 with
  | false => exact plenty met
  | true => exact ended met

/-- Bytes that are taken in two parts: `k` of them, and then what is missing. -/
theorem take_append_take_drop {l : List UInt8} {k m : ℕ} (le : k ≤ m) :
    l.take k ++ (l.drop k).take (m - min k l.length) = l.take m := by
  rcases Nat.le_total k l.length with enough | short
  · rw [Nat.min_eq_left enough, ← List.take_add, Nat.add_sub_cancel' le]
  · rw [List.drop_eq_nil_of_le short, List.take_nil, List.append_nil, List.take_of_length_le short,
      List.take_of_length_le (short.trans le)]

theorem drop_drop_missing {l : List UInt8} {k m : ℕ} (le : k ≤ m) :
    (l.drop k).drop (m - min k l.length) = l.drop m := by
  rw [List.drop_drop]
  rcases Nat.le_total k l.length with enough | short
  · rw [Nat.min_eq_left enough, Nat.add_sub_cancel' le]
  · rw [List.drop_eq_nil_of_le (by omega), List.drop_eq_nil_of_le (short.trans le)]

/-- The loop of `fread` takes a number of bytes, however many each `read` returns. -/
theorem freadLoop_eq (total : ℕ) (s : StdinState φ) (got : List UInt8) :
    s.freadLoop host f total got = (got ++ (s.rest f).take (total - got.length),
      s.skip f (total - got.length)) := by
  fun_induction StdinState.freadLoop host f total s got with
  | case1 s got short s' reads =>
    obtain ⟨left, rfl⟩ := StdinState.of_read_nil host (by omega : 0 < total - got.length) reads
    refine Prod.ext (by simp [left]) ?_
    show s' = s'.skip f (total - got.length)
    rw [StdinState.skip, left, List.drop_nil, ← left, Function.update_eq_self]
  | case2 s got short b bytes s' reads ih =>
    obtain ⟨tail, k, lt, left, rfl, rfl⟩ :=
      StdinState.of_read_cons host (by omega : 0 < total - got.length) reads
    obtain ⟨m, want⟩ : ∃ m, total - got.length = m + 1 := ⟨total - got.length - 1, by omega⟩
    have le : k ≤ m := by omega
    have rest : Function.update s.rest f (tail.drop k) f = tail.drop k := Function.update_self _ _ _
    have after : total - (got ++ b :: tail.take k).length = m - min k tail.length := by
      simp only [List.length_append, List.length_cons, List.length_take]
      omega
    rw [ih, after]
    dsimp only
    rw [rest, want, left, List.take_succ_cons]
    refine Prod.ext ?_ ?_
    · rw [← take_append_take_drop le]
      simp
    · simp [StdinState.skip, drop_drop_missing le, left]
  | case3 s got many =>
    rw [Nat.sub_eq_zero_of_le (by omega)]
    simp [StdinState.skip]

/-- The state after `n` bytes of the host's `stdin`. -/
structure HostAfter (std : φ) (s : StdinState φ) (n : ℕ) (eof : Bool) (s' : StdinState φ) : Prop where
  pushed : s'.pushed = s.pushed.drop n
  bytes : s'.ahead ++ s'.rest std = (s.ahead ++ s.rest std).drop (n - s.pushed.length)
  others : ∀ g, g ≠ std → s'.rest g = s.rest g
  fd0 : s'.fd0 = s.fd0
  flag : s'.eof = eof

/-- One more byte is read. -/
theorem HostAfter.next {s₁ : StdinState φ} {b : UInt8} {tail : List UInt8} {eof : Bool}
    (here : HostAfter std s n eof s₁) (left : s₁.pushed ++ (s₁.ahead ++ s₁.rest std) = b :: tail) :
    ∃ s', s₁.hostGetc host std = (some b, s') ∧ HostAfter std s (n + 1) eof s' := by
  rw [StdinState.hostGetc]
  cases pushed : s₁.pushed with
  | cons c rest =>
    rw [pushed] at left
    obtain ⟨rfl, -⟩ := List.cons.inj left
    have more := here.pushed
    rw [pushed] at more
    obtain ⟨inside, -, rest_pushed⟩ := Source.of_drop_eq_cons more.symm
    refine ⟨_, rfl, rest_pushed.symm, ?_, here.others, here.fd0, here.flag⟩
    have same := here.bytes
    rw [Nat.sub_eq_zero_of_le (Nat.le_of_lt inside)] at same
    rwa [Nat.sub_eq_zero_of_le inside]
  | nil =>
    have none_pushed := here.pushed
    rw [pushed] at none_pushed
    have all : s.pushed.length ≤ n := List.drop_eq_nil_iff.1 none_pushed.symm
    have none_after : ([] : List UInt8) = s.pushed.drop (n + 1) :=
      (List.drop_eq_nil_of_le (by omega)).symm
    have count : n + 1 - s.pushed.length = n - s.pushed.length + 1 := by omega
    rw [pushed, List.nil_append] at left
    have bytes := here.bytes
    cases ahead : s₁.ahead with
    | cons c rest =>
      rw [ahead] at left bytes
      obtain ⟨rfl, -⟩ := List.cons.inj left
      refine ⟨_, rfl, none_after, ?_, here.others, here.fd0, here.flag⟩
      rw [count]
      exact (Source.of_drop_eq_cons bytes.symm).2.2.symm
    | nil =>
      rw [ahead, List.nil_append] at left
      obtain ⟨k, -, reads⟩ := StdinState.read_some host host.room left
      dsimp only
      rw [reads]
      refine ⟨_, rfl, pushed.trans none_after, ?_, fun g other => ?_, here.fd0, here.flag⟩
      · rw [ahead, List.nil_append, left] at bytes
        rw [count]
        dsimp only
        rw [Function.update_self, List.take_append_drop]
        exact (Source.of_drop_eq_cons bytes.symm).2.2.symm
      · exact (Function.update_of_ne other _ _).trans (here.others g other)

/-- The end is found. -/
theorem HostAfter.ended {s₁ : StdinState φ} {eof : Bool} (here : HostAfter std s n eof s₁)
    (left : s₁.pushed ++ (s₁.ahead ++ s₁.rest std) = []) :
    ∃ s', s₁.hostGetc host std = (none, s') ∧ HostAfter std s n true s' := by
  obtain ⟨pushed, left⟩ := List.append_eq_nil_iff.1 left
  obtain ⟨ahead, left⟩ := List.append_eq_nil_iff.1 left
  exact ⟨{ s₁ with eof := true }, StdinState.hostGetc_none host std pushed ahead left, here.pushed,
    here.bytes, here.others, here.fd0, rfl⟩

/-- A call that reads the host's `stdin` takes what it needs from what is pushed back, read ahead, and in
the file. -/
theorem readUntil_hostSource (host : HostRead) (std : φ) (s : StdinState φ)
    (enough : List UInt8 → Bool) {got : List UInt8} {met : Bool}
    (taken : Source.cut enough [] (s.pushed ++ (s.ahead ++ s.rest std)) = (got, met)) :
    ((StdinState.hostSource host std).readUntil enough s []).1 = got ∧
      HostAfter std s got.length (s.eof || met)
        ((StdinState.hostSource host std).readUntil enough s []).2 := by
  obtain ⟨bytes, plenty, ended⟩ := Source.readUntil_sim (StdinState.hostSource host std) enough
    (l := s.pushed ++ (s.ahead ++ s.rest std)) (R := fun n s' => HostAfter std s n s.eof s')
    (E := fun n s' => HostAfter std s n true s')
    (fun n s₁ b tail here left => by
      rw [List.drop_append, ← here.pushed, ← here.bytes] at left
      exact here.next left)
    (fun n s₁ here left => by
      rw [List.drop_append, ← here.pushed, ← here.bytes] at left
      exact here.ended left)
    ⟨rfl, by simp, fun _ _ => rfl, rfl, rfl⟩
  rw [taken] at bytes plenty ended
  refine ⟨bytes, ?_⟩
  cases met with
  | false => simpa using plenty rfl
  | true => simpa using ended rfl

/-! ### Code and stream -/

/-- The stream that the state of the code is. -/
structure Stands (std : φ) (s : StdinState φ) (t : Stdin φ) : Prop where
  bytes : s.ahead ++ s.rest std = t.rest std
  others : ∀ g, g ≠ std → s.rest g = t.rest g
  fd0 : s.fd0 = t.fd0
  pushed : s.pushed = t.pushed
  flag : s.eof = t.eof

omit [DecidableEq φ] in
theorem Suffices.unmet {l : List UInt8} (plenty : Suffices enough l) :
    (Source.cut enough [] l).2 = false := by
  obtain ⟨m, le, done⟩ := plenty
  exact Source.cut_plenty_iff.2 ⟨m, le, done⟩

@[simp] theorem Stdin.drop_pushed : (t.drop n).pushed = t.pushed.drop n := by
  unfold drop
  split <;> rfl

@[simp] theorem Stdin.drop_fd0 : (t.drop n).fd0 = t.fd0 := by
  unfold drop
  split <;> rfl

@[simp] theorem Stdin.drop_eof : (t.drop n).eof = t.eof := by
  unfold drop
  split <;> rfl

theorem Stdin.drop_rest (there : t.fd0 = some f) :
    (t.drop n).rest f = (t.rest f).drop (n - t.pushed.length) := by
  unfold drop
  rw [there]
  exact Function.update_self _ _ _

theorem Stdin.drop_rest_of_ne (other : t.fd0 ≠ some f) : (t.drop n).rest f = t.rest f := by
  unfold drop
  split
  · next g there =>
    refine Function.update_of_ne ?_ _ _
    rintro rfl
    exact other there
  · rfl

/-- Bytes that were pushed back are taken from no file. -/
theorem Stdin.drop_rest_of_le (few : n ≤ t.pushed.length) (g : φ) : (t.drop n).rest g = t.rest g := by
  by_cases there : t.fd0 = some g
  · rw [drop_rest there, Nat.sub_eq_zero_of_le few, List.drop_zero]
  · exact drop_rest_of_ne there

/-- What a read of the host's `stdin` leaves is what the stream has left, while descriptor 0 refers to
the same file or the bytes were pushed back. -/
theorem HostAfter.stands {met eof : Bool} (after : HostAfter std s n eof s') (stands : Stands std s t)
    (same : t.fd0 = some std ∨ n ≤ t.pushed.length) (flag : eof = (t.eof || met && t.fd0.isSome)) :
    Stands std s' ((t.drop n).markEnd met) := by
  have elsewhere (g : φ) (other : g ≠ std) : (t.drop n).rest g = t.rest g := by
    rcases same with there | few
    · refine Stdin.drop_rest_of_ne ?_
      rw [there]
      exact fun eq => other (Option.some.inj eq).symm
    · exact Stdin.drop_rest_of_le few g
  have bytes : (t.rest std).drop (n - t.pushed.length) = (t.drop n).rest std := by
    rcases same with there | few
    · exact (Stdin.drop_rest there).symm
    · rw [Stdin.drop_rest_of_le few, Nat.sub_eq_zero_of_le few, List.drop_zero]
  refine ⟨?_, fun g other => ?_, ?_, ?_, ?_⟩
  · rw [after.bytes, stands.bytes, stands.pushed]
    exact bytes
  · rw [after.others g other, stands.others g other]
    exact (elsewhere g other).symm
  · rw [after.fd0, stands.fd0]
    exact Stdin.drop_fd0.symm
  · rw [after.pushed, stands.pushed]
    exact Stdin.drop_pushed.symm
  · simp [after.flag, flag, Stdin.markEnd]

theorem hostRead_agrees (host : HostRead) (stands : Stands std s t) (ok : HostReadOk std s enough) :
    ((StdinState.hostSource host std).readUntil enough s []).1 = (t.take enough).1 ∧
      Stands std ((StdinState.hostSource host std).readUntil enough s []).2 (t.take enough).2 := by
  obtain ⟨got, met, taken⟩ : ∃ got met,
      Source.cut enough [] (s.pushed ++ (s.ahead ++ s.rest std)) = (got, met) := ⟨_, _, rfl⟩
  obtain ⟨bytes, after⟩ := readUntil_hostSource host std s enough taken
  rw [bytes]
  rw [stands.bytes, stands.pushed] at taken
  rcases ok with there | plenty
  · rw [stands.fd0] at there
    have avail : t.avail = t.pushed ++ t.rest std := by rw [Stdin.avail, Stdin.unread, there]
    rw [Stdin.take, avail, taken]
    exact ⟨rfl, after.stands stands (.inl there) (by rw [stands.flag, there, Option.isSome_some, Bool.and_true])⟩
  · have unmet := plenty.unmet
    rw [stands.pushed] at unmet
    rw [Source.cut_append unmet] at taken
    obtain ⟨m, le, taken_eq, -⟩ := Source.cut_eq_take enough [] t.pushed
    rw [taken] at taken_eq unmet
    obtain rfl : met = false := unmet
    rw [Stdin.take, Stdin.avail, Source.cut_append (by rw [taken]), taken]
    refine ⟨rfl, after.stands stands (.inr ?_) (by simp [stands.flag])⟩
    simp [show got = t.pushed.take m from taken_eq]

/-- What a read of the descriptor leaves is what the stream has left. -/
theorem skip_stands {met : Bool} (stands : Stands std s t) (there : t.fd0 = some f)
    (direct : n = 0 ∨ t.pushed = [] ∧ (f = std → s.ahead = [])) (flag : s.eof = (t.eof || met)) :
    Stands std (s.skip f n) ((t.drop n).markEnd met) := by
  have count : (t.rest f).drop (n - t.pushed.length) = (t.rest f).drop n := by
    rcases direct with rfl | ⟨none_pushed, -⟩
    · rw [Nat.zero_sub]
    · rw [none_pushed, List.length_nil, Nat.sub_zero]
  have here : (t.drop n).rest f = (t.rest f).drop n := (Stdin.drop_rest there).trans count
  have skipped : (s.skip f n).rest f = (s.rest f).drop n := Function.update_self _ _ _
  have elsewhere {g : φ} (other : g ≠ f) : (t.drop n).rest g = t.rest g ∧ (s.skip f n).rest g = s.rest g := by
    refine ⟨Stdin.drop_rest_of_ne ?_, Function.update_of_ne other _ _⟩
    rw [there]
    exact fun eq => other (Option.some.inj eq).symm
  refine ⟨?_, fun g other => ?_, stands.fd0.trans Stdin.drop_fd0.symm, ?_, ?_⟩
  · show s.ahead ++ (s.skip f n).rest std = (t.drop n).rest std
    rcases eq_or_ne std f with rfl | ne
    · rw [skipped, here, ← stands.bytes]
      rcases direct with rfl | ⟨-, none_ahead⟩
      · rfl
      · rw [none_ahead rfl, List.nil_append, List.nil_append]
    · rw [(elsewhere ne).1, (elsewhere ne).2, stands.bytes]
  · show (s.skip f n).rest g = (t.drop n).rest g
    rcases eq_or_ne g f with rfl | ne
    · rw [skipped, here, stands.others g other]
    · rw [(elsewhere ne).1, (elsewhere ne).2, stands.others g other]
  · show s.pushed = (t.drop n).pushed
    rw [Stdin.drop_pushed, stands.pushed]
    rcases direct with rfl | ⟨none_pushed, -⟩
    · rfl
    · rw [none_pushed, List.drop_nil]
  · show s.eof = ((t.drop n).eof || met && (t.drop n).fd0.isSome)
    simp [flag, there]

/-- Reading guest descriptor 0, or the host's `stdin` in its place, is reading the stream. -/
theorem fdRead_agrees (host : HostRead) (stands : Stands std s t) (ok : FdReadOk std s enough) :
    ((StdinState.source host std s.fd0).readUntil enough s []).1 = (t.take enough).1 ∧
      Stands std ((StdinState.source host std s.fd0).readUntil enough s []).2 (t.take enough).2 := by
  cases fd0 : s.fd0 with
  | none =>
    rw [FdReadOk, fd0] at ok
    exact hostRead_agrees host stands (.inr ok)
  | some f =>
    rw [FdReadOk, fd0] at ok
    have there : t.fd0 = some f := stands.fd0.symm.trans fd0
    rw [StdinState.source, readUntil_fdSource, Stdin.take]
    rcases ok with nothing | ⟨none_pushed, none_ahead, flag⟩
    · rw [Source.cut_of_enough nothing, Source.cut_of_enough nothing]
      exact ⟨rfl, skip_stands stands there (.inl rfl) (by simp [stands.flag])⟩
    · have rest : t.rest f = s.rest f := by
        rcases eq_or_ne f std with rfl | ne
        · rw [← stands.bytes, none_ahead rfl, List.nil_append]
        · exact (stands.others f ne).symm
      have avail : t.avail = s.rest f := by
        rw [Stdin.avail, ← stands.pushed, none_pushed, List.nil_append, Stdin.unread, there]
        exact rest
      rw [avail]
      refine ⟨rfl, skip_stands stands there (.inr ⟨stands.pushed ▸ none_pushed, none_ahead⟩) ?_⟩
      rcases flag with set | plenty
      · rw [← stands.flag, set, Bool.true_or]
      · rw [plenty.unmet, Bool.or_false, stands.flag]

theorem freadLoop_eq_readUntil (host : HostRead) (s : StdinState φ) (f : φ) (total : ℕ) :
    s.freadLoop host f total [] = (StdinState.fdSource host f).readUntil (manyBytes total) s [] := by
  have taken : (Source.cut (manyBytes total) [] (s.rest f)).1 = (s.rest f).take total :=
    congrArg Prod.fst (Source.cut_count total [] (s.rest f))
  rw [freadLoop_eq, readUntil_fdSource, taken, List.nil_append, List.length_nil, Nat.sub_zero]
  refine Prod.ext rfl ?_
  rw [StdinState.skip, StdinState.skip, List.length_take]
  rcases Nat.le_total total (s.rest f).length with le | le
  · rw [Nat.min_eq_left le]
  · rw [Nat.min_eq_right le, List.drop_eq_nil_of_le le, List.drop_eq_nil_of_le (Nat.le_refl _)]

/-- Nothing is taken when nothing is enough. -/
theorem Stdin.take_of_enough (nothing : enough [] = true) : t.take enough = ([], t) := by
  rw [take, Source.cut_of_enough nothing]
  refine Prod.ext rfl ?_
  unfold drop markEnd
  cases there : t.fd0 with
  | none => ext1 <;> simp [there]
  | some f => ext1 <;> simp [there]

/-- The step lemma: an allowed call delivers what the stream has, and the two stay together. -/
theorem call_agrees (host : HostRead) {c : StdinCall φ} (stands : Stands std s t)
    (ok : StdinOk std ⟨s, t⟩ c) :
    (s.call host std c).1.bytes = (t.call c).1 ∧ Stands std (s.call host std c).2 (t.call c).2 := by
  cases c with
  | fgetc => exact fdRead_agrees host stands ok
  | getc => exact fdRead_agrees host stands ok
  | fgetwc => exact fdRead_agrees host stands ok
  | fgets buf n =>
    rw [StdinState.call, Stdin.call, StdinState.yosFgets]
    split_ifs with none_asked
    · rw [Stdin.take_of_enough (by simp [lineIn]; omega)]
      exact ⟨rfl, stands⟩
    · exact fdRead_agrees host stands ok
  | fread size nmemb =>
    rw [StdinState.call, Stdin.call, StdinState.yosFread]
    split_ifs with none_asked
    · rw [Stdin.take_of_enough (by rcases none_asked with rfl | rfl <;> simp [manyBytes])]
      exact ⟨rfl, stands⟩
    · have agrees := fdRead_agrees host stands ok
      cases fd0 : s.fd0 with
      | none =>
        rw [fd0] at agrees
        exact agrees
      | some f =>
        rw [fd0] at agrees
        dsimp only
        rw [freadLoop_eq_readUntil]
        exact agrees
  | getline => exact hostRead_agrees host stands ok
  | getdelim delim => exact hostRead_agrees host stands ok
  | fgetln => exact hostRead_agrees host stands ok
  | scanf scan =>
    obtain ⟨ok, whole⟩ := ok
    obtain ⟨bytes, after⟩ := hostRead_agrees host stands ok
    obtain ⟨line, met, taken⟩ : ∃ line met, Source.cut (lineIn 4096) [] t.avail = (line, met) :=
      ⟨_, _, rfl⟩
    have line_eq := (readUntil_hostSource host std s (lineIn 4096) rfl).1
    rw [← List.append_assoc] at line_eq
    rw [Stdin.take, taken] at bytes after
    rw [← line_eq, bytes] at whole
    have used : line.take (scan line).1 = line := List.take_of_length_le whole
    generalize reads : (StdinState.hostSource host std).readUntil (lineIn 4096) s [] = r at bytes after
    obtain ⟨got, s'⟩ := r
    obtain rfl : got = line := bytes
    rw [StdinState.call, Stdin.call, StdinState.yosScanf, reads, taken]
    dsimp only
    rw [used]
    split_ifs with empty
    · exact ⟨empty.symm, after⟩
    · exact ⟨rfl, after⟩
  | ungetc c accepts =>
    rw [StdinState.call, Stdin.call, StdinState.yosUngetc]
    split_ifs
    · exact ⟨rfl, stands⟩
    · exact ⟨rfl, stands.bytes, stands.others, stands.fd0, congrArg _ stands.pushed, rfl⟩
  | feof => exact ⟨rfl, stands⟩
  | clearerr => exact ⟨rfl, stands.bytes, stands.others, stands.fd0, stands.pushed, rfl⟩
  | dup2 f => exact ⟨rfl, stands.bytes, stands.others, rfl, stands.pushed, stands.flag⟩
  | close => exact ⟨rfl, stands.bytes, stands.others, rfl, stands.pushed, stands.flag⟩

end Reading

/-! ## Every run -/

section Runs

variable [DecidableEq φ] {host : HostRead} {std : φ} {content : φ → List UInt8} {s : StdinRun φ}

theorem drop_once {t : Stdin φ} (once : ∀ f, t.read f ++ t.rest f = content f) (n : ℕ) (f : φ) :
    (t.drop n).read f ++ (t.drop n).rest f = content f := by
  unfold Stdin.drop
  cases there : t.fd0 with
  | none => exact once f
  | some g =>
    rcases eq_or_ne f g with rfl | ne
    · simp [List.append_assoc, once]
    · simp [ne, once]

/-- The bytes that were read from a file, and those that are left, are its content. -/
theorem call_once {t : Stdin φ} (once : ∀ f, t.read f ++ t.rest f = content f) (c : StdinCall φ) (f : φ) :
    (t.call c).2.read f ++ (t.call c).2.rest f = content f := by
  cases c with
  | fgetc => exact drop_once once _ f
  | getc => exact drop_once once _ f
  | fgetwc => exact drop_once once _ f
  | fgets buf n => exact drop_once once _ f
  | fread size nmemb => exact drop_once once _ f
  | getline => exact drop_once once _ f
  | getdelim delim => exact drop_once once _ f
  | fgetln => exact drop_once once _ f
  | scanf scan => exact drop_once once _ f
  | ungetc c accepts =>
    rw [Stdin.call]
    split_ifs
    · exact once f
    · exact once f
  | feof => exact once f
  | clearerr => exact once f
  | dup2 g => exact once f
  | close => exact once f

/-- The guest's `stdin` is one stream in every run of allowed calls. -/
theorem one_stream (run : (stdinSystem host std content).ReachableIf (StdinOk std) s) :
    OneStream host std content s := by
  have inv : (∀ f, s.stream.read f ++ s.stream.rest f = content f) ∧ Stands std s.code s.stream := by
    refine run.invariant (I := fun s => (∀ f, s.stream.read f ++ s.stream.rest f = content f) ∧
      Stands std s.code s.stream) (fun s start => ?_) fun s c s' inv ok next => ?_
    · rw [start.1, start.2]
      exact ⟨fun f => List.nil_append _, List.nil_append _, fun _ _ => rfl, rfl, rfl, rfl⟩
    · obtain rfl : s' = _ := next
      exact ⟨call_once inv.1 c, (call_agrees host inv.2 ok).2⟩
  refine ⟨inv.1, fun c ok => (call_agrees host inv.2 ok).1, ?_⟩
  rw [← inv.2.flag]
  show (if s.code.eof = true then (1 : ℤ) else 0) ≠ 0 ↔ _
  split_ifs with flag
  · simp [flag]
  · simp [flag]

end Runs

/-! ### Two calls -/

/-- A host whose `read` returns all that is asked for. -/
def wholeRead : HostRead where
  amount left n := min n left.length
  some left n some_left pos := Nat.lt_min.2 ⟨pos, List.length_pos_iff.2 some_left⟩
  most left n := Nat.min_le_left n left.length
  bufsiz := 4096
  room := by decide

/-- A guest whose `stdin` is the text "ab". -/
def stdinStart : StdinRun Unit :=
  ⟨⟨fun _ => [97, 98], some (), [], [], false⟩, ⟨fun _ => [97, 98], fun _ => [], some (), [], false⟩⟩

/-- The state after a call. -/
def StdinRun.next (s : StdinRun Unit) (c : StdinCall Unit) : StdinRun Unit :=
  ⟨(s.code.call wholeRead () c).2, (s.stream.call c).2⟩

/-- The first byte is read. -/
theorem one_stream_fgetc :
    (stdinStart.next .fgetc).stream.read () = [97] ∧
      OneStream wholeRead () (fun _ => [97, 98]) (stdinStart.next .fgetc) := by
  refine ⟨by decide, one_stream (.step (a := .fgetc) (.init ⟨rfl, rfl⟩) ?_ rfl)⟩
  exact .inr ⟨rfl, fun _ => rfl, .inr ⟨1, by decide, rfl⟩⟩

/-- A byte that was pushed back is not the next one `fgetc` delivers. -/
theorem ungetc_fgetc :
    ¬ ∀ s c, (stdinSystem wholeRead () fun _ => [97, 98]).Reachable s →
      (s.code.call wholeRead () c).1.bytes = (s.stream.call c).1 := by
  intro claim
  have start : (stdinSystem wholeRead () fun _ => [97, 98]).Reachable stdinStart :=
    .start ⟨rfl, rfl⟩
  have same := claim (stdinStart.next (.ungetc 120 true)) .fgetc (start.next rfl)
  have reads := readUntil_fdSource wholeRead (stdinStart.next (.ungetc 120 true)).code () (manyBytes 1)
  have bytes : ((stdinStart.next (.ungetc 120 true)).code.call wholeRead () .fgetc).1.bytes = [97] :=
    congrArg Prod.fst reads
  rw [bytes] at same
  exact absurd same (by decide)

end Yos
