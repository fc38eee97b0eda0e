import Yos.Io.StdinStream
import Yos.Lib.Shared

/-!
# The standard streams of the host (`impl/io/file.c`)

The handles 1, 2 and 3 of every guest are the `stdin`, `stdout` and `stderr` of the host process.  Bytes
are read and written through the descriptors 0, 1 and 2 of the guest; the other calls, and reads and writes
of a guest that has closed the descriptor, act on the streams of the host, which all guests share.

`StreamOk` are the calls that leave these streams as they are: under it no guest disturbs them, and no
guest notices the others (`host_undisturbed`).  A guest's own descriptors are never the host's 0, 1 and 2.
A call on a stream that was closed has no result.
-/

namespace Yos

/-- The standard streams. -/
inductive StdStream where
  | stdin
  | stdout
  | stderr
  deriving DecidableEq

/-- The handle of a stream. -/
def StdStream.handle : StdStream → ℤ
  | .stdin => 1
  | .stdout => 2
  | .stderr => 3

/-- A `FILE` of the host: the open file of its descriptor, what it may be used for, the bytes pushed back,
read ahead and not yet written, its flags and its buffering mode. -/
@[ext] structure HostFile (φ : Type) where
  fd : φ
  readable : Bool
  writable : Bool
  pushed : List UInt8
  ahead : List UInt8
  out : List UInt8
  eof : Bool
  error : Bool
  mode : ℤ

/-- The streams of the host, closed or open, and the unread bytes of each open file. -/
structure HostStreams (φ : Type) where
  file : StdStream → Option (HostFile φ)
  rest : φ → List UInt8

/-- The host: its `read`, what a write leaves in the buffer of a stream, where `lseek` goes from the unread
bytes of a file, the offset it is at, what `write` returns, and which files are terminals. -/
structure HostIo (φ : Type) where
  read : HostRead
  kept : ℤ → List UInt8 → List UInt8 → List UInt8
  seek : φ → List UInt8 → ℤ → ℤ → Option (List UInt8)
  tell : φ → List UInt8 → ℤ
  wrote : φ → List UInt8 → ℤ
  isatty : φ → Bool
  noFfDrop : Bool

/-- What a call delivers and returns; none if it uses a stream that was closed. -/
abbrev StreamResult := Option Delivery

/-- The descriptors 0, 1 and 2 of a guest. -/
abbrev OwnFds (φ : Type) := StdStream → Option φ

variable {ι φ : Type}

/-- `yos_compat_drop_fork_tty_garbage`. -/
def HostIo.drops (host : HostIo φ) (f : φ) (bytes : List UInt8) : Bool :=
  bytes ≠ [] && bytes.length ≤ 16 && !host.noFfDrop && host.isatty f && bytes.all (· == 0xff)

/-! ## The streams of the host -/

section Host

variable [DecidableEq φ] (host : HostIo φ)

/-- `fseek` of a stream: the stream, the unread bytes of its file, and what it returns. -/
def HostFile.fseek (file : HostFile φ) (left : List UInt8) (off whence : ℤ) :
    HostFile φ × List UInt8 × ℤ :=
  let off := if whence = 1 then off - (file.pushed.length + file.ahead.length) else off
  match host.seek file.fd left off whence with
  | none => ({ file with out := [] }, left, -1)
  | some left => ({ file with out := [], pushed := [], ahead := [], eof := false }, left, 0)

/-- Bytes are written to a stream. -/
def HostFile.write (file : HostFile φ) (bytes : List UInt8) : HostFile φ :=
  if file.writable then { file with out := host.kept file.mode file.out bytes }
  else { file with error := true }

namespace HostStreams

variable (s : HostStreams φ) (k : StdStream)

/-- Store a stream. -/
def setFile (file : Option (HostFile φ)) : HostStreams φ :=
  { s with file := Function.update s.file k file }

/-- A call of the host's library on a stream. -/
def onFile (f : HostFile φ → HostStreams φ × Delivery) : HostStreams φ × StreamResult :=
  match s.file k with
  | some file => ((f file).1, some (f file).2)
  | none => (s, none)

/-- A call of the host's library that changes a stream only. -/
def change (f : HostFile φ → HostFile φ × ℤ) : HostStreams φ × StreamResult :=
  s.onFile k fun file => (s.setFile k (some (f file).1), ⟨[], (f file).2⟩)

/-- `yos_fclose`. -/
def yosFclose : HostStreams φ × StreamResult := s.onFile k fun _ => (s.setFile k none, ⟨[], 0⟩)

/-- `yos_freopen`; the file, and whether its mode lets it be read and written. -/
def yosFreopen (target : Option (φ × Bool × Bool)) : HostStreams φ × StreamResult :=
  s.onFile k fun _ =>
    match target with
    | none => (s.setFile k none, ⟨[], 0⟩)
    | some (f, readable, writable) =>
      (s.setFile k (some ⟨f, readable, writable, [], [], [], false, false, 0⟩), ⟨[], k.handle⟩)

/-- `yos_setvbuf`. -/
def yosSetvbuf (mode : ℤ) : HostStreams φ × StreamResult :=
  s.change k fun file => if mode = 0 ∨ mode = 1 ∨ mode = 2 then ({ file with mode }, 0) else (file, -1)

/-- `yos_setbuf`. -/
def yosSetbuf : HostStreams φ × StreamResult := s.yosSetvbuf k 2

/-- `yos_setbuffer`. -/
def yosSetbuffer : HostStreams φ × StreamResult := s.yosSetvbuf k 2

/-- `yos_setlinebuf`. -/
def yosSetlinebuf : HostStreams φ × StreamResult := s.yosSetvbuf k 1

/-- `yos_fseek` and `yos_fseeko`. -/
def yosFseek (off whence : ℤ) : HostStreams φ × StreamResult :=
  s.onFile k fun file =>
    let (sought, left, value) := file.fseek host (s.rest file.fd) off whence
    ({ s.setFile k (some sought) with rest := Function.update s.rest file.fd left }, ⟨[], value⟩)

/-- `yos_rewind`. -/
def yosRewind : HostStreams φ × StreamResult :=
  s.onFile k fun file =>
    let (sought, left, _) := file.fseek host (s.rest file.fd) 0 0
    ({ s.setFile k (some { sought with eof := false, error := false }) with
        rest := Function.update s.rest file.fd left }, ⟨[], 0⟩)

/-- `yos_ungetc`; `accepts` says that the host has room for the byte. -/
def yosUngetc (c : ℤ) (accepts : Bool) : HostStreams φ × StreamResult :=
  s.change k fun file =>
    if c = -1 ∨ accepts = false then (file, -1)
    else
      let byte := UInt8.ofNat (c % 256).toNat
      ({ file with pushed := byte :: file.pushed, eof := false }, byte.toNat)

/-- `yos_clearerr`. -/
def yosClearerr : HostStreams φ × StreamResult :=
  s.change k fun file => ({ file with eof := false, error := false }, 0)

/-- `yos_feof`. -/
def yosFeof : HostStreams φ × StreamResult := s.change k fun file => (file, if file.eof then 1 else 0)

/-- `yos_ferror`. -/
def yosFerror : HostStreams φ × StreamResult :=
  s.change k fun file => (file, if file.error then 1 else 0)

/-- The position of a stream. -/
def position (file : HostFile φ) : ℤ :=
  let at_fd := host.tell file.fd (s.rest file.fd)
  if at_fd < 0 then -1 else at_fd - file.pushed.length - file.ahead.length + file.out.length

/-- `yos_ftell`. -/
def yosFtell : HostStreams φ × StreamResult :=
  s.change k fun file => (file, (s.position host file).bmod (2 ^ 32))

/-- `yos_ftello`. -/
def yosFtello : HostStreams φ × StreamResult := s.change k fun file => (file, s.position host file)

/-- `yos_fileno`. -/
def yosFileno : HostStreams φ × StreamResult := (s, some ⟨[], k.handle - 1⟩)

/-- `yos_fflush`. -/
def yosFflush : HostStreams φ × StreamResult := (s, some ⟨[], 0⟩)

/-- The functions that read through the stream of the host (`yos_getline`, `yos_getdelim`, `fgetln`,
`yos_scanf`), which read until the bytes are enough. -/
def readHost (enough : List UInt8 → Bool) : HostStreams φ × StreamResult :=
  s.onFile k fun file =>
    if file.readable then
      let (got, r) := (StdinState.hostSource host.read file.fd).readUntil enough
        ⟨s.rest, none, file.pushed, file.ahead, file.eof⟩ []
      ({ s.setFile k (some { file with pushed := r.pushed, ahead := r.ahead, eof := r.eof }) with
          rest := r.rest }, ⟨got, got.length⟩)
    else if enough [] then (s, ⟨[], 0⟩)
    else (s.setFile k (some { file with error := true }), ⟨[], 0⟩)

/-- The functions that read through `fd_map` (`yos_fgetc`, `yos_getc`, `yos_fgets`, `yos_fread`,
`yos_fgetwc`), and the stream of the host when the descriptor is closed. -/
def readFd (own : OwnFds φ) (enough : List UInt8 → Bool) : HostStreams φ × StreamResult :=
  match own k with
  | some f =>
    let (got, r) := (StdinState.fdSource host.read f).readUntil enough ⟨s.rest, none, [], [], false⟩ []
    ({ s with rest := r.rest }, some ⟨got, got.length⟩)
  | none => s.readHost host k enough

/-- `yos_fputc` and `yos_putc`. -/
def yosFputc (own : OwnFds φ) (c : ℤ) : HostStreams φ × StreamResult :=
  let byte := UInt8.ofNat (c % 256).toNat
  match own k with
  | some f =>
    (s, some ⟨[], if host.drops f [byte] ∨ host.wrote f [byte] = 1 then byte.toNat else -1⟩)
  | none => s.change k fun file => (file.write host [byte], if file.writable then byte.toNat else -1)

/-- `yos_fputs`. -/
def yosFputs (own : OwnFds φ) (bytes : List UInt8) : HostStreams φ × StreamResult :=
  match own k with
  | some f => (s, some ⟨[], if host.wrote f bytes < 0 then -1 else host.wrote f bytes⟩)
  | none => s.change k fun file => (file.write host bytes, if file.writable then 1 else -1)

/-- `yos_fwrite` of elements of `size` bytes. -/
def yosFwrite (own : OwnFds φ) (size : ℕ) (bytes : List UInt8) : HostStreams φ × StreamResult :=
  if size = 0 then (s, some ⟨[], 0⟩)
  else
    let nmemb : ℤ := (bytes.length / size : ℕ)
    match own k with
    | some f =>
      (s, some ⟨[], if host.drops f bytes then nmemb
        else if host.wrote f bytes ≤ 0 then 0 else host.wrote f bytes / size⟩)
    | none =>
      s.change k fun file =>
        if k ≠ .stdin ∧ host.drops file.fd bytes then (file, nmemb)
        else (file.write host bytes, if file.writable then nmemb else 0)

end HostStreams

/-- The calls on a standard stream. -/
inductive StreamCall (φ : Type) where
  | fclose
  | freopen (target : Option (φ × Bool × Bool))
  | setvbuf (mode : ℤ)
  | setbuf
  | setbuffer
  | setlinebuf
  | fseek (off whence : ℤ)
  | rewind
  | ungetc (c : ℤ) (accepts : Bool)
  | clearerr
  | feof
  | ferror
  | ftell
  | ftello
  | fileno
  | fflush
  | readHost (enough : List UInt8 → Bool)
  | readFd (enough : List UInt8 → Bool)
  | fputc (c : ℤ)
  | fputs (bytes : List UInt8)
  | fwrite (size : ℕ) (bytes : List UInt8)

/-- A call of a guest with the given descriptors. -/
def HostStreams.call (s : HostStreams φ) (own : OwnFds φ) (k : StdStream) :
    StreamCall φ → HostStreams φ × StreamResult
  | .fclose => s.yosFclose k
  | .freopen target => s.yosFreopen k target
  | .setvbuf mode => s.yosSetvbuf k mode
  | .setbuf => s.yosSetbuf k
  | .setbuffer => s.yosSetbuffer k
  | .setlinebuf => s.yosSetlinebuf k
  | .fseek off whence => s.yosFseek host k off whence
  | .rewind => s.yosRewind host k
  | .ungetc c accepts => s.yosUngetc k c accepts
  | .clearerr => s.yosClearerr k
  | .feof => s.yosFeof k
  | .ferror => s.yosFerror k
  | .ftell => s.yosFtell host k
  | .ftello => s.yosFtello host k
  | .fileno => s.yosFileno k
  | .fflush => s.yosFflush
  | .readHost enough => s.readHost host k enough
  | .readFd enough => s.readFd host k own enough
  | .fputc c => s.yosFputc host k own c
  | .fputs bytes => s.yosFputs host k own bytes
  | .fwrite size bytes => s.yosFwrite host k own size bytes

/-- The guests, with their descriptors, share the streams of the host.  `close` and `dup2` change the
guest's own descriptors. -/
def hostShared : Shared (OwnFds φ) Unit (HostStreams φ) (StdStream × StreamCall φ) StreamResult where
  cell _ := ()
  act a own s := (own, s.call host own a.1 a.2)
  resets _ := false
  first _ := false
  reset_act _ resets := by cases resets

/-! ## The calls that leave the streams alone -/

/-- A seek flushes nothing, and fails or stays where the stream is, with nothing read ahead. -/
def SeekOk (left : List UInt8) (file : HostFile φ) (off whence : ℤ) : Prop :=
  file.out = [] ∧ ∀ left', host.seek file.fd left off whence = some left' →
    left' = left ∧ file.pushed = [] ∧ file.ahead = [] ∧ file.eof = false

/-- A read of the stream needs no byte, or meets once more what it met before: the end of the file, or the
error of a stream that is not read. -/
def ReadOk (left : List UInt8) (file : HostFile φ) (enough : List UInt8 → Bool) : Prop :=
  enough [] = true ∨
    if file.readable then file.pushed = [] ∧ file.ahead = [] ∧ left = [] ∧ file.eof = true
    else file.error = true

/-- The host writes the bytes at once, or the stream has met the error before. -/
def WriteOk (file : HostFile φ) (bytes : List UInt8) : Prop :=
  if file.writable then host.kept file.mode file.out bytes = file.out else file.error = true

/-- What a call on the stream `file` must meet to leave it as it is. -/
def FileOk (left : List UInt8) (own : OwnFds φ) (k : StdStream) (file : HostFile φ) :
    StreamCall φ → Prop
  | .fclose | .freopen _ => False
  | .setvbuf mode => mode = file.mode ∨ ¬ (mode = 0 ∨ mode = 1 ∨ mode = 2)
  | .setbuf | .setbuffer => file.mode = 2
  | .setlinebuf => file.mode = 1
  | .fseek off whence =>
    SeekOk host left file
      (if whence = 1 then off - (file.pushed.length + file.ahead.length) else off) whence
  | .rewind => SeekOk host left file 0 0 ∧ file.eof = false ∧ file.error = false
  | .ungetc c accepts => c = -1 ∨ accepts = false
  | .clearerr => file.eof = false ∧ file.error = false
  | .readHost enough => ReadOk left file enough
  | .readFd enough => own k = none → ReadOk left file enough
  | .fputc c => own k = none → WriteOk host file [UInt8.ofNat (c % 256).toNat]
  | .fputs bytes => own k = none → WriteOk host file bytes
  | .fwrite size bytes => own k = none → size ≠ 0 →
      (k ≠ .stdin ∧ host.drops file.fd bytes) ∨ WriteOk host file bytes
  | .feof | .ferror | .ftell | .ftello | .fileno | .fflush => True

/-- The calls that leave the streams of the host alone. -/
def StreamOk (w : Shared.World ι (OwnFds φ) Unit (HostStreams φ)) :
    Shared.Event ι (OwnFds φ) (StdStream × StreamCall φ) → Prop
  | .call i (k, c) => ∀ file, (w.cells ()).file k = some file →
      FileOk host ((w.cells ()).rest file.fd) (w.own i) k file c
  | .own _ _ => True

/-- The event takes bytes from an open file. -/
def TakesInput : Shared.Event ι (OwnFds φ) (StdStream × StreamCall φ) → Prop
  | .call _ (_, .readFd _) => True
  | _ => False

variable {host} {s : HostStreams φ} {k : StdStream} {own : OwnFds φ} {file : HostFile φ}

omit [DecidableEq φ] in
theorem setFile_same (found : s.file k = some file) : s.setFile k (some file) = s := by
  rw [HostStreams.setFile, ← found, Function.update_eq_self]

omit [DecidableEq φ] in
theorem onFile_leaves {f : HostFile φ → HostStreams φ × Delivery}
    (same : ∀ file, s.file k = some file → (f file).1 = s) : (s.onFile k f).1 = s := by
  unfold HostStreams.onFile
  cases found : s.file k with
  | none => rfl
  | some file => exact same file found

omit [DecidableEq φ] in
theorem change_leaves {f : HostFile φ → HostFile φ × ℤ}
    (same : ∀ file, s.file k = some file → (f file).1 = file) : (s.change k f).1 = s :=
  onFile_leaves fun file found => (congrArg (s.setFile k ∘ some) (same file found)).trans (setFile_same found)

omit [DecidableEq φ] in
/-- The mode a stream has, or one that is refused, changes nothing. -/
theorem setvbuf_leaves {mode : ℤ}
    (ok : ∀ file, s.file k = some file → mode = file.mode ∨ ¬ (mode = 0 ∨ mode = 1 ∨ mode = 2)) :
    (s.yosSetvbuf k mode).1 = s := by
  refine change_leaves fun file found => ?_
  rcases ok file found with same | other
  · split_ifs
    · exact HostFile.ext rfl rfl rfl rfl rfl rfl rfl rfl same
    · rfl
  · rw [if_neg other]

omit [DecidableEq φ] in
/-- A seek that is allowed stays where it is. -/
theorem SeekOk.same {left : List UInt8} {off whence : ℤ}
    (ok : SeekOk host left file
      (if whence = 1 then off - (file.pushed.length + file.ahead.length) else off) whence) :
    ∃ value, file.fseek host left off whence = (file, left, value) := by
  obtain ⟨flushed, stays⟩ := ok
  unfold HostFile.fseek
  dsimp only
  have same_out : { file with out := [] } = file := by rw [← flushed]
  cases sought : host.seek file.fd left
      (if whence = 1 then off - (file.pushed.length + file.ahead.length) else off) whence with
  | none => exact ⟨-1, by rw [same_out]⟩
  | some left' =>
    obtain ⟨rfl, pushed, ahead, eof⟩ := stays left' sought
    have same : { file with out := [], pushed := [], ahead := [], eof := false } = file :=
      HostFile.ext rfl rfl rfl pushed.symm ahead.symm flushed.symm eof.symm rfl rfl
    exact ⟨0, by rw [same]⟩

omit [DecidableEq φ] in
theorem WriteOk.same {bytes : List UInt8} (ok : WriteOk host file bytes) : file.write host bytes = file := by
  unfold WriteOk at ok
  unfold HostFile.write
  split_ifs at ok ⊢
  · rw [ok]
  · rw [← ok]

/-- A read that is allowed leaves the stream as it is. -/
theorem readHost_leaves {enough : List UInt8 → Bool}
    (ok : ∀ file, s.file k = some file → ReadOk (s.rest file.fd) file enough) :
    (s.readHost host k enough).1 = s := by
  refine onFile_leaves fun file found => ?_
  dsimp only
  split_ifs with readable nothing
  · have reads : ((StdinState.hostSource host.read file.fd).readUntil enough
        ⟨s.rest, none, file.pushed, file.ahead, file.eof⟩ []).2 =
          ⟨s.rest, none, file.pushed, file.ahead, file.eof⟩ := by
      rcases ok file found with nothing | ended
      · rw [Source.readUntil_of_enough _ _ nothing]
      · rw [if_pos readable] at ended
        obtain ⟨pushed, ahead, left, eof⟩ := ended
        have none_left : (StdinState.hostSource host.read file.fd).get
            ⟨s.rest, none, file.pushed, file.ahead, file.eof⟩ =
              (none, ⟨s.rest, none, file.pushed, file.ahead, true⟩) :=
          StdinState.hostGetc_none host.read file.fd pushed ahead left
        rw [← eof] at none_left
        rw [(Source.readUntil_of_none _ none_left).2, ite_self]
    dsimp only
    rw [reads]
    exact setFile_same found
  · rfl
  · have error : file.error = true := by
      rcases ok file found with enough | ended
      · exact absurd enough nothing
      · rwa [if_neg readable] at ended
    have same : { file with error := true } = file := by rw [← error]
    rw [same]
    exact setFile_same found

/-- An allowed call that reads no file leaves the streams and the files as they are. -/
theorem call_leaves {c : StreamCall φ}
    (ok : ∀ file, s.file k = some file → FileOk host (s.rest file.fd) own k file c)
    (input : ∀ enough, c = .readFd enough → own k = none) : (s.call host own k c).1 = s := by
  cases c with
  | fclose => exact onFile_leaves fun file found => (ok file found).elim
  | freopen target => exact onFile_leaves fun file found => (ok file found).elim
  | setvbuf mode => exact setvbuf_leaves ok
  | setbuf => exact setvbuf_leaves fun file found => .inl (ok file found).symm
  | setbuffer => exact setvbuf_leaves fun file found => .inl (ok file found).symm
  | setlinebuf => exact setvbuf_leaves fun file found => .inl (ok file found).symm
  | fseek off whence =>
    refine onFile_leaves fun file found => ?_
    obtain ⟨value, same⟩ := SeekOk.same (ok file found)
    rw [same]
    dsimp only
    rw [setFile_same found, Function.update_eq_self]
  | rewind =>
    refine onFile_leaves fun file found => ?_
    obtain ⟨stays, eof, error⟩ := ok file found
    have sought : ∃ value, file.fseek host (s.rest file.fd) 0 0 = (file, s.rest file.fd, value) :=
      SeekOk.same stays
    obtain ⟨value, same⟩ := sought
    rw [same]
    dsimp only
    have flags : { file with eof := false, error := false } = file :=
      HostFile.ext rfl rfl rfl rfl rfl rfl eof.symm error.symm rfl
    rw [flags, setFile_same found, Function.update_eq_self]
  | ungetc c accepts =>
    refine change_leaves fun file found => ?_
    have refused : c = -1 ∨ accepts = false := ok file found
    rw [if_pos refused]
  | clearerr =>
    refine change_leaves fun file found => ?_
    obtain ⟨eof, error⟩ := ok file found
    exact HostFile.ext rfl rfl rfl rfl rfl rfl eof.symm error.symm rfl
  | feof => exact change_leaves fun _ _ => rfl
  | ferror => exact change_leaves fun _ _ => rfl
  | ftell => exact change_leaves fun _ _ => rfl
  | ftello => exact change_leaves fun _ _ => rfl
  | fileno => rfl
  | fflush => rfl
  | readHost enough => exact readHost_leaves ok
  | readFd enough =>
    have closed := input enough rfl
    rw [HostStreams.call, HostStreams.readFd, closed]
    exact readHost_leaves fun file found => ok file found closed
  | fputc c =>
    rw [HostStreams.call, HostStreams.yosFputc]
    cases closed : own k with
    | some f => rfl
    | none => exact change_leaves fun file found => (ok file found closed).same
  | fputs bytes =>
    rw [HostStreams.call, HostStreams.yosFputs]
    cases closed : own k with
    | some f => rfl
    | none => exact change_leaves fun file found => (ok file found closed).same
  | fwrite size bytes =>
    rw [HostStreams.call, HostStreams.yosFwrite]
    split_ifs with empty
    · rfl
    · cases closed : own k with
      | some f => rfl
      | none =>
        refine change_leaves fun file found => ?_
        by_cases garbage : k ≠ .stdin ∧ host.drops file.fd bytes = true
        · rw [if_pos garbage]
        · rw [if_neg garbage]
          exact ((ok file found closed empty).resolve_left garbage).same

/-- An allowed call leaves the streams as they are. -/
theorem call_keeps_file {c : StreamCall φ}
    (ok : ∀ file, s.file k = some file → FileOk host (s.rest file.fd) own k file c) :
    (s.call host own k c).1.file = s.file := by
  by_cases input : ∀ enough, c = .readFd enough → own k = none
  · rw [call_leaves ok input]
  · push Not at input
    obtain ⟨enough, rfl, some_fd⟩ := input
    obtain ⟨f, found⟩ := Option.ne_none_iff_exists'.1 some_fd
    rw [HostStreams.call, HostStreams.readFd, found]

/-! ## Every run -/

variable [DecidableEq ι] {w : Shared.World ι (OwnFds φ) Unit (HostStreams φ)}
  {events : List (Shared.Event ι (OwnFds φ) (StdStream × StreamCall φ))}

/-- The streams of the host stay as they are, and no guest sees what the others do, as long as these do not
take the input it reads. -/
theorem host_undisturbed (run : Shared.Throughout (hostShared host) (StreamOk host) w events) :
    ((w.after (hostShared host) events).cells ()).file = (w.cells ()).file ∧
      ∀ i, (∀ e ∈ events, e.party ≠ i → ¬ TakesInput e) →
        (Shared.results (hostShared host) w events).filter (fun r => r.1 = i) =
          Shared.results (hostShared host) w (events.filter fun e => e.party = i) := by
  refine ⟨run.keeps (f := fun cells => (cells ()).file) fun w e ok => ?_, fun i input => ?_⟩
  · cases e with
    | call i a => exact call_keeps_file ok
    | own i g => rfl
  · refine Shared.results_undisturbed rfl rfl (run.imp fun w e mem ok other => ?_)
    cases e with
    | call j a =>
      refine call_leaves ok fun enough reads => absurd ?_ (input _ mem other)
      obtain ⟨k, c⟩ := a
      obtain rfl : c = .readFd enough := reads
      trivial
    | own j g => trivial

end Host

/-! ### Two guests -/

/-- A host with a terminal. -/
def terminalHost : HostIo Unit where
  read := wholeRead
  kept mode out bytes := if mode = 2 then out else out ++ bytes
  seek _ _ _ _ := none
  tell _ _ := -1
  wrote _ bytes := bytes.length
  isatty _ := true
  noFfDrop := false

/-- Two guests that have their three descriptors on the terminal. -/
def twoGuests : Shared.World Bool (OwnFds Unit) Unit (HostStreams Unit) where
  own _ _ := some ()
  cells _ :=
    { file := fun k =>
        match k with
        | .stdin => some ⟨(), true, false, [], [], [], false, false, 0⟩
        | .stdout => some ⟨(), false, true, [], [], [], false, false, 1⟩
        | .stderr => some ⟨(), false, true, [], [], [], false, false, 2⟩
      rest := fun _ => [97, 10] }
  last _ := none

/-- One guest writes while the other asks for the end of its input. -/
theorem host_undisturbed_fputs :
    ((twoGuests.after (hostShared terminalHost)
      [.call false (.stdout, .fputs [98]), .call true (.stdin, .feof)]).cells ()).file =
        (twoGuests.cells ()).file := by
  refine (host_undisturbed ?_).1
  exact ⟨fun _ _ closed => absurd closed (by decide), fun _ _ => trivial, trivial⟩

/-- A guest closes the `stdin` of all others. -/
theorem fclose_disturbs :
    ¬ ∀ events : List (Shared.Event Bool (OwnFds Unit) (StdStream × StreamCall Unit)),
      ((twoGuests.after (hostShared terminalHost) events).cells ()).file = (twoGuests.cells ()).file ∧
        ∀ i, (∀ e ∈ events, e.party ≠ i → ¬ TakesInput e) →
          (Shared.results (hostShared terminalHost) twoGuests events).filter (fun r => r.1 = i) =
            Shared.results (hostShared terminalHost) twoGuests
              (events.filter fun e => e.party = i) := by
  intro claim
  have seen := (claim [.call false (.stdin, .fclose), .call true (.stdin, .feof)]).2 true
    fun e mem other takes => ?_
  · exact absurd seen (by decide)
  · rcases List.mem_cons.1 mem with rfl | mem
    · exact takes
    · obtain rfl := List.mem_singleton.1 mem
      exact other rfl

end Yos
