import Mathlib.Logic.Function.Basic
import Yos.Io.Fd
import Yos.Io.Path

/-!
# FIFOs (`impl/io/fifo.c`)

`mkfifo` keeps a registry of paths with a host pipe each, and marks the path with an empty file.
`yos_mkfifo` and the copy behind `yos_mkfifoat` first take down the registered FIFO of the path and
unlink what the path names, to replace the placeholder of an earlier run, and then create the marker and
the pipe.  So a call on a registered FIFO returns 0 with a new one (`registered_replaced`).  It
touches nothing but the entry and the file of its own path, and where there is no such FIFO and nothing
to unlink it destroys nothing (`mkfifo_own`).

The host is any function that looks up paths; `strdup` of the path is taken to succeed.
-/

namespace Yos

namespace Mkfifo

variable {κ ν χ : Type}

/-! ## The host -/

/-- The files of the host by the directory entry each is at, the open descriptors of the host process
with the directory each is open on, if any, and the directory the process is in. -/
structure HostState (κ ν χ : Type) where
  files : κ → Option ν
  fds : ℕ → Option (Option χ)
  dir : χ

namespace HostState

variable (h : HostState κ ν χ)

/-- A descriptor is opened. -/
def opened (n : ℕ) (dir : Option χ) : HostState κ ν χ :=
  { h with fds := Function.update h.fds n (some dir) }

/-- `close`. -/
def close (n : ℕ) : HostState κ ν χ := { h with fds := Function.update h.fds n none }

/-- A descriptor that was free is opened and closed. -/
theorem close_opened {h : HostState κ ν χ} {n : ℕ} (dir : Option χ) (free : h.fds n = none) :
    (h.opened n dir).close n = h := by
  have fds : Function.update (Function.update h.fds n (some dir)) n none = h.fds := by
    rw [Function.update_idem, ← free, Function.update_eq_self]
  exact congrArg (fun fds => ({ h with fds } : HostState κ ν χ)) fds

theorem close_opened_comm {m n : ℕ} (other : m ≠ n) (dir : Option χ) :
    (h.opened n dir).close m = (h.close m).opened n dir :=
  congrArg (fun fds => ({ h with fds } : HostState κ ν χ)) (Function.update_comm other.symm _ _ _)

end HostState

variable [DecidableEq κ]

/-- How the host looks up paths, and how it answers the calls. -/
structure FifoHost (κ ν χ : Type) [DecidableEq κ] where
  place : (κ → Option ν) → χ → List UInt8 → Option κ
  removable : (κ → Option ν) → κ → Bool
  placeholder : UInt32 → ν
  createAt : HostState κ ν χ → List UInt8 → Except ℕ (κ × ℕ)
  pipeEnds : HostState κ ν χ → Except ℕ (ℕ × ℕ)
  malloc : HostState κ ν χ → Bool
  openDot : HostState κ ν χ → Option ℕ
  fchdirTo : HostState κ ν χ → ℤ → Except ℕ χ
  getcwd : (κ → Option ν) → χ → Except ℕ (List UInt8)
  /-- `O_EXCL`. -/
  exclusive : ∀ h p k n, createAt h p = .ok (k, n) →
    place h.files h.dir p = some k ∧ h.files k = none ∧ h.fds n = none
  pipe_free : ∀ h r w, pipeEnds h = .ok (r, w) → h.fds r = none ∧ h.fds w = none ∧ r ≠ w
  openDot_free : ∀ h n, openDot h = some n → h.fds n = none
  /-- A path still leads to the entry where it created a file. -/
  created : ∀ files dir p k f, place files dir p = some k → files k = none →
    place (Function.update files k (some f)) dir p = some k
  /-- A path leads to no other entry after the file of its entry is gone. -/
  removed : ∀ files dir p k k', place files dir p = some k →
    place (Function.update files k none) dir p = some k' → k' = k
  /-- The process can unlink the file it has just created. -/
  marker_removable : ∀ h p k n mode, createAt h p = .ok (k, n) →
    removable (Function.update h.files k (some (placeholder mode))) k = true
  absolute : ∀ files dir dir' p, isAbs p = true → place files dir p = place files dir' p
  getcwd_abs : ∀ files dir p, getcwd files dir = .ok p → isAbs p = true

/-- The error numbers the bridges set. -/
def enomem : ℕ := 12
def efault : ℕ := 14

namespace HostState

variable (host : FifoHost κ ν χ) (h : HostState κ ν χ) (p : List UInt8)

/-- The entry of the file that `unlink` removes. -/
def victim : Option κ :=
  (host.place h.files h.dir p).filter fun k => (h.files k).isSome && host.removable h.files k

/-- `unlink`. -/
def unlink : HostState κ ν χ :=
  match h.victim host p with
  | some k => { h with files := Function.update h.files k none }
  | none => h

/-- `open` with `O_WRONLY | O_CREAT | O_EXCL`. -/
def create (mode : UInt32) : Except ℕ (HostState κ ν χ × ℕ) :=
  match host.createAt h p with
  | .ok (k, n) =>
    .ok (({ h with files := Function.update h.files k (some (host.placeholder mode)) } :
      HostState κ ν χ).opened n none, n)
  | .error e => .error e

/-- `pipe`. -/
def pipe : Except ℕ (HostState κ ν χ × ℕ × ℕ) :=
  match host.pipeEnds h with
  | .ok (rfd, wfd) => .ok ((h.opened rfd none).opened wfd none, rfd, wfd)
  | .error e => .error e

/-- The descriptor that remembers the working directory is open. -/
def openSaved : Option ℕ → HostState κ ν χ
  | some n => h.opened n (some h.dir)
  | none => h

/-- It is closed. -/
def closeSaved : Option ℕ → HostState κ ν χ
  | some n => h.close n
  | none => h

/-- The host goes back to it, if it can. -/
def goBack : Option ℕ → HostState κ ν χ
  | some n =>
    match host.fchdirTo h n with
    | .ok dir => { h with dir := dir }
    | .error _ => h
  | none => h

end HostState

/-! ## The bridges -/

/-- `struct fifo_entry`. -/
structure FifoEntry where
  path : List UInt8
  rfd : ℕ
  wfd : ℕ
deriving DecidableEq, Repr

/-- The registry of a context, `fifo_head`, and the host. -/
structure FifoState (κ ν χ : Type) where
  fifos : List FifoEntry
  host : HostState κ ν χ

/-- The fields of the context the bridges read. -/
structure FifoCtx where
  cwd : List UInt8
  umask : UInt32

namespace FifoState

variable (host : FifoHost κ ν χ) (s : FifoState κ ν χ) (p : List UInt8)

/-- The registered FIFO of a path. -/
def entry : Option FifoEntry := s.fifos.find? fun e => e.path = p

/-- The first loop: the registered FIFO of the path is taken down. -/
def tearDown : FifoState κ ν χ :=
  match s.entry p with
  | some old =>
    { fifos := s.fifos.eraseP fun e => e.path = p, host := (s.host.close old.rfd).close old.wfd }
  | none => s

/-- The part that follows the marker: the pipe and its entry. -/
def addPipe : FifoState κ ν χ × Except ℕ Unit :=
  match s.host.pipe host with
  | .error e => ({ s with host := s.host.unlink host p }, .error e)
  | .ok (h, rfd, wfd) =>
    if host.malloc h then ({ fifos := ⟨p, rfd, wfd⟩ :: s.fifos, host := h }, .ok ())
    else ({ s with host := ((h.close rfd).close wfd).unlink host p }, .error enomem)

/-- The body that `yos_mkfifo` and `yos_mkfifo_path` share. -/
def makeFifo (mode : UInt32) : FifoState κ ν χ × Except ℕ Unit :=
  let s := s.tearDown p
  let h := s.host.unlink host p
  match h.create host p mode with
  | .error e => ({ s with host := h }, .error e)
  | .ok (h, marker) => ({ s with host := h.close marker } : FifoState κ ν χ).addPipe host p

/-- `yos_mkfifo`.  There is no string when the pointer lies outside the memory. -/
def yosMkfifo (ctx : FifoCtx) (raw : Option (List UInt8)) (mode : UInt16) :
    FifoState κ ν χ × Except ℕ Unit :=
  match raw with
  | none => (s, .error efault)
  | some raw =>
    s.makeFifo host (yosPathResolve ctx.cwd raw) (mode.toUInt32 &&& 0o777 &&& ~~~ ctx.umask)

/-- `yos_mkfifo_path`. -/
def yosMkfifoPath (mode : UInt32) : FifoState κ ν χ × Except ℕ Unit :=
  s.makeFifo host p (mode &&& 0o777)

/-- The directory of `yos_mkfifoat`: the host enters it, asks where it is, and goes back to the directory
it opened before. -/
def dirPath (hdfd : ℤ) : HostState κ ν χ × Except ℕ (List UInt8) :=
  if hdfd = atFdcwd then (s.host, host.getcwd s.host.files s.host.dir)
  else
    let saved := host.openDot s.host
    let h := s.host.openSaved saved
    match host.fchdirTo h hdfd with
    | .error e => (h.closeSaved saved, .error e)
    | .ok dir =>
      let h := { h with dir := dir }
      ((h.goBack host saved).closeSaved saved, host.getcwd h.files h.dir)

/-- `yos_mkfifoat`; `hdfd` is what `yos_xlate_dfd` makes of the descriptor. -/
def yosMkfifoat (ctx : FifoCtx) (hdfd : ℤ) (raw : Option (List UInt8)) (mode : UInt16) :
    FifoState κ ν χ × Except ℕ Unit :=
  match raw with
  | none => (s, .error efault)
  | some raw =>
    if isAbs raw then s.yosMkfifo host ctx (some raw) mode
    else
      match s.dirPath host hdfd with
      | (h, .error e) => ({ s with host := h }, .error e)
      | (h, .ok dir) =>
        ({ s with host := h } : FifoState κ ν χ).yosMkfifoPath host
          ((dir ++ slash :: raw).take 4095) mode.toUInt32

end FifoState

/-- The calls of a guest. -/
inductive MkfifoCall where
  | mkfifo (raw : Option (List UInt8)) (mode : UInt16)
  | mkfifoat (hdfd : ℤ) (raw : Option (List UInt8)) (mode : UInt16)

namespace MkfifoCall

variable (host : FifoHost κ ν χ) (ctx : FifoCtx) (s : FifoState κ ν χ)

/-- The call. -/
def run : MkfifoCall → FifoState κ ν χ × Except ℕ Unit
  | .mkfifo raw mode => s.yosMkfifo host ctx raw mode
  | .mkfifoat hdfd raw mode => s.yosMkfifoat host ctx hdfd raw mode

/-- The path the call is about, if it gets that far. -/
def target : MkfifoCall → Option (List UInt8)
  | .mkfifo raw _ => raw.map (yosPathResolve ctx.cwd)
  | .mkfifoat hdfd raw _ =>
    raw.bind fun raw =>
      if isAbs raw then some (yosPathResolve ctx.cwd raw)
      else
        match (s.dirPath host hdfd).2 with
        | .ok dir => some ((dir ++ slash :: raw).take 4095)
        | .error _ => none

end MkfifoCall

/-! ## What should hold -/

/-- A call that fails leaves the FIFOs, the files and the open descriptors as they were, and one that
succeeds finds no FIFO and no file at its path. -/
def DestroysNothing (host : FifoHost κ ν χ) (s : FifoState κ ν χ) (p : Option (List UInt8))
    (done : FifoState κ ν χ × Except ℕ Unit) : Prop :=
  match done.2 with
  | .error _ => done.1.fifos = s.fifos ∧ done.1.host.files = s.host.files ∧
      done.1.host.fds = s.host.fds
  | .ok () => ∃ q, p = some q ∧ s.entry q = none ∧
      ∃ k, host.place s.host.files s.host.dir q = some k ∧ s.host.files k = none

/-- The call touches nothing but what belongs to its path, and destroys nothing where the path has no
FIFO and no file that `unlink` removes.  If it succeeds, the path has one new FIFO in place of the old
one, with a new pipe, and a placeholder. -/
structure Own (host : FifoHost κ ν χ) (s : FifoState κ ν χ) (p : Option (List UInt8))
    (done : FifoState κ ν χ × Except ℕ Unit) : Prop where
  fifos : ∀ q, p ≠ some q →
    (done.1.fifos.filter fun e => e.path = q) = s.fifos.filter fun e => e.path = q
  files : ∀ k, (∀ q, p = some q → host.place s.host.files s.host.dir q ≠ some k) →
    done.1.host.files k = s.host.files k
  fds : ∀ n, (s.host.fds n).isSome →
    (∀ q e, p = some q → s.entry q = some e → n ≠ e.rfd ∧ n ≠ e.wfd) →
    done.1.host.fds n = s.host.fds n
  made : done.2 = .ok () → ∃ q rfd wfd k mode, p = some q ∧
    done.1.fifos = ⟨q, rfd, wfd⟩ :: s.fifos.eraseP (fun e => e.path = q) ∧
    (done.1.host.fds rfd).isSome ∧ (done.1.host.fds wfd).isSome ∧
    host.place s.host.files s.host.dir q = some k ∧
    done.1.host.files k = some (host.placeholder mode)
  bare : (∀ q, p = some q → s.entry q = none ∧ s.host.victim host q = none) →
    DestroysNothing host s p done

/-! ## The host calls -/

section HostCalls

variable {host : FifoHost κ ν χ} {h : HostState κ ν χ} {p : List UInt8} {k : κ} {n : ℕ}

theorem victim_eq_some (removes : h.victim host p = some k) :
    host.place h.files h.dir p = some k ∧ (h.files k).isSome := by
  obtain ⟨place, cond⟩ := Option.filter_eq_some_iff.1 removes
  exact ⟨place, (Bool.and_eq_true_iff.1 cond).1⟩

theorem unlink_of_none (keeps : h.victim host p = none) : h.unlink host p = h := by
  rw [HostState.unlink, keeps]

theorem unlink_fds : (h.unlink host p).fds = h.fds := by
  unfold HostState.unlink
  cases h.victim host p <;> rfl

theorem unlink_dir : (h.unlink host p).dir = h.dir := by
  unfold HostState.unlink
  cases h.victim host p <;> rfl

theorem unlink_files (other : host.place h.files h.dir p ≠ some k) :
    (h.unlink host p).files k = h.files k := by
  unfold HostState.unlink
  cases removes : h.victim host p with
  | none => rfl
  | some k' =>
    refine Function.update_of_ne (fun same => ?_) _ _
    exact other (same ▸ (victim_eq_some removes).1)

/-- After `unlink` the path leads to the entry it led to. -/
theorem place_unlink (place : host.place (h.unlink host p).files (h.unlink host p).dir p = some k) :
    host.place h.files h.dir p = some k := by
  rw [unlink_dir] at place
  unfold HostState.unlink at place
  cases removes : h.victim host p with
  | none => simpa only [removes] using place
  | some k' =>
    rw [removes] at place
    have before := (victim_eq_some removes).1
    rwa [host.removed _ _ _ _ _ before place]

/-- The state after a file was created at an entry. -/
def HostState.marked (host : FifoHost κ ν χ) (h : HostState κ ν χ) (k : κ) (mode : UInt32) :
    HostState κ ν χ :=
  { h with files := Function.update h.files k (some (host.placeholder mode)) }

/-- A file that was just created is removed again. -/
theorem unlink_marked {mode : UInt32} (creates : host.createAt h p = .ok (k, n)) :
    (h.marked host k mode).unlink host p = h := by
  obtain ⟨place, nothing, -⟩ := host.exclusive h p k n creates
  have victim : (h.marked host k mode).victim host p = some k := by
    rw [HostState.victim, HostState.marked, host.created _ _ _ _ _ place nothing]
    simp [host.marker_removable h p k n mode creates]
  have back : Function.update (h.marked host k mode).files k none = h.files := by
    rw [HostState.marked, Function.update_idem, ← nothing, Function.update_eq_self]
  rw [HostState.unlink, victim]
  exact congrArg (fun files => ({ h with files } : HostState κ ν χ)) back

/-- The ends of a new pipe are closed again. -/
theorem close_pipe {h' : HostState κ ν χ} {rfd wfd : ℕ} (pipe : h.pipe host = .ok (h', rfd, wfd)) :
    (h'.close rfd).close wfd = h := by
  unfold HostState.pipe at pipe
  cases ends : host.pipeEnds h with
  | error e => simp [ends] at pipe
  | ok new =>
    obtain ⟨r, w⟩ := new
    obtain ⟨free_r, free_w, distinct⟩ := host.pipe_free h r w ends
    simp only [ends, Except.ok.injEq, Prod.mk.injEq] at pipe
    obtain ⟨rfl, rfl, rfl⟩ := pipe
    rw [HostState.close_opened_comm _ distinct, HostState.close_opened _ free_r,
      HostState.close_opened _ free_w]

/-- What `pipe` does. -/
theorem pipe_eq_ok {h' : HostState κ ν χ} {rfd wfd : ℕ} (pipe : h.pipe host = .ok (h', rfd, wfd)) :
    h' = (h.opened rfd none).opened wfd none ∧ h.fds rfd = none ∧ h.fds wfd = none := by
  unfold HostState.pipe at pipe
  cases ends : host.pipeEnds h with
  | error e => simp [ends] at pipe
  | ok new =>
    obtain ⟨r, w⟩ := new
    simp only [ends, Except.ok.injEq, Prod.mk.injEq] at pipe
    obtain ⟨rfl, rfl, rfl⟩ := pipe
    exact ⟨rfl, (host.pipe_free h r w ends).1, (host.pipe_free h r w ends).2.1⟩

/-- The state after the marker was created and closed. -/
theorem close_create {h' : HostState κ ν χ} {marker : ℕ} {mode : UInt32}
    (creates : h.create host p mode = .ok (h', marker)) :
    ∃ k, host.createAt h p = .ok (k, marker) ∧
      h'.close marker = h.marked host k mode := by
  unfold HostState.create at creates
  cases at_entry : host.createAt h p with
  | error e => simp [at_entry] at creates
  | ok new =>
    obtain ⟨k, n⟩ := new
    simp only [at_entry, Except.ok.injEq, Prod.mk.injEq] at creates
    obtain ⟨rfl, rfl⟩ := creates
    refine ⟨k, rfl, HostState.close_opened none ?_⟩
    exact (host.exclusive h p k n at_entry).2.2

end HostCalls

/-! ## One call -/

section OneCall

variable {host : FifoHost κ ν χ} {s s' : FifoState κ ν χ} {p : List UInt8} {mode : UInt32}

theorem addPipe_error {e : ℕ} (done : s.addPipe host p = (s', .error e)) :
    s' = { s with host := s.host.unlink host p } := by
  unfold FifoState.addPipe at done
  generalize pipes : s.host.pipe host = result at done
  cases result with
  | error e' => exact (Prod.mk.injEq .. ▸ done).1.symm
  | ok ends =>
    obtain ⟨h, rfd, wfd⟩ := ends
    simp only at done
    split_ifs at done with room
    · simp at done
    · rw [close_pipe pipes] at done
      exact (Prod.mk.injEq .. ▸ done).1.symm

theorem addPipe_ok (done : s.addPipe host p = (s', .ok ())) :
    ∃ rfd wfd, s.host.fds rfd = none ∧ s.host.fds wfd = none ∧
      s' = { fifos := ⟨p, rfd, wfd⟩ :: s.fifos, host := (s.host.opened rfd none).opened wfd none } := by
  unfold FifoState.addPipe at done
  generalize pipes : s.host.pipe host = result at done
  cases result with
  | error e' => simp at done
  | ok ends =>
    obtain ⟨h, rfd, wfd⟩ := ends
    obtain ⟨rfl, free_r, free_w⟩ := pipe_eq_ok pipes
    simp only at done
    split_ifs at done with room
    · exact ⟨rfd, wfd, free_r, free_w, (Prod.mk.injEq .. ▸ done).1.symm⟩
    · simp at done

/-- The state after the teardown and the `unlink`. -/
def FifoState.cleared (host : FifoHost κ ν χ) (s : FifoState κ ν χ) (p : List UInt8) :
    FifoState κ ν χ :=
  { s.tearDown p with host := (s.tearDown p).host.unlink host p }

/-- A call that fails has done nothing but the teardown and the `unlink`. -/
theorem makeFifo_error {e : ℕ} (done : s.makeFifo host p mode = (s', .error e)) :
    s' = s.cleared host p := by
  unfold FifoState.makeFifo at done
  simp only at done
  generalize opens : ((s.tearDown p).host.unlink host p).create host p mode = result at done
  cases result with
  | error e' => exact (Prod.mk.injEq .. ▸ done).1.symm
  | ok new =>
    obtain ⟨h, marker⟩ := new
    obtain ⟨k, creates, marked⟩ := close_create opens
    simp only [marked] at done
    rw [addPipe_error done, unlink_marked creates]
    rfl

/-- A call that succeeds found nothing after the teardown and the `unlink`. -/
theorem makeFifo_ok (done : s.makeFifo host p mode = (s', .ok ())) :
    ∃ k rfd wfd,
      host.place (s.cleared host p).host.files (s.cleared host p).host.dir p = some k ∧
      (s.cleared host p).host.files k = none ∧
      (s.cleared host p).host.fds rfd = none ∧ (s.cleared host p).host.fds wfd = none ∧
      s' = { fifos := ⟨p, rfd, wfd⟩ :: (s.cleared host p).fifos,
             host := (((s.cleared host p).host.marked host k mode).opened rfd none).opened wfd none } := by
  unfold FifoState.makeFifo at done
  simp only at done
  generalize opens : ((s.tearDown p).host.unlink host p).create host p mode = result at done
  cases result with
  | error e' => simp at done
  | ok new =>
    obtain ⟨h, marker⟩ := new
    obtain ⟨k, creates, marked⟩ := close_create opens
    simp only [marked] at done
    obtain ⟨rfd, wfd, free_r, free_w, same⟩ := addPipe_ok done
    obtain ⟨place, nothing, -⟩ := host.exclusive _ p k marker creates
    exact ⟨k, rfd, wfd, place, nothing, free_r, free_w, same⟩

/-! ### The teardown and the `unlink` -/

omit [DecidableEq κ] in
theorem tearDown_files : (s.tearDown p).host.files = s.host.files := by
  unfold FifoState.tearDown
  cases s.entry p <;> rfl

omit [DecidableEq κ] in
theorem tearDown_dir : (s.tearDown p).host.dir = s.host.dir := by
  unfold FifoState.tearDown
  cases s.entry p <;> rfl

theorem cleared_fifos : (s.cleared host p).fifos = s.fifos.eraseP fun e => e.path = p := by
  show (s.tearDown p).fifos = _
  unfold FifoState.tearDown
  cases found : s.entry p with
  | some old => rfl
  | none => exact (List.eraseP_of_forall_not (by simpa [FifoState.entry] using found)).symm

/-- The FIFOs of another path stay. -/
theorem filter_eraseP {q : List UInt8} (other : q ≠ p) (fifos : List FifoEntry) :
    ((fifos.eraseP fun e => e.path = p).filter fun e => e.path = q) =
      fifos.filter fun e => e.path = q := by
  induction fifos with
  | nil => rfl
  | cons e fifos ih =>
    by_cases own : e.path = p
    · have kept : e.path ≠ q := fun same => other (same.symm.trans own)
      rw [List.eraseP_cons_of_pos (by simpa using own), List.filter_cons_of_neg (by simpa using kept)]
    · rw [List.eraseP_cons_of_neg (by simpa using own), List.filter_cons, List.filter_cons, ih]

theorem cleared_files {k : κ} (other : host.place s.host.files s.host.dir p ≠ some k) :
    (s.cleared host p).host.files k = s.host.files k := by
  show ((s.tearDown p).host.unlink host p).files k = _
  rw [unlink_files (by rwa [tearDown_files, tearDown_dir]), tearDown_files]

theorem cleared_fds {n : ℕ} (other : ∀ e, s.entry p = some e → n ≠ e.rfd ∧ n ≠ e.wfd) :
    (s.cleared host p).host.fds n = s.host.fds n := by
  show ((s.tearDown p).host.unlink host p).fds n = _
  rw [unlink_fds]
  unfold FifoState.tearDown
  cases found : s.entry p with
  | none => rfl
  | some old =>
    obtain ⟨not_read, not_write⟩ := other old found
    exact (Function.update_of_ne not_write _ _).trans (Function.update_of_ne not_read _ _)

theorem place_cleared {k : κ}
    (place : host.place (s.cleared host p).host.files (s.cleared host p).host.dir p = some k) :
    host.place s.host.files s.host.dir p = some k := by
  have before := place_unlink place
  rwa [tearDown_files, tearDown_dir] at before

theorem cleared_of_bare (unregistered : s.entry p = none) (keeps : s.host.victim host p = none) :
    s.cleared host p = s := by
  have same : s.tearDown p = s := by
    unfold FifoState.tearDown
    rw [unregistered]
  rw [FifoState.cleared, same, unlink_of_none keeps]

/-! ### What the call owns -/

theorem own_makeFifo (s : FifoState κ ν χ) (p : List UInt8) (mode : UInt32) :
    Own host s (some p) (s.makeFifo host p mode) := by
  generalize outcome : s.makeFifo host p mode = done
  obtain ⟨s', r⟩ := done
  cases r with
  | error e =>
    obtain rfl := makeFifo_error outcome
    exact
      { fifos := fun q other => by
          rw [cleared_fifos]
          exact filter_eraseP (fun same => other (congrArg some same.symm)) s.fifos
        files := fun k other => cleared_files (other p rfl)
        fds := fun n _ other => cleared_fds fun e => other p e rfl
        made := fun success => by cases success
        bare := fun nothing => by
          obtain ⟨unregistered, keeps⟩ := nothing p rfl
          rw [cleared_of_bare unregistered keeps]
          exact ⟨rfl, rfl, rfl⟩ }
  | ok _ =>
    obtain ⟨k, rfd, wfd, place, nothing, free_r, free_w, rfl⟩ := makeFifo_ok outcome
    have at_path := place_cleared place
    exact
      { fifos := fun q other => by
          have distinct : p ≠ q := fun same => other (congrArg some same)
          rw [List.filter_cons_of_neg (by simpa using distinct), cleared_fifos]
          exact filter_eraseP distinct.symm s.fifos
        files := fun k' other => by
          have distinct : k' ≠ k := fun same => other p rfl (same ▸ at_path)
          exact (Function.update_of_ne distinct _ _).trans (cleared_files (other p rfl))
        fds := fun n is_open other => by
          have kept : (s.cleared host p).host.fds n = s.host.fds n := cleared_fds (other p · rfl)
          have not_read : n ≠ rfd := by
            rintro rfl
            rw [← kept, free_r] at is_open
            cases is_open
          have not_write : n ≠ wfd := by
            rintro rfl
            rw [← kept, free_w] at is_open
            cases is_open
          exact ((Function.update_of_ne not_write _ _).trans
            (Function.update_of_ne not_read _ _)).trans kept
        made := fun _ => by
          refine ⟨p, rfd, wfd, k, mode, rfl, ?_, ?_, ?_, at_path, Function.update_self ..⟩
          · rw [cleared_fifos]
          · rcases eq_or_ne rfd wfd with rfl | distinct
            · simp [HostState.opened]
            · simp [HostState.opened, distinct]
          · simp [HostState.opened]
        bare := fun bare => by
          obtain ⟨unregistered, keeps⟩ := bare p rfl
          rw [cleared_of_bare unregistered keeps] at nothing
          exact ⟨p, rfl, unregistered, k, at_path, nothing⟩ }

end OneCall

/-! ## The directory of `mkfifoat` -/

section Directory

variable {host : FifoHost κ ν χ} {s : FifoState κ ν χ}

omit [DecidableEq κ] in
theorem closeSaved_files (h : HostState κ ν χ) (saved : Option ℕ) :
    (h.closeSaved saved).files = h.files := by
  cases saved <;> rfl

/-- The descriptor is open only meanwhile. -/
theorem closeSaved_fds {h h' : HostState κ ν χ} {saved : Option ℕ} (saves : host.openDot h = saved)
    (same : h'.fds = (h.openSaved saved).fds) : (h'.closeSaved saved).fds = h.fds := by
  cases saved with
  | none => exact same
  | some n =>
    have back := congrArg HostState.fds
      (HostState.close_opened (some h.dir) (host.openDot_free h n saves))
    rw [← back]
    exact congrArg (fun fds => Function.update fds n none) same

theorem goBack_files (h : HostState κ ν χ) (saved : Option ℕ) :
    (h.goBack host saved).files = h.files := by
  cases saved with
  | none => rfl
  | some n =>
    simp only [HostState.goBack]
    split <;> rfl

theorem goBack_fds (h : HostState κ ν χ) (saved : Option ℕ) : (h.goBack host saved).fds = h.fds := by
  cases saved with
  | none => rfl
  | some n =>
    simp only [HostState.goBack]
    split <;> rfl

omit [DecidableEq κ] in
theorem openSaved_files (h : HostState κ ν χ) (saved : Option ℕ) :
    (h.openSaved saved).files = h.files := by
  cases saved <;> rfl

/-- `mkfifoat` does nothing to the files on the way, and leaves no descriptor open. -/
theorem dirPath_keeps (hdfd : ℤ) :
    (s.dirPath host hdfd).1.files = s.host.files ∧ (s.dirPath host hdfd).1.fds = s.host.fds := by
  unfold FifoState.dirPath
  split_ifs
  · exact ⟨rfl, rfl⟩
  · simp only
    cases host.fchdirTo (s.host.openSaved (host.openDot s.host)) hdfd with
    | error e =>
      exact ⟨by rw [closeSaved_files, openSaved_files], closeSaved_fds rfl rfl⟩
    | ok dir =>
      refine ⟨?_, closeSaved_fds rfl (goBack_fds _ _)⟩
      rw [closeSaved_files, goBack_files]
      exact openSaved_files _ _

/-- The directory has an absolute path. -/
theorem dirPath_abs {hdfd : ℤ} {dir : List UInt8} (found : (s.dirPath host hdfd).2 = .ok dir) :
    isAbs dir = true := by
  unfold FifoState.dirPath at found
  split_ifs at found
  · exact host.getcwd_abs _ _ _ found
  · simp only at found
    cases enters : host.fchdirTo (s.host.openSaved (host.openDot s.host)) hdfd with
    | error e => simp [enters] at found
    | ok d =>
      rw [enters] at found
      exact host.getcwd_abs _ _ _ found

/-- What a call owns does not depend on the directory of the host process, if its path is absolute. -/
theorem Own.moved {h : HostState κ ν χ} {p : List UInt8}
    {done : FifoState κ ν χ × Except ℕ Unit} (abs : isAbs p = true)
    (files : h.files = s.host.files) (fds : h.fds = s.host.fds)
    (own : Own host { s with host := h } (some p) done) : Own host s (some p) done := by
  obtain ⟨fifos, ⟨old_files, old_fds, dir⟩⟩ := s
  obtain ⟨new_files, new_fds, dir'⟩ := h
  obtain rfl : new_files = old_files := files
  obtain rfl : new_fds = old_fds := fds
  have place := host.absolute new_files dir' dir p abs
  have victim : HostState.victim host ⟨new_files, new_fds, dir'⟩ p =
      HostState.victim host ⟨new_files, new_fds, dir⟩ p := congrArg (Option.filter _) place
  exact
    { fifos := own.fifos
      files := fun k other => own.files k fun q same => by
        obtain rfl := Option.some.inj same
        exact place.symm ▸ other p rfl
      fds := own.fds
      made := fun success => by
        obtain ⟨q, rfd, wfd, k, mode, same, rest⟩ := own.made success
        obtain rfl := Option.some.inj same
        exact ⟨p, rfd, wfd, k, mode, rfl, rest.1, rest.2.1, rest.2.2.1, place ▸ rest.2.2.2.1,
          rest.2.2.2.2⟩
      bare := fun bare => by
        have kept := own.bare fun q same => by
          obtain rfl := Option.some.inj same
          exact ⟨(bare p rfl).1, victim.trans (bare p rfl).2⟩
        unfold DestroysNothing at kept ⊢
        cases outcome : done.2 with
        | error e => simpa only [outcome] using kept
        | ok _ =>
          simp only [outcome] at kept ⊢
          obtain ⟨q, same, unregistered, k, at_path, nothing⟩ := kept
          obtain rfl := Option.some.inj same
          exact ⟨p, rfl, unregistered, k, place ▸ at_path, nothing⟩ }

end Directory

/-! ## The calls -/

section Calls

variable {host : FifoHost κ ν χ} {s : FifoState κ ν χ}

/-- A call that is refused before it has a path. -/
theorem own_refused {h : HostState κ ν χ} (files : h.files = s.host.files) (fds : h.fds = s.host.fds)
    (e : ℕ) : Own host s none ({ s with host := h }, .error e) where
  fifos _ _ := rfl
  files k _ := congrFun files k
  fds n _ _ := congrFun fds n
  made success := by cases success
  bare _ := ⟨rfl, files, fds⟩

/-- `mkfifo` and `mkfifoat` touch nothing but what belongs to their path. -/
theorem mkfifo_own (host : FifoHost κ ν χ) (ctx : FifoCtx) (s : FifoState κ ν χ) (c : MkfifoCall) :
    Own host s (c.target host ctx s) (c.run host ctx s) := by
  cases c with
  | mkfifo raw mode =>
    cases raw with
    | none => exact own_refused rfl rfl efault
    | some raw => exact own_makeFifo s _ _
  | mkfifoat hdfd raw mode =>
    cases raw with
    | none => exact own_refused rfl rfl efault
    | some raw =>
      simp only [MkfifoCall.target, MkfifoCall.run, FifoState.yosMkfifoat, Option.bind_some]
      split_ifs with abs
      · exact own_makeFifo s _ _
      · have keeps : (s.dirPath host hdfd).1.files = s.host.files ∧ _ := dirPath_keeps hdfd
        obtain ⟨files, fds⟩ := keeps
        generalize asks : s.dirPath host hdfd = answer at files fds ⊢
        obtain ⟨h, dir⟩ := answer
        cases dir with
        | error e => exact own_refused files fds e
        | ok dir =>
          have abs_dir : isAbs dir = true := dirPath_abs (congrArg Prod.snd asks)
          refine Own.moved ?_ files fds (own_makeFifo _ _ _)
          cases dir with
          | nil => cases abs_dir
          | cons b dir => exact abs_dir

end Calls

/-! ## A registered FIFO -/

/-- The free descriptors below 64. -/
def freeFds (h : HostState (List UInt8) UInt32 Unit) : List ℕ :=
  (List.range 64).filter fun n => h.fds n = none

/-- A host with one directory, where a path is its own entry and a file is its mode. -/
def plainHost : FifoHost (List UInt8) UInt32 Unit where
  place _ _ p := some p
  removable _ _ := true
  placeholder mode := mode
  createAt h p :=
    match h.files p, freeFds h with
    | none, n :: _ => .ok (p, n)
    | some _, _ => .error 17
    | none, [] => .error 24
  pipeEnds h :=
    match freeFds h with
    | r :: w :: _ => .ok (r, w)
    | _ => .error 24
  malloc _ := true
  openDot h := (freeFds h).head?
  fchdirTo _ _ := .ok ()
  getcwd _ _ := .ok [slash]
  exclusive h p k n creates := by
    cases nothing : h.files p with
    | some f => simp [nothing] at creates
    | none =>
      cases free : freeFds h with
      | nil => simp [nothing, free] at creates
      | cons m rest =>
        have mem : m ∈ freeFds h := by simp [free]
        simp only [nothing, free, Except.ok.injEq, Prod.mk.injEq] at creates
        obtain ⟨rfl, rfl⟩ := creates
        exact ⟨rfl, nothing, by simpa [freeFds] using (List.mem_filter.1 mem).2⟩
  pipe_free h r w pipes := by
    have distinct : (freeFds h).Nodup := List.nodup_range.filter _
    cases free : freeFds h with
    | nil => simp [free] at pipes
    | cons m rest =>
      cases rest with
      | nil => simp [free] at pipes
      | cons m' rest =>
        have mem : m ∈ freeFds h := by simp [free]
        have mem' : m' ∈ freeFds h := by simp [free]
        simp only [free, Except.ok.injEq, Prod.mk.injEq] at pipes
        obtain ⟨rfl, rfl⟩ := pipes
        rw [free] at distinct
        refine ⟨by simpa using (List.mem_filter.1 mem).2, by simpa using (List.mem_filter.1 mem').2, ?_⟩
        exact fun same => (List.nodup_cons.1 distinct).1 (same ▸ List.mem_cons_self)
  openDot_free h n saves := by
    have mem : n ∈ freeFds h := List.mem_of_mem_head? saves
    simpa using (List.mem_filter.1 mem).2
  created _ _ _ _ _ place _ := place
  removed _ _ p k k' place place' := Option.some.inj (place'.symm.trans place)
  marker_removable _ _ _ _ _ _ := rfl
  absolute _ _ _ _ _ := rfl
  getcwd_abs _ _ p found := by
    obtain rfl := Except.ok.inj found
    rfl

/-- The path `/f` with a FIFO. -/
def heldFifo : FifoState (List UInt8) UInt32 Unit where
  fifos := [⟨[slash, 102], 3, 4⟩]
  host :=
    { files := Function.update (fun _ => none) [slash, 102] (some 0o600)
      fds := fun n => if n = 3 ∨ n = 4 then some none else none
      dir := () }

/-- A second `mkfifo` of the path returns 0, and the FIFO is a new one. -/
theorem registered_replaced :
    ((MkfifoCall.mkfifo (some [slash, 102]) 0o600).run plainHost ⟨[slash], 0⟩ heldFifo).2 = .ok () ∧
      ¬ DestroysNothing plainHost heldFifo (some [slash, 102])
        ((MkfifoCall.mkfifo (some [slash, 102]) 0o600).run plainHost ⟨[slash], 0⟩ heldFifo) := by
  have success : ((MkfifoCall.mkfifo (some [slash, 102]) 0o600).run plainHost ⟨[slash], 0⟩
      heldFifo).2 = .ok () := by rfl
  refine ⟨success, fun unharmed => ?_⟩
  rw [DestroysNothing, success] at unharmed
  obtain ⟨q, same, unregistered, -⟩ := unharmed
  obtain rfl := Option.some.inj same
  exact absurd unregistered (by decide)

end Mkfifo

end Yos
