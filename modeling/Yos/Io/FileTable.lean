import Yos.Io.FdOwner

/-!
# Streams and their descriptors (`impl/io/file.c`, `yos_fd_assign` and `yos_dup2` in `impl/io/io.c`)

A stream of a guest has a handle in `file_slots` and owns an entry of `fd_map`.  Which one is stored in
`file_wfds`: the number itself for a stream of `fdopen`, and `-(wfd + 1)` for one of `fopen`, where the
number -1 also means that there is none.  `TablesOk` says that the tables of a guest fit together; the
streams of a forked child have host descriptors of their own beside those in `fd_map`.
-/

namespace Yos

open Ledger

variable {ι : Type}

/-! ## The calls -/

/-- The guest descriptor that a stored owner stands for. -/
def ownerFd (stored : ℤ) : ℤ := if stored < -1 then -(stored + 1) else stored

namespace FdProc

variable [DecidableEq ι]

/-- `yos_fd_assign`, and what it returns. -/
def fdAssign (p : FdProc ι) (i : ι) (newfd : ℤ) (h : ℕ) : FdProc ι × ℤ :=
  if newfd < 0 ∨ fdMax ≤ newfd then (p.hostClose i h, -1)
  else
    let old := p.t.fdMap newfd.toNat
    let p := if 0 ≤ old ∧ old ≠ h then p.hostClose i old.toNat else p
    (p.setFd newfd.toNat h, newfd)

/-- `yos_dup2`; `r` is the copy the host makes. -/
def yosDup2 (p : FdProc ι) (i : ι) (oldfd newfd : ℤ) (r : ℕ) : FdProc ι × ℤ :=
  if p.mapped oldfd then
    if oldfd = newfd then (p, newfd) else (p.hostOpen i r).fdAssign i newfd r
  else (p, -1)

/-- `yos_fcntl` with `F_DUPFD`; the host makes the copy `r` at or above the third argument. -/
def yosFcntlDupfd (p : FdProc ι) (i : ι) (fd : ℤ) (r : ℕ) : FdProc ι × ℤ :=
  if p.mapped fd then (p.hostOpen i r).fdAlloc i r else (p, -1)

/-- `yos_fdopen`, and the handle it returns; `opens` says that the host's `fdopen` gives a stream. -/
def yosFdopen (p : FdProc ι) (i : ι) (wfd : ℤ) (opens : Bool) : FdProc ι × ℕ :=
  if p.mapped wfd && opens then
    let h := (p.t.fdMap wfd.toNat).toNat
    match p.t.freeFile with
    | some k => (p.setFile k (some h) wfd, k)
    | none => ((p.hostClose i h).setFd wfd.toNat fdFcloseTomb, 0)
  else (p, 0)

/-- `yos_handle_to_file`: the host descriptor of a stream. -/
def handleFd (p : FdProc ι) (fp : ℕ) : Option ℕ :=
  if 1 ≤ fp ∧ fp ≤ 3 then some (fp - 1)
  else if fp < 4 ∨ fileMax ≤ fp then none
  else p.t.fileSlots fp

/-- `yos_freopen`, and the handle it returns; `result` is the descriptor of the stream afterwards, or
none when the host's `freopen` fails, which leaves the stream closed.  A handle without a stream is not
followed: the host is handed a null pointer. -/
def yosFreopen (p : FdProc ι) (i : ι) (fp : ℕ) (result : Option ℕ) : FdProc ι × ℕ :=
  match p.handleFd fp with
  | none => (p, 0)
  | some h =>
    match result with
    | none => (p.hostClose i h, 0)
    | some h' =>
      let p := (p.hostClose i h).hostOpen i h'
      (if 4 ≤ fp then p.setFile fp (some h') (p.t.fileWfds fp) else p, fp)

/-- The handle `yos_fopen` returns. -/
def yosFopenHandle (p : FdProc ι) (i : ι) (r : ℕ) : ℕ :=
  (((p.hostOpen i r).fdAlloc i r).1.t.freeFile).getD 0

end FdProc

/-- `yos_fileno` of a stream. -/
def FdTables.yosFileno (t : FdTables) (k : ℕ) : ℤ := ownerFd (t.fileWfds k)

/-! ## The tables of a guest -/

/-- The places that have a host descriptor of their own. -/
inductive FdPlace where
  | fd (w : ℕ)
  | file (k : ℕ)

/-- The host descriptor of a place.  A stream has one of its own if it is not that of its entry in
`fd_map`. -/
def FdTables.place (t : FdTables) : FdPlace → Option ℕ
  | .fd w => if 0 ≤ t.fdMap w then some (t.fdMap w).toNat else none
  | .file k => (t.fileSlots k).filter fun h => t.fdMap (t.yosFileno k).toNat ≠ h

/-- No stream owns the guest descriptor. -/
def FdTables.NoStream (t : FdTables) (wfd : ℤ) : Prop :=
  ∀ k h, t.fileSlots k = some h → t.yosFileno k ≠ wfd

/-- The places of the guest have open descriptors, each its own; every stream owns an entry of `fd_map`
that is in use, and no other stream does. -/
structure TablesOk (i : ι) (p : FdProc ι) : Prop where
  owned : Owned p.ledger.owner (some i) p.t.place
  stream : ∀ k h, p.t.fileSlots k = some h →
    4 ≤ k ∧ k < fileMax ∧ ∃ w : ℕ, w < fdMax ∧ p.t.yosFileno k = w ∧ 0 ≤ p.t.fdMap w
  alone : ∀ k k' h h', p.t.fileSlots k = some h → p.t.fileSlots k' = some h' →
    p.t.yosFileno k = p.t.yosFileno k' → k = k'

/-- What the other owners hold stays open. -/
def OthersHold (i : Option ι) (l l' : Ledger (Option ι)) : Prop :=
  ∀ h j, j ≠ i → l.owner h = some j → l'.owner h = some j

/-- A step of guest `i` that keeps its tables in order and leaves the other guests alone. -/
structure Keeping (i : ι) (p q : FdProc ι) : Prop where
  ok : TablesOk i q
  quiet : OthersHold (some i) p.ledger q.ledger

section Tables

variable {i j : ι} {p q r : FdProc ι} {h k w : ℕ}

theorem OthersHold.refl (i : Option ι) (l : Ledger (Option ι)) : OthersHold i l l := fun _ _ _ owns => owns

theorem OthersHold.trans {i : Option ι} {l l' l'' : Ledger (Option ι)} (first : OthersHold i l l')
    (second : OthersHold i l' l'') : OthersHold i l l'' :=
  fun h j other owns => second h j other (first h j other owns)

/-- The tables of another guest stay in order. -/
theorem TablesOk.quiet {t : FdTables} {l l' : Ledger (Option ι)} (ok : TablesOk j ⟨t, l⟩)
    (other : j ≠ i) (quiet : OthersHold (some i) l l') : TablesOk j ⟨t, l'⟩ where
  owned := ⟨fun place h at_place =>
    quiet h (some j) (fun same => other (Option.some.inj same)) (ok.owned.held place h at_place),
    ok.owned.inj⟩
  stream := ok.stream
  alone := ok.alone

theorem FdTables.place_fd {t : FdTables} (mapped : t.fdMap w = (h : ℤ)) :
    t.place (.fd w) = some h := by
  rw [FdTables.place, mapped, if_pos (Int.natCast_nonneg h), Int.toNat_natCast]

/-- A free entry of `fd_map` belongs to no stream. -/
theorem TablesOk.noStream (ok : TablesOk i p) (free : p.t.fdMap w < 0) : p.t.NoStream w := by
  intro k h found same
  obtain ⟨-, -, w', -, fileno, used⟩ := ok.stream k h found
  rw [fileno] at same
  obtain rfl : w' = w := by exact_mod_cast same
  omega

/-- The entry of a stream is in use and its place has a descriptor of its own only if the two differ. -/
theorem FdTables.place_file {t : FdTables} (found : t.fileSlots k = some h)
    (differs : t.fdMap (t.yosFileno k).toNat ≠ h) : t.place (.file k) = some h := by
  rw [FdTables.place, found]
  simp [differs]

theorem FdTables.of_place_file {t : FdTables} (at_place : t.place (.file k) = some h) :
    t.fileSlots k = some h ∧ t.fdMap (t.yosFileno k).toNat ≠ h := by
  obtain ⟨found, differs⟩ := Option.filter_eq_some_iff.1 at_place
  exact ⟨found, by simpa using differs⟩

/-- Of the places, only those of the entry change when an entry without a stream is set. -/
theorem TablesOk.place_setFd (ok : TablesOk i p) (noStream : p.t.NoStream w) (v : ℤ) {place : FdPlace}
    (other : place ≠ .fd w) : (p.setFd w v).t.place place = p.t.place place := by
  cases place with
  | fd w' =>
    have distinct : w' ≠ w := fun same => other (congrArg FdPlace.fd same)
    simp only [FdTables.place, FdProc.setFd, Function.update_of_ne distinct]
  | file k =>
    show (p.t.fileSlots k).filter _ = (p.t.fileSlots k).filter _
    cases found : p.t.fileSlots k with
    | none => rfl
    | some h =>
      obtain ⟨-, -, w', -, fileno, -⟩ := ok.stream k h found
      have distinct : w' ≠ w := by
        rintro rfl
        exact noStream k h found fileno
      have fileno' : (p.setFd w v).t.yosFileno k = w' := fileno
      simp only [Option.filter_some, fileno, fileno', Int.toNat_natCast]
      simp only [FdProc.setFd, Function.update_of_ne distinct]

/-- A guest whose tables are as before, and whose descriptors are. -/
theorem keeping_same (ok : TablesOk i p) (tables : q.t = p.t)
    (owners : q.ledger.owner = p.ledger.owner) : Keeping i p q := by
  obtain ⟨t, l⟩ := q
  obtain rfl : t = p.t := tables
  refine ⟨⟨⟨fun place h at_place => ?_, ok.owned.inj⟩, ok.stream, ok.alone⟩, fun h j _ owns => ?_⟩
  · exact (congrFun owners h).trans (ok.owned.held place h at_place)
  · exact (congrFun owners h).trans owns

theorem Keeping.trans (first : Keeping i p q) (second : Keeping i q r) : Keeping i p r :=
  ⟨second.ok, first.quiet.trans second.quiet⟩

/-- A descriptor of the guest that is in no place. -/
structure Unplaced (i : ι) (p : FdProc ι) (h : ℕ) : Prop where
  owns : p.ledger.owner h = some (some i)
  unused : ∀ place, p.t.place place ≠ some h

theorem keeping_hostOpen (ok : TablesOk i p) (fresh : p.ledger.owner h = none) :
    Keeping i p (p.hostOpen i h) ∧ Unplaced i (p.hostOpen i h) h :=
  ⟨⟨⟨ok.owned.opened fresh, ok.stream, ok.alone⟩, (keeps_opened fresh).others⟩,
    ⟨opened_self _ _ _, ok.owned.unused fresh⟩⟩

/-- The streams keep their entries when an entry without a stream is set. -/
theorem stream_setFd (ok : TablesOk i p) (noStream : p.t.NoStream w) (v : ℤ) (k g : ℕ)
    (found : p.t.fileSlots k = some g) :
    4 ≤ k ∧ k < fileMax ∧ ∃ w' : ℕ, w' < fdMax ∧ p.t.yosFileno k = w' ∧
      0 ≤ (p.setFd w v).t.fdMap w' := by
  obtain ⟨low, high, w', lt, fileno, used⟩ := ok.stream k g found
  have distinct : w' ≠ w := by
    rintro rfl
    exact noStream k g found fileno
  refine ⟨low, high, w', lt, fileno, ?_⟩
  simpa only [FdProc.setFd, Function.update_of_ne distinct] using used

/-- A descriptor goes into a free entry of `fd_map`. -/
theorem keeping_setFd (ok : TablesOk i p) (unplaced : Unplaced i p h) (free : p.t.fdMap w < 0) :
    Keeping i p (p.setFd w h) := by
  have noStream := ok.noStream free
  refine ⟨⟨?_, stream_setFd ok noStream h, ok.alone⟩, OthersHold.refl _ _⟩
  refine ok.owned.take (p := .fd w) unplaced.owns unplaced.unused ?_ fun place ne g at_place => ?_
  · exact FdTables.place_fd (Function.update_self _ _ _)
  · rwa [ok.place_setFd noStream _ ne] at at_place

/-- An entry of a stream is added. -/
theorem keeping_addStream (ok : TablesOk i p) (low : 4 ≤ k) (high : k < fileMax)
    (free : p.t.fileSlots k = none) (lt : w < fdMax) (mapped : p.t.fdMap w = (h : ℤ)) {v : ℤ}
    (stored : ownerFd v = w) (noStream : p.t.NoStream w) :
    Keeping i p (p.setFile k (some h) v) := by
  have fileno_new : (p.setFile k (some h) v).t.yosFileno k = w := by
    simpa only [FdTables.yosFileno, FdProc.setFile, Function.update_self] using stored
  have fileno_old (k' : ℕ) (ne : k' ≠ k) :
      (p.setFile k (some h) v).t.yosFileno k' = p.t.yosFileno k' := by
    simp only [FdTables.yosFileno, FdProc.setFile, Function.update_of_ne ne]
  have slot_new : (p.setFile k (some h) v).t.fileSlots k = some h := Function.update_self _ _ _
  have slot_old (k' : ℕ) (ne : k' ≠ k) :
      (p.setFile k (some h) v).t.fileSlots k' = p.t.fileSlots k' := Function.update_of_ne ne _ _
  refine ⟨⟨?_, fun k' g found => ?_, fun k₁ k₂ h₁ h₂ found₁ found₂ same => ?_⟩, OthersHold.refl _ _⟩
  · refine ok.owned.mono fun place g at_place => ?_
    cases place with
    | fd w' => exact at_place
    | file k' =>
      obtain ⟨found, differs⟩ := FdTables.of_place_file at_place
      rcases eq_or_ne k' k with rfl | ne
      · rw [slot_new] at found
        obtain rfl := Option.some.inj found
        rw [fileno_new, Int.toNat_natCast] at differs
        exact absurd mapped differs
      · rw [slot_old k' ne] at found
        rw [fileno_old k' ne] at differs
        exact FdTables.place_file found differs
  · rcases eq_or_ne k' k with rfl | ne
    · exact ⟨low, high, w, lt, fileno_new, mapped ▸ Int.natCast_nonneg h⟩
    · rw [slot_old k' ne] at found
      rw [fileno_old k' ne]
      exact ok.stream k' g found
  · rcases eq_or_ne k₁ k with rfl | ne₁
    · rcases eq_or_ne k₂ k₁ with rfl | ne₂
      · rfl
      · rw [slot_old k₂ ne₂] at found₂
        rw [fileno_new, fileno_old k₂ ne₂] at same
        exact absurd same.symm (noStream k₂ h₂ found₂)
    · rw [slot_old k₁ ne₁] at found₁
      rw [fileno_old k₁ ne₁] at same
      rcases eq_or_ne k₂ k with rfl | ne₂
      · rw [fileno_new] at same
        exact absurd same (noStream k₁ h₁ found₁)
      · rw [slot_old k₂ ne₂] at found₂
        rw [fileno_old k₂ ne₂] at same
        exact ok.alone k₁ k₂ h₁ h₂ found₁ found₂ same

/-- The other streams have other entries. -/
theorem TablesOk.other_entry (ok : TablesOk i p) (found : p.t.fileSlots k = some h)
    (fileno : p.t.yosFileno k = w) {k' g : ℕ} (ne : k' ≠ k) (found' : p.t.fileSlots k' = some g) :
    ∃ w' : ℕ, w' < fdMax ∧ p.t.yosFileno k' = w' ∧ 0 ≤ p.t.fdMap w' ∧ w' ≠ w := by
  obtain ⟨-, -, w', lt, fileno', used⟩ := ok.stream k' g found'
  refine ⟨w', lt, fileno', used, fun same => ne (ok.alone k' k g h found' found ?_)⟩
  rw [fileno', fileno, same]

section Closing

variable [DecidableEq ι]

/-- An entry without a stream is closed and cleared. -/
theorem keeping_dropFd (ok : TablesOk i p) (noStream : p.t.NoStream w)
    (mapped : p.t.fdMap w = (h : ℤ)) {v : ℤ} (neg : v < 0) :
    Keeping i p ((p.hostClose i h).setFd w v) := by
  have at_w := FdTables.place_fd mapped
  have owns := ok.owned.held _ _ at_w
  refine ⟨⟨?_, stream_setFd ok noStream v, ok.alone⟩, (keeps_closed owns).others⟩
  refine ok.owned.drop at_w ?_ fun place ne g at_place => ?_
  · simp only [FdTables.place, FdProc.setFd, Function.update_self]
    exact if_neg (Int.not_le.2 neg)
  · have same : ((p.hostClose i h).setFd w v).t.place place = (p.setFd w v).t.place place := rfl
    rwa [same, ok.place_setFd noStream _ ne] at at_place

/-- A descriptor stays without a place while an entry is closed. -/
theorem Unplaced.dropFd (ok : TablesOk i p) (noStream : p.t.NoStream w) {g : ℕ}
    (mapped : p.t.fdMap w = (g : ℤ)) {v : ℤ} (neg : v < 0) (unplaced : Unplaced i p h) :
    Unplaced i ((p.hostClose i g).setFd w v) h := by
  have distinct : h ≠ g := by
    rintro rfl
    exact unplaced.unused (.fd w) (FdTables.place_fd mapped)
  refine ⟨(closed_of_ne (some i) distinct).trans unplaced.owns, fun place at_place => ?_⟩
  by_cases same : place = .fd w
  · rw [same, FdTables.place] at at_place
    simp only [FdProc.setFd, Function.update_self, if_neg (Int.not_le.2 neg)] at at_place
    cases at_place
  · have same_place : ((p.hostClose i g).setFd w v).t.place place = (p.setFd w v).t.place place := rfl
    rw [same_place, ok.place_setFd noStream _ same] at at_place
    exact unplaced.unused place at_place

/-- A descriptor in no place is closed. -/
theorem keeping_closeUnplaced (ok : TablesOk i p) (unplaced : Unplaced i p h) :
    Keeping i p (p.hostClose i h) :=
  ⟨⟨ok.owned.closed unplaced.unused, ok.stream, ok.alone⟩, (keeps_closed unplaced.owns).others⟩

/-- A number that is not open is closed. -/
theorem keeping_closeFresh (ok : TablesOk i p) (fresh : p.ledger.owner h = none) :
    Keeping i p (p.hostClose i h) := by
  refine keeping_same ok rfl ?_
  show Function.update p.ledger.owner h none = p.ledger.owner
  rw [← fresh, Function.update_eq_self]

theorem hostClose_fresh : (p.hostClose i h).ledger.owner h = none := Function.update_self _ _ _

/-- `q` is `p` without the stream of handle `k`, on the host descriptor `h`, and its entry `w`. -/
structure StreamClosed (i : ι) (p q : FdProc ι) (k w h : ℕ) : Prop where
  slot : ∀ k', k' ≠ k → q.t.fileSlots k' = p.t.fileSlots k'
  slot_gone : q.t.fileSlots k = none
  fileno : ∀ k', k' ≠ k → q.t.yosFileno k' = p.t.yosFileno k'
  entry : ∀ w', w' ≠ w → q.t.fdMap w' = p.t.fdMap w'
  entry_gone : q.t.fdMap w < 0
  ledger : q.ledger = p.ledger.closed (some i) h

theorem streamClosed {v : ℤ} (neg : v < 0) :
    StreamClosed i p (((p.hostClose i h).setFile k none (-1)).setFd w v) k w h where
  slot _ ne := Function.update_of_ne ne _ _
  slot_gone := Function.update_self _ _ _
  fileno _ ne := congrArg ownerFd (Function.update_of_ne ne _ _)
  entry _ ne := Function.update_of_ne ne _ _
  entry_gone := by
    have cleared : (((p.hostClose i h).setFile k none (-1)).setFd w v).t.fdMap w = v :=
      Function.update_self _ _ _
    rwa [cleared]
  ledger := rfl

namespace StreamClosed

variable {q : FdProc ι}

theorem ne_of_slot (closed : StreamClosed i p q k w h) {k' g : ℕ} (found : q.t.fileSlots k' = some g) :
    k' ≠ k := by
  rintro rfl
  rw [closed.slot_gone] at found
  cases found

/-- What is left is where it was. -/
theorem place (closed : StreamClosed i p q k w h) (ok : TablesOk i p)
    (found : p.t.fileSlots k = some h) (fileno : p.t.yosFileno k = w) {place : FdPlace} {g : ℕ}
    (at_place : q.t.place place = some g) :
    p.t.place place = some g ∧ place ≠ .fd w ∧ place ≠ .file k := by
  cases place with
  | fd w' =>
    rcases eq_or_ne w' w with rfl | ne
    · rw [FdTables.place, if_neg (Int.not_le.2 closed.entry_gone)] at at_place
      cases at_place
    · rw [FdTables.place, closed.entry w' ne] at at_place
      exact ⟨at_place, fun same => ne (by injection same), nofun⟩
  | file k' =>
    obtain ⟨found', differs⟩ := FdTables.of_place_file at_place
    have ne := closed.ne_of_slot found'
    rw [closed.slot k' ne] at found'
    obtain ⟨w', -, fileno', -, distinct⟩ := ok.other_entry found fileno ne found'
    rw [closed.fileno k' ne, fileno', Int.toNat_natCast, closed.entry w' distinct] at differs
    refine ⟨FdTables.place_file found' ?_, nofun, fun same => ne (by injection same)⟩
    rwa [fileno', Int.toNat_natCast]

/-- The descriptor is closed once, from the entry if it is there. -/
theorem owned (closed : StreamClosed i p q k w h) (ok : TablesOk i p)
    (found : p.t.fileSlots k = some h) (fileno : p.t.yosFileno k = w) :
    Owned q.ledger.owner (some i) q.t.place ∧ OthersHold (some i) p.ledger q.ledger := by
  have dropped (place : FdPlace) (at_place : p.t.place place = some h)
      (gone : place = .fd w ∨ place = .file k) :
      Owned q.ledger.owner (some i) q.t.place ∧ OthersHold (some i) p.ledger q.ledger := by
    rw [closed.ledger]
    have owns := ok.owned.held place h at_place
    refine ⟨ok.owned.drop at_place ?_ fun other _ g here => (closed.place ok found fileno here).1,
      (keeps_closed owns).others⟩
    cases here : q.t.place place with
    | none => rfl
    | some g =>
      obtain ⟨-, not_fd, not_file⟩ := closed.place ok found fileno here
      rcases gone with same | same
      · exact absurd same not_fd
      · exact absurd same not_file
  by_cases shared : p.t.fdMap w = h
  · exact dropped (.fd w) (FdTables.place_fd shared) (.inl rfl)
  · refine dropped (.file k) (FdTables.place_file found ?_) (.inr rfl)
    rwa [fileno, Int.toNat_natCast]

end StreamClosed

/-- A stream is closed and its entry cleared. -/
theorem keeping_closeStream (ok : TablesOk i p) (found : p.t.fileSlots k = some h)
    (fileno : p.t.yosFileno k = w) {v : ℤ} (neg : v < 0) :
    Keeping i p (((p.hostClose i h).setFile k none (-1)).setFd w v) := by
  have closed : StreamClosed i p (((p.hostClose i h).setFile k none (-1)).setFd w v) k w h :=
    streamClosed neg
  generalize ((p.hostClose i h).setFile k none (-1)).setFd w v = q at closed
  obtain ⟨owned, others⟩ := closed.owned ok found fileno
  refine ⟨⟨owned, fun k' g found' => ?_, fun k₁ k₂ h₁ h₂ found₁ found₂ same => ?_⟩, others⟩
  · have ne := closed.ne_of_slot found'
    rw [closed.slot k' ne] at found'
    obtain ⟨w', lt, fileno', used, distinct⟩ := ok.other_entry found fileno ne found'
    obtain ⟨low, high, -⟩ := ok.stream k' g found'
    rw [closed.fileno k' ne, fileno']
    exact ⟨low, high, w', lt, rfl, by rwa [closed.entry w' distinct]⟩
  · have ne₁ := closed.ne_of_slot found₁
    have ne₂ := closed.ne_of_slot found₂
    rw [closed.slot k₁ ne₁] at found₁
    rw [closed.slot k₂ ne₂] at found₂
    rw [closed.fileno k₁ ne₁, closed.fileno k₂ ne₂] at same
    exact ok.alone k₁ k₂ h₁ h₂ found₁ found₂ same

end Closing

/-! ## What the calls do -/

section Calls

/-- `free_handle` of a stream that owns an entry clears the entry, or retires it. -/
theorem freeHandle_eq (lt : w < fdMax) (fileno : p.t.yosFileno k = w) :
    p.freeHandle k = (p.setFile k none (-1)).setFd w
      (if 0 ≤ p.t.fileWfds k then fdFcloseTomb else -1) := by
  rw [FdTables.yosFileno, ownerFd] at fileno
  rw [FdProc.freeHandle]
  dsimp only
  split_ifs at fileno with encoded
  · rw [if_neg (by omega), if_pos encoded, fileno, if_pos (by omega), if_neg (by omega),
      Int.toNat_natCast]
  · rw [if_pos (by omega), if_pos (by omega), if_pos (by omega), fileno, Int.toNat_natCast]

theorem freeFile_spec {t : FdTables} (found : t.freeFile = some k) :
    4 ≤ k ∧ k < fileMax ∧ t.fileSlots k = none := by
  have mem := List.mem_range'_1.1 (List.mem_of_find?_eq_some found)
  have free := List.find?_some found
  refine ⟨mem.1, ?_, by simpa using free⟩
  have top : 4 + (fileMax - 4) = fileMax := by decide
  omega

theorem mapped_spec {wfd : ℤ} (mapped : p.mapped wfd = true) :
    ∃ w h : ℕ, wfd = w ∧ w < fdMax ∧ p.t.fdMap w = h ∧ (p.t.fdMap wfd.toNat).toNat = h := by
  obtain ⟨nonneg, lt, used⟩ : 0 ≤ wfd ∧ wfd < fdMax ∧ 0 ≤ p.t.fdMap wfd.toNat := by
    simpa [FdProc.mapped] using mapped
  refine ⟨wfd.toNat, (p.t.fdMap wfd.toNat).toNat, by omega, by omega, ?_, rfl⟩
  exact (Int.toNat_of_nonneg used).symm

variable [DecidableEq ι]

/-- `yos_fclose` of a stream. -/
theorem yosFclose_eq (ok : TablesOk i p) (found : p.t.fileSlots k = some h) :
    ∃ w : ℕ, w < fdMax ∧ p.t.yosFileno k = w ∧ p.yosFclose i k =
      ((p.hostClose i h).setFile k none (-1)).setFd w
        (if 0 ≤ p.t.fileWfds k then fdFcloseTomb else -1) := by
  obtain ⟨low, high, w, lt, fileno, -⟩ := ok.stream k h found
  refine ⟨w, lt, fileno, ?_⟩
  rw [FdProc.yosFclose, if_neg (by omega), if_neg (by omega), found]
  exact freeHandle_eq (p := p.hostClose i h) lt fileno

theorem keeping_yosFclose (ok : TablesOk i p) (guest : ¬ (1 ≤ k ∧ k ≤ 3)) :
    Keeping i p (p.yosFclose i k) := by
  cases found : p.t.fileSlots k with
  | some h =>
    obtain ⟨w, -, fileno, closes⟩ := yosFclose_eq ok found
    rw [closes]
    refine keeping_closeStream ok found fileno ?_
    split_ifs
    · decide
    · decide
  | none =>
    have same : p.yosFclose i k = p := by
      rw [FdProc.yosFclose, if_neg guest]
      split_ifs
      · rfl
      · rw [found]
    rw [same]
    exact keeping_same ok rfl rfl

/-- `yos_fd_alloc` takes over a new descriptor. -/
theorem keeping_fdAlloc (ok : TablesOk i p) (fresh : p.ledger.owner h = none) :
    Keeping i p ((p.hostOpen i h).fdAlloc i h).1 := by
  obtain ⟨opened, unplaced⟩ := keeping_hostOpen ok fresh
  cases found : firstFree (p.hostOpen i h).t.fdMap with
  | some w =>
    rw [fdAlloc_of_free found]
    have free : (p.hostOpen i h).t.fdMap w = -1 := (firstFree_spec found).2
    exact opened.trans (keeping_setFd opened.ok unplaced (by omega))
  | none =>
    rw [fdAlloc_of_full found]
    exact opened.trans (keeping_closeUnplaced opened.ok unplaced)

/-- The descriptor is closed a second time when the table is full. -/
theorem keeping_allocOrClose (ok : TablesOk i p) (fresh : p.ledger.owner h = none) :
    Keeping i p (p.allocOrClose i h).1 := by
  have allocated := keeping_fdAlloc (i := i) ok fresh
  rw [FdProc.allocOrClose]
  cases found : firstFree (p.hostOpen i h).t.fdMap with
  | some w =>
    rw [fdAlloc_of_free found] at allocated ⊢
    dsimp only
    rw [if_neg (by omega)]
    exact allocated
  | none =>
    rw [fdAlloc_of_full found] at allocated ⊢
    dsimp only
    rw [if_pos (by decide)]
    exact allocated.trans (keeping_closeFresh allocated.ok hostClose_fresh)

theorem keeping_fdClose (ok : TablesOk i p) {wfd : ℤ} (noStream : p.t.NoStream wfd) :
    Keeping i p (p.fdClose i wfd) := by
  rw [FdProc.fdClose]
  dsimp only
  split_ifs with range unmapped
  · exact keeping_same ok rfl rfl
  · exact keeping_same ok rfl rfl
  · have number : ((wfd.toNat : ℕ) : ℤ) = wfd := Int.toNat_of_nonneg (by omega)
    refine keeping_dropFd ok (by rwa [number]) ?_ (by decide)
    exact (Int.toNat_of_nonneg (Int.not_lt.1 unmapped)).symm

/-- `dup2` onto a descriptor without a stream. -/
theorem keeping_fdAssign (ok : TablesOk i p) (fresh : p.ledger.owner h = none) {newfd : ℤ}
    (noStream : p.t.NoStream newfd) : Keeping i p ((p.hostOpen i h).fdAssign i newfd h).1 := by
  obtain ⟨opened, unplaced⟩ := keeping_hostOpen ok fresh
  rw [FdProc.fdAssign]
  dsimp only
  split_ifs with range evicts
  · exact opened.trans (keeping_closeUnplaced opened.ok unplaced)
  · have number : ((newfd.toNat : ℕ) : ℤ) = newfd := Int.toNat_of_nonneg (by omega)
    have mapped : (p.hostOpen i h).t.fdMap newfd.toNat =
        (((p.hostOpen i h).t.fdMap newfd.toNat).toNat : ℤ) := (Int.toNat_of_nonneg evicts.1).symm
    have clear : (p.hostOpen i h).t.NoStream (newfd.toNat : ℕ) := by rwa [number]
    have dropped := keeping_dropFd opened.ok clear mapped (v := -1) (by decide)
    have again := keeping_setFd dropped.ok
      (unplaced.dropFd opened.ok clear mapped (by decide : (-1 : ℤ) < 0)) (w := newfd.toNat)
      (by simp [FdProc.setFd])
    have same (q : FdProc ι) (w : ℕ) (u v : ℤ) : (q.setFd w u).setFd w v = q.setFd w v := by
      simp only [FdProc.setFd, Function.update_idem]
    rw [same] at again
    exact opened.trans (dropped.trans again)
  · have free : (p.hostOpen i h).t.fdMap newfd.toNat < 0 := by
      by_contra used
      have value : p.t.fdMap newfd.toNat = (h : ℤ) := by
        by_contra differs
        exact evicts ⟨Int.not_lt.1 used, differs⟩
      exact unplaced.unused (.fd newfd.toNat) (FdTables.place_fd value)
    exact opened.trans (keeping_setFd opened.ok unplaced free)

theorem keeping_yosDup2 (ok : TablesOk i p) (fresh : p.ledger.owner h = none) {oldfd newfd : ℤ}
    (noStream : p.mapped oldfd = true → oldfd ≠ newfd → p.t.NoStream newfd) :
    Keeping i p (p.yosDup2 i oldfd newfd h).1 := by
  rw [FdProc.yosDup2]
  split_ifs with mapped same
  · exact keeping_same ok rfl rfl
  · exact keeping_fdAssign ok fresh (noStream mapped same)
  · exact keeping_same ok rfl rfl

/-- `yos_fopen` when there is a free handle and a free descriptor. -/
theorem yosFopen_eq (handle : p.t.freeFile = some k) (descriptor : firstFree p.t.fdMap = some w) :
    p.yosFopen i h = ((p.hostOpen i h).setFd w h).setFile k (some h) (-(w + 1)) := by
  rw [FdProc.yosFopen, fdAlloc_of_free (p := p.hostOpen i h) descriptor]
  dsimp only
  rw [show ((p.hostOpen i h).setFd w h).t.freeFile = some k from handle]
  dsimp only
  rw [if_pos (Int.natCast_nonneg w)]

/-- Without a free handle `yos_fopen` closes what it opened. -/
theorem keeping_yosFopen_full (ok : TablesOk i p) (fresh : p.ledger.owner h = none)
    (full : p.t.freeFile = none) : Keeping i p (p.yosFopen i h) ∧ (p.yosFopen i h).t = p.t := by
  have allocated := keeping_fdAlloc (i := i) ok fresh
  rw [FdProc.yosFopen]
  cases found : firstFree (p.hostOpen i h).t.fdMap with
  | some w =>
    rw [fdAlloc_of_free found] at allocated ⊢
    dsimp only at allocated ⊢
    obtain ⟨lt, free⟩ := firstFree_spec found
    have noStream : p.t.NoStream w := ok.noStream (by
      have : p.t.fdMap w = -1 := free
      omega)
    have mapped : ((p.hostOpen i h).setFd w h).t.fdMap w = h := Function.update_self _ _ _
    have dropped := keeping_dropFd allocated.ok noStream mapped (v := -1) (by decide)
    have closes : ((p.hostOpen i h).setFd w h).fdClose i w =
        (((p.hostOpen i h).setFd w h).hostClose i h).setFd w (-1) := by
      rw [FdProc.fdClose, if_neg (by omega), Int.toNat_natCast, mapped]
      dsimp only
      rw [if_neg (by omega), Int.toNat_natCast]
    rw [show ((p.hostOpen i h).setFd w h).t.freeFile = none from full]
    dsimp only
    rw [closes]
    refine ⟨(allocated.trans dropped).trans (keeping_closeFresh dropped.ok hostClose_fresh), ?_⟩
    have entry : Function.update (Function.update p.t.fdMap w (h : ℤ)) w (-1) = p.t.fdMap := by
      rw [Function.update_idem, ← free]
      exact Function.update_eq_self w p.t.fdMap
    exact congrArg (fun fdMap => ({ p.t with fdMap } : FdTables)) entry
  | none =>
    rw [fdAlloc_of_full found] at allocated ⊢
    dsimp only at allocated ⊢
    rw [show ((p.hostOpen i h).hostClose i h).t.freeFile = none from full]
    dsimp only
    rw [show ((p.hostOpen i h).hostClose i h).fdClose i (-emfile) = (p.hostOpen i h).hostClose i h from
      if_pos (.inl (by decide))]
    exact ⟨allocated.trans (keeping_closeFresh allocated.ok hostClose_fresh), rfl⟩

theorem keeping_yosFopen (ok : TablesOk i p) (fresh : p.ledger.owner h = none)
    (room : p.t.freeFile = none ∨ ∃ w, firstFree p.t.fdMap = some w ∧ w ≠ 0) :
    Keeping i p (p.yosFopen i h) := by
  cases handle : p.t.freeFile with
  | none => exact (keeping_yosFopen_full ok fresh handle).1
  | some k =>
    obtain ⟨w, descriptor, nonzero⟩ := room.resolve_left (by simp [handle])
    rw [yosFopen_eq handle descriptor]
    obtain ⟨opened, unplaced⟩ := keeping_hostOpen ok fresh
    obtain ⟨lt, free⟩ := firstFree_spec descriptor
    have unused : (p.hostOpen i h).t.fdMap w < 0 := by
      have : (p.hostOpen i h).t.fdMap w = -1 := free
      omega
    have filled := keeping_setFd opened.ok unplaced unused
    obtain ⟨low, high, slot⟩ := freeFile_spec handle
    refine opened.trans (filled.trans (keeping_addStream filled.ok low high slot lt
      (Function.update_self _ _ _) ?_ (ok.noStream unused)))
    rw [ownerFd, if_pos (by omega)]
    omega

/-- `yos_fdopen` of a descriptor without a stream. -/
theorem keeping_yosFdopen (ok : TablesOk i p) {wfd : ℤ} {opens : Bool}
    (noStream : p.mapped wfd = true → opens = true → p.t.NoStream wfd) :
    Keeping i p (p.yosFdopen i wfd opens).1 := by
  rw [FdProc.yosFdopen]
  split_ifs with found
  · obtain ⟨mapped, opened⟩ := Bool.and_eq_true_iff.1 found
    obtain ⟨w, h, rfl, lt, entry, number⟩ := mapped_spec mapped
    have clear := noStream mapped opened
    dsimp only
    rw [number]
    cases handle : p.t.freeFile with
    | some k =>
      obtain ⟨low, high, slot⟩ := freeFile_spec handle
      refine keeping_addStream ok low high slot lt entry ?_ clear
      rw [ownerFd, if_neg (by omega)]
    | none => exact keeping_dropFd ok clear entry (by decide)
  · exact keeping_same ok rfl rfl

end Calls

end Tables

/-- A guest that starts has its standard descriptors. -/
theorem tablesOk_init {s : FdWorld ι} (start : FdStarted s) (i : ι) :
    TablesOk i ⟨s.tables i, s.ledger⟩ := by
  have owned := ((fdInv_init start).sound i).owned
  have at_fd (place : FdPlace) (h : ℕ) (at_place : (s.tables i).place place = some h) :
      ∃ w, place = .fd w ∧ (s.tables i).get (.fd w) = some h := by
    cases place with
    | fd w => exact ⟨w, rfl, at_place⟩
    | file k =>
      rw [FdTables.place, start.noFiles i k] at at_place
      cases at_place
  refine ⟨⟨fun place h at_place => ?_, fun place place' h at_place at_place' => ?_⟩,
    fun k h found => ?_, fun k k' h h' found => ?_⟩
  · obtain ⟨w, rfl, at_fd⟩ := at_fd place h at_place
    exact owned.held _ h at_fd
  · obtain ⟨w, rfl, here⟩ := at_fd place h at_place
    obtain ⟨w', rfl, there⟩ := at_fd place' h at_place'
    have same := owned.inj _ _ h here there
    injection same with same
    rw [same]
  · have none := start.noFiles i k
    rw [found] at none
    cases none
  · have none := start.noFiles i k
    rw [found] at none
    cases none

end Yos
