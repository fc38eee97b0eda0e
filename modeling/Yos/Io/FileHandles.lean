import Yos.Io.FileTable

/-!
# Streams and their descriptors over whole runs (`impl/io/file.c`)

The handle of a stream should stand for the guest descriptor it was made with.  `yos_fopen` stores
`-(wfd + 1)`, which is -1 for descriptor 0, and -1 also when there was no descriptor left; a failed
`freopen` leaves the handle with a closed stream; `close`, `dup2` and `fdopen` of a descriptor with a
stream leave the stream behind.  `HandleOk` are the calls without these cases; in their runs every
handle is in order (`files_agree`).

`born` is not in the context: it is the guest descriptor each handle was made with.
-/

namespace Yos

open Ledger

variable {ι : Type}

/-! ## The system -/

/-- The calls, with the results of the host calls they make. -/
inductive HandleCall where
  | openFile (r : ℕ)
  | fopen (r : ℕ)
  | fdopen (wfd : ℤ) (opens : Bool)
  | freopen (fp : ℕ) (result : Option ℕ)
  | fclose (fp : ℕ)
  | close (fd : ℤ)
  | dup2 (oldfd newfd : ℤ) (r : ℕ)
  | fileno (fp : ℕ)

/-- The guests, the host, and the guest descriptor each handle was made with. -/
structure HandleWorld (ι : Type) where
  world : FdWorld ι
  born : ι → ℕ → ℤ

/-- The part of a guest. -/
def HandleWorld.proc (s : HandleWorld ι) (i : ι) : FdProc ι := ⟨s.world.tables i, s.world.ledger⟩

variable [DecidableEq ι]

/-- The effect of a call of guest `i`. -/
def FdProc.handleCall (p : FdProc ι) (i : ι) : HandleCall → FdProc ι
  | .openFile r => p.yosOpen i r
  | .fopen r => p.yosFopen i r
  | .fdopen wfd opens => (p.yosFdopen i wfd opens).1
  | .freopen fp result => (p.yosFreopen i fp result).1
  | .fclose fp => p.yosFclose i fp
  | .close fd => p.yosClose i fd
  | .dup2 oldfd newfd r => (p.yosDup2 i oldfd newfd r).1
  | .fileno _ => p

/-- The handle a call makes, and its guest descriptor. -/
def FdProc.makes (p : FdProc ι) (i : ι) : HandleCall → Option (ℕ × ℤ)
  | .fopen r =>
    let (q, wfd) := (p.hostOpen i r).fdAlloc i r
    q.t.freeFile.map fun k => (k, wfd)
  | .fdopen wfd opens =>
    if p.mapped wfd && opens then p.t.freeFile.map fun k => (k, wfd) else none
  | _ => none

/-- The descriptors the handles were made with, after a call. -/
def FdProc.bornAfter (p : FdProc ι) (i : ι) (c : HandleCall) (born : ℕ → ℤ) : ℕ → ℤ :=
  match p.makes i c with
  | some (k, wfd) => Function.update born k wfd
  | none => born

/-- The state after a call of guest `i`. -/
def HandleWorld.next (s : HandleWorld ι) (i : ι) (c : HandleCall) : HandleWorld ι :=
  let q := (s.proc i).handleCall i c
  { world := ⟨Function.update s.world.tables i q.t, q.ledger⟩
    born := Function.update s.born i ((s.proc i).bornAfter i c (s.born i)) }

/-- The numbers the host returns are not open; `freopen` may return the one it closes. -/
def HandleFresh (p : FdProc ι) : HandleCall → Prop
  | .openFile r | .fopen r | .dup2 _ _ r => p.ledger.owner r = none
  | .freopen fp (some r) => p.ledger.owner r = none ∨ p.handleFd fp = some r
  | .freopen _ none | .fdopen _ _ | .fclose _ | .close _ | .fileno _ => True

/-- The runs of any number of guests. -/
def handleSystem (ι : Type) [DecidableEq ι] : System (HandleWorld ι) (ι × HandleCall) where
  init s := FdStarted s.world
  step s a s' := HandleFresh (s.proc a.1) a.2 ∧ s' = s.next a.1 a.2

/-! ## What should hold -/

/-- `fclose` releases the descriptor `w` of the stream and no other. -/
structure Releases (i : ι) (p : FdProc ι) (k h w : ℕ) : Prop where
  handle : (p.yosFclose i k).t.fileSlots k = none
  released : (p.yosFclose i k).t.fdMap w < 0
  others : ∀ v ≠ w, (p.yosFclose i k).t.fdMap v = p.t.fdMap v
  closed : (p.yosFclose i k).ledger.owner = Function.update p.ledger.owner h none

/-- Every handle decodes to the guest descriptor it was made with, which stands for the open host
descriptor of the stream and is what `fclose` releases. -/
def FilesAgree (i : ι) (p : FdProc ι) (born : ℕ → ℤ) : Prop :=
  ∀ k h, p.t.fileSlots k = some h → 4 ≤ k ∧ k < fileMax ∧
    ∃ w : ℕ, w < fdMax ∧ born k = w ∧ p.t.yosFileno k = w ∧ p.t.fdMap w = h ∧
      p.ledger.owner h = some (some i) ∧ Releases i p k h w

/-- No guest uses the host descriptor. -/
def Spared (s : HandleWorld ι) (h : ℕ) : Prop := ∀ j w, (s.world.tables j).fdMap w ≠ h

/-- The calls that keep the handles in order: `fopen` finds a descriptor other than 0 or no handle;
`fdopen`, `close` and `dup2` get a descriptor without a stream; `freopen` of a stream does not fail, and
the host keeps the number of its descriptor; and the standard streams of the host are not closed while a
guest uses their numbers. -/
def HandleOk (s : HandleWorld ι) : ι × HandleCall → Prop
  | (i, .fopen _) => (s.world.tables i).freeFile = none ∨
      ∃ w, firstFree (s.world.tables i).fdMap = some w ∧ w ≠ 0
  | (i, .fdopen wfd opens) => (s.proc i).mapped wfd = true → opens = true →
      (s.world.tables i).NoStream wfd
  | (i, .freopen fp result) => (1 ≤ fp ∧ fp ≤ 3 → Spared s (fp - 1)) ∧
      ∀ h, 4 ≤ fp → (s.proc i).handleFd fp = some h → result = some h
  | (_, .fclose fp) => 1 ≤ fp ∧ fp ≤ 3 → Spared s (fp - 1)
  | (i, .close fd) => (s.world.tables i).NoStream fd
  | (i, .dup2 oldfd newfd _) => (s.proc i).mapped oldfd = true → oldfd ≠ newfd →
      (s.world.tables i).NoStream newfd
  | (_, .openFile _) | (_, .fileno _) => True

/-! ## The invariant -/

/-- A stream has the descriptor that its entry in `fd_map` has, and owns the entry it was made with. -/
def Paired (t : FdTables) (born : ℕ → ℤ) : Prop :=
  ∀ k h, t.fileSlots k = some h → t.fdMap (t.yosFileno k).toNat = h ∧ born k = t.yosFileno k

section Paired

variable {i : ι} {p : FdProc ι} {born : ℕ → ℤ} {h k w : ℕ}

omit [DecidableEq ι] in
/-- An entry without a stream is set. -/
theorem Paired.setFd (shared : Paired p.t born) (ok : TablesOk i p) (noStream : p.t.NoStream w)
    (v : ℤ) : Paired (p.setFd w v).t born := by
  intro k g found
  obtain ⟨-, -, w', -, fileno, -⟩ := ok.stream k g found
  obtain ⟨entry, made⟩ := shared k g found
  have distinct : w' ≠ w := by
    rintro rfl
    exact noStream k g found fileno
  refine ⟨?_, made⟩
  show (p.setFd w v).t.fdMap (p.t.yosFileno k).toNat = g
  rw [fileno, Int.toNat_natCast] at entry ⊢
  exact (Function.update_of_ne distinct _ _).trans entry

omit [DecidableEq ι] in
/-- A stream is added. -/
theorem Paired.addStream (shared : Paired p.t born) (mapped : p.t.fdMap w = (h : ℤ)) {v : ℤ}
    (stored : ownerFd v = w) :
    Paired (p.setFile k (some h) v).t (Function.update born k w) := by
  intro k' g found
  rcases eq_or_ne k' k with rfl | ne
  · have same : h = g := by simpa [FdProc.setFile] using found
    have fileno : (p.setFile k' (some h) v).t.yosFileno k' = w := by
      simpa only [FdTables.yosFileno, FdProc.setFile, Function.update_self] using stored
    rw [fileno, Int.toNat_natCast, ← same, Function.update_self]
    exact ⟨mapped, rfl⟩
  · have fileno : (p.setFile k (some h) v).t.yosFileno k' = p.t.yosFileno k' := by
      simp only [FdTables.yosFileno, FdProc.setFile, Function.update_of_ne ne]
    rw [fileno, Function.update_of_ne ne]
    refine shared k' g ?_
    simpa only [FdProc.setFile, Function.update_of_ne ne] using found

/-- A stream is closed. -/
theorem Paired.yosFclose (shared : Paired p.t born) (ok : TablesOk i p)
    (found : p.t.fileSlots k = some h) : Paired (p.yosFclose i k).t born := by
  obtain ⟨w, -, fileno, closes⟩ := yosFclose_eq ok found
  rw [closes]
  intro k' g found'
  rcases eq_or_ne k' k with rfl | ne
  · simp [FdProc.setFd, FdProc.setFile] at found'
  · have open_before : p.t.fileSlots k' = some g := by
      simpa [FdProc.setFd, FdProc.setFile, FdProc.hostClose, ne] using found'
    obtain ⟨-, -, w', -, fileno', -⟩ := ok.stream k' g open_before
    obtain ⟨entry, made⟩ := shared k' g open_before
    have distinct : w' ≠ w := by
      rintro rfl
      exact ne (ok.alone k' k g h open_before found (fileno'.trans fileno.symm))
    rw [fileno', Int.toNat_natCast] at entry
    have kept : (((p.hostClose i h).setFile k none (-1)).setFd w
        (if 0 ≤ p.t.fileWfds k then fdFcloseTomb else -1)).t.yosFileno k' = p.t.yosFileno k' := by
      simp [FdTables.yosFileno, FdProc.setFd, FdProc.setFile, FdProc.hostClose, ne]
    rw [kept, fileno', Int.toNat_natCast]
    exact ⟨(Function.update_of_ne distinct _ _).trans entry, made.trans fileno'⟩

/-- `yos_fd_alloc` fills an entry without a stream. -/
theorem Paired.fdAlloc (shared : Paired p.t born) (ok : TablesOk i p) :
    Paired ((p.hostOpen i h).fdAlloc i h).1.t born := by
  cases found : firstFree (p.hostOpen i h).t.fdMap with
  | some w =>
    rw [fdAlloc_of_free found]
    have free : p.t.fdMap w = -1 := (firstFree_spec found).2
    exact shared.setFd ok (ok.noStream (by omega)) h
  | none =>
    rw [fdAlloc_of_full found]
    exact shared

theorem Paired.fdClose (shared : Paired p.t born) (ok : TablesOk i p) {wfd : ℤ}
    (noStream : p.t.NoStream wfd) : Paired (p.fdClose i wfd).t born := by
  rw [FdProc.fdClose]
  dsimp only
  split_ifs with range unmapped
  · exact shared
  · exact shared
  · have number : ((wfd.toNat : ℕ) : ℤ) = wfd := Int.toNat_of_nonneg (by omega)
    exact shared.setFd ok (by rwa [number]) (-1)

theorem Paired.yosDup2 (shared : Paired p.t born) (ok : TablesOk i p) {oldfd newfd : ℤ}
    (noStream : p.mapped oldfd = true → oldfd ≠ newfd → p.t.NoStream newfd) :
    Paired (p.yosDup2 i oldfd newfd h).1.t born := by
  rw [FdProc.yosDup2]
  split_ifs with mapped same
  · exact shared
  · rw [FdProc.fdAssign]
    have clear := noStream mapped same
    by_cases range : newfd < 0 ∨ fdMax ≤ newfd
    · rw [if_pos range]
      exact shared
    · rw [if_neg range]
      have number : ((newfd.toNat : ℕ) : ℤ) = newfd := Int.toNat_of_nonneg (by omega)
      have set := shared.setFd ok (w := newfd.toNat) (by rwa [number]) (h : ℤ)
      dsimp only
      split_ifs
      · exact set
      · exact set
  · exact shared

/-- `fopen` makes its handle with the descriptor it allocates. -/
theorem Paired.yosFopen (shared : Paired p.t born) (ok : TablesOk i p)
    (fresh : p.ledger.owner h = none)
    (room : p.t.freeFile = none ∨ ∃ w, firstFree p.t.fdMap = some w ∧ w ≠ 0) :
    Paired (p.yosFopen i h).t (p.bornAfter i (.fopen h) born) := by
  cases handle : p.t.freeFile with
  | none =>
    have makes : p.makes i (.fopen h) = none := by
      rw [FdProc.makes]
      cases found : firstFree (p.hostOpen i h).t.fdMap with
      | some w =>
        rw [fdAlloc_of_free found]
        exact congrArg (Option.map _) handle
      | none =>
        rw [fdAlloc_of_full found]
        exact congrArg (Option.map _) handle
    rw [FdProc.bornAfter, makes, (keeping_yosFopen_full ok fresh handle).2]
    exact shared
  | some k =>
    obtain ⟨w, descriptor, nonzero⟩ := room.resolve_left (by simp [handle])
    have makes : p.makes i (.fopen h) = some (k, (w : ℤ)) := by
      rw [FdProc.makes, fdAlloc_of_free (p := p.hostOpen i h) descriptor]
      exact congrArg (Option.map _) handle
    have free : p.t.fdMap w = -1 := (firstFree_spec descriptor).2
    have filled := shared.setFd ok (ok.noStream (by omega : p.t.fdMap w < 0)) (h : ℤ)
    rw [FdProc.bornAfter, makes, yosFopen_eq handle descriptor]
    refine filled.addStream (p := p.setFd w h) (Function.update_self _ _ _) ?_
    rw [ownerFd, if_pos (by omega)]
    omega

/-- `fdopen` makes its handle with the descriptor it gets. -/
theorem Paired.yosFdopen (shared : Paired p.t born) (ok : TablesOk i p) {wfd : ℤ} {opens : Bool}
    (noStream : p.mapped wfd = true → opens = true → p.t.NoStream wfd) :
    Paired (p.yosFdopen i wfd opens).1.t (p.bornAfter i (.fdopen wfd opens) born) := by
  rw [FdProc.bornAfter, FdProc.makes, FdProc.yosFdopen]
  split_ifs with found
  · obtain ⟨mapped, opened⟩ := Bool.and_eq_true_iff.1 found
    obtain ⟨w, g, rfl, lt, entry, number⟩ := mapped_spec mapped
    have clear := noStream mapped opened
    dsimp only
    rw [number]
    cases handle : p.t.freeFile with
    | some k => exact shared.addStream entry (if_neg (by omega))
    | none =>
      rw [Int.toNat_natCast]
      exact shared.setFd ok clear fdFcloseTomb
  · exact shared

end Paired

/-! ## The steps -/

section Steps

variable {i : ι} {s : HandleWorld ι} {p : FdProc ι} {born : ℕ → ℤ} {c : HandleCall} {h k : ℕ}

omit [DecidableEq ι] in
/-- The guest owns the descriptor of a stream. -/
theorem TablesOk.stream_owned (ok : TablesOk i p) (found : p.t.fileSlots k = some h) :
    p.ledger.owner h = some (some i) := by
  obtain ⟨-, -, w, -, fileno, used⟩ := ok.stream k h found
  by_cases same : p.t.fdMap w = h
  · exact ok.owned.held (.fd w) h (FdTables.place_fd same)
  · refine ok.owned.held (.file k) h (FdTables.place_file found ?_)
    rwa [fileno, Int.toNat_natCast]

/-- A stream that is reopened with its number is as before. -/
theorem keeping_yosFreopen (ok : TablesOk i p) (low : 4 ≤ k) (found : p.handleFd k = some h) :
    Keeping i p (p.yosFreopen i k (some h)).1 ∧ (p.yosFreopen i k (some h)).1.t = p.t := by
  have slot : p.t.fileSlots k = some h := by
    rw [FdProc.handleFd, if_neg (by omega)] at found
    split_ifs at found
    exact found
  have tables : (p.yosFreopen i k (some h)).1.t = p.t := by
    simp only [FdProc.yosFreopen, found, if_pos low]
    have files : Function.update p.t.fileSlots k (some h) = p.t.fileSlots := by
      rw [← slot, Function.update_eq_self]
    have wfds : Function.update p.t.fileWfds k (p.t.fileWfds k) = p.t.fileWfds :=
      Function.update_eq_self _ _
    show ({ p.t with fileSlots := _, fileWfds := _ } : FdTables) = p.t
    rw [show ((p.hostClose i h).hostOpen i h).t = p.t from rfl, files, wfds]
  refine ⟨keeping_same ok tables ?_, tables⟩
  simp only [FdProc.yosFreopen, found, if_pos low]
  show Function.update (Function.update p.ledger.owner h none) h (some (some i)) = p.ledger.owner
  rw [Function.update_idem, ← ok.stream_owned slot, Function.update_eq_self]

/-- The call is `fclose` or `freopen` of a standard stream of the host. -/
def HandleCall.stdio : HandleCall → Option ℕ
  | .fclose fp | .freopen fp _ => if 1 ≤ fp ∧ fp ≤ 3 then some (fp - 1) else none
  | _ => none

/-- Every other call keeps the tables of its guest in order. -/
theorem handleCall_own (ok : TablesOk i (s.proc i)) (shared : Paired (s.proc i).t born)
    (fresh : HandleFresh (s.proc i) c) (allowed : HandleOk s (i, c)) (own : c.stdio = none) :
    Keeping i (s.proc i) ((s.proc i).handleCall i c) ∧
      Paired ((s.proc i).handleCall i c).t ((s.proc i).bornAfter i c born) := by
  cases c with
  | openFile r => exact ⟨keeping_fdAlloc ok fresh, shared.fdAlloc ok⟩
  | fopen r => exact ⟨keeping_yosFopen ok fresh allowed, shared.yosFopen ok fresh allowed⟩
  | fdopen wfd opens => exact ⟨keeping_yosFdopen ok allowed, shared.yosFdopen ok allowed⟩
  | freopen fp result =>
    have guest : ¬ (1 ≤ fp ∧ fp ≤ 3) := by
      intro stdio
      rw [HandleCall.stdio, if_pos stdio] at own
      cases own
    show Keeping i (s.proc i) ((s.proc i).yosFreopen i fp result).1 ∧
      Paired ((s.proc i).yosFreopen i fp result).1.t born
    cases found : (s.proc i).handleFd fp with
    | none =>
      rw [FdProc.yosFreopen, found]
      exact ⟨keeping_same ok rfl rfl, shared⟩
    | some h =>
      have low : 4 ≤ fp := by
        rw [FdProc.handleFd, if_neg guest] at found
        split_ifs at found
        omega
      rw [allowed.2 h low found]
      obtain ⟨keeps, same⟩ := keeping_yosFreopen ok low found
      rw [same]
      exact ⟨keeps, shared⟩
  | fclose fp =>
    have guest : ¬ (1 ≤ fp ∧ fp ≤ 3) := by
      intro stdio
      rw [HandleCall.stdio, if_pos stdio] at own
      cases own
    refine ⟨keeping_yosFclose ok guest, ?_⟩
    show Paired ((s.proc i).yosFclose i fp).t born
    cases found : (s.proc i).t.fileSlots fp with
    | some h => exact shared.yosFclose ok found
    | none =>
      rw [FdProc.yosFclose, if_neg guest]
      split_ifs
      · exact shared
      · rw [found]
        exact shared
  | close fd =>
    show Keeping i (s.proc i) ((s.proc i).yosClose i fd) ∧ Paired ((s.proc i).yosClose i fd).t born
    rw [FdProc.yosClose]
    split_ifs
    · exact ⟨keeping_same ok rfl rfl, shared⟩
    · exact ⟨keeping_fdClose ok allowed, shared.fdClose ok allowed⟩
  | dup2 oldfd newfd r => exact ⟨keeping_yosDup2 ok fresh allowed, shared.yosDup2 ok allowed⟩
  | fileno fp => exact ⟨keeping_same ok rfl rfl, shared⟩

/-- All guests are in order. -/
structure HandleInv (s : HandleWorld ι) : Prop where
  ok : ∀ i, TablesOk i (s.proc i)
  shared : ∀ i, Paired (s.world.tables i) (s.born i)

/-- A call that leaves the tables of all guests in order. -/
theorem HandleInv.next_of (inv : HandleInv s)
    (mine : TablesOk i ((s.proc i).handleCall i c))
    (shared : Paired ((s.proc i).handleCall i c).t ((s.proc i).bornAfter i c (s.born i)))
    (others : ∀ j, j ≠ i → TablesOk j ⟨s.world.tables j, ((s.proc i).handleCall i c).ledger⟩) :
    HandleInv (s.next i c) where
  ok j := by
    rcases eq_or_ne j i with rfl | ne
    · simpa only [HandleWorld.proc, HandleWorld.next, Function.update_self] using mine
    · simpa only [HandleWorld.proc, HandleWorld.next, Function.update_of_ne ne] using others j ne
  shared j := by
    rcases eq_or_ne j i with rfl | ne
    · simpa only [HandleWorld.next, Function.update_self] using shared
    · simpa only [HandleWorld.next, Function.update_of_ne ne] using inv.shared j

omit [DecidableEq ι] in
/-- A host descriptor that no guest uses has no place. -/
theorem HandleInv.unused (inv : HandleInv s) (spared : Spared s h) (j : ι) (place : FdPlace) :
    (s.world.tables j).place place ≠ some h := by
  intro at_place
  cases place with
  | fd w =>
    rw [FdTables.place] at at_place
    split_ifs at at_place with used
    have number := Option.some.inj at_place
    exact spared j w (by omega)
  | file k =>
    obtain ⟨found, differs⟩ := FdTables.of_place_file at_place
    exact differs (inv.shared j k h found).1

/-- A host descriptor that no guest uses is closed. -/
theorem HandleInv.closeSpared (inv : HandleInv s) (spared : Spared s h) (i j : ι) :
    TablesOk j ⟨s.world.tables j, s.world.ledger.closed (some i) h⟩ where
  owned := ⟨fun place g at_place => by
    have distinct : g ≠ h := by
      rintro rfl
      exact inv.unused spared j place at_place
    exact (closed_of_ne (some i) distinct).trans ((inv.ok j).owned.held place g at_place),
    (inv.ok j).owned.inj⟩
  stream := (inv.ok j).stream
  alone := (inv.ok j).alone

/-- A standard stream of the host is closed, or closed and opened again. -/
theorem handleCall_stdio (stdio : c.stdio = some h) (fresh : HandleFresh (s.proc i) c)
    (allowed : HandleOk s (i, c)) :
    Spared s h ∧ ((s.proc i).handleCall i c).t = (s.proc i).t ∧
      (((s.proc i).handleCall i c).ledger = s.world.ledger.closed (some i) h ∨
        ∃ r, (s.world.ledger.closed (some i) h).owner r = none ∧
          ((s.proc i).handleCall i c).ledger =
            (s.world.ledger.closed (some i) h).opened (some i) r) := by
  cases c with
  | fclose fp =>
    simp only [HandleCall.stdio] at stdio
    split_ifs at stdio with range
    obtain rfl := Option.some.inj stdio
    refine ⟨allowed range, ?_⟩
    rw [show (s.proc i).handleCall i (.fclose fp) = (s.proc i).hostClose i (fp - 1) from if_pos range]
    exact ⟨rfl, .inl rfl⟩
  | freopen fp result =>
    simp only [HandleCall.stdio] at stdio
    split_ifs at stdio with range
    obtain rfl := Option.some.inj stdio
    refine ⟨allowed.1 range, ?_⟩
    have found : (s.proc i).handleFd fp = some (fp - 1) := if_pos range
    cases result with
    | none =>
      have closes : ((s.proc i).yosFreopen i fp none).1 = (s.proc i).hostClose i (fp - 1) := by
        rw [FdProc.yosFreopen, found]
      exact ⟨(congrArg FdProc.t closes).trans rfl, .inl (congrArg FdProc.ledger closes)⟩
    | some r =>
      have opens : ((s.proc i).yosFreopen i fp (some r)).1 =
          ((s.proc i).hostClose i (fp - 1)).hostOpen i r := by
        rw [FdProc.yosFreopen, found]
        exact if_neg (by omega)
      refine ⟨(congrArg FdProc.t opens).trans rfl, .inr ⟨r, ?_, congrArg FdProc.ledger opens⟩⟩
      rcases eq_or_ne r (fp - 1) with rfl | ne
      · exact Function.update_self _ _ _
      · rw [closed_of_ne _ ne]
        refine fresh.resolve_right fun same => ne ?_
        exact (Option.some.inj (found.symm.trans same)).symm
  | _ => simp [HandleCall.stdio] at stdio

theorem HandleInv.next (inv : HandleInv s) (fresh : HandleFresh (s.proc i) c)
    (allowed : HandleOk s (i, c)) : HandleInv (s.next i c) := by
  cases stdio : c.stdio with
  | none =>
    obtain ⟨keeps, shared⟩ := handleCall_own (inv.ok i) (inv.shared i) fresh allowed stdio
    exact inv.next_of keeps.ok shared fun j ne => (inv.ok j).quiet ne keeps.quiet
  | some h =>
    obtain ⟨spared, tables, ledger⟩ := handleCall_stdio stdio fresh allowed
    have born : (s.proc i).bornAfter i c (s.born i) = s.born i := by
      cases c with
      | fopen r => simp [HandleCall.stdio] at stdio
      | fdopen wfd opens => simp [HandleCall.stdio] at stdio
      | _ => rfl
    have all (j : ι) : TablesOk j ⟨s.world.tables j, ((s.proc i).handleCall i c).ledger⟩ := by
      rcases ledger with closes | ⟨r, free, opens⟩
      · rw [closes]
        exact inv.closeSpared spared i j
      · rw [opens]
        have closed := inv.closeSpared spared i
        rcases eq_or_ne j i with rfl | ne
        · exact (keeping_hostOpen (closed j) free).1.ok
        · exact (closed j).quiet ne (keeping_hostOpen (closed i) free).1.quiet
    refine inv.next_of ?_ ?_ fun j _ => all j
    · have mine := all i
      rwa [show s.world.tables i = ((s.proc i).handleCall i c).t from tables.symm] at mine
    · rw [tables, born]
      exact inv.shared i

end Steps

/-! ## The runs -/

section Runs

variable {i : ι} {s : HandleWorld ι} {p : FdProc ι} {born : ℕ → ℤ}

theorem filesAgree_of_ok (ok : TablesOk i p) (shared : Paired p.t born) : FilesAgree i p born := by
  intro k h found
  obtain ⟨low, high, w, lt, fileno, used⟩ := ok.stream k h found
  obtain ⟨entry, made⟩ := shared k h found
  rw [fileno, Int.toNat_natCast] at entry
  refine ⟨low, high, w, lt, made.trans fileno, fileno, entry, ok.stream_owned found, ?_⟩
  obtain ⟨w', -, fileno', closes⟩ := yosFclose_eq ok found
  obtain rfl : w' = w := by exact_mod_cast fileno'.symm.trans fileno
  exact
    { handle := by
        rw [closes]
        exact Function.update_self _ _ _
      released := by
        rw [closes]
        have cleared : ∀ v : ℤ, v < 0 →
            (((p.hostClose i h).setFile k none (-1)).setFd w' v).t.fdMap w' < 0 := fun v neg => by
          simpa [FdProc.setFd] using neg
        refine cleared _ ?_
        split_ifs
        · decide
        · decide
      others := fun v ne => by
        rw [closes]
        exact Function.update_of_ne ne _ _
      closed := by
        rw [closes]
        rfl }

/-- In a run of calls that meet `HandleOk` every handle is in order. -/
theorem files_agree (run : (handleSystem ι).ReachableIf HandleOk s) (i : ι) :
    FilesAgree i (s.proc i) (s.born i) := by
  have inv : HandleInv s := by
    refine run.invariant (fun s start => ⟨fun i => tablesOk_init start i, fun i k h found => ?_⟩) ?_
    · have none := start.noFiles i k
      rw [found] at none
      cases none
    · rintro s ⟨i, c⟩ s' inv allowed ⟨fresh, rfl⟩
      exact inv.next fresh allowed
  exact filesAgree_of_ok (inv.ok i) (inv.shared i)

end Runs

/-- One guest with its standard descriptors and no stream. -/
def oneHandleGuest : HandleWorld Unit := ⟨oneGuest, fun _ _ => -1⟩

theorem oneHandleGuest_started : (handleSystem Unit).init oneHandleGuest := oneGuest_started

/-- The first stream of a guest. -/
theorem files_agree_first_stream :
    ((oneHandleGuest.next () (.fopen 6)).proc ()).t.fileSlots 4 = some 6 ∧
      FilesAgree () ((oneHandleGuest.next () (.fopen 6)).proc ())
        ((oneHandleGuest.next () (.fopen 6)).born ()) :=
  ⟨by decide, files_agree (.step (a := ((), .fopen 6)) (.init oneHandleGuest_started)
    (.inr ⟨3, by decide, by decide⟩) ⟨show oneGuest.ledger.owner 6 = none by decide, rfl⟩) ()⟩

/-- A stream opened while descriptor 0 is closed has the owner -1. -/
theorem fopen_zero :
    (handleSystem Unit).Reachable ((oneHandleGuest.next () (.close 0)).next () (.fopen 3)) ∧
      ¬ FilesAgree () (((oneHandleGuest.next () (.close 0)).next () (.fopen 3)).proc ())
        (((oneHandleGuest.next () (.close 0)).next () (.fopen 3)).born ()) := by
  have start : (handleSystem Unit).Reachable oneHandleGuest := .start oneHandleGuest_started
  have any : HandleFresh (oneHandleGuest.proc ()) (.close 0) := trivial
  have closed := start.next (a := ((), .close 0)) ⟨any, rfl⟩
  have free : ((oneHandleGuest.next () (.close 0)).proc ()).ledger.owner 3 = none := by decide
  refine ⟨closed.next (a := ((), .fopen 3)) ⟨free, rfl⟩, fun agree => ?_⟩
  obtain ⟨-, -, w, -, -, fileno, -⟩ := agree 4 3 (by decide)
  have none : (((oneHandleGuest.next () (.close 0)).next () (.fopen 3)).proc ()).t.yosFileno 4 = -1 := by
    decide
  omega

end Yos
