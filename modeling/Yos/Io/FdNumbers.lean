import Mathlib.Data.List.Find
import Yos.Io.FileTable
import Yos.Io.PosixFds

/-!
# Guest descriptors over whole runs (`impl/io/io.c`, `impl/io/file.c`, `impl/proc/proc.c`)

The tables of a guest refine `PosixFds`: an entry of `fd_map` is open on the file of its host descriptor,
and one with `YOS_FD_FCLOSE_TOMB` is retired.  `NumOk` are the calls for which each step does what the
descriptors of `Io/PosixFds` do (`numbers_refine`): `F_DUPFD` asks for no number above the lowest free one,
`fopen` finds a descriptor other than 0 or no handle, `close`, `dup2` and `fdopen` get a descriptor
without a stream, and a fork makes all its copies.

`file` is not in the context: it is the open file behind each host descriptor.
-/

namespace Yos

open Ledger

variable {ι φ : Type}

/-! ## The system -/

/-- The guests, the host, and the open file of each host descriptor. -/
structure NumWorld (ι φ : Type) where
  world : FdWorld ι
  file : ℕ → φ

/-- The part of a guest. -/
def NumWorld.proc (s : NumWorld ι φ) (i : ι) : FdProc ι := ⟨s.world.tables i, s.world.ledger⟩

/-- A descriptor that is returned, if it is no error. -/
def given (v : ℤ) : Option ℕ := if v < 0 then none else some v.toNat

/-- A handle that is returned, if there is one. -/
def givenHandle (k : ℕ) : Option ℕ := if k = 0 then none else some k

section System

variable [DecidableEq ι]

/-- A call of guest `i` for which the host returns the descriptor `r`, and what it allocates. -/
def FdProc.numCall (p : FdProc ι) (i : ι) (r : ℕ) : NumCall φ → FdProc ι × Option ℕ
  | .openFile _ => (((p.hostOpen i r).fdAlloc i r).1, given ((p.hostOpen i r).fdAlloc i r).2)
  | .dup fd => if p.mapped fd then ((p.allocOrClose i r).1, given (p.allocOrClose i r).2) else (p, none)
  | .dupfd fd _ => ((p.yosFcntlDupfd i fd r).1, given (p.yosFcntlDupfd i fd r).2)
  | .dup2 oldfd newfd => ((p.yosDup2 i oldfd newfd r).1, given (p.yosDup2 i oldfd newfd r).2)
  | .close fd => (p.yosClose i fd, none)
  | .fopen _ => (p.yosFopen i r, givenHandle (p.yosFopenHandle i r))
  | .fdopen fd opens => ((p.yosFdopen i fd opens).1, givenHandle (p.yosFdopen i fd opens).2)
  | .fclose fp => (p.yosFclose i fp, none)

/-- The open files after a call. -/
def FdProc.fileAfter (p : FdProc ι) (file : ℕ → φ) (r : ℕ) : NumCall φ → ℕ → φ
  | .openFile f | .fopen f => Function.update file r f
  | .dup fd | .dupfd fd _ | .dup2 fd _ => Function.update file r (file (p.t.fdMap fd.toNat).toNat)
  | .close _ | .fdopen _ _ | .fclose _ => file

/-- The state after a call. -/
def NumWorld.next (s : NumWorld ι φ) (i : ι) (r : ℕ) (c : NumCall φ) : NumWorld ι φ :=
  let q := ((s.proc i).numCall i r c).1
  { world := ⟨Function.update s.world.tables i q.t, q.ledger⟩
    file := (s.proc i).fileAfter s.file r c }

/-! ### Fork -/

/-- The copies a fork makes: of the entries of `fd_map` and of the streams. -/
structure Copies where
  fd : ℕ → Option ℕ
  file : ℕ → Option ℕ

/-- The tables of a forked child. -/
def FdTables.forked (t : FdTables) (copies : Copies) : FdTables where
  fdMap w :=
    if fdMax ≤ w ∨ t.fdMap w < 0 then -1
    else
      match copies.fd w with
      | some r => r
      | none => -1
  fileSlots k := (t.fileSlots k).bind fun _ => copies.file k
  fileWfds k := if (t.fileSlots k).isSome ∧ (copies.file k).isSome then t.fileWfds k else -1
  dirSlots _ := none

/-- The host descriptor that `r` is a copy of. -/
def FdTables.copied (t : FdTables) (copies : Copies) (r : ℕ) : Option ℕ :=
  match (List.range fdMax).find? fun w => decide (0 ≤ t.fdMap w) && decide (copies.fd w = some r) with
  | some w => some (t.fdMap w).toNat
  | none =>
    ((List.range fileMax).find? fun k => (t.fileSlots k).isSome && decide (copies.file k = some r)).bind
      t.fileSlots

/-- The state after a fork. -/
def NumWorld.fork (s : NumWorld ι φ) (parent child : ι) (copies : Copies) : NumWorld ι φ where
  world :=
    { tables := Function.update s.world.tables child ((s.world.tables parent).forked copies)
      ledger :=
        { s.world.ledger with
          owner := fun h =>
            if ((s.world.tables parent).copied copies h).isSome then some (some child)
            else s.world.ledger.owner h } }
  file h :=
    match (s.world.tables parent).copied copies h with
    | some g => s.file g
    | none => s.file h

/-- The copies are new, and each is a descriptor of its own. -/
structure CopiesFresh (s : NumWorld ι φ) (t : FdTables) (copies : Copies) : Prop where
  fresh : ∀ r, (t.copied copies r).isSome → s.world.ledger.owner r = none
  fd_inj : ∀ w w' r, w < fdMax → w' < fdMax → 0 ≤ t.fdMap w → 0 ≤ t.fdMap w' →
    copies.fd w = some r → copies.fd w' = some r → w = w'
  file_inj : ∀ k k' r, (t.fileSlots k).isSome → (t.fileSlots k').isSome → copies.file k = some r →
    copies.file k' = some r → k = k'
  apart : ∀ w k r, w < fdMax → 0 ≤ t.fdMap w → (t.fileSlots k).isSome → copies.fd w = some r →
    copies.file k ≠ some r

/-! ### The runs -/

/-- The processes make calls, and fork. -/
inductive NumAct (ι φ : Type) where
  | call (i : ι) (r : ℕ) (c : NumCall φ)
  | fork (parent child : ι) (copies : Copies)

/-- The calls for which the host opens or copies a file. -/
def NumCall.opens : NumCall φ → Bool
  | .openFile _ | .dup _ | .dupfd _ _ | .dup2 _ _ | .fopen _ => true
  | .close _ | .fdopen _ _ | .fclose _ => false

/-- The numbers that the host returns are not open. -/
def NumFresh (s : NumWorld ι φ) : NumAct ι φ → Prop
  | .call _ r c => c.opens = true → s.world.ledger.owner r = none
  | .fork parent child copies => parent ≠ child ∧ CopiesFresh s (s.world.tables parent) copies

/-- The state of the code, and the descriptors the guests expect. -/
structure NumState (ι φ : Type) where
  code : NumWorld ι φ
  posix : ι → PosixFds φ

/-- The descriptors that the tables stand for. -/
def FdTables.posix (t : FdTables) (file : ℕ → φ) : PosixFds φ where
  file w := if w < fdMax ∧ 0 ≤ t.fdMap w then some (file (t.fdMap w).toNat) else none
  retired w := decide (w < fdMax ∧ t.fdMap w < 0 ∧ t.fdMap w ≠ -1)
  streams k := (t.fileSlots k).map fun _ => ((t.yosFileno k).toNat, decide (0 ≤ t.fileWfds k))

/-- Both sides make each step. -/
def numSystem (ι φ : Type) [DecidableEq ι] : System (NumState ι φ) (NumAct ι φ) where
  init s := FdStarted s.code.world ∧ ∀ i, s.posix i = (s.code.world.tables i).posix s.code.file
  step s a s' := NumFresh s.code a ∧
    match a with
    | .call i r c =>
      s' = ⟨s.code.next i r c, Function.update s.posix i ((s.posix i).call c).1⟩
    | .fork parent child copies =>
      s' = ⟨s.code.fork parent child copies, Function.update s.posix child (s.posix parent).forked⟩

/-- The calls for which the two sides do the same. -/
def CallOk (p : FdProc ι) : NumCall φ → Prop
  | .dupfd fd min => p.mapped fd = true → ∀ w, firstFree p.t.fdMap = some w → min ≤ w
  | .dup2 oldfd newfd => p.mapped oldfd = true → oldfd ≠ newfd → p.t.NoStream newfd
  | .close fd => p.t.NoStream fd
  | .fopen _ => p.t.freeFile = none ∨ ∃ w, firstFree p.t.fdMap = some w ∧ w ≠ 0
  | .fdopen fd opens => p.mapped fd = true → opens = true → p.t.NoStream fd ∧ p.t.freeFile ≠ none
  | .fclose fp => ¬ (1 ≤ fp ∧ fp ≤ 3)
  | .openFile _ | .dup _ => True

/-- The steps for which they do. -/
def NumOk (s : NumState ι φ) : NumAct ι φ → Prop
  | .call i _ c => CallOk (s.code.proc i) c
  | .fork parent _ copies =>
    (∀ w < fdMax, 0 ≤ (s.code.world.tables parent).fdMap w → (copies.fd w).isSome) ∧
      ∀ k, ((s.code.world.tables parent).fileSlots k).isSome → (copies.file k).isSome

end System

/-! ## What the tables stand for -/

section Tables

variable {i : ι} {p : FdProc ι} {t : FdTables} {file file' : ℕ → φ} {h k r w : ℕ}

/-- The files of the descriptors in use are what counts. -/
theorem posix_congr (same : ∀ w, 0 ≤ t.fdMap w → file' (t.fdMap w).toNat = file (t.fdMap w).toNat) :
    t.posix file' = t.posix file := by
  have files : (t.posix file').file = (t.posix file).file := by
    funext w
    show (if _ then _ else _) = if _ then _ else _
    split_ifs with used
    · rw [same w used.2]
    · rfl
  exact PosixFds.ext files rfl rfl

/-- A host descriptor that is not open is that of no entry. -/
theorem TablesOk.file_fresh (ok : TablesOk i p) (fresh : p.ledger.owner r = none) (x : φ) :
    p.t.posix (Function.update file r x) = p.t.posix file := by
  refine posix_congr fun w used => Function.update_of_ne ?_ _ _
  rintro rfl
  exact ok.owned.unused fresh (.fd w) (if_pos used)

theorem posix_setFd_open (lt : w < fdMax) :
    (p.setFd w h).t.posix file = (p.t.posix file).set w (some (file h)) false := by
  refine PosixFds.ext (funext fun v => ?_) (funext fun v => ?_) rfl
  · rcases eq_or_ne v w with rfl | ne
    · simp [FdTables.posix, FdProc.setFd, PosixFds.set, lt]
    · simp [FdTables.posix, FdProc.setFd, PosixFds.set, ne]
  · rcases eq_or_ne v w with rfl | ne
    · simp [FdTables.posix, FdProc.setFd, PosixFds.set]
    · simp [FdTables.posix, FdProc.setFd, PosixFds.set, ne]

theorem posix_setFd_closed (lt : w < fdMax) {v : ℤ} (neg : v < 0) :
    (p.setFd w v).t.posix file = (p.t.posix file).set w none (decide (v ≠ -1)) := by
  refine PosixFds.ext (funext fun u => ?_) (funext fun u => ?_) rfl
  · rcases eq_or_ne u w with rfl | ne
    · simp [FdTables.posix, FdProc.setFd, PosixFds.set, neg]
    · simp [FdTables.posix, FdProc.setFd, PosixFds.set, ne]
  · rcases eq_or_ne u w with rfl | ne
    · simp [FdTables.posix, FdProc.setFd, PosixFds.set, lt, neg]
    · simp [FdTables.posix, FdProc.setFd, PosixFds.set, ne]

theorem posix_setFile (v : ℤ) : (p.setFile k (some h) v).t.posix file =
    (p.t.posix file).setStream k (some ((ownerFd v).toNat, decide (0 ≤ v))) := by
  refine PosixFds.ext rfl rfl (funext fun j => ?_)
  rcases eq_or_ne j k with rfl | ne
  · simp [FdTables.posix, FdTables.yosFileno, FdProc.setFile, PosixFds.setStream]
  · simp [FdTables.posix, FdTables.yosFileno, FdProc.setFile, PosixFds.setStream, ne]

theorem posix_freeFile (v : ℤ) :
    (p.setFile k none v).t.posix file = (p.t.posix file).setStream k none := by
  refine PosixFds.ext rfl rfl (funext fun j => ?_)
  rcases eq_or_ne j k with rfl | ne
  · simp [FdTables.posix, FdProc.setFile, PosixFds.setStream]
  · simp [FdTables.posix, FdTables.yosFileno, FdProc.setFile, PosixFds.setStream, ne]

theorem posix_free (lt : w < fdMax) : (t.posix file).free w = decide (t.fdMap w = -1) := by
  have either : (t.posix file).free w = true ↔ t.fdMap w = -1 := by
    simp only [PosixFds.free, FdTables.posix, lt, true_and, Bool.and_eq_true,
      Option.isNone_iff_eq_none, Bool.not_eq_true', decide_eq_false_iff_not]
    split_ifs with used
    · simp
      omega
    · simp
      omega
  exact Bool.eq_iff_iff.2 (either.trans decide_eq_true_iff.symm)

/-- `yos_fd_alloc` stops at or before every free entry. -/
theorem firstFree_le {fdMap : ℕ → ℤ} (lt : w < fdMax) (free : fdMap w = -1) :
    ∃ v, firstFree fdMap = some v ∧ v ≤ w := by
  cases found : firstFree fdMap with
  | none => exact absurd free (firstFree_eq_none.1 found w lt)
  | some v =>
    refine ⟨v, rfl, ?_⟩
    by_contra less
    have none_before := (List.find?_range_eq_some.1 found).2.2 w (by omega)
    simp [free] at none_before

/-- The lowest free number at or above `min` is where it stops, if it stops there. -/
theorem lowest_posix {min : ℤ} (low : ∀ w, firstFree t.fdMap = some w → min ≤ w) :
    (t.posix file).lowest min = firstFree t.fdMap := by
  refine List.find?_congr fun w mem => ?_
  have lt := List.mem_range.1 mem
  rw [posix_free lt]
  by_cases free : t.fdMap w = -1
  · obtain ⟨v, found, atMost⟩ := firstFree_le lt free
    have := low v found
    simp [free]
    omega
  · simp [free]

theorem freeHandle_posix : (t.posix file).freeHandle = t.freeFile := by
  refine List.find?_congr fun k _ => ?_
  simp [FdTables.posix]

theorem get_posix (fd : ℤ) : (p.t.posix file).get fd =
    if p.mapped fd = true then some (file (p.t.fdMap fd.toNat).toNat) else none := by
  unfold PosixFds.get FdProc.mapped
  by_cases range : 0 ≤ fd ∧ fd < fdMax
  · have lt : fd.toNat < fdMax := by omega
    rw [if_pos range]
    simp [FdTables.posix, lt, range]
  · rw [if_neg range, if_neg fun all => range ⟨(of_decide_eq_true all).1, (of_decide_eq_true all).2.1⟩]

end Tables

/-! ## The calls -/

section Calls

variable [DecidableEq ι] {i : ι} {p q : FdProc ι} {file : ℕ → φ} {h k r w : ℕ} {f : φ}

theorem given_natCast (w : ℕ) : given w = some w := by
  rw [given, if_neg (by omega), Int.toNat_natCast]

theorem given_of_neg {v : ℤ} (neg : v < 0) : given v = none := if_pos neg

/-- `yos_fd_alloc` of a new descriptor allocates the lowest free number. -/
theorem fdAlloc_refines (ok : TablesOk i p) (fresh : p.ledger.owner r = none) (f : φ) {min : ℤ}
    (low : ∀ w, firstFree p.t.fdMap = some w → min ≤ w) :
    ((p.hostOpen i r).fdAlloc i r).1.t.posix (Function.update file r f) =
        ((p.t.posix file).alloc min f).1 ∧
      given ((p.hostOpen i r).fdAlloc i r).2 = ((p.t.posix file).alloc min f).2 := by
  rw [PosixFds.alloc, lowest_posix low]
  cases found : firstFree p.t.fdMap with
  | some w =>
    rw [fdAlloc_of_free (p := p.hostOpen i r) found]
    refine ⟨?_, given_natCast w⟩
    rw [posix_setFd_open (p := p.hostOpen i r) (firstFree_spec found).1, Function.update_self]
    exact congrArg (fun q : PosixFds φ => q.set w (some f) false) (ok.file_fresh fresh f)
  | none =>
    rw [fdAlloc_of_full (p := p.hostOpen i r) found]
    exact ⟨ok.file_fresh fresh f, given_of_neg (show (-emfile : ℤ) < 0 by decide)⟩

/-- The second close changes no table. -/
theorem allocOrClose_eq : (p.allocOrClose i r).1.t = ((p.hostOpen i r).fdAlloc i r).1.t ∧
    (p.allocOrClose i r).2 = ((p.hostOpen i r).fdAlloc i r).2 := by
  rw [FdProc.allocOrClose]
  dsimp only
  split_ifs
  · exact ⟨rfl, rfl⟩
  · exact ⟨rfl, rfl⟩

theorem dup_refines (ok : TablesOk i p) (fresh : p.ledger.owner r = none) (fd : ℤ) :
    ((p.numCall i r (.dup (φ := φ) fd)).1.t.posix (p.fileAfter file r (.dup fd)) =
        ((p.t.posix file).dup fd 0).1) ∧
      (p.numCall i r (.dup (φ := φ) fd)).2 = ((p.t.posix file).dup fd 0).2 := by
  rw [FdProc.numCall, FdProc.fileAfter, PosixFds.dup, get_posix]
  by_cases mapped : p.mapped fd = true
  · simp only [if_pos mapped, allocOrClose_eq (p := p).1, allocOrClose_eq (p := p).2]
    exact fdAlloc_refines ok fresh _ fun w _ => Int.natCast_nonneg w
  · simp only [if_neg mapped]
    exact ⟨ok.file_fresh fresh _, trivial⟩

theorem dupfd_refines (ok : TablesOk i p) (fresh : p.ledger.owner r = none) (fd min : ℤ)
    (low : p.mapped fd = true → ∀ w, firstFree p.t.fdMap = some w → min ≤ w) :
    ((p.numCall i r (.dupfd (φ := φ) fd min)).1.t.posix (p.fileAfter file r (.dupfd fd min)) =
        ((p.t.posix file).dup fd min).1) ∧
      (p.numCall i r (.dupfd (φ := φ) fd min)).2 = ((p.t.posix file).dup fd min).2 := by
  rw [FdProc.numCall, FdProc.fileAfter, PosixFds.dup, FdProc.yosFcntlDupfd, get_posix]
  by_cases mapped : p.mapped fd = true
  · simp only [if_pos mapped]
    exact fdAlloc_refines ok fresh _ (low mapped)
  · simp only [if_neg mapped]
    exact ⟨ok.file_fresh fresh _, given_of_neg (show (-1 : ℤ) < 0 by decide)⟩

theorem dup2_refines (ok : TablesOk i p) (fresh : p.ledger.owner r = none) (oldfd newfd : ℤ) :
    ((p.numCall i r (.dup2 (φ := φ) oldfd newfd)).1.t.posix (p.fileAfter file r (.dup2 oldfd newfd)) =
        ((p.t.posix file).dup2 oldfd newfd).1) ∧
      (p.numCall i r (.dup2 (φ := φ) oldfd newfd)).2 = ((p.t.posix file).dup2 oldfd newfd).2 := by
  rw [FdProc.numCall, FdProc.fileAfter, PosixFds.dup2, FdProc.yosDup2, get_posix]
  by_cases mapped : p.mapped oldfd = true
  · simp only [if_pos mapped]
    by_cases same : oldfd = newfd
    · obtain ⟨w, -, rfl, -⟩ := mapped_spec mapped
      simp only [if_pos same]
      rw [← same, given_natCast, Int.toNat_natCast]
      exact ⟨ok.file_fresh fresh _, rfl⟩
    · simp only [if_neg same, FdProc.fdAssign]
      by_cases range : 0 ≤ newfd ∧ newfd < fdMax
      · rw [if_neg (by omega), if_pos range]
        have number : given newfd = some newfd.toNat := if_neg (by omega)
        refine ⟨?_, number⟩
        generalize file (p.t.fdMap oldfd.toNat).toNat = f
        have set : (p.setFd newfd.toNat r).t.posix (Function.update file r f) = _ :=
          posix_setFd_open (by omega : newfd.toNat < fdMax)
        rw [Function.update_self, ok.file_fresh fresh] at set
        rw [← set]
        dsimp only
        split_ifs
        · rfl
        · rfl
      · rw [if_pos (by omega), if_neg range]
        exact ⟨ok.file_fresh fresh _, given_of_neg (show (-1 : ℤ) < 0 by decide)⟩
  · simp only [if_neg mapped]
    exact ⟨ok.file_fresh fresh _, given_of_neg (show (-1 : ℤ) < 0 by decide)⟩

theorem close_refines (fd : ℤ) : (p.yosClose i fd).t.posix file = (p.t.posix file).close fd := by
  rw [PosixFds.close, get_posix, FdProc.yosClose, FdProc.fdClose]
  by_cases mapped : p.mapped fd = true
  · obtain ⟨w, h, rfl, lt, entry, number⟩ := mapped_spec mapped
    have low : ¬ vfsFdBase ≤ (w : ℤ) := by
      have : (fdMax : ℤ) ≤ vfsFdBase := by decide
      omega
    rw [if_pos mapped, if_pos Option.isSome_some, if_neg low, if_neg (by omega), Int.toNat_natCast]
    dsimp only
    rw [if_neg (by omega)]
    exact posix_setFd_closed lt (by decide)
  · have nothing : (if p.mapped fd = true then some (file (p.t.fdMap fd.toNat).toNat) else none).isSome =
        false := by
      rw [if_neg mapped]
      rfl
    rw [nothing, if_neg Bool.false_ne_true]
    have closed : ¬ (0 ≤ fd ∧ fd < fdMax ∧ 0 ≤ p.t.fdMap fd.toNat) := fun all =>
      mapped (decide_eq_true all)
    dsimp only
    split_ifs with virtual range
    · rfl
    · rfl
    · rfl
    · omega

theorem fopen_refines (ok : TablesOk i p) (fresh : p.ledger.owner r = none) (f : φ)
    (room : p.t.freeFile = none ∨ ∃ w, firstFree p.t.fdMap = some w ∧ w ≠ 0) :
    (p.yosFopen i r).t.posix (Function.update file r f) = ((p.t.posix file).fopen f).1 ∧
      givenHandle (p.yosFopenHandle i r) = ((p.t.posix file).fopen f).2 := by
  have handles : p.yosFopenHandle i r = p.t.freeFile.getD 0 := by
    rw [FdProc.yosFopenHandle]
    cases found : firstFree (p.hostOpen i r).t.fdMap with
    | some w =>
      rw [fdAlloc_of_free found]
      rfl
    | none =>
      rw [fdAlloc_of_full found]
      rfl
  rw [PosixFds.fopen, freeHandle_posix, lowest_posix fun w _ => Int.natCast_nonneg w, handles]
  cases handle : p.t.freeFile with
  | none =>
    rw [(keeping_yosFopen_full ok fresh handle).2]
    exact ⟨ok.file_fresh fresh f, rfl⟩
  | some k =>
    obtain ⟨w, descriptor, nonzero⟩ := room.resolve_left (by simp [handle])
    obtain ⟨low, -, -⟩ := freeFile_spec handle
    have owner : ownerFd (-((w : ℤ) + 1)) = w := by
      rw [ownerFd, if_pos (by omega)]
      omega
    rw [descriptor]
    refine ⟨?_, if_neg (by simp only [Option.getD_some]; omega)⟩
    rw [yosFopen_eq handle descriptor, posix_setFile, owner, Int.toNat_natCast,
      decide_eq_false (by omega),
      posix_setFd_open (p := p.hostOpen i r) (firstFree_spec descriptor).1, Function.update_self]
    exact congrArg (fun q : PosixFds φ => (q.set w (some f) false).setStream k (some (w, false)))
      (ok.file_fresh fresh f)

theorem fdopen_refines (fd : ℤ) (opens : Bool)
    (room : p.mapped fd = true → opens = true → p.t.NoStream fd ∧ p.t.freeFile ≠ none) :
    (p.yosFdopen i fd opens).1.t.posix file =
        (if opens = true then (p.t.posix file).fdopen fd else (p.t.posix file, none)).1 ∧
      givenHandle (p.yosFdopen i fd opens).2 =
        (if opens = true then (p.t.posix file).fdopen fd else (p.t.posix file, none)).2 := by
  rw [PosixFds.fdopen, get_posix, freeHandle_posix, FdProc.yosFdopen]
  cases opens with
  | false => simp [givenHandle]
  | true =>
    by_cases mapped : p.mapped fd = true
    · obtain ⟨w, h, rfl, lt, entry, number⟩ := mapped_spec mapped
      cases handle : p.t.freeFile with
      | none => exact absurd handle (room mapped rfl).2
      | some k =>
        obtain ⟨low, -, -⟩ := freeFile_spec handle
        have owner : ownerFd (w : ℤ) = w := if_neg (by omega)
        simp only [mapped, Bool.and_self, if_true]
        refine ⟨?_, if_neg (by omega)⟩
        rw [posix_setFile, owner, decide_eq_true (Int.natCast_nonneg w)]
    · simp [mapped, givenHandle]

theorem fclose_refines (ok : TablesOk i p) (guest : ¬ (1 ≤ k ∧ k ≤ 3)) :
    (p.yosFclose i k).t.posix file = (p.t.posix file).fclose k := by
  rw [PosixFds.fclose]
  cases found : p.t.fileSlots k with
  | none =>
    have gone : (p.t.posix file).streams k = none := by simp [FdTables.posix, found]
    rw [gone, FdProc.yosFclose, if_neg guest]
    split_ifs
    · rfl
    · rw [found]
  | some h =>
    obtain ⟨w, lt, fileno, closes⟩ := yosFclose_eq ok found
    have stream : (p.t.posix file).streams k = some (w, decide (0 ≤ p.t.fileWfds k)) := by
      simp [FdTables.posix, found, fileno]
    rw [stream, closes, posix_setFd_closed lt (by split_ifs <;> decide), posix_freeFile]
    have retires : decide ((if 0 ≤ p.t.fileWfds k then fdFcloseTomb else -1) ≠ -1) =
        decide (0 ≤ p.t.fileWfds k) := by
      split_ifs with own
      · simp [own, fdFcloseTomb]
      · simp [own]
    rw [retires]
    rfl

/-- Every call does what it does to the descriptors the guest expects. -/
theorem call_refines (file : ℕ → φ) {c : NumCall φ} (ok : TablesOk i p)
    (fresh : c.opens = true → p.ledger.owner r = none) (allowed : CallOk p c) :
    (p.numCall i r c).1.t.posix (p.fileAfter file r c) = ((p.t.posix file).call c).1 ∧
      (p.numCall i r c).2 = ((p.t.posix file).call c).2 := by
  cases c with
  | openFile f => exact fdAlloc_refines ok (fresh rfl) f fun w _ => Int.natCast_nonneg w
  | dup fd => exact dup_refines ok (fresh rfl) fd
  | dupfd fd min => exact dupfd_refines ok (fresh rfl) fd min allowed
  | dup2 oldfd newfd => exact dup2_refines ok (fresh rfl) oldfd newfd
  | close fd => exact ⟨close_refines fd, rfl⟩
  | fopen f => exact fopen_refines ok (fresh rfl) f allowed
  | fdopen fd opens => exact fdopen_refines fd opens allowed
  | fclose fp => exact ⟨fclose_refines ok allowed, rfl⟩

/-- The tables of the guest stay in order, and those of the others. -/
theorem keeping_numCall {c : NumCall φ} (ok : TablesOk i p)
    (fresh : c.opens = true → p.ledger.owner r = none) (allowed : CallOk p c) :
    Keeping i p (p.numCall i r c).1 := by
  cases c with
  | openFile f => exact keeping_fdAlloc ok (fresh rfl)
  | dup fd =>
    rw [FdProc.numCall]
    split_ifs
    · exact keeping_allocOrClose ok (fresh rfl)
    · exact keeping_same ok rfl rfl
  | dupfd fd min =>
    rw [FdProc.numCall, FdProc.yosFcntlDupfd]
    split_ifs
    · exact keeping_fdAlloc ok (fresh rfl)
    · exact keeping_same ok rfl rfl
  | dup2 oldfd newfd => exact keeping_yosDup2 ok (fresh rfl) allowed
  | close fd =>
    rw [FdProc.numCall, FdProc.yosClose]
    split_ifs
    · exact keeping_same ok rfl rfl
    · exact keeping_fdClose ok allowed
  | fopen f => exact keeping_yosFopen ok (fresh rfl) allowed
  | fdopen fd opens => exact keeping_yosFdopen ok fun mapped opened => (allowed mapped opened).1
  | fclose fp => exact keeping_yosFclose ok allowed

end Calls

/-! ## Fork -/

section Fork

variable {s : NumWorld ι φ} {t : FdTables} {copies : Copies} {k r w : ℕ}

/-- The copy of an entry of `fd_map`. -/
theorem CopiesFresh.copied_fd (distinct : CopiesFresh s t copies) (lt : w < fdMax)
    (used : 0 ≤ t.fdMap w) (copy : copies.fd w = some r) :
    t.copied copies r = some (t.fdMap w).toNat := by
  rw [FdTables.copied]
  cases found : (List.range fdMax).find? fun w =>
      decide (0 ≤ t.fdMap w) && decide (copies.fd w = some r) with
  | none =>
    have nowhere := List.find?_eq_none.1 found w (List.mem_range.2 lt)
    simp [used, copy] at nowhere
  | some v =>
    have cond := List.find?_some found
    have below := List.mem_range.1 (List.mem_of_find?_eq_some found)
    simp only [Bool.and_eq_true, decide_eq_true_eq] at cond
    rw [distinct.fd_inj w v r lt below used cond.1 copy cond.2]

/-- The copy of a stream. -/
theorem FdTables.copied_file (lt : k < fileMax) (used : (t.fileSlots k).isSome)
    (copy : copies.file k = some r) : (t.copied copies r).isSome := by
  rw [FdTables.copied]
  cases (List.range fdMax).find? fun w => decide (0 ≤ t.fdMap w) && decide (copies.fd w = some r) with
  | some v => rfl
  | none =>
    dsimp only
    cases found : (List.range fileMax).find? fun k =>
        (t.fileSlots k).isSome && decide (copies.file k = some r) with
    | none =>
      have nowhere := List.find?_eq_none.1 found k (List.mem_range.2 lt)
      simp [used, copy] at nowhere
    | some j =>
      have cond := List.find?_some found
      simp only [Bool.and_eq_true, decide_eq_true_eq] at cond
      exact cond.1

theorem FdTables.forked_fd (copy : copies.fd w = some r) (lt : w < fdMax) (used : 0 ≤ t.fdMap w) :
    (t.forked copies).fdMap w = r := by
  rw [FdTables.forked]
  dsimp only
  rw [if_neg (by omega), copy]

/-- An entry of the child is the copy of one of its parent. -/
theorem FdTables.of_forked_fd (used : 0 ≤ (t.forked copies).fdMap w) :
    w < fdMax ∧ 0 ≤ t.fdMap w ∧ ∃ r, copies.fd w = some r ∧ (t.forked copies).fdMap w = r := by
  by_cases none_there : fdMax ≤ w ∨ t.fdMap w < 0
  · rw [FdTables.forked] at used
    dsimp only at used
    rw [if_pos none_there] at used
    omega
  · cases copy : copies.fd w with
    | none =>
      rw [FdTables.forked] at used
      dsimp only at used
      rw [if_neg none_there, copy] at used
      exact absurd used (by decide)
    | some r => exact ⟨by omega, by omega, r, rfl, forked_fd copy (by omega) (by omega)⟩

theorem FdTables.of_forked_file (found : (t.forked copies).fileSlots k = some r) :
    (t.fileSlots k).isSome ∧ copies.file k = some r ∧ (t.forked copies).fileWfds k = t.fileWfds k := by
  obtain ⟨h, here, copy⟩ := Option.bind_eq_some_iff.1 found
  refine ⟨by rw [here]; rfl, copy, if_pos ?_⟩
  rw [here, copy]
  exact ⟨rfl, rfl⟩

theorem FdTables.of_forked_place {place : FdPlace} (at_place : (t.forked copies).place place = some r) :
    (∃ w, place = .fd w ∧ w < fdMax ∧ 0 ≤ t.fdMap w ∧ copies.fd w = some r) ∨
      ∃ k, place = .file k ∧ (t.fileSlots k).isSome ∧ copies.file k = some r := by
  cases place with
  | fd w =>
    rw [FdTables.place] at at_place
    split_ifs at at_place with used
    obtain ⟨lt, entry, h, copy, value⟩ := of_forked_fd used
    rw [value, Int.toNat_natCast] at at_place
    exact .inl ⟨w, rfl, lt, entry, copy.trans at_place⟩
  | file k =>
    obtain ⟨here, copy, -⟩ := of_forked_file (of_place_file at_place).1
    exact .inr ⟨k, rfl, here, copy⟩

section Child

variable [DecidableEq ι] {i parent child : ι}

/-- A fork takes no descriptor of another guest. -/
theorem quiet_fork (distinct : CopiesFresh s (s.world.tables parent) copies) :
    OthersHold (some child) s.world.ledger (s.fork parent child copies).world.ledger := by
  intro h j _ owns
  have not_copy : ¬ ((s.world.tables parent).copied copies h).isSome := by
    intro copy
    rw [distinct.fresh h copy] at owns
    cases owns
  exact (if_neg not_copy).trans owns

/-- The tables of the child are in order. -/
theorem tablesOk_forked (ok : TablesOk parent (s.proc parent))
    (distinct : CopiesFresh s (s.world.tables parent) copies)
    (made : ∀ w < fdMax, 0 ≤ (s.world.tables parent).fdMap w → (copies.fd w).isSome) :
    TablesOk child ⟨(s.world.tables parent).forked copies,
      (s.fork parent child copies).world.ledger⟩ where
  owned := by
    refine ⟨fun place h at_place => if_pos ?_, fun place place' h at_place at_place' => ?_⟩
    · rcases FdTables.of_forked_place at_place with ⟨w, -, lt, used, copy⟩ | ⟨k, -, used, copy⟩
      · rw [distinct.copied_fd lt used copy]
        rfl
      · obtain ⟨g, found⟩ := Option.isSome_iff_exists.1 used
        exact FdTables.copied_file (ok.stream k g found).2.1 used copy
    · rcases FdTables.of_forked_place at_place with ⟨w, rfl, lt, used, copy⟩ | ⟨k, rfl, used, copy⟩
      · rcases FdTables.of_forked_place at_place' with
          ⟨w', rfl, lt', used', copy'⟩ | ⟨k', rfl, used', copy'⟩
        · rw [distinct.fd_inj w w' h lt lt' used used' copy copy']
        · exact absurd copy' (distinct.apart w k' h lt used used' copy)
      · rcases FdTables.of_forked_place at_place' with
          ⟨w', rfl, lt', used', copy'⟩ | ⟨k', rfl, used', copy'⟩
        · exact absurd copy (distinct.apart w' k h lt' used' used copy')
        · rw [distinct.file_inj k k' h used used' copy copy']
  stream k h found := by
    obtain ⟨used, -, stored⟩ := FdTables.of_forked_file found
    obtain ⟨g, here⟩ := Option.isSome_iff_exists.1 used
    obtain ⟨low, high, w, lt, fileno, entry⟩ := ok.stream k g here
    obtain ⟨r, copy⟩ := Option.isSome_iff_exists.1 (made w lt entry)
    refine ⟨low, high, w, lt, (congrArg ownerFd stored).trans fileno, ?_⟩
    have value : ((s.world.tables parent).forked copies).fdMap w = r :=
      FdTables.forked_fd copy lt entry
    exact value ▸ Int.natCast_nonneg r
  alone k k' h h' found found' same := by
    obtain ⟨used, -, stored⟩ := FdTables.of_forked_file found
    obtain ⟨used', -, stored'⟩ := FdTables.of_forked_file found'
    obtain ⟨g, here⟩ := Option.isSome_iff_exists.1 used
    obtain ⟨g', here'⟩ := Option.isSome_iff_exists.1 used'
    refine ok.alone k k' g g' here here' ?_
    exact (congrArg ownerFd stored).symm.trans (same.trans (congrArg ownerFd stored'))

/-- The child has the files and the streams of its parent. -/
theorem posix_forked (distinct : CopiesFresh s (s.world.tables parent) copies)
    (made : ∀ w < fdMax, 0 ≤ (s.world.tables parent).fdMap w → (copies.fd w).isSome)
    (streams : ∀ k, ((s.world.tables parent).fileSlots k).isSome → (copies.file k).isSome) :
    ((s.world.tables parent).forked copies).posix (s.fork parent child copies).file =
      ((s.world.tables parent).posix s.file).forked := by
  generalize same : s.world.tables parent = t at *
  refine PosixFds.ext (funext fun w => ?_) (funext fun w => ?_) (funext fun k => ?_)
  · show (if _ then _ else _) = if _ then _ else _
    by_cases used : w < fdMax ∧ 0 ≤ t.fdMap w
    · obtain ⟨r, copy⟩ := Option.isSome_iff_exists.1 (made w used.1 used.2)
      have value : (s.fork parent child copies).file r = s.file (t.fdMap w).toNat := by
        rw [NumWorld.fork]
        dsimp only
        rw [same, distinct.copied_fd used.1 used.2 copy]
      rw [FdTables.forked_fd copy used.1 used.2, if_pos ⟨used.1, Int.natCast_nonneg r⟩, if_pos used,
        Int.toNat_natCast, value]
    · rw [if_neg used, if_neg fun there => ?_]
      obtain ⟨lt, entry, -⟩ := FdTables.of_forked_fd there.2
      exact used ⟨lt, entry⟩
  · refine decide_eq_false fun there => there.2.2 ?_
    have unused : ¬ 0 ≤ (t.forked copies).fdMap w := Int.not_le.2 there.2.1
    by_contra differs
    by_cases none_there : fdMax ≤ w ∨ t.fdMap w < 0
    · exact differs (if_pos none_there)
    · obtain ⟨r, copy⟩ := Option.isSome_iff_exists.1 (made w there.1 (by omega))
      rw [FdTables.forked_fd copy there.1 (by omega)] at unused
      exact unused (Int.natCast_nonneg r)
  · show Option.map _ ((t.fileSlots k).bind fun _ => copies.file k) = Option.map _ (t.fileSlots k)
    cases here : t.fileSlots k with
    | none => rfl
    | some h =>
      have used : (t.fileSlots k).isSome := by rw [here]; rfl
      have copied := streams k used
      have stored : (t.forked copies).fileWfds k = t.fileWfds k := if_pos ⟨used, copied⟩
      obtain ⟨r, copy⟩ := Option.isSome_iff_exists.1 copied
      have fileno : (t.forked copies).yosFileno k = t.yosFileno k := congrArg ownerFd stored
      simp only [Option.bind_some, copy, Option.map_some, fileno, stored]

/-- The other processes have the files they had. -/
theorem posix_fork_other (ok : TablesOk i (s.proc i))
    (distinct : CopiesFresh s (s.world.tables parent) copies) :
    (s.world.tables i).posix (s.fork parent child copies).file = (s.world.tables i).posix s.file := by
  refine posix_congr fun w used => ?_
  have owns := ok.owned.held (.fd w) _ (if_pos used)
  rw [NumWorld.fork]
  dsimp only
  cases copy : (s.world.tables parent).copied copies ((s.world.tables i).fdMap w).toNat with
  | none => rfl
  | some g =>
    have fresh := distinct.fresh _ (by rw [copy]; rfl)
    exact absurd (owns.symm.trans fresh) (by simp)

end Child

end Fork

/-! ## Runs -/

section Runs

variable [DecidableEq ι]

/-- The tables of every process are in order and stand for its descriptors. -/
structure NumInv (s : NumState ι φ) : Prop where
  ok : ∀ i, TablesOk i (s.code.proc i)
  stands : ∀ i, (s.code.world.tables i).posix s.code.file = s.posix i

/-- The process that a step changes. -/
def NumAct.guest : NumAct ι φ → ι
  | .call i _ _ => i
  | .fork _ child _ => child

variable {i : ι} {s s' t : NumState ι φ} {a : NumAct ι φ} {c : NumCall φ} {v : Option ℕ} {n r : ℕ}

theorem numInv_init (start : (numSystem ι φ).init s) : NumInv s :=
  ⟨tablesOk_init start.1, fun i => (start.2 i).symm⟩

omit [DecidableEq ι] in
/-- The open files of the other processes are those they were. -/
theorem posix_fileAfter (inv : NumInv s) (fresh : NumFresh s.code (.call i r c)) (j : ι) :
    (s.code.world.tables j).posix ((s.code.proc i).fileAfter s.code.file r c) = s.posix j := by
  rw [← inv.stands j]
  cases c with
  | openFile f => exact (inv.ok j).file_fresh (fresh rfl) f
  | fopen f => exact (inv.ok j).file_fresh (fresh rfl) f
  | dup fd => exact (inv.ok j).file_fresh (fresh rfl) _
  | dupfd fd min => exact (inv.ok j).file_fresh (fresh rfl) _
  | dup2 oldfd newfd => exact (inv.ok j).file_fresh (fresh rfl) _
  | close fd => rfl
  | fdopen fd opens => rfl
  | fclose fp => rfl

/-! ### One step -/

theorem next_tables_self (s : NumWorld ι φ) (i : ι) (r : ℕ) (c : NumCall φ) :
    (s.next i r c).world.tables i = ((s.proc i).numCall i r c).1.t := Function.update_self _ _ _

theorem next_proc_self (s : NumWorld ι φ) (i : ι) (r : ℕ) (c : NumCall φ) :
    (s.next i r c).proc i = ((s.proc i).numCall i r c).1 := by
  rw [NumWorld.proc, next_tables_self]
  rfl

theorem next_tables_other {j : ι} (other : j ≠ i) (s : NumWorld ι φ) (r : ℕ) (c : NumCall φ) :
    (s.next i r c).world.tables j = s.world.tables j := Function.update_of_ne other _ _

theorem fork_tables_child (s : NumWorld ι φ) (parent child : ι) (copies : Copies) :
    (s.fork parent child copies).world.tables child = (s.world.tables parent).forked copies :=
  Function.update_self _ _ _

theorem fork_tables_other {j child : ι} (other : j ≠ child) (s : NumWorld ι φ) (parent : ι)
    (copies : Copies) : (s.fork parent child copies).world.tables j = s.world.tables j :=
  Function.update_of_ne other _ _

theorem numInv_call (inv : NumInv s) (allowed : CallOk (s.code.proc i) c)
    (fresh : NumFresh s.code (.call i r c)) :
    NumInv ⟨s.code.next i r c, Function.update s.posix i ((s.posix i).call c).1⟩ := by
  have keeps := keeping_numCall (inv.ok i) fresh allowed
  refine ⟨fun j => ?_, fun j => ?_⟩
  · rcases eq_or_ne j i with rfl | other
    · dsimp only
      rw [next_proc_self]
      exact keeps.ok
    · rw [NumWorld.proc, next_tables_other other]
      exact (inv.ok j).quiet other keeps.quiet
  · dsimp only
    rcases eq_or_ne j i with rfl | other
    · rw [next_tables_self, Function.update_self, ← inv.stands j]
      exact (call_refines s.code.file (inv.ok j) fresh allowed).1
    · rw [next_tables_other other, Function.update_of_ne other]
      exact posix_fileAfter inv fresh j

theorem numInv_fork (inv : NumInv s) {parent child : ι} {copies : Copies}
    (allowed : NumOk s (.fork parent child copies))
    (fresh : NumFresh s.code (.fork parent child copies)) :
    NumInv ⟨s.code.fork parent child copies,
      Function.update s.posix child (s.posix parent).forked⟩ := by
  refine ⟨fun j => ?_, fun j => ?_⟩
  · rcases eq_or_ne j child with rfl | other
    · rw [NumWorld.proc, fork_tables_child]
      exact tablesOk_forked (inv.ok parent) fresh.2 allowed.1
    · rw [NumWorld.proc, fork_tables_other other]
      exact (inv.ok j).quiet other (quiet_fork fresh.2)
  · dsimp only
    rcases eq_or_ne j child with rfl | other
    · rw [fork_tables_child, Function.update_self, ← inv.stands parent]
      exact posix_forked fresh.2 allowed.1 allowed.2
    · rw [fork_tables_other other, Function.update_of_ne other, ← inv.stands j]
      exact posix_fork_other (inv.ok j) fresh.2

/-- The step lemma: an allowed step keeps the two sides together. -/
theorem numInv_step (inv : NumInv s) (allowed : NumOk s a) (next : (numSystem ι φ).step s a s') :
    NumInv s' := by
  obtain ⟨fresh, next⟩ := next
  cases a with
  | call i r c =>
    obtain rfl : s' = _ := next
    exact numInv_call inv allowed fresh
  | fork parent child copies =>
    obtain rfl : s' = _ := next
    exact numInv_fork inv allowed fresh

theorem posix_step_other (next : (numSystem ι φ).step s a s') (other : i ≠ a.guest) :
    s'.posix i = s.posix i := by
  obtain ⟨-, next⟩ := next
  cases a with
  | call j r c =>
    obtain rfl : s' = _ := next
    exact Function.update_of_ne other _ _
  | fork parent child copies =>
    obtain rfl : s' = _ := next
    exact Function.update_of_ne other _ _

/-! ### Rounds -/

/-- Steps that leave process `i` alone. -/
inductive Aside (i : ι) (s : NumState ι φ) : NumState ι φ → Prop
  | refl : Aside i s s
  | step {t s' : NumState ι φ} {a : NumAct ι φ} (before : Aside i s t) (allowed : NumOk t a)
      (other : i ≠ a.guest) (next : (numSystem ι φ).step t a s') : Aside i s s'

/-- Process `i` makes the call `c`, which returns `v`, and then the others make steps. -/
def NumMove (i : ι) (s : NumState ι φ) (c : NumCall φ) (v : Option ℕ) (s' : NumState ι φ) : Prop :=
  ∃ r t, NumOk s (.call i r c) ∧ (numSystem ι φ).step s (.call i r c) t ∧
    ((s.code.proc i).numCall i r c).2 = v ∧ Aside i t s'

/-- Rounds of process `i`; `n` of them are those of `fdopen`. -/
inductive NumRounds (i : ι) (s : NumState ι φ) : ℕ → NumState ι φ → Prop
  | none : NumRounds i s 0 s
  | openClose {n : ℕ} {t t₁ t₂ : NumState ι φ} {f : φ} {w : ℕ} {v : Option ℕ}
      (before : NumRounds i s n t) (opened : NumMove i t (.openFile f) (some w) t₁)
      (closed : NumMove i t₁ (.close w) v t₂) : NumRounds i s n t₂
  | fopenFclose {n : ℕ} {t t₁ t₂ : NumState ι φ} {f : φ} {k : ℕ} {v : Option ℕ}
      (before : NumRounds i s n t) (opened : NumMove i t (.fopen f) (some k) t₁)
      (closed : NumMove i t₁ (.fclose k) v t₂) : NumRounds i s n t₂
  | fdopenFclose {n : ℕ} {t t₁ t₂ t₃ : NumState ι φ} {f : φ} {w k : ℕ} {v : Option ℕ}
      (before : NumRounds i s n t) (opened : NumMove i t (.openFile f) (some w) t₁)
      (made : NumMove i t₁ (.fdopen w true) (some k) t₂)
      (closed : NumMove i t₂ (.fclose k) v t₃) : NumRounds i s (n + 1) t₃

theorem Aside.spec (inv : NumInv s) (aside : Aside i s s') : NumInv s' ∧ s'.posix i = s.posix i := by
  induction aside with
  | refl => exact ⟨inv, rfl⟩
  | step _ allowed other next ih =>
    exact ⟨numInv_step ih.1 allowed next, (posix_step_other next other).trans ih.2⟩

/-- A call returns what it does to the descriptors the process expects. -/
theorem NumMove.spec (inv : NumInv s) (move : NumMove i s c v s') :
    NumInv s' ∧ (s.posix i).call c = (s'.posix i, v) := by
  obtain ⟨r, t, allowed, next, result, aside⟩ := move
  obtain ⟨inv', same⟩ := aside.spec (numInv_step inv allowed next)
  refine ⟨inv', ?_⟩
  obtain ⟨fresh, next⟩ := next
  obtain rfl : t = _ := next
  have updated : Function.update s.posix i ((s.posix i).call c).1 i = ((s.posix i).call c).1 :=
    Function.update_self _ _ _
  have returned := (call_refines s.code.file (inv.ok i) fresh allowed).2
  have stands : (s.code.proc i).t.posix s.code.file = s.posix i := inv.stands i
  rw [stands, result] at returned
  exact Prod.ext (same.trans updated).symm returned.symm

/-- The numbers that are free after rounds. -/
theorem NumRounds.available (inv : NumInv s) (rounds : NumRounds i s n s') :
    NumInv s' ∧ (s'.posix i).available + n = (s.posix i).available := by
  induction rounds with
  | none => exact ⟨inv, rfl⟩
  | openClose _ opened closed ih =>
    obtain ⟨inv₁, opens⟩ := opened.spec ih.1
    obtain ⟨inv₂, closes⟩ := closed.spec inv₁
    refine ⟨inv₂, ?_⟩
    rw [← ih.2, ← (Prod.mk.inj closes).1, PosixFds.close_alloc opens]
  | fopenFclose _ opened closed ih =>
    obtain ⟨inv₁, opens⟩ := opened.spec ih.1
    obtain ⟨inv₂, closes⟩ := closed.spec inv₁
    refine ⟨inv₂, ?_⟩
    rw [← ih.2, ← (Prod.mk.inj closes).1, PosixFds.fclose_fopen opens]
  | fdopenFclose _ opened made closed ih =>
    obtain ⟨inv₁, opens⟩ := opened.spec ih.1
    obtain ⟨inv₂, makes⟩ := made.spec inv₁
    obtain ⟨inv₃, closes⟩ := closed.spec inv₂
    refine ⟨inv₃, ?_⟩
    rw [PosixFds.call, if_pos rfl] at makes
    obtain ⟨after, lt, unused⟩ := PosixFds.fclose_fdopen opens makes
    rw [← ih.2, ← (Prod.mk.inj closes).1, after, ← PosixFds.available_retire lt unused]
    omega

/-! ### The descriptors of a process -/

/-- The number of free entries. -/
def FdTables.freeEntries (t : FdTables) : ℕ :=
  ((Finset.range fdMax).filter fun w => t.fdMap w = -1).card

theorem available_posix (t : FdTables) (file : ℕ → φ) :
    (t.posix file).available = t.freeEntries := by
  have same : ((Finset.range fdMax).filter fun w => (t.posix file).free w = true) =
      (Finset.range fdMax).filter fun w => t.fdMap w = -1 :=
    Finset.filter_congr fun w mem => by
      rw [posix_free (Finset.mem_range.1 mem), decide_eq_true_iff]
  exact congrArg Finset.card same

/-- The number behind what a call returns. -/
def FdTables.number (t : FdTables) (result : ℕ) : NumCall φ → ℕ
  | .fopen _ => (t.yosFileno result).toNat
  | _ => result

/-- The entry `w` is the lowest free one of `t` at or above `min`, and in `t'` it is open on `f`. -/
structure LowestFree (t t' : FdTables) (file : ℕ → φ) (min : ℤ) (f : φ) (w : ℕ) : Prop where
  lt : w < fdMax
  above : min ≤ w
  free : t.fdMap w = -1
  lowest : ∀ v < w, min ≤ v → t.fdMap v ≠ -1
  refers : 0 ≤ t'.fdMap w ∧ file (t'.fdMap w).toNat = f

/-- The descriptors of the processes: the tables stand for them, every call returns what they say, an
allocation takes the lowest free number for its source, and rounds give back what they take, except
for the numbers that were handed to `fdopen`. -/
structure NumbersAgree (s : NumState ι φ) : Prop where
  stands : ∀ i, (s.code.world.tables i).posix s.code.file = s.posix i
  returns : ∀ i r c, NumFresh s.code (.call i r c) → CallOk (s.code.proc i) c →
    ((s.code.proc i).numCall i r c).2 = ((s.posix i).call c).2
  allocates : ∀ i r c f min w, NumFresh s.code (.call i r c) → CallOk (s.code.proc i) c →
    (s.posix i).source c = some (f, min) → ((s.code.proc i).numCall i r c).2 = some w →
    LowestFree (s.code.world.tables i) ((s.code.next i r c).world.tables i) (s.code.next i r c).file
      min f (((s.code.next i r c).world.tables i).number w c)
  rounds : ∀ i n s', NumRounds i s n s' →
    (s'.code.world.tables i).freeEntries + n = (s.code.world.tables i).freeEntries

theorem number_posix {t t' : FdTables} {file file' : ℕ → φ} {w : ℕ}
    (opens : (t.posix file).call c = (t'.posix file', some w)) :
    (t'.posix file').number w c = t'.number w c := by
  cases c with
  | fopen f =>
    obtain ⟨w', -, -, after⟩ := PosixFds.fopen_eq_some opens
    have stream : (t'.posix file').streams w = some (w', false) := by
      rw [after]
      exact Function.update_self _ _ _
    have slot : (t'.fileSlots w).map (fun _ => ((t'.yosFileno w).toNat, decide (0 ≤ t'.fileWfds w))) =
        some (w', false) := stream
    obtain ⟨h, -, entry⟩ := Option.map_eq_some_iff.1 slot
    show ((PosixFds.streams _ w).map Prod.fst).getD 0 = (t'.yosFileno w).toNat
    rw [stream]
    exact (Prod.mk.inj entry).1.symm
  | openFile f => rfl
  | dup fd => rfl
  | dupfd fd min => rfl
  | dup2 oldfd newfd => rfl
  | close fd => rfl
  | fdopen fd opens => rfl
  | fclose fp => rfl

/-- What the tables stand for has the lowest free number where they have it. -/
theorem lowestFree_of_posix {t t' : FdTables} {file file' : ℕ → φ} {min : ℤ} {f : φ} {w : ℕ}
    (source : (t.posix file).source c = some (f, min))
    (opens : (t.posix file).call c = (t'.posix file', some w)) :
    LowestFree t t' file' min f (t'.number w c) := by
  obtain ⟨found, refers⟩ := PosixFds.call_source source opens
  rw [number_posix opens] at found refers
  obtain ⟨lt, above, nothing, current⟩ := PosixFds.lowest_spec found
  have unused : (t.posix file).free (t'.number w c) = true := by
    simp [PosixFds.free, nothing, current]
  refine ⟨lt, above, ?_, fun v below at_min empty => ?_, ?_⟩
  · rwa [posix_free lt, decide_eq_true_iff] at unused
  · have used := PosixFds.lowest_le found below at_min
    rw [posix_free (below.trans lt), decide_eq_false_iff_not] at used
    exact used empty
  · have entry : (if t'.number w c < fdMax ∧ 0 ≤ t'.fdMap (t'.number w c) then
        some (file' (t'.fdMap (t'.number w c)).toNat) else none) = some f := refers
    split_ifs at entry with used
    exact ⟨used.2, Option.some.inj entry⟩

end Runs

/-! ### A first guest -/

/-- A guest that has started; the open files are known by their first host descriptor. -/
def oneNumGuest : NumState Unit ℕ where
  code := ⟨oneGuest, id⟩
  posix i := (oneGuest.tables i).posix id

theorem oneNumGuest_init : (numSystem Unit ℕ).init oneNumGuest := ⟨oneGuest_started, fun _ => rfl⟩

/-- The state after a call. -/
def NumState.after (s : NumState Unit ℕ) (r : ℕ) (c : NumCall ℕ) : NumState Unit ℕ :=
  ⟨s.code.next () r c, Function.update s.posix () ((s.posix ()).call c).1⟩

end Yos
