import Yos.Io.FdLife

/-!
# Single ownership of host descriptors

A call is composed of a few steps: a descriptor is opened and is spare, a spare descriptor is put
into a table or closed, the descriptor of a table entry is closed with the entry.  Each of them is
`Legal`: it keeps the tables of the guest sound and takes nothing from another guest.  The calls of
`FdOk` are made of legal steps, so no run of them closes a descriptor that its guest does not own
(`fd_single_owner`).
-/

namespace Yos

open Ledger

variable {ι : Type}

/-! ## Legal steps -/

/-- The places that own a host descriptor. -/
inductive FdSlot where
  | fd (w : ℕ)
  | dir (k : ℕ)

/-- The host descriptor of a place. -/
def FdTables.get (t : FdTables) : FdSlot → Option ℕ
  | .fd w => if 0 ≤ t.fdMap w then some (t.fdMap w).toNat else none
  | .dir k => (t.dirSlots k).map Prod.fst

/-- Every close so far was legal, and the tables own what they refer to. -/
structure Sound (i : ι) (p : FdProc ι) : Prop where
  clean : p.ledger.clean = true
  owned : Owned p.ledger.owner (some i) p.t.get

/-- A step of guest `i` that keeps its tables sound and leaves the others alone. -/
structure Legal (i : ι) (p q : FdProc ι) : Prop where
  sound : Sound i q
  keeps : Keeps (some i) p.ledger q.ledger

/-- Guest `i` owns `h`, and none of its tables refers to it. -/
structure Spare (i : ι) (p : FdProc ι) (h : ℕ) : Prop where
  owns : p.ledger.owner h = some (some i)
  unused : ∀ slot, p.t.get slot ≠ some h

section Steps

variable {i : ι} {p q r : FdProc ι} {h w : ℕ}

theorem FdTables.get_fd {t : FdTables} (mapped : t.fdMap w = (h : ℤ)) :
    t.get (.fd w) = some h := by
  rw [FdTables.get, mapped, if_pos (Int.natCast_nonneg h), Int.toNat_natCast]

theorem Legal.refl (sound : Sound i p) : Legal i p p := ⟨sound, Keeps.refl _ _⟩

theorem Legal.trans (first : Legal i p q) (second : Legal i q r) : Legal i p r :=
  ⟨second.sound, first.keeps.trans second.keeps⟩

/-- A new descriptor is spare. -/
theorem legal_hostOpen (sound : Sound i p) (fresh : p.ledger.owner h = none) :
    Legal i p (p.hostOpen i h) ∧ Spare i (p.hostOpen i h) h :=
  ⟨⟨⟨sound.clean, sound.owned.opened fresh⟩, keeps_opened fresh⟩,
    ⟨opened_self _ _ _, sound.owned.unused fresh⟩⟩

/-- A spare descriptor goes into `fd_map`. -/
theorem legal_setFd (sound : Sound i p) (spare : Spare i p h) : Legal i p (p.setFd w h) := by
  refine ⟨⟨sound.clean, ?_⟩, Keeps.refl _ _⟩
  refine sound.owned.take (p := .fd w) spare.owns spare.unused ?_ fun slot ne g at_slot => ?_
  · exact FdTables.get_fd (Function.update_self _ _ _)
  · cases slot with
    | dir k => exact at_slot
    | fd v =>
      have other : v ≠ w := fun same => ne (by rw [same])
      simpa only [FdTables.get, FdProc.setFd, Function.update_of_ne other] using at_slot

/-- A spare descriptor goes into the directory table. -/
theorem legal_setDir {k : ℕ} {wfd : ℤ} (sound : Sound i p) (spare : Spare i p h) :
    Legal i p (p.setDir k (some (h, wfd))) := by
  refine ⟨⟨sound.clean, ?_⟩, Keeps.refl _ _⟩
  refine sound.owned.take (p := .dir k) spare.owns spare.unused ?_ fun slot ne g at_slot => ?_
  · simp only [FdTables.get, FdProc.setDir, Function.update_self, Option.map_some]
  · cases slot with
    | fd v => exact at_slot
    | dir v =>
      have other : v ≠ k := fun same => ne (by rw [same])
      simpa only [FdTables.get, FdProc.setDir, Function.update_of_ne other] using at_slot

/-- The stream table owns nothing. -/
theorem Legal.setFile {k : ℕ} {file : Option ℕ} {wfd : ℤ} (legal : Legal i p q) :
    Legal i p (q.setFile k file wfd) := by
  refine ⟨⟨legal.sound.clean, legal.sound.owned.mono fun slot g at_slot => ?_⟩, legal.keeps⟩
  cases slot with
  | fd v => exact at_slot
  | dir v => exact at_slot

theorem legal_foldl {f : FdProc ι → ℕ → FdProc ι}
    (one : ∀ p w, Sound i p → Legal i p (f p w)) (l : List ℕ) (sound : Sound i p) :
    Legal i p (l.foldl f p) := by
  induction l generalizing p with
  | nil => exact Legal.refl sound
  | cons w l ih =>
    have first := one p w sound
    exact first.trans (ih first.sound)

/-- Closing a stream whose guest descriptor still stands for it closes that entry. -/
theorem freeHandle_of_wfd {k : ℕ} (pos : 1 ≤ w) (lt : w < fdMax)
    (stored : p.t.fileWfds k = -(w + 1)) :
    p.freeHandle k = (p.setFd w (-1)).setFile k none (-1) := by
  have decode : -(-((w : ℤ) + 1) + 1) = w := by omega
  rw [FdProc.freeHandle, stored]
  dsimp only
  rw [if_neg (by omega), if_pos (by omega), decode, if_pos (by omega), Int.toNat_natCast]
  rfl

variable [DecidableEq ι]

theorem legal_closeSpare (sound : Sound i p) (spare : Spare i p h) : Legal i p (p.hostClose i h) := by
  have keeps := keeps_closed spare.owns
  exact ⟨⟨keeps.clean sound.clean, sound.owned.closed spare.unused⟩, keeps⟩

/-- An entry of `fd_map` is closed and cleared. -/
theorem legal_dropFd (sound : Sound i p) (mapped : p.t.fdMap w = (h : ℤ)) :
    Legal i p ((p.hostClose i h).setFd w (-1)) := by
  have at_w := FdTables.get_fd mapped
  have keeps := keeps_closed (sound.owned.held _ _ at_w)
  refine ⟨⟨keeps.clean sound.clean, ?_⟩, keeps⟩
  refine sound.owned.drop at_w ?_ fun slot ne g at_slot => ?_
  · simp only [FdTables.get, FdProc.setFd, Function.update_self]
    exact if_neg (by decide)
  · cases slot with
    | dir k => exact at_slot
    | fd v =>
      have other : v ≠ w := fun same => ne (by rw [same])
      simpa only [FdTables.get, FdProc.setFd, FdProc.hostClose, Function.update_of_ne other]
        using at_slot

/-- An entry of the directory table is closed and cleared. -/
theorem legal_dropDir {k : ℕ} {wfd : ℤ} (sound : Sound i p)
    (found : p.t.dirSlots k = some (h, wfd)) : Legal i p ((p.hostClose i h).setDir k none) := by
  have at_k : p.t.get (.dir k) = some h := by rw [FdTables.get, found, Option.map_some]
  have keeps := keeps_closed (sound.owned.held _ _ at_k)
  refine ⟨⟨keeps.clean sound.clean, ?_⟩, keeps⟩
  refine sound.owned.drop at_k ?_ fun slot ne g at_slot => ?_
  · simp only [FdTables.get, FdProc.setDir, Function.update_self, Option.map_none]
  · cases slot with
    | fd v => exact at_slot
    | dir v =>
      have other : v ≠ k := fun same => ne (by rw [same])
      simpa only [FdTables.get, FdProc.setDir, FdProc.hostClose, Function.update_of_ne other]
        using at_slot

/-! ## The calls -/

theorem legal_fdClose (sound : Sound i p) (wfd : ℤ) : Legal i p (p.fdClose i wfd) := by
  rw [FdProc.fdClose]
  dsimp only
  split_ifs with range unmapped
  · exact Legal.refl sound
  · exact Legal.refl sound
  · exact legal_dropFd sound (Int.toNat_of_nonneg (Int.not_lt.1 unmapped)).symm

theorem fdAlloc_of_free (found : firstFree p.t.fdMap = some w) :
    p.fdAlloc i h = (p.setFd w h, (w : ℤ)) := by
  rw [FdProc.fdAlloc, yosFdAlloc_of_free (Int.natCast_nonneg h) found]
  rfl

theorem fdAlloc_of_full (full : firstFree p.t.fdMap = none) :
    p.fdAlloc i h = (p.hostClose i h, -emfile) := by
  rw [FdProc.fdAlloc, yosFdAlloc_of_full (Int.natCast_nonneg h) full]
  rfl

/-- `yos_fd_alloc` takes over a new descriptor, also when the table is full. -/
theorem legal_fdAlloc (sound : Sound i p) (fresh : p.ledger.owner h = none) :
    Legal i p ((p.hostOpen i h).fdAlloc i h).1 := by
  obtain ⟨opened, spare⟩ := legal_hostOpen sound fresh
  cases found : firstFree (p.hostOpen i h).t.fdMap with
  | some w =>
    rw [fdAlloc_of_free found]
    exact opened.trans (legal_setFd opened.sound spare)
  | none =>
    rw [fdAlloc_of_full found]
    exact opened.trans (legal_closeSpare opened.sound spare)

theorem allocOrClose_of_free (found : firstFree p.t.fdMap = some w) :
    p.allocOrClose i h = ((p.hostOpen i h).setFd w h, (w : ℤ)) := by
  rw [FdProc.allocOrClose, fdAlloc_of_free (p := p.hostOpen i h) found]
  exact if_neg (Int.not_lt.2 (Int.natCast_nonneg w))

theorem legal_allocOrClose (sound : Sound i p) (fresh : p.ledger.owner h = none)
    (free : (firstFree p.t.fdMap).isSome) : Legal i p (p.allocOrClose i h).1 := by
  obtain ⟨w, found⟩ := Option.isSome_iff_exists.1 free
  obtain ⟨opened, spare⟩ := legal_hostOpen sound fresh
  rw [allocOrClose_of_free found]
  exact opened.trans (legal_setFd opened.sound spare)

/-- A descriptor stays spare while another one is put into `fd_map`. -/
theorem Spare.allocOrClose {d : ℕ} (spare : Spare i p d) (ne : d ≠ h)
    (free : (firstFree p.t.fdMap).isSome) : Spare i (p.allocOrClose i h).1 d := by
  obtain ⟨w, found⟩ := Option.isSome_iff_exists.1 free
  rw [allocOrClose_of_free found]
  refine ⟨(opened_of_ne _ ne).trans spare.owns, fun slot => ?_⟩
  cases slot with
  | dir k => exact spare.unused (.dir k)
  | fd v =>
    by_cases same : v = w
    · rw [FdTables.get_fd (h := h) (by rw [same]; exact Function.update_self _ _ _)]
      exact fun both => ne (Option.some.inj both).symm
    · have := spare.unused (.fd v)
      simpa only [FdTables.get, FdProc.setFd, FdProc.hostOpen, Function.update_of_ne same]

theorem legal_yosOpendir {d : ℕ} {copy : Option ℕ} {finalised : Bool} (sound : Sound i p)
    (fresh : p.ledger.owner d = none) (freshCopy : ∀ c ∈ copy, p.ledger.owner c = none ∧ d ≠ c)
    (free : p.t.freeDir.isSome → copy.isSome → (firstFree p.t.fdMap).isSome) :
    Legal i p (p.yosOpendir i d copy finalised) := by
  obtain ⟨opened, spare⟩ := legal_hostOpen sound fresh
  rw [FdProc.yosOpendir]
  cases slot : (p.hostOpen i d).t.freeDir with
  | none => exact opened.trans (legal_closeSpare opened.sound spare)
  | some k =>
    have put (q : FdProc ι) (wfd : ℤ) (legal : Legal i p q) (spare : Spare i q d) :
        Legal i p (if finalised then q.setDir k (some (d, wfd)) else q.hostClose i d) := by
      split_ifs
      · exact legal.trans (legal_setDir legal.sound spare)
      · exact legal.trans (legal_closeSpare legal.sound spare)
    cases copy with
    | none => exact put _ _ opened spare
    | some c =>
      obtain ⟨freshC, ne⟩ := freshCopy c rfl
      have room := free (Option.isSome_iff_exists.2 ⟨k, slot⟩) rfl
      have freshC' : (p.hostOpen i d).ledger.owner c = none :=
        (opened_of_ne _ ne.symm).trans freshC
      have copied := opened.trans (legal_allocOrClose opened.sound freshC' room)
      have spare' := spare.allocOrClose ne room
      have same : ((p.hostOpen i d).allocWasmFdForHostDir i (some c)).1 =
          ((p.hostOpen i d).allocOrClose i c).1 := by
        rw [FdProc.allocWasmFdForHostDir]
        dsimp only
        split_ifs
        · rfl
        · rfl
      rw [← same] at copied spare'
      exact put _ _ copied spare'

theorem setDir_fdClose (k : ℕ) (dir : Option (ℕ × ℤ)) (wfd : ℤ) :
    (p.fdClose i wfd).setDir k dir = (p.setDir k dir).fdClose i wfd := by
  rw [FdProc.fdClose, FdProc.fdClose]
  dsimp only
  split_ifs
  all_goals first
  | rfl
  | contradiction

theorem legal_yosClosedir (sound : Sound i p) (k : ℕ) : Legal i p (p.yosClosedir i k) := by
  rw [FdProc.yosClosedir]
  cases found : p.t.dirSlots k with
  | none => exact Legal.refl sound
  | some dir =>
    obtain ⟨d, wfd⟩ := dir
    dsimp only
    rw [setDir_fdClose]
    have dropped := legal_dropDir sound found
    exact dropped.trans (legal_fdClose dropped.sound _)

theorem legal_yosFopen (sound : Sound i p) (fresh : p.ledger.owner h = none)
    (free : p.t.freeFile.isSome) : Legal i p (p.yosFopen i h) := by
  have allocated := legal_fdAlloc sound fresh
  obtain ⟨k, slot⟩ := Option.isSome_iff_exists.1 free
  have slot' : ((p.hostOpen i h).fdAlloc i h).1.t.freeFile = some k := by
    cases found : firstFree (p.hostOpen i h).t.fdMap with
    | some w =>
      rw [fdAlloc_of_free found]
      exact slot
    | none =>
      rw [fdAlloc_of_full found]
      exact slot
  rw [FdProc.yosFopen]
  dsimp only
  rw [slot']
  exact allocated.setFile

theorem legal_yosFclose {fp : ℕ} (sound : Sound i p) (guest : ¬ (1 ≤ fp ∧ fp ≤ 3))
    (stands : ∀ h, 4 ≤ fp → fp < fileMax → p.t.fileSlots fp = some h →
      ∃ w : ℕ, 1 ≤ w ∧ w < fdMax ∧ p.t.fileWfds fp = -(w + 1) ∧ p.t.fdMap w = h) :
    Legal i p (p.yosFclose i fp) := by
  rw [FdProc.yosFclose, if_neg guest]
  by_cases range : fp < 4 ∨ fileMax ≤ fp
  · rw [if_pos range]
    exact Legal.refl sound
  · rw [if_neg range]
    cases found : p.t.fileSlots fp with
    | none => exact Legal.refl sound
    | some h =>
      obtain ⟨w, pos, lt, stored, mapped⟩ := stands h (by omega) (by omega) found
      dsimp only
      rw [freeHandle_of_wfd (p := p.hostClose i h) pos lt stored]
      exact (legal_dropFd sound mapped).setFile

theorem legal_sweepOne (drop : ℤ → Bool) (p : FdProc ι) (w : ℕ) (sound : Sound i p) :
    Legal i p (FdProc.sweepOne i drop p w) := by
  rw [FdProc.sweepOne]
  split_ifs with hit
  · exact legal_dropFd sound (Int.toNat_of_nonneg hit.1).symm
  · exact Legal.refl sound

theorem sweep_fileSlots (drop : ℤ → Bool) (l : List ℕ) :
    (l.foldl (FdProc.sweepOne i drop) p).t.fileSlots = p.t.fileSlots := by
  induction l generalizing p with
  | nil => rfl
  | cons w l ih =>
    rw [List.foldl_cons, ih, FdProc.sweepOne]
    split_ifs
    · rfl
    · rfl

theorem closeFiles_of_none {l : List ℕ} (none : ∀ k ∈ l, p.t.fileSlots k = none) :
    l.foldl (FdProc.closeFile i) p = p := by
  induction l with
  | nil => rfl
  | cons k l ih =>
    rw [List.forall_mem_cons] at none
    rw [List.foldl_cons, FdProc.closeFile, none.1]
    exact ih none.2

/-- The exit of a process without open streams. -/
theorem legal_yosProcPostExitCleanup (sound : Sound i p)
    (noFiles : ∀ k < fileMax, p.t.fileSlots k = none) :
    Legal i p (p.yosProcPostExitCleanup i) := by
  rw [FdProc.yosProcPostExitCleanup, closeFiles_of_none]
  · exact legal_foldl (legal_sweepOne _) _ sound
  · intro k hk
    rw [sweep_fileSlots]
    exact noFiles k (List.mem_range.1 hk)

end Steps

/-! ## The runs -/

/-- Every close so far was legal, and all guests are sound. -/
structure FdInv (s : FdWorld ι) : Prop where
  clean : s.ledger.clean = true
  sound : ∀ i, Sound i ⟨s.tables i, s.ledger⟩

theorem fdInv_init {s : FdWorld ι} (start : FdStarted s) : FdInv s := by
  refine ⟨start.clean, fun i => ?_⟩
  have entry (slot : FdSlot) (h : ℕ) (at_slot : (s.tables i).get slot = some h) :
      ∃ w < 3, slot = .fd w ∧ (s.tables i).fdMap w = h := by
    cases slot with
    | dir k =>
      rw [FdTables.get, start.noDirs i k] at at_slot
      cases at_slot
    | fd w =>
      rw [FdTables.get] at at_slot
      split_ifs at at_slot with mapped
      have value := Option.some.inj at_slot
      refine ⟨w, ?_, rfl, by omega⟩
      by_contra large
      have := start.rest i w (by omega)
      omega
  refine ⟨start.clean, fun slot h at_slot => ?_, fun slot slot' h at_slot at_slot' => ?_⟩
  · obtain ⟨w, lt, -, mapped⟩ := entry slot h at_slot
    obtain ⟨h', -, mapped', owns⟩ := start.stdio i w lt
    have same : h' = h := by
      rw [mapped] at mapped'
      exact_mod_cast mapped'.symm
    rw [same] at owns
    exact owns
  · obtain ⟨w, lt, rfl, mapped⟩ := entry slot h at_slot
    obtain ⟨v, lt', rfl, mapped'⟩ := entry slot' h at_slot'
    rw [start.distinct i w lt v lt' (mapped.trans mapped'.symm)]

variable [DecidableEq ι]

theorem legal_call {s : FdWorld ι} {i : ι} {c : FdLifeCall} (inv : FdInv s) (ok : FdOk s (i, c))
    (distinct : c.news.Nodup) (fresh : ∀ h ∈ c.news, s.ledger.owner h = none) :
    Legal i ⟨s.tables i, s.ledger⟩ (FdProc.call ⟨s.tables i, s.ledger⟩ i c) := by
  have sound := inv.sound i
  cases c with
  | openFile r => exact legal_fdAlloc sound (fresh r (by simp [FdLifeCall.news]))
  | openat r | socket r | openpt r =>
    exact legal_allocOrClose sound (fresh r (by simp [FdLifeCall.news])) ok
  | dup wfd r | accept wfd r =>
    simp only [FdProc.call, FdProc.yosDup, FdProc.yosAccept]
    split_ifs with mapped
    · exact legal_allocOrClose sound (fresh r (by simp [FdLifeCall.news])) (ok mapped)
    · exact Legal.refl sound
  | openptPair r₀ r₁ =>
    have ne : r₀ ≠ r₁ := by simpa [FdLifeCall.news] using distinct
    obtain ⟨opened, -⟩ := legal_hostOpen sound (fresh r₁ (by simp [FdLifeCall.news]))
    have fresh₀ := (opened_of_ne (some i) ne).trans (fresh r₀ (by simp [FdLifeCall.news]))
    exact opened.trans (legal_allocOrClose opened.sound fresh₀ ok)
  | opendir d copy finalised =>
    refine legal_yosOpendir sound (fresh d (by simp [FdLifeCall.news])) (fun c hc => ?_) ok
    rw [Option.mem_def.1 hc] at distinct fresh
    exact ⟨fresh c (by simp [FdLifeCall.news]), by simpa [FdLifeCall.news] using distinct⟩
  | closedir k => exact legal_yosClosedir sound k
  | fopen r => exact legal_yosFopen sound (fresh r (by simp [FdLifeCall.news])) ok
  | fclose fp => exact legal_yosFclose sound ok.1 ok.2
  | close fd =>
    simp only [FdProc.call, FdProc.yosClose]
    split_ifs
    · exact Legal.refl sound
    · exact legal_fdClose sound fd
  | execve cloexec => exact legal_foldl (legal_sweepOne cloexec) _ sound
  | childExec cloexec => exact legal_foldl (legal_sweepOne cloexec) _ sound
  | exit => exact legal_yosProcPostExitCleanup sound ok

theorem FdInv.next {s : FdWorld ι} {i : ι} {c : FdLifeCall} (inv : FdInv s) (ok : FdOk s (i, c))
    (distinct : c.news.Nodup) (fresh : ∀ h ∈ c.news, s.ledger.owner h = none) :
    FdInv (s.next i c) := by
  have legal := legal_call inv ok distinct fresh
  refine ⟨legal.sound.clean, fun j => ?_⟩
  by_cases same : j = i
  · subst same
    have sound := legal.sound
    rw [FdWorld.next]
    dsimp only
    rw [Function.update_self]
    exact sound
  · rw [FdWorld.next]
    dsimp only
    rw [Function.update_of_ne same]
    refine ⟨legal.sound.clean, (inv.sound j).owned.keeps ?_ legal.keeps⟩
    exact fun h => same (Option.some.inj h)

/-- In a run of calls that meet `FdOk` no call closes a host descriptor that its guest does not own
at that moment. -/
theorem fd_single_owner {s : FdWorld ι} (run : (fdSystem ι).ReachableIf FdOk s) :
    s.ledger.clean = true := by
  have inv : FdInv s := by
    refine run.invariant (fun s start => fdInv_init start) ?_
    rintro s ⟨i, c⟩ s' inv ok ⟨distinct, fresh, rfl⟩
    exact inv.next ok distinct fresh
  exact inv.clean

/-- One guest with its standard descriptors. -/
def oneGuest : FdWorld Unit where
  tables _ :=
    { fdMap := fun w => if w < 3 then w + 3 else -1
      fileSlots := fun _ => none
      fileWfds := fun _ => -1
      dirSlots := fun _ => none }
  ledger :=
    { owner := fun h => if h < 3 then some none else if h < 6 then some (some ()) else none
      clean := true }

theorem oneGuest_started : FdStarted oneGuest where
  clean := rfl
  stdio := by
    intro i w lt
    refine ⟨w + 3, by omega, ?_, ?_⟩
    · show (if w < 3 then (w : ℤ) + 3 else -1) = _
      rw [if_pos lt]
      rfl
    · show (if w + 3 < 3 then some none else if w + 3 < 6 then some (some ()) else none) = _
      rw [if_neg (by omega), if_pos (by omega)]
  distinct := by
    intro i w lt v lt' same
    change (if w < 3 then (w : ℤ) + 3 else -1) = if v < 3 then (v : ℤ) + 3 else -1 at same
    rw [if_pos lt, if_pos lt'] at same
    omega
  rest := fun _ w large => if_neg (by omega)
  noFiles := fun _ _ => rfl
  noDirs := fun _ _ => rfl

theorem fd_single_owner_first_stream :
    (oneGuest.next () (.fopen 6)).ledger.clean = true ∧
      ((oneGuest.next () (.fopen 6)).tables ()).fdMap 3 = 6 :=
  ⟨fd_single_owner (.step (a := ((), .fopen 6)) (.init oneGuest_started)
    (show (oneGuest.tables ()).freeFile.isSome by decide) ⟨by decide, by decide, rfl⟩), by decide⟩

/-- A process that exits with an open stream closes its descriptor twice: once as an entry of
`fd_map` and once with the stream. -/
theorem exit_closes_twice :
    ¬ ∀ s, (fdSystem Unit).Reachable s → s.ledger.clean = true := by
  intro claim
  have start : (fdSystem Unit).Reachable oneGuest := .start oneGuest_started
  have opened := start.next (a := ((), .fopen 6)) ⟨by decide, by decide, rfl⟩
  have exited := opened.next (a := ((), .exit)) ⟨by decide, by decide, rfl⟩
  exact absurd (claim _ exited) (by decide +kernel)

end Yos
