import Yos.Errno
import Yos.Io.FdTable

/-!
# `login_tty` (`impl/libc/syslog_extras.c`)

The bridge makes the guest descriptors 0, 1 and 2 refer to a terminal: for each of them it
duplicates the terminal's host descriptor, closes the host descriptor of the slot and stores the
duplicate.  If the terminal is itself open as descriptor 0 or 1, the second or third duplication
finds its host descriptor closed; and when a later duplication fails, the slots before it stay
replaced.  So a failing call leaves `fd_map` alone only if the first duplication is the one that
fails (`mLoginTty_met_iff`).

What a duplication returns is an input: a number that is not open, or nothing.
-/

namespace Yos

variable {φ : Type}

/-- The `fd_map` of a guest, and the open descriptors of the host with their files. -/
structure FdFiles (φ : Type) where
  fdMap : ℕ → ℤ
  host : ℕ → Option φ

namespace FdFiles

/-! ## The bridge -/

/-- The file a guest descriptor refers to. -/
def file (s : FdFiles φ) (w : ℕ) : Option φ :=
  if 0 ≤ s.fdMap w then s.host (s.fdMap w).toNat else none

/-- `yos_fd_get`. -/
def fdGet (s : FdFiles φ) (wfd : ℤ) : Option ℕ :=
  if 0 ≤ wfd ∧ wfd < fdMax ∧ 0 ≤ s.fdMap wfd.toNat then some (s.fdMap wfd.toNat).toNat else none

/-- The host's `close`. -/
def hostClose (s : FdFiles φ) (h : ℕ) : FdFiles φ :=
  { s with host := Function.update s.host h none }

/-- The host's `dup`, with the number `copy` it picks if it has one left. -/
def hostDup (s : FdFiles φ) (hfd : ℕ) (copy : Option ℕ) : Except Errno (FdFiles φ × ℕ) :=
  match s.host hfd, copy with
  | none, _ => .error .EBADF
  | some _, none => .error .EMFILE
  | some f, some r => .ok ({ s with host := Function.update s.host r (some f) }, r)

/-- Store a host descriptor in a slot, closing the one the slot has. -/
def install (s : FdFiles φ) (slot r : ℕ) : FdFiles φ :=
  let s' := if 0 ≤ s.fdMap slot then s.hostClose (s.fdMap slot).toNat else s
  { s' with fdMap := Function.update s'.fdMap slot r }

/-- Close the host descriptor of a slot and free the slot. -/
def release (s : FdFiles φ) (w hfd : ℕ) : FdFiles φ :=
  { s.hostClose hfd with fdMap := Function.update s.fdMap w (-1) }

/-- The loop of `m3_login_tty` over the slots. -/
def repoint (hfd : ℕ) (copies : ℕ → Option ℕ) :
    List ℕ → FdFiles φ → FdFiles φ × Option Errno
  | [], s => (s, none)
  | slot :: slots, s =>
    match s.hostDup hfd (copies slot) with
    | .error e => (s, some e)
    | .ok (s, r) => repoint hfd copies slots (s.install slot r)

end FdFiles

/-- `m3_login_tty`. -/
def mLoginTty (copies : ℕ → Option ℕ) (s : FdFiles φ) (wfd : ℤ) : FdFiles φ × Ret :=
  match s.fdGet wfd with
  | none => (s, yosErrnoNeg .EBADF)
  | some hfd =>
    match s.repoint hfd copies [0, 1, 2] with
    | (s, some e) => (s, yosErrnoNeg e)
    | (s, none) =>
      if 2 < wfd then (s.release wfd.toNat hfd, ⟨0, none⟩) else (s, ⟨0, none⟩)

namespace FdFiles

/-! ## One slot -/

/-- Each slot of `fd_map` owns an open host descriptor of its own. -/
structure Sound (s : FdFiles φ) : Prop where
  isOpen : ∀ w, 0 ≤ s.fdMap w → s.host (s.fdMap w).toNat ≠ none
  single : ∀ v w, 0 ≤ s.fdMap v → s.fdMap v = s.fdMap w → v = w

/-- The numbers the duplications return are not open at that time. -/
def CopiesNew (hfd : ℕ) (copies : ℕ → Option ℕ) : List ℕ → FdFiles φ → Prop
  | [], _ => True
  | slot :: slots, s =>
    (∀ r, copies slot = some r → s.host r = none) ∧
      ∀ s' r, s.hostDup hfd (copies slot) = .ok (s', r) →
        CopiesNew hfd copies slots (s'.install slot r)

variable {s s' : FdFiles φ} {copies : ℕ → Option ℕ} {slots : List ℕ} {f : φ}
  {hfd r slot t w : ℕ} {copy : Option ℕ}

theorem file_of_fdMap (mapped : s.fdMap w = (hfd : ℤ)) : s.file w = s.host hfd := by
  rw [file, mapped, if_pos (Int.natCast_nonneg hfd), Int.toNat_natCast]

theorem hostDup_eq_ok (dup : s.hostDup hfd copy = .ok (s', r)) :
    copy = some r ∧ ∃ f, s.host hfd = some f ∧
      s' = { s with host := Function.update s.host r (some f) } := by
  cases host : s.host hfd with
  | none => simp [hostDup, host] at dup
  | some f =>
    cases copy with
    | none => simp [hostDup, host] at dup
    | some c =>
      simp only [hostDup, host, Except.ok.injEq, Prod.mk.injEq] at dup
      obtain ⟨rfl, rfl⟩ := dup
      exact ⟨rfl, f, rfl, rfl⟩

theorem hostDup_of_open (host : s.host hfd = some f) :
    s.hostDup hfd (some r) = .ok ({ s with host := Function.update s.host r (some f) }, r) := by
  simp only [hostDup, host]

@[simp] theorem install_fdMap : (s.install slot r).fdMap = Function.update s.fdMap slot r := by
  rw [install]
  split <;> rfl

theorem install_fdMap_ne (ne : w ≠ slot) : (s.install slot r).fdMap w = s.fdMap w := by
  rw [install_fdMap, Function.update_of_ne ne]

/-- Storing a descriptor in a slot closes the one that was there and no other. -/
theorem install_host_ne {h : ℕ} (ne : s.fdMap slot ≠ (w : ℤ)) :
    (s.install slot h).host w = s.host w := by
  rw [install]
  split
  case isTrue mapped =>
    have other : w ≠ (s.fdMap slot).toNat := by omega
    exact Function.update_of_ne other _ _
  case isFalse => rfl

theorem install_host_self (mapped : s.fdMap slot = (hfd : ℤ)) :
    (s.install slot r).host hfd = none := by
  have pos : 0 ≤ s.fdMap slot := by omega
  rw [install, if_pos pos, mapped, Int.toNat_natCast]
  exact Function.update_self _ _ _

theorem install_host_none {h : ℕ} (closed : s.host w = none) : (s.install slot h).host w = none := by
  by_cases own : s.fdMap slot = (w : ℤ)
  · exact install_host_self own
  · rw [install_host_ne own, closed]

/-- What one round of the loop does: the slot gets the terminal's file, and no other slot
changes. -/
structure Repointed (s s' : FdFiles φ) (slot : ℕ) (f : φ) : Prop where
  sound : s'.Sound
  gets : s'.file slot = some f
  fdMap : ∀ w, w ≠ slot → s'.fdMap w = s.fdMap w
  file : ∀ w, w ≠ slot → s'.file w = s.file w

theorem Sound.repointed (sound : s.Sound) (slot : ℕ) (f : φ) (new : s.host r = none) :
    Repointed s (({ s with host := Function.update s.host r (some f) } : FdFiles φ).install slot r)
      slot f := by
  set dup : FdFiles φ := { s with host := Function.update s.host r (some f) } with dup_eq
  have ne_new : ∀ w, s.fdMap w ≠ (r : ℤ) := by
    intro w same
    refine sound.isOpen w (by omega) ?_
    rw [same, Int.toNat_natCast, new]
  have gets : (dup.install slot r).file slot = some f := by
    have stored : (dup.install slot r).fdMap slot = (r : ℤ) := by
      rw [install_fdMap, Function.update_self]
    have kept : (dup.install slot r).host r = dup.host r := install_host_ne (ne_new slot)
    rw [file_of_fdMap stored, kept]
    exact Function.update_self _ _ _
  have file : ∀ w, w ≠ slot → (dup.install slot r).file w = s.file w := by
    intro w ne
    by_cases mapped : 0 ≤ s.fdMap w
    · obtain ⟨h, at_w⟩ := Int.eq_ofNat_of_zero_le mapped
      have kept : (dup.install slot r).fdMap w = (h : ℤ) := by
        rw [install_fdMap_ne ne]
        exact at_w
      have other : dup.fdMap slot ≠ (h : ℤ) := by
        intro same
        exact ne (sound.single w slot mapped (at_w.trans same.symm))
      rw [file_of_fdMap kept, file_of_fdMap at_w, install_host_ne other]
      refine Function.update_of_ne ?_ _ _
      rintro rfl
      exact ne_new w at_w
    · rw [FdFiles.file, FdFiles.file, install_fdMap_ne ne, if_neg mapped, if_neg mapped]
  refine ⟨⟨fun w mapped => ?_, fun v w mapped same => ?_⟩, gets, fun w => install_fdMap_ne, file⟩
  · have at_w : (dup.install slot r).file w ≠ none := by
      by_cases ne : w = slot
      · rw [ne, gets]
        exact Option.some_ne_none f
      · rw [file w ne, FdFiles.file]
        rw [install_fdMap_ne ne] at mapped
        rw [if_pos mapped]
        exact sound.isOpen w mapped
    rwa [FdFiles.file, if_pos mapped] at at_w
  · rw [install_fdMap] at mapped same
    by_cases at_v : v = slot <;> by_cases at_w : w = slot
    · rw [at_v, at_w]
    · rw [at_v, Function.update_self, Function.update_of_ne at_w] at same
      exact absurd same.symm (ne_new w)
    · rw [at_w, Function.update_self, Function.update_of_ne at_v] at same
      exact absurd same (ne_new v)
    · rw [Function.update_of_ne at_v] at mapped same
      rw [Function.update_of_ne at_w] at same
      exact sound.single v w mapped same

/-- Freeing a slot changes no other. -/
theorem Sound.release_file (sound : s.Sound) (mapped : s.fdMap t = (hfd : ℤ)) (ne : w ≠ t) :
    (s.release t hfd).file w = s.file w := by
  have kept : (s.release t hfd).fdMap w = s.fdMap w := Function.update_of_ne ne _ _
  by_cases pos : 0 ≤ s.fdMap w
  · obtain ⟨h, at_w⟩ := Int.eq_ofNat_of_zero_le pos
    rw [file_of_fdMap (kept.trans at_w), file_of_fdMap at_w]
    refine Function.update_of_ne ?_ _ _
    rintro rfl
    exact ne (sound.single w t pos (at_w.trans mapped.symm))
  · rw [file, file, kept, if_neg pos, if_neg pos]

/-! ## The loop -/

/-- Distinct numbers that are not open before the call are new at every step. -/
theorem copiesNew_of_fresh (nodup : slots.Nodup)
    (distinct : ∀ v w r, copies v = some r → copies w = some r → v = w)
    (fresh : ∀ slot ∈ slots, ∀ r, copies slot = some r → s.host r = none) :
    CopiesNew hfd copies slots s := by
  induction slots generalizing s with
  | nil => trivial
  | cons slot slots ih =>
    obtain ⟨notin, nodup⟩ := List.nodup_cons.1 nodup
    refine ⟨fresh slot List.mem_cons_self, fun s' r dup => ih nodup fun w mem h copy => ?_⟩
    obtain ⟨first, f, -, rfl⟩ := hostDup_eq_ok dup
    have other : h ≠ r := by
      rintro rfl
      exact notin (distinct slot w h first copy ▸ mem)
    apply install_host_none
    exact (Function.update_of_ne other _ _).trans (fresh w (List.mem_cons_of_mem _ mem) h copy)

theorem repoint_cons_of_open (host : s.host hfd = some f) (copy : copies slot = some r) :
    repoint hfd copies (slot :: slots) s =
      repoint hfd copies slots
        (({ s with host := Function.update s.host r (some f) } : FdFiles φ).install slot r) := by
  rw [repoint, copy, hostDup_of_open host]

/-- No slot outside the list changes. -/
theorem repoint_fdMap (outside : w ∉ slots) :
    (repoint hfd copies slots s).1.fdMap w = s.fdMap w := by
  induction slots generalizing s with
  | nil => rfl
  | cons slot slots ih =>
    rw [List.mem_cons, not_or] at outside
    rw [repoint]
    split
    case h_1 => rfl
    case h_2 s' r dup =>
      obtain ⟨-, f, -, rfl⟩ := hostDup_eq_ok dup
      rw [ih outside.2, install_fdMap_ne outside.1]

/-- The loop finishes only if every duplication gets a number. -/
theorem granted_of_repoint (done : (repoint hfd copies slots s).2 = none) :
    ∀ slot ∈ slots, copies slot ≠ none := by
  induction slots generalizing s with
  | nil => nofun
  | cons slot slots ih =>
    rw [repoint] at done
    split at done
    case h_1 => nomatch done
    case h_2 s' r dup =>
      obtain ⟨copy, -⟩ := hostDup_eq_ok dup
      rw [List.forall_mem_cons, copy]
      exact ⟨Option.some_ne_none r, ih done⟩

theorem repoint_of_closed (closed : s.host hfd = none) (more : slots ≠ []) :
    repoint hfd copies slots s = (s, some .EBADF) := by
  obtain ⟨slot, rest, rfl⟩ := List.exists_cons_of_ne_nil more
  simp only [repoint, hostDup, closed]

/-- A terminal in a slot before the last one is closed by its own round, and the next duplication
fails. -/
theorem repoint_fails_of_mem (sound : s.Sound) (new : CopiesNew hfd copies slots s)
    (terminal : s.fdMap t = (hfd : ℤ)) (early : t ∈ slots.dropLast) :
    (repoint hfd copies slots s).2 ≠ none := by
  induction slots generalizing s with
  | nil => nomatch early
  | cons slot slots ih =>
    have more : slots ≠ [] := by
      rintro rfl
      nomatch early
    rw [List.dropLast_cons_of_ne_nil more, List.mem_cons] at early
    rw [repoint]
    split
    case h_1 => exact Option.some_ne_none _
    case h_2 s' r dup =>
      have next := new.2 s' r dup
      obtain ⟨copy, f, -, rfl⟩ := hostDup_eq_ok dup
      by_cases own : t = slot
      · subst own
        have closed : (({ s with host := Function.update s.host r (some f) } : FdFiles φ).install t
            r).host hfd = none := install_host_self terminal
        rw [repoint_of_closed closed more]
        exact Option.some_ne_none _
      · have step := sound.repointed slot f (new.1 r copy)
        exact ih step.sound next ((step.fdMap t own).trans terminal) (early.resolve_left own)

/-- A terminal outside those slots stays open, and every slot gets its file. -/
theorem repoint_done (sound : s.Sound) (new : CopiesNew hfd copies slots s)
    (terminal : s.fdMap t = (hfd : ℤ)) (file : s.file t = some f) (late : t ∉ slots.dropLast)
    (nodup : slots.Nodup) (granted : ∀ slot ∈ slots, copies slot ≠ none) :
    ∃ s', repoint hfd copies slots s = (s', none) ∧ s'.Sound ∧
      (∀ w ∈ slots, s'.file w = some f) ∧ ∀ w, w ∉ slots → s'.file w = s.file w := by
  induction slots generalizing s with
  | nil => exact ⟨s, rfl, sound, nofun, fun _ _ => rfl⟩
  | cons slot slots ih =>
    obtain ⟨notin, nodup⟩ := List.nodup_cons.1 nodup
    obtain ⟨r, copy⟩ := Option.ne_none_iff_exists'.1 (granted slot List.mem_cons_self)
    have host : s.host hfd = some f := by rw [← file_of_fdMap terminal, file]
    have step := sound.repointed slot f (new.1 r copy)
    rw [repoint_cons_of_open host copy]
    by_cases last : slots = []
    · subst last
      refine ⟨_, rfl, step.sound, fun w mem => ?_, fun w outside => ?_⟩
      · rw [List.mem_singleton.1 mem, step.gets]
      · exact step.file w (by simpa using outside)
    · rw [List.dropLast_cons_of_ne_nil last, List.mem_cons, not_or] at late
      have next := new.2 _ r (by rw [copy, hostDup_of_open host])
      obtain ⟨s', run, sound', gets, keeps⟩ :=
        ih step.sound next ((step.fdMap t late.1).trans terminal) ((step.file t late.1).trans file)
          late.2 nodup fun slot mem => granted slot (List.mem_cons_of_mem _ mem)
      refine ⟨s', run, sound', fun w mem => ?_, fun w outside => ?_⟩
      · rcases List.mem_cons.1 mem with rfl | later
        · rw [keeps w notin, step.gets]
        · exact gets w later
      · rw [List.mem_cons, not_or] at outside
        rw [keeps w outside.2, step.file w outside.1]

end FdFiles

/-! ## The call -/

/-- What a caller of `login_tty` counts on: after a success the descriptors 0, 1 and 2 refer to the
terminal, and its own descriptor is closed unless it is one of them; after a failure nothing has
changed. -/
def LoginTtyMet (s : FdFiles φ) (t : ℕ) (out : FdFiles φ × Ret) : Prop :=
  (out.2.value = 0 → (∀ slot < 3, out.1.file slot = s.file t) ∧ (3 ≤ t → out.1.fdMap t = -1)) ∧
    (out.2.value ≠ 0 → out.1.fdMap = s.fdMap ∧ ∀ w, out.1.file w = s.file w)

section Call

open FdFiles

variable {s : FdFiles φ} {copies : ℕ → Option ℕ} {hfd t : ℕ} {f : φ}

theorem fdGet_of_fdMap (lt : t < fdMax) (mapped : s.fdMap t = (hfd : ℤ)) :
    s.fdGet t = some hfd := by
  rw [fdGet, if_pos ⟨Int.natCast_nonneg t, by exact_mod_cast lt, by rw [Int.toNat_natCast]; omega⟩,
    Int.toNat_natCast, mapped, Int.toNat_natCast]

theorem mLoginTty_of_error {s' : FdFiles φ} {e : Errno} (get : s.fdGet t = some hfd)
    (run : s.repoint hfd copies [0, 1, 2] = (s', some e)) :
    mLoginTty copies s t = (s', yosErrnoNeg e) := by
  rw [mLoginTty, get]
  dsimp only
  rw [run]

/-- The call succeeds on every terminal but descriptor 0 and 1. -/
theorem loginTtyMet_of_done (sound : s.Sound) (lt : t < fdMax) (mapped : s.fdMap t = (hfd : ℤ))
    (new : CopiesNew hfd copies [0, 1, 2] s) (late : 2 ≤ t)
    (granted : ∀ slot < 3, copies slot ≠ none) :
    LoginTtyMet s t (mLoginTty copies s t) := by
  have file_eq := file_of_fdMap mapped
  have is_open : s.host hfd ≠ none := by simpa [mapped] using sound.isOpen t (by omega)
  obtain ⟨f, host⟩ := Option.ne_none_iff_exists'.1 is_open
  have file : s.file t = some f := file_eq.trans host
  obtain ⟨s', run, sound', gets, -⟩ :=
    repoint_done sound new mapped file (by simp; omega) (by simp)
      (by simpa using ⟨granted 0 (by omega), granted 1 (by omega), granted 2 (by omega)⟩)
  have kept : 2 < t → s'.fdMap t = (hfd : ℤ) := by
    intro high
    have frame : (s.repoint hfd copies [0, 1, 2]).1.fdMap t = s.fdMap t :=
      repoint_fdMap (by simp; omega)
    rw [run] at frame
    exact frame.trans mapped
  rw [mLoginTty, fdGet_of_fdMap lt mapped]
  dsimp only
  rw [run]
  dsimp only
  split
  case isTrue high =>
    refine ⟨fun _ => ⟨fun slot small => ?_, fun _ => ?_⟩, fun failed => absurd rfl failed⟩
    · rw [file, Int.toNat_natCast, sound'.release_file (kept (by omega)) (by omega)]
      exact gets slot (by simp; omega)
    · rw [Int.toNat_natCast]
      exact Function.update_self _ _ _
  case isFalse low =>
    refine ⟨fun _ => ⟨fun slot small => ?_, fun high => absurd high (by omega)⟩,
      fun failed => absurd rfl failed⟩
    rw [file, gets slot (by simp; omega)]

/-- A successful `login_tty` is right and a failing one changes nothing exactly when the first
duplication is refused, or none is and the terminal is not descriptor 0 or 1. -/
theorem mLoginTty_met_iff (sound : s.Sound) (lt : t < fdMax) (mapped : s.fdMap t = (hfd : ℤ))
    (new : CopiesNew hfd copies [0, 1, 2] s) :
    LoginTtyMet s t (mLoginTty copies s t) ↔
      copies 0 = none ∨ 2 ≤ t ∧ ∀ slot < 3, copies slot ≠ none := by
  have get := fdGet_of_fdMap lt mapped
  have is_open : s.host hfd ≠ none := by simpa [mapped] using sound.isOpen t (by omega)
  obtain ⟨f, host⟩ := Option.ne_none_iff_exists'.1 is_open
  constructor
  · intro met
    by_contra bad
    rw [not_or] at bad
    obtain ⟨r, copy⟩ := Option.ne_none_iff_exists'.1 bad.1
    -- The call fails at the second or third slot, with slot 0 replaced.
    have fails : (s.repoint hfd copies [0, 1, 2]).2 ≠ none := by
      intro done
      have granted := granted_of_repoint done
      refine bad.2 ⟨?_, fun slot small => granted slot (by simp; omega)⟩
      by_contra low
      exact repoint_fails_of_mem sound new mapped (by simp; omega) done
    obtain ⟨e, failed⟩ := Option.ne_none_iff_exists'.1 fails
    have changed : (s.repoint hfd copies [0, 1, 2]).1.fdMap 0 = r := by
      rw [repoint_cons_of_open host copy, repoint_fdMap (by simp), install_fdMap,
        Function.update_self]
    have out := mLoginTty_of_error get (Prod.ext rfl failed)
    rw [out] at met
    have same := (met.2 (by change (-1 : ℤ) ≠ 0; decide)).1
    have stale : s.fdMap 0 = (r : ℤ) := by rw [← same, changed]
    refine sound.isOpen 0 (by omega) ?_
    rw [stale, Int.toNat_natCast]
    exact new.1 r copy
  · rintro (refused | ⟨late, granted⟩)
    · have run : s.repoint hfd copies [0, 1, 2] = (s, some .EMFILE) := by
        simp only [repoint, refused, hostDup, host]
      rw [mLoginTty_of_error get run]
      exact ⟨nofun, fun _ => ⟨rfl, fun _ => rfl⟩⟩
    · exact loginTtyMet_of_done sound lt mapped new late granted

end Call

/-- Descriptor 0 is on a log and descriptor `t` on a terminal. -/
def loginFds (t : ℕ) : FdFiles Bool where
  fdMap w := if w = 0 then 3 else if w = t then 4 else -1
  host h := if h = 3 then some false else if h = 4 then some true else none

/-- The host numbers its duplicates from 5 on. -/
def loginCopies (slot : ℕ) : Option ℕ := some (5 + slot)

theorem loginFds_sound (t : ℕ) : (loginFds t).Sound := by
  refine ⟨fun w mapped => ?_, fun v w mapped same => ?_⟩
  · simp only [loginFds] at mapped ⊢
    split_ifs at mapped ⊢ <;> simp_all
  · simp only [loginFds] at mapped same
    split_ifs at mapped same <;> omega

theorem loginCopies_new (t : ℕ) : FdFiles.CopiesNew 4 loginCopies [0, 1, 2] (loginFds t) := by
  apply FdFiles.copiesNew_of_fresh (by decide)
  · intro v w r first second
    simp only [loginCopies, Option.some.injEq] at first second
    omega
  · intro slot mem r copy
    simp only [loginCopies, Option.some.injEq] at copy
    subst copy
    simp only [loginFds]
    rw [if_neg (by omega), if_neg (by omega)]

/-- A terminal open as descriptor 5. -/
theorem mLoginTty_met_five : LoginTtyMet (loginFds 5) 5 (mLoginTty loginCopies (loginFds 5) 5) :=
  (mLoginTty_met_iff (loginFds_sound 5) (by decide) rfl (loginCopies_new 5)).2
    (Or.inr ⟨by decide, nofun⟩)

/-- With the terminal as descriptor 1 the call fails, and descriptor 0 is on the terminal. -/
theorem mLoginTty_stdout_not_met :
    (loginFds 1).Sound ∧ FdFiles.CopiesNew 4 loginCopies [0, 1, 2] (loginFds 1) ∧
      (mLoginTty loginCopies (loginFds 1) 1).2 = yosErrnoNeg .EBADF ∧
      (loginFds 1).file 0 = some false ∧
      (mLoginTty loginCopies (loginFds 1) 1).1.file 0 = some true ∧
      ¬ LoginTtyMet (loginFds 1) 1 (mLoginTty loginCopies (loginFds 1) 1) := by
  have failed : (mLoginTty loginCopies (loginFds 1) 1).2 = yosErrnoNeg .EBADF := by decide
  have before : (loginFds 1).file 0 = some false := by decide
  have after : (mLoginTty loginCopies (loginFds 1) 1).1.file 0 = some true := by decide
  refine ⟨loginFds_sound 1, loginCopies_new 1, failed, before, after, fun met => ?_⟩
  have same := (met.2 (by rw [failed]; decide)).2 0
  rw [before, after] at same
  nomatch same

end Yos
