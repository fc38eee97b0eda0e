import Yos.Lib.Shared
import Yos.Libc.Env

/-!
# Cursors of the host's C library (`impl/libc/pwd.c`)

The guests are threads of one host process.  `yos_strtok` calls the host's `strtok`, which remembers
where it stopped in a variable of that process, as a pointer into the memory of the guest that called
it; `yos_getpwent`, `yos_getgrent` and `yos_getusershell` go through the host's files with one cursor
each.  A guest that continues after another guest's call takes over that guest's cursor.

Under `CursorOk` a guest continues only where it called last, and then each guest sees what it would
see alone (`cursors_alone`).  The packing of a record into the guest's memory is left out: the result
is the record.
-/

namespace Yos

open Shared (Event)

/-! ## The host's functions -/

/-- The files the host reads entry by entry. -/
inductive Db where
  | passwd
  | group
  | shells
deriving DecidableEq, Repr

/-- The cursors of the host's library. -/
inductive Cursor where
  | strtok
  | db (d : Db)
deriving DecidableEq, Repr

/-- `strspn` (`inside`) and `strcspn`: how far the string at `off` has only, or no, bytes of
`delim`. -/
def spanLen (memory : Bytes) (delim : List UInt8) (inside : Bool) : (fuel off : ℕ) → ℕ
  | 0, _ => 0
  | fuel + 1, off =>
    if memory off ≠ 0 ∧ delim.contains (memory off) = inside then
      spanLen memory delim inside fuel (off + 1) + 1
    else 0

/-- The host's `strtok` from `off`: the memory, where it stops, and the token. -/
def hostStrtok (size : ℕ) (memory : Bytes) (off : ℕ) (delim : List UInt8) : Bytes × ℕ × Option ℕ :=
  let start := off + spanLen memory delim true size off
  if memory start = 0 then (memory, start, none)
  else
    let stop := start + spanLen memory delim false size start
    if memory stop = 0 then (memory, stop, some start)
    else (Function.update memory stop 0, stop + 1, some start)

/-- The next entry of a file, which is opened first if it is not open. -/
def hostGetent (entries : List (List UInt8)) (pos : Option ℕ) : Option ℕ × Option (List UInt8) :=
  let k := pos.getD 0
  match entries[k]? with
  | none => (some k, none)
  | some e => (some (k + 1), some e)

/-! ## The bridges -/

/-- The calls of a guest. -/
inductive CursorCall where
  | strtok (s delim : ℕ)
  | getent (d : Db)
  | setent (d : Db)
  | endent (d : Db)
deriving DecidableEq, Repr

namespace CursorCall

/-- `yos_getpwent`, `yos_setpwent`, `yos_endpwent`. -/
def getpwent : CursorCall := .getent .passwd
def setpwent : CursorCall := .setent .passwd
def endpwent : CursorCall := .endent .passwd

/-- `yos_getgrent`, `yos_setgrent`, `yos_endgrent`. -/
def getgrent : CursorCall := .getent .group
def setgrent : CursorCall := .setent .group
def endgrent : CursorCall := .endent .group

/-- `yos_getusershell`, `yos_setusershell`, `yos_endusershell`. -/
def getusershell : CursorCall := .getent .shells
def setusershell : CursorCall := .setent .shells
def endusershell : CursorCall := .endent .shells

/-- The cursor a call uses. -/
def cursor : CursorCall → Cursor
  | .strtok _ _ => .strtok
  | .getent d | .setent d | .endent d => .db d

/-- The call does not depend on where the cursor is. -/
def resets : CursorCall → Bool
  | .strtok s _ => s ≠ 0
  | .getent _ => false
  | .setent _ | .endent _ => true

/-- The call may be the first one; `strtok` of a null pointer may not. -/
def first : CursorCall → Bool
  | .strtok s _ => s ≠ 0
  | _ => true

end CursorCall

/-- What a guest sees. -/
inductive CursorResult where
  | word (v : ℕ)
  | record (r : Option (List UInt8))
  | nothing
deriving DecidableEq, Repr

variable {ι : Type} [DecidableEq ι]

/-- The host process: the memories of the guests, the cursor of `strtok` as a guest memory and an
offset in it, and the cursors of the files. -/
structure CursorWorld (ι : Type) where
  memory : ι → Bytes
  strtokAt : Option (ι × ℕ)
  dbAt : Db → Option ℕ

/-- What does not change: the size of a memory, where the memories lie in the host process, and the
host's files. -/
structure CursorHost (ι : Type) where
  size : ℕ
  base : ι → ℕ
  entries : Db → List (List UInt8)

/-- `(uint32_t)(r - (char *)ctx->memory)` for a pointer into the memory of guest `j`. -/
def guestOffset (h : CursorHost ι) (i j : ι) (off : ℕ) : ℕ :=
  (((h.base j + off : ℕ) - (h.base i : ℤ)) % 2 ^ 32).toNat

/-- The delimiters; a null pointer stands for the empty string. -/
def strtokDelim (h : CursorHost ι) (memory : Bytes) (delim : ℕ) : List UInt8 :=
  if delim = 0 then [] else cString memory h.size delim

/-- `yos_strtok`; there is no result when the host process crashes on a null cursor. -/
def yosStrtok (h : CursorHost ι) (w : CursorWorld ι) (i : ι) (s delim : ℕ) :
    Option (CursorWorld ι × CursorResult) :=
  match if s ≠ 0 then some (i, s) else w.strtokAt with
  | none => none
  | some (j, off) =>
    let (memory, stop, token) :=
      hostStrtok h.size (w.memory j) off (strtokDelim h (w.memory i) delim)
    some ({ w with memory := Function.update w.memory j memory, strtokAt := some (j, stop) },
      .word (token.elim 0 (guestOffset h i j)))

/-- One call of guest `i`, or a change of its own memory. -/
def CursorWorld.step (h : CursorHost ι) (w : CursorWorld ι) :
    Event ι Bytes CursorCall → Option (CursorWorld ι × Option CursorResult)
  | .call i (.strtok s delim) => (yosStrtok h w i s delim).map fun p => (p.1, some p.2)
  | .call _ (.getent d) =>
    let (pos, r) := hostGetent (h.entries d) (w.dbAt d)
    some ({ w with dbAt := Function.update w.dbAt d pos }, some (.record r))
  | .call _ (.setent d) =>
    some ({ w with dbAt := Function.update w.dbAt d (some 0) }, some .nothing)
  | .call _ (.endent d) => some ({ w with dbAt := Function.update w.dbAt d none }, some .nothing)
  | .own i f => some ({ w with memory := Function.update w.memory i (f (w.memory i)) }, none)

/-- What the guests see in a run, unless the host process crashes. -/
def cursorRun (h : CursorHost ι) :
    CursorWorld ι → List (Event ι Bytes CursorCall) → Option (List (ι × Option CursorResult))
  | _, [] => some []
  | w, e :: rest =>
    match w.step h e with
    | none => none
    | some (w, r) => (cursorRun h w rest).map ((e.party, r) :: ·)

/-! ## Who called last -/

/-- The guest that called last on a cursor; the last event comes first. -/
def lastCaller (k : Cursor) : List (Event ι Bytes CursorCall) → Option ι
  | [] => none
  | .call i a :: before => if a.cursor = k then some i else lastCaller k before
  | .own _ _ :: before => lastCaller k before

/-- A call sets its cursor anew, or its guest called last on that cursor; a file may also be read on
before any call on it. -/
def CursorOk (before : List (Event ι Bytes CursorCall)) : Event ι Bytes CursorCall → Prop
  | .call i a => a.resets = true ∨ lastCaller a.cursor before = some i ∨
      lastCaller a.cursor before = none ∧ a.first = true
  | .own _ _ => True

/-- All events of a run meet `CursorOk`. -/
def CursorOkRun : (before : List (Event ι Bytes CursorCall)) → List (Event ι Bytes CursorCall) → Prop
  | _, [] => True
  | before, e :: rest => CursorOk before e ∧ CursorOkRun (e :: before) rest

/-- No call was made yet. -/
def CursorWorld.start (memory : ι → Bytes) : CursorWorld ι := ⟨memory, none, fun _ => none⟩

/-! ## A cursor of one's own -/

/-- The calls on a memory and a cursor into that memory. -/
def cursorCalls (h : CursorHost ι) : Shared Bytes Cursor (Option ℕ) CursorCall CursorResult where
  cell := CursorCall.cursor
  act a memory c :=
    match a with
    | .strtok s delim =>
      match if s ≠ 0 then some s else c with
      | none => (memory, c, .word 0)
      | some off =>
        let (memory', stop, token) := hostStrtok h.size memory off (strtokDelim h memory delim)
        (memory', some stop, .word (token.elim 0 (· % 2 ^ 32)))
    | .getent d =>
      let (pos, r) := hostGetent (h.entries d) c
      (memory, pos, .record r)
    | .setent _ => (memory, some 0, .nothing)
    | .endent _ => (memory, none, .nothing)
  resets := CursorCall.resets
  first := CursorCall.first
  reset_act a reset memory c c' := by
    cases a with
    | strtok s delim =>
      have given : s ≠ 0 := by simpa [CursorCall.resets] using reset
      simp only [if_pos given]
    | getent d => cases reset
    | setent d => rfl
    | endent d => rfl

section Refine

variable {h : CursorHost ι} {c : CursorWorld ι} {w : Shared.World ι Bytes Cursor (Option ℕ)}
  {e : Event ι Bytes CursorCall}

/-- The host process does what the shared cells do: the cursor of `strtok` is in the memory of the
guest that called it last. -/
structure CursorRel (c : CursorWorld ι) (w : Shared.World ι Bytes Cursor (Option ℕ)) : Prop where
  memory : c.memory = w.own
  strtok : w.cells .strtok = c.strtokAt.map Prod.snd
  owner : ∀ i, w.last .strtok = some i → ∃ off, c.strtokAt = some (i, off)
  db : ∀ d, w.cells (.db d) = c.dbAt d

omit [DecidableEq ι] in
theorem guestOffset_self (i : ι) (off : ℕ) : guestOffset h i i off = off % 2 ^ 32 := by
  unfold guestOffset
  rw [show ((h.base i + off : ℕ) : ℤ) - (h.base i : ℤ) = (off : ℤ) by omega]
  omega

/-- The cells after a call on a file. -/
theorem CursorRel.db_call (rel : CursorRel c w) (i : ι) (d : Db) (pos : Option ℕ) :
    CursorRel { c with dbAt := Function.update c.dbAt d pos }
      ⟨Function.update w.own i (w.own i), Function.update w.cells (.db d) pos,
        Function.update w.last (.db d) (some i)⟩ where
  memory := by rw [Function.update_eq_self, rel.memory]
  strtok := by
    simp only [Function.update_of_ne (show Cursor.strtok ≠ .db d by simp), rel.strtok]
  owner j called := by
    have before : w.last .strtok = some j := by
      simpa only [Function.update_of_ne (show Cursor.strtok ≠ .db d by simp)] using called
    exact rel.owner j before
  db d' := by
    by_cases same : d' = d
    · simp only [same, Function.update_self]
    · simp only [Function.update_of_ne same, Function.update_of_ne (show Cursor.db d' ≠ .db d by simpa),
        rel.db]

/-- `strtok` of guest `i` when the cursor is in its own memory. -/
theorem CursorRel.strtok_call (rel : CursorRel c w) (i : ι) {s delim off : ℕ}
    (at_ : (if s ≠ 0 then some (i, s) else c.strtokAt) = some (i, off))
    (cell : (if s ≠ 0 then some s else w.cells .strtok) = some off) :
    ∃ c', c.step h (.call i (.strtok s delim)) =
        some (c', (w.next (cursorCalls h) (.call i (.strtok s delim))).2) ∧
      CursorRel c' (w.next (cursorCalls h) (.call i (.strtok s delim))).1 := by
  have same : (guestOffset h i i : ℕ → ℕ) = (· % 2 ^ 32) := funext (guestOffset_self i)
  simp only [CursorWorld.step, yosStrtok, at_, Option.map_some, Shared.World.next, cursorCalls,
    CursorCall.cursor, cell, rel.memory, same]
  refine ⟨_, rfl, ⟨rfl, ?_, fun j called => ?_, fun d => ?_⟩⟩
  · simp only [Function.update_self, Option.map_some]
  · have mine : j = i := by
      simpa only [Function.update_self, Option.some.injEq, eq_comm] using called
    rw [mine]
    exact ⟨_, rfl⟩
  · simp only [Function.update_of_ne (show Cursor.db d ≠ .strtok by simp), rel.db]

/-- One event that meets `Ok`. -/
theorem CursorRel.step (rel : CursorRel c w) (ok : Shared.Ok (cursorCalls h) w e) :
    ∃ c', c.step h e = some (c', (w.next (cursorCalls h) e).2) ∧
      CursorRel c' (w.next (cursorCalls h) e).1 := by
  cases e with
  | call i a =>
    cases a with
    | strtok s delim =>
      by_cases given : s ≠ 0
      · exact rel.strtok_call i (if_pos given) (if_pos given)
      · have mine : w.last .strtok = some i := by
          rcases ok with reset | mine | ⟨-, first⟩
          · exact absurd (by simpa [cursorCalls, CursorCall.resets] using reset) given
          · exact mine
          · exact absurd (by simpa [cursorCalls, CursorCall.first] using first) given
        obtain ⟨off, at_⟩ := rel.owner i mine
        refine rel.strtok_call i ((if_neg given).trans at_) ((if_neg given).trans ?_)
        rw [rel.strtok, at_]
        rfl
    | getent d =>
      have moved := rel.db_call i d (hostGetent (h.entries d) (c.dbAt d)).1
      have cell : w.cells (.db d) = c.dbAt d := rel.db d
      simp only [CursorWorld.step, Shared.World.next, cursorCalls, CursorCall.cursor, cell]
      exact ⟨_, rfl, moved⟩
    | setent d => exact ⟨_, rfl, rel.db_call i d (some 0)⟩
    | endent d => exact ⟨_, rfl, rel.db_call i d none⟩
  | own i f =>
    refine ⟨_, rfl, ⟨?_, rel.strtok, rel.owner, rel.db⟩⟩
    simp only [Shared.World.next, rel.memory]

/-- A run whose events meet `Ok` does not crash and shows what the shared cells show. -/
theorem CursorRel.run {events : List (Event ι Bytes CursorCall)} (rel : CursorRel c w)
    (ok : Shared.OkRun (cursorCalls h) w events) :
    cursorRun h c events = some (Shared.results (cursorCalls h) w events) := by
  induction events generalizing c w with
  | nil => rfl
  | cons e rest ih =>
    obtain ⟨c', made, next⟩ := rel.step ok.1
    rw [cursorRun, made, Shared.results]
    simp only [ih next ok.2, Option.map_some]

/-- The shared cells before any call. -/
def sharedStart (memory : ι → Bytes) : Shared.World ι Bytes Cursor (Option ℕ) :=
  ⟨memory, fun _ => none, fun _ => none⟩

omit [DecidableEq ι] in
theorem cursorRel_start (memory : ι → Bytes) : CursorRel (.start memory) (sharedStart memory) :=
  ⟨rfl, rfl, fun _ called => (nomatch called), fun _ => rfl⟩

/-- The last caller in the shared cells is the one in the history. -/
theorem lastCaller_next {before : List (Event ι Bytes CursorCall)}
    (last : ∀ k, w.last k = lastCaller k before) (k : Cursor) :
    (w.next (cursorCalls h) e).1.last k = lastCaller k (e :: before) := by
  cases e with
  | call i a =>
    by_cases same : a.cursor = k
    · simp only [Shared.World.next, cursorCalls, lastCaller, same, Function.update_self, if_true]
    · simp only [Shared.World.next, cursorCalls, lastCaller, Function.update_of_ne (Ne.symm same),
        if_neg same, last]
  | own i f => exact last k

theorem okRun_of_cursorOkRun {before events : List (Event ι Bytes CursorCall)}
    (last : ∀ k, w.last k = lastCaller k before) (ok : CursorOkRun before events) :
    Shared.OkRun (cursorCalls h) w events := by
  induction events generalizing before w with
  | nil => trivial
  | cons e rest ih =>
    refine ⟨?_, ih (lastCaller_next last) ok.2⟩
    have here := ok.1
    cases e with
    | call i a =>
      rw [CursorOk, ← last] at here
      exact here
    | own i f => trivial

end Refine

/-! ## Every interleaving -/

/-- In every interleaving in which a guest continues only where it called last, the host process does
not crash, and each guest sees what it would see alone. -/
theorem cursors_alone (h : CursorHost ι) (memory : ι → Bytes)
    (events : List (Event ι Bytes CursorCall)) (ok : CursorOkRun [] events) (i : ι) :
    ∃ out, cursorRun h (.start memory) events = some out ∧
      cursorRun h (.start memory) (events.filter fun e => e.party = i) =
        some (out.filter fun r => r.1 = i) := by
  have allowed : Shared.OkRun (cursorCalls h) (sharedStart memory) events :=
    okRun_of_cursorOkRun (fun _ => rfl) ok
  obtain ⟨same, alone⟩ := Shared.results_alone (Shared.Agree.refl i _) allowed
  refine ⟨_, (cursorRel_start memory).run allowed, ?_⟩
  rw [same]
  exact (cursorRel_start memory).run alone

/-- A host with two users, and two guests whose memories are one page apart. -/
def twoUsers : CursorHost Bool where
  size := 64
  base i := if i then 8192 else 4096
  entries
    | .passwd => [[114], [117]]
    | _ => []

/-- Both guests have the string `a b` at 8 and a blank at 16. -/
def tokenMemory (_ : Bool) : Bytes := fun a =>
  if a = 8 then 97 else if a = 9 then 32 else if a = 10 then 98 else if a = 16 then 32 else 0

/-- Each guest starts its own walk and then continues it. -/
theorem cursors_alone_two_walks :
    ∃ events : List (Event Bool Bytes CursorCall),
      events = [.call false .getpwent, .call false .getpwent, .call true .setpwent,
        .call true .getpwent] ∧
      CursorOkRun [] events ∧
      ∃ out, cursorRun twoUsers (.start tokenMemory) events = some out ∧
        cursorRun twoUsers (.start tokenMemory) (events.filter fun e => e.party = true) =
          some (out.filter fun r => r.1 = true) := by
  have ok : CursorOkRun [] [.call false .getpwent, .call false .getpwent, .call true .setpwent,
      (.call true .getpwent : Event Bool Bytes CursorCall)] :=
    ⟨.inr (.inr ⟨rfl, rfl⟩), .inr (.inl rfl), .inl rfl, .inr (.inl rfl), trivial⟩
  exact ⟨_, rfl, ok, cursors_alone twoUsers tokenMemory _ ok true⟩

/-- The second guest's first `getpwent` returns the second user; and after the second guest's
`strtok`, the first guest's next token is a place in the second guest's memory. -/
theorem cursors_interfere :
    cursorRun twoUsers (.start tokenMemory) [.call false .getpwent, .call true .getpwent] =
        some [(false, some (.record (some [114]))), (true, some (.record (some [117])))] ∧
      cursorRun twoUsers (.start tokenMemory) [.call true .getpwent] =
        some [(true, some (.record (some [114])))] ∧
      cursorRun twoUsers (.start tokenMemory)
          [.call false (.strtok 8 16), .call true (.strtok 8 16), .call false (.strtok 0 16)] =
        some [(false, some (.word 8)), (true, some (.word 8)), (false, some (.word 4106))] ∧
      cursorRun twoUsers (.start tokenMemory) [.call false (.strtok 8 16), .call false (.strtok 0 16)] =
        some [(false, some (.word 8)), (false, some (.word 10))] := by
  refine ⟨by decide +kernel, by decide +kernel, by decide +kernel, by decide +kernel⟩

end Yos
