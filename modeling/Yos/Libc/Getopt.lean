import Yos.Lib.Bytes
import Yos.Libc.Env
import Mathlib.Data.List.GetD
import Mathlib.Data.List.TakeWhile

/-!
# `getopt` (`yos_getopt`, `impl/libc/getopt.c`)

The position inside the current argument is a variable of its own, `_nextchar`, which a call sets back
to the start when `optind` is 1.  A call that stops inside the first argument leaves `optind` at 1, so
that the next call starts that argument again: an option without an argument in front of the first
argument is returned for ever.  Elsewhere the calls are those of POSIX, unless `:` occurs as an option
(`getopt_met_iff`).
-/

namespace Yos

/-! ## The bridge -/

/-- The arguments of `yos_getopt`, with the guest's memory. -/
structure GetoptCall where
  memory : Bytes
  memSize : ℕ
  argc : ℕ
  argvOff : ℕ
  optstringOff : ℕ

/-- `getopt_state` without `opterr`, which is for the messages only, and `_nextchar`. -/
structure GetoptState where
  optind : ℕ
  nextchar : ℕ
  optarg : ℕ
  optopt : ℕ
deriving DecidableEq, Repr

/-- `_argv_str_off`. -/
def argvStrOff (g : GetoptCall) (i : ℕ) : ℕ :=
  if g.argvOff = 0 then 0
  else if g.memSize < g.argvOff + (i + 1) * 4 then 0
  else g.memory.read32 (g.argvOff + i * 4)

/-- `_argv_str`, as an address. -/
def argvStr (g : GetoptCall) (i : ℕ) : Option ℕ :=
  if argvStrOff g i = 0 ∨ g.memSize ≤ argvStrOff g i then none else some (argvStrOff g i)

/-- `optstring`. -/
def GetoptCall.optstring (g : GetoptCall) : List UInt8 :=
  if g.optstringOff = 0 then [] else cString g.memory g.memSize g.optstringOff

/-- The characters `-`, `+`, `:` and `?`. -/
def dash : UInt8 := 45
def plus : UInt8 := 43
def optColon : UInt8 := 58
def question : UInt8 := 63

/-- The option string that is searched, without its first character if that sets a mode. -/
def searched (o : List UInt8) : List UInt8 :=
  match o with
  | c :: rest => if c = optColon ∨ c = plus ∨ c = dash then rest else o
  | [] => []

/-- What an option string says of a character. -/
inductive OptionKind where
  | unknown | flag | takesArg
deriving DecidableEq, Repr

/-- `strchr` of a character, and the test for a colon behind it. -/
def kindIn (os : List UInt8) (c : UInt8) : OptionKind :=
  match os.dropWhile (· != c) with
  | [] => .unknown
  | _ :: rest => if rest.head? = some optColon then .takesArg else .flag

/-- The value for a missing argument. -/
def missingValue (o : List UInt8) : UInt8 := if o.head? = some optColon then optColon else question

/-- The part of `yos_getopt` before the character: the call ends with -1, or goes on inside an
argument. -/
def getoptEnter (g : GetoptCall) (s : GetoptState) : GetoptState ⊕ GetoptState :=
  if s.nextchar ≠ 0 then .inr s
  else
    match argvStr g s.optind with
    | none => .inl s
    | some arg =>
      if g.memory arg ≠ dash ∨ g.memory (arg + 1) = 0 then .inl s
      else if g.memory (arg + 1) = dash ∧ g.memory (arg + 2) = 0 then
        .inl { s with optind := s.optind + 1 }
      else .inr { s with nextchar := 1 }

/-- The part of `yos_getopt` after the character `c` of `arg`, from `_nextchar++` on. -/
def getoptOption (g : GetoptCall) (s : GetoptState) (arg : ℕ) (c : UInt8) : ℤ × GetoptState :=
  let s := { s with nextchar := s.nextchar + 1 }
  match kindIn (searched g.optstring) c with
  | .unknown => (question.toNat, { s with optopt := c.toNat })
  | .flag => (c.toNat, s)
  | .takesArg =>
    if g.memory (arg + s.nextchar) ≠ 0 then
      (c.toNat, { s with
        optarg := argvStrOff g s.optind + s.nextchar, nextchar := 0, optind := s.optind + 1 })
    else
      let s := { s with nextchar := 0, optind := s.optind + 1 }
      if g.argc ≤ s.optind then
        ((missingValue g.optstring).toNat, { s with optopt := c.toNat, optarg := 0 })
      else (c.toNat, { s with optarg := argvStrOff g s.optind, optind := s.optind + 1 })

/-- The first lines of `yos_getopt`. -/
def getoptInit (s : GetoptState) : GetoptState :=
  if s.optind ≤ 1 then { s with optind := 1, nextchar := 0 } else s

theorem le_optind_getoptInit (s : GetoptState) : s.optind ≤ (getoptInit s).optind := by
  unfold getoptInit
  split_ifs with h
  · exact h
  · exact le_rfl

theorem getoptEnter_optind {g : GetoptCall} {s s' : GetoptState} (h : getoptEnter g s = .inr s') :
    s'.optind = s.optind := by
  unfold getoptEnter at h
  split at h
  · rw [Sum.inr.inj h]
  · split at h
    · simp at h
    · split_ifs at h
      rw [← Sum.inr.inj h]

/-- `yos_getopt`. -/
def yosGetopt (g : GetoptCall) (s : GetoptState) : ℤ × GetoptState :=
  if g.argc ≤ (getoptInit s).optind then (-1, getoptInit s)
  else
    match h : getoptEnter g (getoptInit s) with
    | .inl s => (-1, s)
    | .inr s' =>
      match argvStr g s'.optind with
      | none => (-1, s')
      | some arg =>
        if g.memory (arg + s'.nextchar) = 0 then
          yosGetopt g { s' with nextchar := 0, optind := s'.optind + 1 }
        else getoptOption g s' arg (g.memory (arg + s'.nextchar))
termination_by g.argc - s.optind
decreasing_by
  have le := le_optind_getoptInit s
  have same := getoptEnter_optind h
  show g.argc - (s'.optind + 1) < g.argc - s.optind
  omega

/-- `yos_getopt_optind_set`. -/
def yosGetoptOptindSet (s : GetoptState) (v : ℕ) : GetoptState :=
  if v ≤ 1 then { s with optind := v, nextchar := 0 } else { s with optind := v }

/-! ## POSIX -/

/-- What POSIX lets the program see of a call that finds an option: the value, the place of the
option's argument, and the character of an error. -/
structure OptionEvent where
  value : UInt8
  optarg : Option (ℕ × ℕ)
  optopt : Option UInt8
deriving DecidableEq, Repr

/-- Where the scan is: in front of an element, or at a character inside one. -/
inductive ScanPlace where
  | before (i : ℕ)
  | inside (i k : ℕ)
deriving DecidableEq, Repr

section Posix

variable (o : List UInt8) (args : List (List UInt8))

/-- The option characters of a string, behind a leading colon. -/
def optionChars : List UInt8 := if o.head? = some optColon then o.tail else o

/-- What POSIX takes a character for; a colon is no option. -/
def posixKind (c : UInt8) : OptionKind := if c = optColon then .unknown else kindIn (optionChars o) c

/-- The place behind a character. -/
def placeAfter (a : List UInt8) (i k : ℕ) : ScanPlace :=
  if k + 1 < a.length then .inside i (k + 1) else .before (i + 1)

/-- The option at a character of the element `a`. -/
def posixOption (a : List UInt8) (i k : ℕ) (c : UInt8) : OptionEvent × ScanPlace :=
  match posixKind o c with
  | .unknown => (⟨question, none, some c⟩, placeAfter a i k)
  | .flag => (⟨c, none, none⟩, placeAfter a i k)
  | .takesArg =>
    if k + 1 < a.length then (⟨c, some (i, k + 1), none⟩, .before (i + 1))
    else if i + 1 < args.length then (⟨c, some (i + 1, 0), none⟩, .before (i + 2))
    else (⟨missingValue o, none, some c⟩, .before (i + 1))

/-- The element is `-` with more behind it, and not `--`. -/
def IsOptionElement (a : List UInt8) : Prop := a.head? = some dash ∧ 2 ≤ a.length ∧ a ≠ [dash, dash]

instance (a : List UInt8) : Decidable (IsOptionElement a) := inferInstanceAs (Decidable (_ ∧ _))

/-- A call of POSIX's `getopt`: the end, with the index of the first operand, or an option. -/
def posixNext : ScanPlace → ℕ ⊕ OptionEvent × ScanPlace
  | .before i =>
    match args[i]? with
    | none => .inl i
    | some a =>
      if a = [dash, dash] then .inl (i + 1)
      else if IsOptionElement a then .inr (posixOption o args a i 1 (a.getD 1 0))
      else .inl i
  | .inside i k =>
    .inr (posixOption o args (args.getD i []) i k ((args.getD i []).getD k 0))

end Posix

/-- The option strings that POSIX describes: option characters, each with a colon behind it or not,
after a colon or not.  The first one is not `+` or `-`, which extensions use for a mode. -/
def PosixOptstring (o : List UInt8) : Prop :=
  (∀ rest, optionChars o ≠ optColon :: rest) ∧ (∀ l r, optionChars o ≠ l ++ optColon :: optColon :: r) ∧
    o.head? ≠ some plus ∧ o.head? ≠ some dash

/-! ## The calls one after another -/

/-- Repeated calls until one ends the scan: what they showed, and the index that is left. -/
def callSeq {σ ε : Type} (next : σ → ℕ ⊕ ε × σ) : ℕ → σ → Option (List ε × ℕ)
  | 0, _ => none
  | n + 1, s =>
    match next s with
    | .inl last => some ([], last)
    | .inr (e, s') => (callSeq next n s').map fun p => (e :: p.1, p.2)

/-- What the program sees of a call of `yos_getopt`. -/
structure GetoptSeen where
  value : ℤ
  optarg : ℕ
  optopt : ℕ
deriving DecidableEq, Repr

/-- A call of `yos_getopt`: the end, with `optind`, or an option. -/
def getoptNext (g : GetoptCall) (s : GetoptState) : ℕ ⊕ GetoptSeen × GetoptState :=
  if (yosGetopt g s).1 = -1 then .inl (yosGetopt g s).2.optind
  else .inr (⟨(yosGetopt g s).1, (yosGetopt g s).2.optarg, (yosGetopt g s).2.optopt⟩, (yosGetopt g s).2)

/-- The program sees what POSIX promises. -/
structure OptionEvent.Shown (g : GetoptCall) (e : OptionEvent) (seen : GetoptSeen) : Prop where
  value : seen.value = e.value.toNat
  optarg : ∀ i k, e.optarg = some (i, k) → seen.optarg = argvStrOff g i + k
  optopt : ∀ c, e.optopt = some c → seen.optopt = c.toNat

/-- The argument vector is in the memory. -/
structure GetoptCall.Holds (g : GetoptCall) (args : List (List UInt8)) : Prop where
  argc : g.argc = args.length
  argv : g.argvOff ≠ 0
  room : g.argvOff + args.length * 4 ≤ g.memSize
  inside : ∀ i < args.length, g.memory.read32 (g.argvOff + i * 4) ≠ 0 ∧
    g.memory.read32 (g.argvOff + i * 4) + (args.getD i []).length < g.memSize
  chars : ∀ i < args.length, ∀ k ≤ (args.getD i []).length,
    g.memory (g.memory.read32 (g.argvOff + i * 4) + k) = (args.getD i []).getD k 0
  solid : ∀ a ∈ args, ∀ c ∈ a, c ≠ 0

/-- For an option string of POSIX, the calls from `optind` 1 on, whatever was scanned before, are
POSIX's, end, and leave `optind` at the first operand. -/
def GetoptMet (g : GetoptCall) (args : List (List UInt8)) : Prop :=
  PosixOptstring g.optstring → ∀ s, s.optind = 1 → ∃ n events seen last,
    callSeq (posixNext g.optstring args) n (.before 1) = some (events, last) ∧
    callSeq (getoptNext g) n s = some (seen, last) ∧ List.Forall₂ (OptionEvent.Shown g) events seen

section Argv

variable {g : GetoptCall} {args : List (List UInt8)} {i k : ℕ}

theorem GetoptCall.Holds.argvStrOff_eq (holds : g.Holds args) (lt : i < args.length) :
    argvStrOff g i = g.memory.read32 (g.argvOff + i * 4) := by
  have room := holds.room
  rw [argvStrOff, if_neg holds.argv, if_neg (by omega)]

theorem GetoptCall.Holds.argvStr_eq (holds : g.Holds args) (lt : i < args.length) :
    argvStr g i = some (argvStrOff g i) := by
  obtain ⟨ne, room⟩ := holds.inside i lt
  rw [← holds.argvStrOff_eq lt] at ne room
  exact if_neg (by omega)

theorem GetoptCall.Holds.char_eq (holds : g.Holds args) (lt : i < args.length)
    (le : k ≤ (args.getD i []).length) :
    g.memory (argvStrOff g i + k) = (args.getD i []).getD k 0 := by
  rw [holds.argvStrOff_eq lt]
  exact holds.chars i lt k le

/-- A string has a zero byte at its end only. -/
theorem GetoptCall.Holds.char_eq_zero_iff (holds : g.Holds args) (lt : i < args.length)
    (le : k ≤ (args.getD i []).length) :
    g.memory (argvStrOff g i + k) = 0 ↔ k = (args.getD i []).length := by
  rw [holds.char_eq lt le, List.getD_eq_getElem?_getD]
  rcases Nat.lt_or_eq_of_le le with ltk | rfl
  · rw [List.getElem?_eq_getElem ltk, Option.getD_some]
    refine iff_of_false (holds.solid _ ?_ _ (List.getElem_mem ltk)) ltk.ne
    rw [List.getD_eq_getElem _ _ lt]
    exact List.getElem_mem lt
  · rw [List.getElem?_eq_none le, Option.getD_none]
    exact iff_of_true rfl rfl

/-- In front of an element, the bridge makes the distinctions of POSIX. -/
theorem getoptEnter_eq (holds : g.Holds args) {s : GetoptState} (start : s.nextchar = 0)
    (lt : s.optind < args.length) :
    getoptEnter g s =
      if args.getD s.optind [] = [dash, dash] then .inl { s with optind := s.optind + 1 }
      else if IsOptionElement (args.getD s.optind []) then .inr { s with nextchar := 1 }
      else .inl s := by
  rw [getoptEnter, if_neg (not_not.2 start), holds.argvStr_eq lt]
  have second : 1 ≤ (args.getD s.optind []).length →
      (g.memory (argvStrOff g s.optind + 1) = 0 ↔ 1 = (args.getD s.optind []).length) :=
    holds.char_eq_zero_iff lt
  have third : 2 ≤ (args.getD s.optind []).length →
      (g.memory (argvStrOff g s.optind + 2) = 0 ↔ 2 = (args.getD s.optind []).length) :=
    holds.char_eq_zero_iff lt
  have char := fun k => holds.char_eq (k := k) lt
  generalize args.getD s.optind [] = a at second third char ⊢
  have first := char 0 (Nat.zero_le _)
  rw [Nat.add_zero] at first
  simp only [first]
  match a with
  | [] => simp [IsOptionElement, dash]
  | [x] =>
    have zero := (second (by simp)).2 (by simp)
    simp [zero, IsOptionElement]
  | [x, y] =>
    have solid : g.memory (argvStrOff g s.optind + 1) ≠ 0 := fun h => absurd ((second (by simp)).1 h) (by simp)
    have zero := (third (by simp)).2 (by simp)
    have eq : g.memory (argvStrOff g s.optind + 1) = y := char 1 (by simp)
    rw [eq] at solid
    by_cases lead : x = dash
    · simp only [lead, solid, zero, eq]
      by_cases stop : y = dash <;> simp [stop, IsOptionElement]
    · simp [lead, IsOptionElement]
  | x :: y :: z :: rest =>
    have solid : g.memory (argvStrOff g s.optind + 1) ≠ 0 := fun h => absurd ((second (by simp)).1 h) (by simp)
    have more : g.memory (argvStrOff g s.optind + 2) ≠ 0 := fun h => absurd ((third (by simp)).1 h) (by simp)
    by_cases lead : x = dash
    · simp [lead, solid, more, IsOptionElement]
    · simp [lead, IsOptionElement]

theorem yosGetopt_eq (g : GetoptCall) (s : GetoptState) :
    yosGetopt g s =
      if g.argc ≤ (getoptInit s).optind then (-1, getoptInit s)
      else
        match getoptEnter g (getoptInit s) with
        | .inl s => (-1, s)
        | .inr s' =>
          match argvStr g s'.optind with
          | none => (-1, s')
          | some arg =>
            if g.memory (arg + s'.nextchar) = 0 then
              yosGetopt g { s' with nextchar := 0, optind := s'.optind + 1 }
            else getoptOption g s' arg (g.memory (arg + s'.nextchar)) := by
  rw [yosGetopt]
  split_ifs with done
  · rfl
  · split <;> simp only [*]

/-! ## A call is a call of POSIX -/

/-- The bridge is at the place: behind the last character of an element it has not yet gone on to the
next one. -/
def GetoptState.At (s : GetoptState) (args : List (List UInt8)) : ScanPlace → Prop
  | .before i => s.optind = i ∧ s.nextchar = 0 ∨
      s.optind + 1 = i ∧ s.optind < args.length ∧ s.nextchar = (args.getD s.optind []).length ∧
        0 < s.nextchar
  | .inside i k => s.optind = i ∧ s.nextchar = k ∧ i < args.length ∧ 0 < k ∧ k < (args.getD i []).length

/-- The next option of the place is the character `k` of the element `i`. -/
def ScanPlace.Reads (args : List (List UInt8)) (i k : ℕ) : ScanPlace → Prop
  | .before j => j = i ∧ k = 1 ∧ IsOptionElement (args.getD i [])
  | .inside j l => j = i ∧ l = k

/-- A call finds the option at the character `k` of the element `i`. -/
def OptionAt (g : GetoptCall) (args : List (List UInt8)) (place : ScanPlace) (s : GetoptState)
    (i k : ℕ) : Prop :=
  place.Reads args i k ∧ i < args.length ∧ 0 < k ∧ k < (args.getD i []).length ∧
    posixNext g.optstring args place =
      .inr (posixOption g.optstring args (args.getD i []) i k ((args.getD i []).getD k 0)) ∧
    ∃ t : GetoptState, t.optind = i ∧ t.nextchar = k ∧
      yosGetopt g s = getoptOption g t (argvStrOff g i) ((args.getD i []).getD k 0)

/-- A call ends the scan, as POSIX's does, or finds the same option. -/
def StepAgrees (g : GetoptCall) (args : List (List UInt8)) (place : ScanPlace) (s : GetoptState) : Prop :=
  (∃ last, posixNext g.optstring args place = .inl last ∧ (yosGetopt g s).1 = -1 ∧
    (yosGetopt g s).2.optind = last) ∨
  ∃ i k, s.optind ≤ i ∧ OptionAt g args place s i k

theorem step_before (holds : g.Holds args) {s : GetoptState} (start : (getoptInit s).nextchar = 0) :
    StepAgrees g args (.before (getoptInit s).optind) s := by
  have from_s := le_optind_getoptInit s
  rw [StepAgrees]
  simp only [OptionAt]
  rw [yosGetopt_eq, holds.argc, posixNext]
  generalize getoptInit s = t at start from_s ⊢
  by_cases done : args.length ≤ t.optind
  · rw [if_pos done, List.getElem?_eq_none done]
    exact Or.inl ⟨t.optind, rfl, rfl, rfl⟩
  · have lt := not_le.1 done
    have elem : args[t.optind]? = some (args.getD t.optind []) := by
      rw [List.getD_eq_getElem _ _ lt, List.getElem?_eq_getElem lt]
    rw [if_neg done, elem, getoptEnter_eq holds start lt]
    simp only
    split_ifs with stop opt
    · exact Or.inl ⟨_, rfl, rfl, rfl⟩
    · refine Or.inr ⟨t.optind, 1, from_s, ⟨rfl, rfl, opt⟩, lt, one_pos, opt.2.1, rfl,
        { t with nextchar := 1 }, rfl, rfl, ?_⟩
      have here : 1 < (args.getD t.optind []).length := opt.2.1
      have solid := mt (holds.char_eq_zero_iff lt here.le).1 here.ne
      simp only [holds.argvStr_eq lt]
      rw [if_neg solid, holds.char_eq lt here.le]
    · exact Or.inl ⟨_, rfl, rfl, rfl⟩

theorem getoptInit_of_two_le {s : GetoptState} (two : 2 ≤ s.optind) : getoptInit s = s :=
  if_neg (by omega)

theorem getopt_step (holds : g.Holds args) {place : ScanPlace} {s : GetoptState} (two : 2 ≤ s.optind)
    (here : s.At args place) : StepAgrees g args place s := by
  have init := getoptInit_of_two_le two
  cases place with
  | before i =>
    rcases here with ⟨rfl, start⟩ | ⟨rfl, lt, last, pos⟩
    · have step := step_before holds (s := s) (by rw [init]; exact start)
      rwa [init] at step
    · -- the call goes on to the next element, and then does what a call from there does
      have step := step_before holds (s := { s with nextchar := 0, optind := s.optind + 1 })
        (by rw [getoptInit_of_two_le (by show 2 ≤ s.optind + 1; omega)])
      rw [getoptInit_of_two_le (by show 2 ≤ s.optind + 1; omega)] at step
      have same : yosGetopt g s = yosGetopt g { s with nextchar := 0, optind := s.optind + 1 } := by
        rw [yosGetopt_eq, init, holds.argc, if_neg (by omega), getoptEnter, if_pos pos.ne']
        simp only [holds.argvStr_eq lt]
        rw [if_pos ((holds.char_eq_zero_iff lt last.le).2 last)]
      rw [StepAgrees] at step ⊢
      simp only [OptionAt] at step ⊢
      rw [same]
      refine step.imp_right fun ⟨i, k, le, rest⟩ => ⟨i, k, ?_, rest⟩
      exact (Nat.le_succ _).trans le
  | inside i k =>
    obtain ⟨rfl, rfl, lt, pos, within⟩ := here
    refine Or.inr ⟨s.optind, s.nextchar, le_rfl, ⟨rfl, rfl⟩, lt, pos, within, rfl, s, rfl, rfl, ?_⟩
    have solid := mt (holds.char_eq_zero_iff lt within.le).1 within.ne
    rw [yosGetopt_eq, init, holds.argc, if_neg (by omega), getoptEnter, if_pos pos.ne']
    simp only [holds.argvStr_eq lt]
    rw [if_neg solid, holds.char_eq lt within.le]

/-- The bridge is at the place behind a character. -/
theorem at_placeAfter (lt : i < args.length) {t : GetoptState} (ind : t.optind = i)
    (next : t.nextchar = k + 1) (within : k < (args.getD i []).length) :
    t.At args (placeAfter (args.getD i []) i k) := by
  unfold placeAfter
  split_ifs with more
  · exact ⟨ind, next, lt, Nat.succ_pos k, more⟩
  · refine Or.inr ⟨by rw [ind], ind ▸ lt, ?_, by omega⟩
    rw [ind, next]
    omega

/-- If the bridge takes the character for what POSIX takes it for, it shows what POSIX shows, and is
behind it then. -/
theorem getoptOption_shown (holds : g.Holds args) (lt : i < args.length)
    (within : k < (args.getD i []).length) {t : GetoptState} (ind : t.optind = i) (next : t.nextchar = k)
    (c : UInt8) (same : kindIn (searched g.optstring) c = posixKind g.optstring c) :
    let posix := posixOption g.optstring args (args.getD i []) i k c
    let r := getoptOption g t (argvStrOff g i) c
    0 ≤ r.1 ∧ posix.1.Shown g ⟨r.1, r.2.optarg, r.2.optopt⟩ ∧ i ≤ r.2.optind ∧ r.2.At args posix.2 ∧
      (posixKind g.optstring c = .takesArg → i < r.2.optind) := by
  intro posix r
  have attached := holds.char_eq_zero_iff lt (k := k + 1) within
  simp only [posix, r, posixOption, getoptOption, same, ind, next, holds.argc]
  cases kind : posixKind g.optstring c with
  | unknown =>
    refine ⟨Int.natCast_nonneg _, ⟨rfl, fun _ _ h => by simp at h, fun c' h => ?_⟩, le_rfl,
      at_placeAfter lt rfl rfl within, by simp⟩
    rw [Option.some.inj h]
  | flag =>
    exact ⟨Int.natCast_nonneg _, ⟨rfl, fun _ _ h => by simp at h, fun _ h => by simp at h⟩, le_rfl,
      at_placeAfter lt rfl rfl within, by simp⟩
  | takesArg =>
    by_cases more : k + 1 < (args.getD i []).length
    · simp only [if_pos more, if_pos (mt attached.1 more.ne)]
      refine ⟨Int.natCast_nonneg _, ⟨rfl, fun i' k' h => ?_, fun _ h => by simp at h⟩, Nat.le_succ i,
        Or.inl ⟨rfl, rfl⟩, fun _ => Nat.lt_succ_self i⟩
      obtain ⟨rfl, rfl⟩ := Prod.mk.inj (Option.some.inj h)
      rfl
    · simp only [if_neg more, if_neg (not_not.2 (attached.2 (by omega)))]
      by_cases last : i + 1 < args.length
      · simp only [if_pos last, if_neg (not_le.2 last)]
        refine ⟨Int.natCast_nonneg _, ⟨rfl, fun i' k' h => ?_, fun _ h => by simp at h⟩, by omega,
          Or.inl ⟨rfl, rfl⟩, fun _ => by omega⟩
        obtain ⟨rfl, rfl⟩ := Prod.mk.inj (Option.some.inj h)
        rfl
      · simp only [if_neg last, if_pos (not_lt.1 last)]
        refine ⟨Int.natCast_nonneg _, ⟨rfl, fun _ _ h => by simp at h, fun c' h => ?_⟩, Nat.le_succ i,
          Or.inl ⟨rfl, rfl⟩, fun _ => Nat.lt_succ_self i⟩
        rw [Option.some.inj h]

end Argv

/-! ## Which characters are options -/

section Kinds

variable {o : List UInt8} {c : UInt8}

theorem searched_eq (valid : PosixOptstring o) : searched o = optionChars o := by
  obtain ⟨-, -, no_plus, no_dash⟩ := valid
  cases o with
  | nil => rfl
  | cons c rest =>
    by_cases lead : c = optColon
    · simp [searched, optionChars, lead]
    · have first : ¬ (c = optColon ∨ c = plus ∨ c = dash) := by
        rintro (h | rfl | rfl)
        · exact lead h
        · exact no_plus rfl
        · exact no_dash rfl
      have head : ¬ (c :: rest).head? = some optColon := fun h => lead (Option.some.inj h)
      rw [searched, if_neg first, optionChars, if_neg head]

theorem kindIn_searched (valid : PosixOptstring o) (option : c ≠ optColon) :
    kindIn (searched o) c = posixKind o c := by
  rw [searched_eq valid, posixKind, if_neg option]

/-- The bridge takes a colon for an option if there is one in the option string. -/
theorem kindIn_colon (valid : PosixOptstring o) :
    kindIn (searched o) optColon = if optColon ∈ optionChars o then .flag else .unknown := by
  rw [searched_eq valid, kindIn]
  split_ifs with mem
  · have split : (optionChars o).takeWhile (· != optColon) ++ (optionChars o).dropWhile (· != optColon) =
        optionChars o := List.takeWhile_append_dropWhile
    have stops := List.head?_dropWhile_not (· != optColon) (optionChars o)
    match rest : (optionChars o).dropWhile (· != optColon) with
    | [] => exact absurd (List.dropWhile_eq_nil_iff.1 rest optColon mem) (by decide)
    | c :: r =>
      simp only [rest, List.head?_cons] at stops
      have same : c = optColon := by simpa using stops
      rw [rest, same] at split
      have single : ¬ r.head? = some optColon := fun h => by
        obtain ⟨r', rfl⟩ := List.head?_eq_some_iff.1 h
        exact valid.2.1 _ _ split.symm
      simp only [if_neg single]
  · have none : (optionChars o).dropWhile (· != optColon) = [] :=
      List.dropWhile_eq_nil_iff.2 fun c' mem' => by
        simp only [bne_iff_ne, ne_eq]
        rintro rfl
        exact mem mem'
    rw [none]

end Kinds

/-! ## Runs -/

section Runs

variable {g : GetoptCall} {args : List (List UInt8)} {o : List UInt8} {place : ScanPlace}

/-- What is left to scan. -/
def scanRest (args : List (List UInt8)) : ScanPlace → ℕ
  | .before i => ((args.drop i).map fun a => a.length + 1).sum
  | .inside i k => (args.getD i []).length - k + ((args.drop (i + 1)).map fun a => a.length + 1).sum

theorem scanRest_before {i : ℕ} (lt : i < args.length) :
    scanRest args (.before i) = (args.getD i []).length + 1 + scanRest args (.before (i + 1)) := by
  rw [scanRest, List.drop_eq_getElem_cons lt, List.map_cons, List.sum_cons, List.getD_eq_getElem _ _ lt,
    scanRest]

/-- An option leaves less to scan. -/
theorem scanRest_posixOption {i k : ℕ} (within : k < (args.getD i []).length) (c : UInt8) :
    scanRest args (posixOption o args (args.getD i []) i k c).2 < scanRest args (.inside i k) := by
  have after : scanRest args (placeAfter (args.getD i []) i k) < scanRest args (.inside i k) := by
    unfold placeAfter
    split_ifs <;> simp only [scanRest] <;> omega
  have next : scanRest args (.before (i + 1)) < scanRest args (.inside i k) := by
    simp only [scanRest]
    omega
  unfold posixOption
  split
  · exact after
  · exact after
  · split_ifs with more last
    · exact next
    · have skip : _ = _ + scanRest args (.before (i + 2)) := scanRest_before last
      show scanRest args (.before (i + 2)) < _
      omega
    · exact next

/-- Places that the scan reaches are inside an element. -/
def ScanPlace.Ok (args : List (List UInt8)) : ScanPlace → Prop
  | .before _ => True
  | .inside i k => i < args.length ∧ k < (args.getD i []).length

theorem placeAfter_ok {i k : ℕ} (lt : i < args.length) : (placeAfter (args.getD i []) i k).Ok args := by
  unfold placeAfter
  split_ifs with more
  · exact ⟨lt, more⟩
  · trivial

theorem posixOption_ok {i k : ℕ} (lt : i < args.length) (c : UInt8) :
    (posixOption o args (args.getD i []) i k c).2.Ok args := by
  unfold posixOption
  split
  · exact placeAfter_ok lt
  · exact placeAfter_ok lt
  · split_ifs <;> trivial

/-- The scan of POSIX ends. -/
theorem posix_ends (o : List UInt8) (args : List (List UInt8)) (place : ScanPlace) (ok : place.Ok args) :
    ∃ n r, callSeq (posixNext o args) n place = some r := by
  induction left : scanRest args place using Nat.strong_induction_on generalizing place with
  | _ rest ih =>
    have option {i k : ℕ} (lt : i < args.length) (within : k < (args.getD i []).length)
        (le : scanRest args (.inside i k) ≤ rest)
        (reads : posixNext o args place =
          .inr (posixOption o args (args.getD i []) i k ((args.getD i []).getD k 0))) :
        ∃ n r, callSeq (posixNext o args) n place = some r := by
      have less := (scanRest_posixOption (o := o) within ((args.getD i []).getD k 0)).trans_le le
      obtain ⟨n, r, run⟩ := ih _ less _ (posixOption_ok lt _) rfl
      refine ⟨n + 1, ((posixOption o args (args.getD i []) i k ((args.getD i []).getD k 0)).1 :: r.1, r.2), ?_⟩
      rw [callSeq, reads]
      simp only [run, Option.map_some]
    cases place with
    | inside i k => exact option ok.1 ok.2 left.le rfl
    | before i =>
      rcases Nat.lt_or_ge i args.length with lt | past
      · have elem : args[i]? = some (args.getD i []) := by
          rw [List.getD_eq_getElem _ _ lt, List.getElem?_eq_getElem lt]
        by_cases opt : IsOptionElement (args.getD i [])
        · refine option lt opt.2.1 ?_ ?_
          · rw [← left, scanRest_before lt]
            simp only [scanRest]
            omega
          · rw [posixNext, elem]
            simp only [if_neg opt.2.2, if_pos opt]
        · refine ⟨1, ?_⟩
          rw [callSeq, posixNext, elem]
          simp only [if_neg opt]
          split_ifs
          · exact ⟨_, rfl⟩
          · exact ⟨_, rfl⟩
      · exact ⟨1, ([], i), by rw [callSeq, posixNext, List.getElem?_eq_none past]⟩

/-- If the first argument has options, its first one takes an argument. -/
def FirstPasses (o : List UInt8) (args : List (List UInt8)) : Prop :=
  1 < args.length → IsOptionElement (args.getD 1 []) →
    posixKind o ((args.getD 1 []).getD 1 0) = .takesArg

instance (o : List UInt8) (args : List (List UInt8)) : Decidable (FirstPasses o args) :=
  inferInstanceAs (Decidable (_ → _))

/-- If the option string has a colon behind a character, the arguments have no option `:`. -/
def NoColonOption (o : List UInt8) (events : List OptionEvent) : Prop :=
  optColon ∈ optionChars o → ∀ e ∈ events, e.optopt ≠ some optColon

/-- The calls show what POSIX's calls show, and leave the same index. -/
def Shows (g : GetoptCall) (n : ℕ) (s : GetoptState) (events : List OptionEvent) (last : ℕ) : Prop :=
  ∃ seen, callSeq (getoptNext g) n s = some (seen, last) ∧ List.Forall₂ (OptionEvent.Shown g) events seen

/-- The bridge goes through the places as POSIX does: past the first argument, or at its start if its
first option takes the scan past it. -/
def Going (g : GetoptCall) (args : List (List UInt8)) (place : ScanPlace) (s : GetoptState) : Prop :=
  2 ≤ s.optind ∧ s.At args place ∨
    s.optind = 1 ∧ place = .before 1 ∧ FirstPasses g.optstring args

theorem Going.step (holds : g.Holds args) {s : GetoptState} (going : Going g args place s) :
    StepAgrees g args place s := by
  rcases going with ⟨two, here⟩ | ⟨one, rfl, -⟩
  · exact getopt_step holds two here
  · have init : getoptInit s = { s with optind := 1, nextchar := 0 } := if_pos one.le
    have step := step_before holds (s := s) (by rw [init])
    rwa [init] at step

/-- The events of a colon and of another character differ in their `optopt`. -/
theorem optopt_posixOption (o : List UInt8) (args : List (List UInt8)) (i k : ℕ) (c : UInt8) :
    (posixOption o args (args.getD i []) i k c).1.optopt = some optColon ↔ c = optColon := by
  by_cases eq : c = optColon
  · simp [posixOption, posixKind, eq]
  · unfold posixOption
    split
    · simp [eq]
    · simp [eq]
    · split_ifs <;> simp [eq]

theorem value_posixOption_colon (o : List UInt8) (args : List (List UInt8)) (a : List UInt8) (i k : ℕ) {c : UInt8}
    (h : c = optColon) :
    (posixOption o args a i k c).1.value = question := by
  rw [posixOption, posixKind, if_pos h]

/-- A call that finds an option is followed by the others. -/
theorem shows_cons_iff {s : GetoptState} {r : ℤ × GetoptState} (call : yosGetopt g s = r) (nonneg : 0 ≤ r.1)
    {n last : ℕ} {e : OptionEvent} {events : List OptionEvent} :
    Shows g (n + 1) s (e :: events) last ↔
      e.Shown g ⟨r.1, r.2.optarg, r.2.optopt⟩ ∧ Shows g n r.2 events last := by
  have next : getoptNext g s = .inr (⟨r.1, r.2.optarg, r.2.optopt⟩, r.2) := by
    rw [getoptNext, call, if_neg (by omega)]
  unfold Shows
  rw [callSeq, next]
  simp only [Option.map_eq_some_iff]
  constructor
  · rintro ⟨seen, ⟨⟨rest, last'⟩, run, eq⟩, shown⟩
    obtain ⟨rfl, rfl⟩ := Prod.mk.inj eq
    obtain ⟨first, others⟩ := List.forall₂_cons.1 shown
    exact ⟨first, rest, run, others⟩
  · rintro ⟨first, rest, run, others⟩
    exact ⟨_, ⟨(rest, last), run, rfl⟩, .cons first others⟩

theorem getoptOption_colon (valid : PosixOptstring g.optstring) (mem : optColon ∈ optionChars g.optstring)
    (t : GetoptState) (arg : ℕ) :
    getoptOption g t arg optColon = ((optColon.toNat : ℤ), { t with nextchar := t.nextchar + 1 }) := by
  have kind := kindIn_colon valid
  rw [if_pos mem] at kind
  simp only [getoptOption, kind]

/-- Once it is going, the bridge shows what POSIX shows, unless it meets an option `:`. -/
theorem shows_iff (holds : g.Holds args) (valid : PosixOptstring g.optstring) {n : ℕ}
    {s : GetoptState} {events : List OptionEvent} {last : ℕ} (going : Going g args place s)
    (run : callSeq (posixNext g.optstring args) n place = some (events, last)) :
    Shows g n s events last ↔ NoColonOption g.optstring events := by
  induction n generalizing place s events with
  | zero => simp [callSeq] at run
  | succ n ih =>
    rcases going.step holds with ⟨last', ends, minus, ind⟩ |
        ⟨i, k, le, reads, lt, pos, within, next, t, ti, tk, call⟩
    · rw [callSeq, ends] at run
      obtain ⟨rfl, rfl⟩ := Prod.mk.inj (Option.some.inj run)
      refine iff_of_true ⟨[], ?_, .nil⟩ fun _ e mem => absurd mem List.not_mem_nil
      rw [callSeq, getoptNext, if_pos minus, ind]
    · have optopt := optopt_posixOption g.optstring args i k ((args.getD i []).getD k 0)
      have read : 2 ≤ s.optind ∨ i = 1 ∧ posixKind g.optstring ((args.getD i []).getD k 0) = .takesArg := by
        rcases going with ⟨two, -⟩ | ⟨-, rfl, first⟩
        · exact Or.inl two
        · obtain ⟨rfl, rfl, opt⟩ := reads
          exact Or.inr ⟨rfl, first lt opt⟩
      generalize (args.getD i []).getD k 0 = c at call optopt next read
      have colon_event := fun h : c = optColon => value_posixOption_colon g.optstring args (args.getD i []) i k h
      have shown := fun same => getoptOption_shown holds lt within ti tk c same
      simp only at shown
      rcases posix : posixOption g.optstring args (args.getD i []) i k c with ⟨e, place'⟩
      rw [posix] at optopt next colon_event shown
      rw [callSeq, next] at run
      obtain ⟨⟨rest, last'⟩, run', eq⟩ := Option.map_eq_some_iff.1 run
      obtain ⟨rfl, rfl⟩ := Prod.mk.inj eq
      by_cases bad : c = optColon ∧ optColon ∈ optionChars g.optstring
      · -- the bridge returns the colon itself
        obtain ⟨rfl, mem⟩ := bad
        have value := getoptOption_colon valid mem t (argvStrOff g i)
        refine iff_of_false (fun shows => ?_) fun none => none mem _ List.mem_cons_self (optopt.2 rfl)
        have seen := ((shows_cons_iff call (by rw [value]; exact Int.natCast_nonneg _)).1 shows).1.value
        have differs : (optColon.toNat : ℤ) = question.toNat := by rwa [value, colon_event rfl] at seen
        exact absurd differs (by decide)
      · have same : kindIn (searched g.optstring) c = posixKind g.optstring c := by
          by_cases is_colon : c = optColon
          · have out : optColon ∉ optionChars g.optstring := fun mem => bad ⟨is_colon, mem⟩
            rw [is_colon, kindIn_colon valid, if_neg out, posixKind, if_pos rfl]
          · exact kindIn_searched valid is_colon
        obtain ⟨nonneg, shown, far, at_place, passes⟩ := shown same
        have two : 2 ≤ (getoptOption g t (argvStrOff g i) c).2.optind := by
          rcases read with two | ⟨one, takes⟩
          · omega
          · have past := passes takes
            omega
        rw [shows_cons_iff call nonneg, ih (Or.inl ⟨two, at_place⟩) run', and_iff_right shown]
        refine ⟨fun none mem e' mem_e => ?_, fun none mem e' mem_e => none mem e' (List.mem_cons_of_mem _ mem_e)⟩
        rcases List.mem_cons.1 mem_e with rfl | later
        · exact fun h => bad ⟨optopt.1 h, mem⟩
        · exact none mem e' later

/-- An option without an argument in front of the first argument leaves `optind` at 1. -/
theorem stuck (holds : g.Holds args) (valid : PosixOptstring g.optstring)
    (fails : ¬ FirstPasses g.optstring args) {s : GetoptState} (one : s.optind = 1) :
    0 ≤ (yosGetopt g s).1 ∧ (yosGetopt g s).2.optind = 1 := by
  obtain ⟨lt, opt, kind⟩ : 1 < args.length ∧ IsOptionElement (args.getD 1 []) ∧
      posixKind g.optstring ((args.getD 1 []).getD 1 0) ≠ .takesArg := by
    simpa [FirstPasses] using fails
  have init : getoptInit s = { s with optind := 1, nextchar := 0 } := if_pos one.le
  have step := step_before holds (s := s) (by rw [init])
  rw [init] at step
  rcases step with ⟨last, ends, -⟩ | ⟨i, k, -, ⟨rfl, rfl, -⟩, -, -, -, -, t, ti, -, call⟩
  · have elem : args[1]? = some (args.getD 1 []) := by
      rw [List.getD_eq_getElem _ _ lt, List.getElem?_eq_getElem lt]
    rw [posixNext, elem] at ends
    simp only [if_neg opt.2.2, if_pos opt] at ends
    exact absurd ends (by simp)
  · have code : kindIn (searched g.optstring) ((args.getD 1 []).getD 1 0) ≠ .takesArg := by
      by_cases is_colon : (args.getD 1 []).getD 1 0 = optColon
      · rw [is_colon, kindIn_colon valid]
        split_ifs <;> simp
      · rwa [kindIn_searched valid is_colon]
    rw [call]
    unfold getoptOption
    split
    · exact ⟨Int.natCast_nonneg _, ti⟩
    · exact ⟨Int.natCast_nonneg _, ti⟩
    · exact absurd ‹_› code

theorem stuck_for_ever (holds : g.Holds args) (valid : PosixOptstring g.optstring)
    (fails : ¬ FirstPasses g.optstring args) (n : ℕ) {s : GetoptState} (one : s.optind = 1) :
    callSeq (getoptNext g) n s = none := by
  induction n generalizing s with
  | zero => rfl
  | succ n ih =>
    obtain ⟨nonneg, still⟩ := stuck holds valid fails one
    rw [callSeq, getoptNext, if_neg (by omega)]
    simp only [ih still, Option.map_none]

theorem callSeq_unique {σ ε : Type} {next : σ → ℕ ⊕ ε × σ} {n n' : ℕ} {s : σ} {r r' : List ε × ℕ}
    (run : callSeq next n s = some r) (run' : callSeq next n' s = some r') : r = r' := by
  induction n generalizing n' s r r' with
  | zero => simp [callSeq] at run
  | succ n ih =>
    cases n' with
    | zero => simp [callSeq] at run'
    | succ n' =>
      rw [callSeq] at run run'
      cases step : next s with
      | inl last =>
        rw [step] at run run'
        exact (Option.some.inj run).symm.trans (Option.some.inj run')
      | inr p =>
        rw [step] at run run'
        obtain ⟨q, rest, rfl⟩ := Option.map_eq_some_iff.1 run
        obtain ⟨q', rest', rfl⟩ := Option.map_eq_some_iff.1 run'
        rw [ih rest rest']

end Runs

/-- The calls are POSIX's exactly if the first argument has no option without an argument in front,
and the arguments have no option `:`, or the option string no colon behind a character. -/
theorem getopt_met_iff {g : GetoptCall} {args : List (List UInt8)} (holds : g.Holds args) :
    GetoptMet g args ↔ (PosixOptstring g.optstring → FirstPasses g.optstring args ∧
      ∀ n events last, callSeq (posixNext g.optstring args) n (.before 1) = some (events, last) →
        NoColonOption g.optstring events) := by
  refine forall_congr' fun valid => ⟨fun met => ?_, fun ⟨first, clean⟩ s one => ?_⟩
  · obtain ⟨n, events, seen, last, posix, code, shown⟩ := met ⟨1, 0, 0, 0⟩ rfl
    have first : FirstPasses g.optstring args := by
      by_contra fails
      rw [stuck_for_ever holds valid fails n rfl] at code
      exact absurd code (by simp)
    refine ⟨first, fun n' events' last' run => ?_⟩
    obtain ⟨rfl, -⟩ := Prod.mk.inj (callSeq_unique posix run)
    exact (shows_iff holds valid (Or.inr ⟨rfl, rfl, first⟩) posix).1 ⟨seen, code, shown⟩
  · obtain ⟨n, ⟨events, last⟩, posix⟩ := posix_ends g.optstring args (.before 1) trivial
    obtain ⟨seen, code, shown⟩ :=
      (shows_iff holds valid (Or.inr ⟨one, rfl, first⟩) posix).2 (clean n events last posix)
    exact ⟨n, events, seen, last, posix, code, shown⟩


/-- A call with the strings from 64 on, 16 bytes apart, the argument vector at 16 and the option string
at 48. -/
def getoptWith (args : List (List UInt8)) (o : List UInt8) : GetoptCall where
  memory := fun a =>
    if 64 ≤ a then (args.getD ((a - 64) / 16) []).getD ((a - 64) % 16) 0
    else if 48 ≤ a then o.getD (a - 48) 0
    else if 16 ≤ a ∧ (a - 16) % 4 = 0 then UInt8.ofNat (64 + (a - 16) / 4 * 16)
    else 0
  memSize := 65536
  argc := args.length
  argvOff := 16
  optstringOff := 48

/-- `prog -o x y` -/
def progWithArg : List (List UInt8) := [[112, 114, 111, 103], [45, 111], [120], [121]]

theorem progWithArg_holds : (getoptWith progWithArg [111, 58]).Holds progWithArg where
  argc := rfl
  argv := by decide
  room := by decide
  inside := by decide +kernel
  chars := by decide +kernel
  solid := by decide +kernel

theorem getopt_met_progWithArg : GetoptMet (getoptWith progWithArg [111, 58]) progWithArg := by
  refine (getopt_met_iff progWithArg_holds).2 fun _ => ⟨by decide +kernel, fun n events last run => ?_⟩
  have posix : callSeq (posixNext (getoptWith progWithArg [111, 58]).optstring progWithArg) 2 (.before 1) =
      some ([⟨111, some (2, 0), none⟩], 3) := by decide +kernel
  obtain ⟨rfl, -⟩ := Prod.mk.inj (callSeq_unique posix run)
  exact fun _ => by decide

/-- `prog -a` -/
def progWithFlag : List (List UInt8) := [[112, 114, 111, 103], [45, 97]]

/-- The option string `a` and the arguments `prog -a`: the calls do not end. -/
theorem getopt_repeats_flag :
    (getoptWith progWithFlag [97]).Holds progWithFlag ∧
      ¬ GetoptMet (getoptWith progWithFlag [97]) progWithFlag := by
  have holds : (getoptWith progWithFlag [97]).Holds progWithFlag :=
    ⟨rfl, by decide, by decide, by decide +kernel, by decide +kernel, by decide +kernel⟩
  have text : (getoptWith progWithFlag [97]).optstring = [97] := by decide +kernel
  have valid : PosixOptstring (getoptWith progWithFlag [97]).optstring := by
    rw [text]
    refine ⟨fun rest h => ?_, fun l r h => ?_, by decide, by decide⟩
    · exact absurd (congrArg List.head? h) (by simp [optionChars, optColon])
    · have few := congrArg List.length h
      simp [optionChars, optColon] at few
      omega
  refine ⟨holds, fun met => ?_⟩
  obtain ⟨n, events, seen, last, -, code, -⟩ := met valid ⟨1, 0, 0, 0⟩ rfl
  rw [stuck_for_ever holds valid (by rw [text]; decide) n rfl] at code
  exact absurd code (by simp)

end Yos
