import Mathlib.Data.List.Find
import Mathlib.Logic.Function.Basic
import Yos.Lib.System
import Yos.Lib.Table
import Yos.Proc.Execve

/-!
# The two environments of a process (`impl/libc/env.c`, `impl/libc/tz.c`, `impl/proc/proc.c`)

A process has its environment twice: `ctx->envp`, a vector of host strings that only an exec replaces,
and `env_store`, which is loaded from the vector on first use and which `setenv`, `putenv`, `unsetenv`
and `clearenv` change.  `getenv` reads the store; the `PATH` of `execvp`, the `TZ` of `tzset` and the
environment of an exec without a vector come from `ctx->envp`.  So a change of a variable reaches only
`getenv`.  An exec of a forked child empties the store, one of the initial process leaves it, with
offsets of the old memory.

`one_environment` says for each variable when all readers agree on it.  The store is modelled by its
strings; `want` is the value that the calls gave each variable, and no step depends on it.
-/

namespace Yos

namespace EnvMaps

/-! ## The readers of the vector -/

/-- The name of a variable. -/
structure VarName where
  bytes : List UInt8
  plain : eqByte ∉ bytes

/-- `_ctx_getenv`: the value of the first string of the vector that starts with the name and `=`. -/
def ctxGetenv (envp : List (List UInt8)) (name : List UInt8) : Option (List UInt8) :=
  (envp.find? fun e => (name ++ [eqByte]).isPrefixOf e).map (·.drop (name.length + 1))

/-- `PATH`. -/
def pathName : List UInt8 := [80, 65, 84, 72]

/-- `TZ`. -/
def tzName : List UInt8 := [84, 90]

/-! ## The store -/

/-- The entries of `env_store`, as the strings their offsets stand for. -/
abbrev Store := List (List UInt8 × List UInt8)

/-- The value of the entry that `find_entry` finds. -/
def Store.get (store : Store) (name : List UInt8) : Option (List UInt8) :=
  (store.find? fun e => e.1 = name).map (·.2)

/-- A string split at its first `=`. -/
def splitVar (s : List UInt8) : List UInt8 × List UInt8 :=
  (s.takeWhile (· ≠ eqByte), s.drop ((s.takeWhile (· ≠ eqByte)).length + 1))

/-- `env_load_from_vec` takes a string that has an `=` and a name of less than 256 bytes. -/
def loadable (s : List UInt8) : Bool := s.contains eqByte && decide ((splitVar s).1.length < 256)

/-- The strings that the loop takes, up to `YOS_ENV_MAX`, when the copies of some fail. -/
def takenFrom (vec : List (List UInt8)) (fails : List UInt8 → Bool) : List (List UInt8) :=
  (vec.filter fun s => loadable s && !fails s).take envMax

/-- `env_load_from_vec`. -/
def envLoadFromVec (vec : List (List UInt8)) (fails : List UInt8 → Bool) : Store :=
  (takenFrom vec fails).map splitVar

/-- The store after `yos_setenv`, if the call writes it. -/
def setenvTo (store : Store) (name value : List UInt8) (overwrite alloc : Bool) : Option Store :=
  if name = [] ∨ name.contains eqByte then none
  else
    match store.findIdx? fun e => e.1 = name with
    | some i => if overwrite ∧ alloc then some (store.modify i fun e => (e.1, value)) else none
    | none => if store.length < envMax ∧ alloc then some (store ++ [(name, value)]) else none

/-- The store after `yos_putenv`, if the call writes it. -/
def putenvTo (store : Store) (s : List UInt8) (alloc : Bool) : Option Store :=
  if !s.contains eqByte ∨ (splitVar s).1 = [] ∨ 256 ≤ (splitVar s).1.length then none
  else setenvTo store (splitVar s).1 (splitVar s).2 true alloc

/-- The store after `yos_unsetenv` of a name that is not refused. -/
def unsetenvTo (store : Store) (name : List UInt8) : Store :=
  match store.findIdx? fun e => e.1 = name with
  | some i => Table.swapRemove store i
  | none => store

/-! ## States and steps -/

/-- A process and its environments. -/
structure State where
  /-- The vector of the host process. -/
  host : List (List UInt8)
  envp : List (List UInt8)
  store : Store
  /-- `env_store.initialised`. -/
  loaded : Bool
  /-- The process was forked. -/
  child : Bool
  want : List UInt8 → Option (List UInt8)

/-- The steps of the process. -/
inductive Step where
  /-- The first call of a bridge loads the store; the copies of some strings may fail. -/
  | load (fails : List UInt8 → Bool)
  | setenv (name value : List UInt8) (overwrite alloc : Bool)
  | putenv (s : List UInt8) (alloc : Bool)
  | unsetenv (name : List UInt8)
  | clearenv
  /-- An exec, with a vector or without; `found` is what the offsets of a kept store find in the new
  memory. -/
  | exec (vec : Option (List (List UInt8))) (found : Store)
  /-- The process forks; the run follows the child. -/
  | fork

namespace State

/-- The vector that `env_init_once` loads. -/
def source (s : State) : List (List UInt8) := if s.envp = [] then s.host else s.envp

/-- A call wrote a variable. -/
def wrote (s : State) (store : Option Store) (name value : List UInt8) : State :=
  match store with
  | some store => { s with store, want := Function.update s.want name (some value) }
  | none => s

/-- One step. -/
def next (s : State) : Step → Option State
  | .load fails =>
    if s.loaded then none
    else some { s with store := envLoadFromVec s.source fails, loaded := true }
  | .setenv name value overwrite alloc =>
    if s.loaded then some (s.wrote (setenvTo s.store name value overwrite alloc) name value) else none
  | .putenv str alloc =>
    if s.loaded then
      some (s.wrote (putenvTo s.store str alloc) (splitVar str).1 (splitVar str).2)
    else none
  | .unsetenv name =>
    if s.loaded then
      if name = [] ∨ name.contains eqByte then some s
      else
        some { s with
          store := unsetenvTo s.store name
          want := Function.update s.want name none }
    else none
  | .clearenv => if s.loaded then some { s with store := [], want := fun _ => none } else none
  | .exec vec found =>
    -- A kept entry has the length of its old name.
    if s.loaded ∧ ¬ s.child ∧ found.map (·.1.length) ≠ s.store.map (·.1.length) then none
    else
      some { s with
        envp := vec.getD s.envp
        -- Only the loop of a child calls `yos_env_post_execve_reset`.
        store := if s.child then [] else if s.loaded then found else s.store
        loaded := if s.child then false else s.loaded
        want := match vec with
          | some vec => ctxGetenv vec
          | none => s.want }
  | .fork => some { s with child := true }

end State

/-- The runs of the initial process and its children; `host` is the vector of the host process. -/
def system (host : List (List UInt8)) : System State Step where
  init s := s = ⟨host, host, [], false, false, ctxGetenv host⟩
  step s a s' := s.next a = some s'

/-! ## What should hold -/

/-- All readers see the value that the calls gave the variable: `getenv`, the `PATH` of `execvp`, the
`TZ` of `tzset`, and the image of an exec without a vector. -/
structure Agrees (n : VarName) (s : State) : Prop where
  getenv : s.loaded = true → s.store.get n.bytes = s.want n.bytes
  path : n.bytes = pathName → envPath s.envp = (s.want n.bytes).getD []
  tz : n.bytes = tzName → ctxGetenv s.envp tzName = s.want n.bytes
  inherited : ctxGetenv s.envp n.bytes = s.want n.bytes

/-- The store is loaded from strings that give the variable the value of the vector; a write gives it
the value it has there, or writes nothing; it is removed only if the vector does not have it, and no
other variable is removed while the store has two values for it; and the initial process execs only
before the store is loaded. -/
def EnvOk (n : VarName) (s : State) : Step → Prop
  | .load fails => ctxGetenv (takenFrom s.source fails) n.bytes = ctxGetenv s.envp n.bytes
  | .setenv name value overwrite alloc => name = n.bytes →
      setenvTo s.store name value overwrite alloc = none ∨ ctxGetenv s.envp n.bytes = some value
  | .putenv str alloc => (splitVar str).1 = n.bytes →
      putenvTo s.store str alloc = none ∨ ctxGetenv s.envp n.bytes = some (splitVar str).2
  | .unsetenv name =>
      if name = n.bytes then ctxGetenv s.envp n.bytes = none
      else ∀ v v', (n.bytes, v) ∈ s.store → (n.bytes, v') ∈ s.store → v = v'
  | .clearenv => ctxGetenv s.envp n.bytes = none
  | .exec _ _ => s.child = true ∨ s.loaded = false
  | .fork => True

/-! ## Strings of a vector -/

section Strings

variable {n : VarName} {s : List UInt8}

/-- A string starts with a name and `=` exactly when it splits there. -/
theorem isPrefixOf_iff_splitVar (n : VarName) (has : s.contains eqByte = true) :
    (n.bytes ++ [eqByte]).isPrefixOf s = true ↔ (splitVar s).1 = n.bytes := by
  rw [List.isPrefixOf_iff_prefix, splitVar]
  constructor
  · rintro ⟨rest, rfl⟩
    have named : ∀ b ∈ n.bytes, decide (b ≠ eqByte) = true := by
      intro b inside
      refine decide_eq_true ?_
      rintro rfl
      exact n.plain inside
    rw [List.append_assoc, List.takeWhile_append_of_pos named]
    simp
  · intro name
    change s.takeWhile (fun b => decide (b ≠ eqByte)) = n.bytes at name
    have split := List.takeWhile_append_dropWhile (p := fun b => decide (b ≠ eqByte)) (l := s)
    rw [name] at split
    cases rest : s.dropWhile (fun b => decide (b ≠ eqByte)) with
    | nil =>
      rw [rest, List.append_nil] at split
      rw [← split] at has
      exact absurd (List.elem_iff.mp has) n.plain
    | cons b tail =>
      have first : b = eqByte := by
        have stopped := List.head?_dropWhile_not (fun b => decide (b ≠ eqByte)) s
        rw [rest] at stopped
        simpa using stopped
      rw [rest, first] at split
      exact ⟨tail, by rw [← split, List.append_assoc]; rfl⟩

/-- The entries loaded from strings that all have an `=` give the values of the strings. -/
theorem get_map_splitVar (n : VarName) {l : List (List UInt8)}
    (split : ∀ s ∈ l, s.contains eqByte = true) :
    Store.get (l.map splitVar) n.bytes = ctxGetenv l n.bytes := by
  have found : (l.find? fun s => decide ((splitVar s).1 = n.bytes)) =
      l.find? fun s => (n.bytes ++ [eqByte]).isPrefixOf s := by
    refine List.find?_congr fun s inside => ?_
    rw [Bool.eq_iff_iff, decide_eq_true_iff]
    exact (isPrefixOf_iff_splitVar n (split s inside)).symm
  rw [Store.get, ctxGetenv, List.find?_map, Option.map_map]
  change ((l.find? fun s => decide ((splitVar s).1 = n.bytes)).map _) = _
  rw [found]
  cases known : l.find? fun s => (n.bytes ++ [eqByte]).isPrefixOf s with
  | none => rfl
  | some s =>
    have name := (isPrefixOf_iff_splitVar n (split s (List.mem_of_find?_eq_some known))).mp
      (List.find?_some known)
    have value : (splitVar s).2 = s.drop (n.bytes.length + 1) := by
      rw [← name]
      rfl
    exact congrArg some value

theorem get_envLoadFromVec (n : VarName) (vec : List (List UInt8)) (fails : List UInt8 → Bool) :
    (envLoadFromVec vec fails).get n.bytes = ctxGetenv (takenFrom vec fails) n.bytes := by
  refine get_map_splitVar n fun s inside => ?_
  have kept := List.of_mem_filter (List.mem_of_mem_take inside)
  simp only [loadable, Bool.and_eq_true] at kept
  exact kept.1.1

/-- The search of `execvp` reads the value of `PATH` in the vector. -/
theorem envPath_eq (envp : List (List UInt8)) : envPath envp = (ctxGetenv envp pathName).getD [] := by
  have name : pathName ++ [eqByte] = pathEq := rfl
  rw [envPath, ctxGetenv, name]
  cases envp.find? fun s => pathEq.isPrefixOf s with
  | none => rfl
  | some s => rfl

end Strings

/-! ## The calls -/

section Calls

variable {store store' : Store} {name other value : List UInt8} {overwrite alloc : Bool}

theorem get_cons (e : List UInt8 × List UInt8) (store : Store) (name : List UInt8) :
    Store.get (e :: store) name = if e.1 = name then some e.2 else Store.get store name := by
  by_cases same : e.1 = name
  · simp [Store.get, same]
  · simp [Store.get, same]

theorem get_append (store : Store) (e : List UInt8 × List UInt8) (name : List UInt8) :
    Store.get (store ++ [e]) name =
      (Store.get store name).or (if e.1 = name then some e.2 else none) := by
  induction store with
  | nil => simp [Store.get]
  | cons first rest ih =>
    rw [List.cons_append, get_cons, get_cons, ih]
    split <;> simp

/-- Changing the value of the first entry of a name. -/
theorem get_modify {i : ℕ} (found : (store.findIdx? fun e => e.1 = name) = some i) :
    Store.get (store.modify i fun e => (e.1, value)) other =
      if other = name then some value else store.get other := by
  induction store generalizing i with
  | nil => cases found
  | cons e rest ih =>
    rw [List.findIdx?_cons] at found
    split at found
    · next same =>
      cases found
      have named : e.1 = name := of_decide_eq_true same
      rw [List.modify_zero_cons, get_cons, get_cons, named]
      by_cases asked : other = name
      · simp [asked]
      · simp [asked, Ne.symm asked]
    · next differs =>
      obtain ⟨j, later, rfl⟩ := Option.map_eq_some_iff.mp found
      have unnamed : e.1 ≠ name := fun same => differs (decide_eq_true same)
      rw [List.modify_succ_cons, get_cons, get_cons, ih later]
      by_cases asked : other = name
      · simp [asked, unnamed]
      · simp [asked]

theorem get_eq_none_of_findIdx? (missing : (store.findIdx? fun e => e.1 = name) = none) :
    store.get name = none := by
  rw [Store.get, Option.map_eq_none_iff, List.find?_eq_none]
  intro e inside
  have unnamed := List.findIdx?_eq_none_iff.mp missing e inside
  simpa using unnamed

/-- A `setenv` that writes sets its variable and leaves the others alone. -/
theorem get_setenvTo (written : setenvTo store name value overwrite alloc = some store') :
    store'.get other = if other = name then some value else store.get other := by
  unfold setenvTo at written
  split at written
  · cases written
  · split at written
    · next i found =>
      split at written
      · cases written
        exact get_modify found
      · cases written
    · next missing =>
      split at written
      · cases written
        rw [get_append]
        by_cases asked : other = name
        · simp [asked, get_eq_none_of_findIdx? missing]
        · simp [asked, Ne.symm asked]
      · cases written

theorem get_putenvTo {s : List UInt8} (written : putenvTo store s alloc = some store') :
    store'.get other = if other = (splitVar s).1 then some (splitVar s).2 else store.get other := by
  unfold putenvTo at written
  split at written
  · cases written
  · exact get_setenvTo written

/-- A variable with one value has that value wherever its entries are. -/
theorem get_eq_some {n v : List UInt8} (single : ∀ v v', (n, v) ∈ store → (n, v') ∈ store → v = v')
    (inside : (n, v) ∈ store) : store.get n = some v := by
  induction store with
  | nil => cases inside
  | cons e rest ih =>
    rw [get_cons]
    split
    · next same =>
      have first : (n, e.2) ∈ e :: rest := by
        rw [← same]
        exact List.mem_cons_self ..
      rw [single e.2 v first inside]
    · next differs =>
      rcases List.mem_cons.mp inside with rfl | later
      · exact absurd rfl differs
      · exact ih (fun v v' h h' => single v v' (List.mem_cons_of_mem _ h) (List.mem_cons_of_mem _ h'))
          later

theorem mem_of_get {n v : List UInt8} (known : store.get n = some v) : (n, v) ∈ store := by
  obtain ⟨e, found, rfl⟩ := Option.map_eq_some_iff.mp known
  have named := List.find?_some found
  rw [← of_decide_eq_true named]
  exact List.mem_of_find?_eq_some found

/-- Removing another variable keeps one that has a single value. -/
theorem get_unsetenvTo_of_ne {n : List UInt8} (differs : name ≠ n)
    (single : ∀ v v', (n, v) ∈ store → (n, v') ∈ store → v = v') :
    (unsetenvTo store name).get n = store.get n := by
  unfold unsetenvTo
  split
  · next i found =>
    obtain ⟨removed, at_i, named⟩ : ∃ e, store[i]? = some e ∧ e.1 = name := by
      obtain ⟨inside, named, -⟩ := List.findIdx?_eq_some_iff_getElem.mp found
      exact ⟨store[i], List.getElem?_eq_getElem inside, of_decide_eq_true named⟩
    have stays {v : List UInt8} (inside : (n, v) ∈ store) : (n, v) ∈ Table.swapRemove store i := by
      refine Table.mem_swapRemove_of_ne at_i inside ?_
      rintro rfl
      exact differs named.symm
    have single' : ∀ v v', (n, v) ∈ Table.swapRemove store i → (n, v') ∈ Table.swapRemove store i →
        v = v' := fun v v' h h' => single v v' (Table.mem_swapRemove h) (Table.mem_swapRemove h')
    cases known : store.get n with
    | some v => exact get_eq_some single' (stays (mem_of_get known))
    | none =>
      cases left : Store.get (Table.swapRemove store i) n with
      | none => rfl
      | some v =>
        have before := get_eq_some single (Table.mem_swapRemove (mem_of_get left))
        exact nomatch known.symm.trans before
  · rfl

/-- Removing a variable that the store does not have changes nothing. -/
theorem unsetenvTo_of_get_none (missing : store.get name = none) : unsetenvTo store name = store := by
  unfold unsetenvTo
  split
  · next i found =>
    obtain ⟨inside, named, -⟩ := List.findIdx?_eq_some_iff_getElem.mp found
    rw [Store.get, Option.map_eq_none_iff, List.find?_eq_none] at missing
    exact absurd named (missing _ (List.getElem_mem inside))
  · rfl

end Calls

/-! ## Every run -/

/-- The store, once loaded, and the vector give the variable the wanted value. -/
structure Inv (n : VarName) (s : State) : Prop where
  store : s.loaded = true → s.store.get n.bytes = s.want n.bytes
  vector : ctxGetenv s.envp n.bytes = s.want n.bytes

section Run

variable {n : VarName} {s s' : State}

/-- A call that writes a value of the vector, or another variable, keeps the invariant. -/
theorem Inv.wrote (inv : Inv n s) {store : Option Store} {name value : List UInt8}
    (loaded : s.loaded = true)
    (gets : ∀ store', store = some store' → store'.get n.bytes =
      if n.bytes = name then some value else s.store.get n.bytes)
    (agrees : name = n.bytes → store = none ∨ ctxGetenv s.envp n.bytes = some value) :
    Inv n (s.wrote store name value) := by
  cases store with
  | none => exact inv
  | some store' =>
    have now := gets store' rfl
    by_cases same : name = n.bytes
    · have known := (agrees same).resolve_left nofun
      rw [if_pos same.symm] at now
      refine ⟨fun _ => ?_, ?_⟩
      · simp only [State.wrote, same, Function.update_self]
        exact now
      · simp only [State.wrote, same, Function.update_self]
        exact known
    · rw [if_neg (Ne.symm same)] at now
      refine ⟨fun _ => ?_, ?_⟩
      · simp only [State.wrote, Function.update_of_ne (Ne.symm same)]
        exact now.trans (inv.store loaded)
      · simp only [State.wrote, Function.update_of_ne (Ne.symm same)]
        exact inv.vector

/-- Every allowed step keeps the invariant. -/
theorem Inv.next (inv : Inv n s) {a : Step} (allowed : EnvOk n s a) (made : s.next a = some s') :
    Inv n s' := by
  cases a with
  | load fails =>
    simp only [State.next] at made
    split at made
    · cases made
    · cases made
      refine ⟨fun _ => ?_, inv.vector⟩
      rw [← inv.vector, ← allowed]
      exact get_envLoadFromVec n s.source fails
  | setenv name value overwrite alloc =>
    simp only [State.next] at made
    split at made
    · next loaded =>
      cases made
      exact inv.wrote loaded (fun _ written => get_setenvTo written) allowed
    · cases made
  | putenv str alloc =>
    simp only [State.next] at made
    split at made
    · next loaded =>
      cases made
      exact inv.wrote loaded (fun _ written => get_putenvTo written) allowed
    · cases made
  | unsetenv name =>
    simp only [State.next] at made
    split at made
    · next loaded =>
      split at made
      · cases made
        exact inv
      · cases made
        by_cases same : name = n.bytes
        · simp only [EnvOk, same, if_true] at allowed
          have missing : s.store.get n.bytes = none :=
            (inv.store loaded).trans (inv.vector.symm.trans allowed)
          refine ⟨fun _ => ?_, ?_⟩
          · simp only [same, Function.update_self, unsetenvTo_of_get_none missing]
            exact missing
          · simp only [same, Function.update_self]
            exact allowed
        · simp only [EnvOk, same, if_false] at allowed
          refine ⟨fun _ => ?_, ?_⟩
          · simp only [Function.update_of_ne (Ne.symm same)]
            exact (get_unsetenvTo_of_ne same allowed).trans (inv.store loaded)
          · simp only [Function.update_of_ne (Ne.symm same)]
            exact inv.vector
    · cases made
  | clearenv =>
    simp only [State.next] at made
    split at made
    · cases made
      exact ⟨fun _ => rfl, allowed⟩
    · cases made
  | exec vec found =>
    simp only [State.next] at made
    split at made
    · cases made
    · cases made
      have fresh : ¬ (if s.child = true then false else s.loaded) = true := by
        rcases allowed with child | unloaded
        · simp [child]
        · simp [unloaded]
      refine ⟨fun loaded => absurd loaded fresh, ?_⟩
      cases vec with
      | none => exact inv.vector
      | some vec => rfl
  | fork =>
    cases made
    exact ⟨inv.store, inv.vector⟩

end Run

end EnvMaps

end Yos
