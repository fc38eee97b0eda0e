import Mathlib.Data.List.Sort
import Mathlib.Data.String.Basic
import Mathlib.Tactic.Common

/-!
# Constant remaps (`codegen/analyse.py`, `codegen/generate.py`)

`_constants_remap` collects the constants of both API descriptions whose values differ, `_split_groups`
sorts them by the prefix of their names, and `_emit_remap_function` writes for each group and direction
a C function that switches over the values; the first constant with a value gets the label.  A value
without a label is returned as it is.  `remap_iff` says for which tables the functions map every
constant of a group to its namesake.

Values are integers of any size in the tables; the C functions take and return `int`, and a label is
converted to `int`.  Two labels with one value after that are an error of the C compiler.
-/

namespace Yos.Remap

/-! ## Tables and groups -/

/-- The constants of an API description: a dictionary from names to values. -/
structure ConstTable where
  entries : List (String × ℤ)
  distinct : (entries.map Prod.fst).Nodup

/-- The value of a constant. -/
def ConstTable.value (t : ConstTable) (name : String) : Option ℤ := t.entries.lookup name

/-- The labels of the groups. -/
inductive Group where
  | errno
  | signal
  | clockid
  | openflag
  | mmapflag
  | mprotflag
  | atflag
  | sock
  | af
  | pf
  | msg
  | fcntl
  | shut
  | rlim
  | sI
  | madv
  | w
  | misc
deriving DecidableEq, Repr

/-- `PREFIX_GROUPS`. -/
def prefixGroups : List (Group × String) :=
  [(.errno, "E"), (.signal, "SIG"), (.clockid, "CLOCK_"), (.openflag, "O_"), (.mmapflag, "MAP_"),
    (.mprotflag, "PROT_"), (.atflag, "AT_"), (.sock, "SOCK_"), (.af, "AF_"), (.pf, "PF_"),
    (.msg, "MSG_"), (.fcntl, "F_"), (.shut, "SHUT_"), (.rlim, "RLIMIT_"), (.sI, "S_I"),
    (.madv, "MADV_"), (.w, "W")]

/-- The names that count for the group `w`. -/
def waitNames : List String :=
  ["WNOHANG", "WUNTRACED", "WCONTINUED", "WEXITED", "WSTOPPED", "WNOWAIT", "WIFEXITED", "WEXITSTATUS",
    "WIFSIGNALED", "WTERMSIG", "WIFSTOPPED", "WSTOPSIG", "WIFCONTINUED", "WCOREDUMP"]

/-- `_group_for`. -/
def groupFor (name : String) : Group :=
  ((prefixGroups.find? fun (group, start) =>
    name.startsWith start && (group != .w || waitNames.contains name)).map Prod.fst).getD .misc

/-- A constant with its two values. -/
structure Entry where
  name : String
  guestValue : ℤ
  hostValue : ℤ
deriving DecidableEq, Repr

/-- `_constants_remap`. -/
def constantsRemap (guest host : ConstTable) : List Entry :=
  let names := (guest.entries.map Prod.fst).filter fun name => (host.value name).isSome
  (names.insertionSort (· ≤ ·)).filterMap fun name =>
    match guest.value name, host.value name with
    | some gv, some hv => if gv = hv then none else some ⟨name, gv, hv⟩
    | _, _ => none

/-- `_split_groups`: the entries of one group. -/
def splitGroups (remap : List Entry) (group : Group) : List Entry :=
  (remap.insertionSort fun e e' => e.name ≤ e'.name).filter fun e => groupFor e.name = group

/-! ## The emitted functions -/

/-- The directions of the functions. -/
inductive Direction where
  | g2h
  | h2g
deriving DecidableEq, Repr

/-- The value the function switches over. -/
def Entry.src (e : Entry) : Direction → ℤ
  | .g2h => e.guestValue
  | .h2g => e.hostValue

/-- The value it returns. -/
def Entry.dst (e : Entry) : Direction → ℤ
  | .g2h => e.hostValue
  | .h2g => e.guestValue

/-- The lines of the body of the `switch`. -/
inductive SwitchLine where
  | label (src dst : ℤ) (cname : String)
  | collision (cname : String) (src : ℤ) (first : String)
deriving DecidableEq, Repr

/-- The loop of `_emit_remap_function`. -/
def emitLines (direction : Direction) : (seen : List (ℤ × String)) → List Entry → List SwitchLine
  | _, [] => []
  | seen, e :: es =>
    match seen.lookup (e.src direction) with
    | some first => .collision e.name (e.src direction) first :: emitLines direction seen es
    | none =>
      .label (e.src direction) (e.dst direction) e.name ::
        emitLines direction ((e.src direction, e.name) :: seen) es

/-- `_emit_remap_function`; an empty group has a `switch` without labels. -/
def emitRemapFunction (pairs : List Entry) (direction : Direction) : List SwitchLine :=
  emitLines direction [] pairs

/-- The labels with what is returned after them. -/
def labels (lines : List SwitchLine) : List (ℤ × ℤ) :=
  lines.filterMap fun
    | .label src dst _ => some (src, dst)
    | .collision .. => none

/-- The emitted C function; `none` if it does not compile. -/
def runSwitch (lines : List SwitchLine) (v : Int32) : Option Int32 :=
  if ((labels lines).map fun l => Int32.ofInt l.1).Nodup then
    some (((labels lines).find? fun l => Int32.ofInt l.1 = v).elim v fun l => Int32.ofInt l.2)
  else none

/-- `yos_remap_<group>_<direction>`. -/
def yosRemap (guest host : ConstTable) (group : Group) (direction : Direction) : Int32 → Option Int32 :=
  runSwitch (emitRemapFunction (splitGroups (constantsRemap guest host) group) direction)

/-! ## What should hold -/

/-- The constant is in both tables, with these values. -/
def Common (guest host : ConstTable) (e : Entry) : Prop :=
  guest.value e.name = some e.guestValue ∧ host.value e.name = some e.hostValue

/-- The table without the constants of other families. -/
def ConstTable.restrict (t : ConstTable) (family : String → Bool) : ConstTable where
  entries := t.entries.filter fun c => family c.1
  distinct := t.distinct.sublist (List.filter_sublist.map _)

/-- The emitted functions of the groups translate between the two tables. -/
structure RemapOk (guest host : ConstTable) : Prop where
  /-- Each constant is mapped to its namesake, in both directions. -/
  maps : ∀ direction e, Common guest host e → groupFor e.name ≠ .misc →
    yosRemap guest host (groupFor e.name) direction (Int32.ofInt (e.src direction)) =
      some (Int32.ofInt (e.dst direction))
  /-- Constants with one host value are emitted only if they have one guest value. -/
  agree : ∀ group, group ≠ .misc → ∀ e ∈ splitGroups (constantsRemap guest host) group,
    ∀ e' ∈ splitGroups (constantsRemap guest host) group,
      e.hostValue = e'.hostValue → e.guestValue = e'.guestValue
  /-- What becomes of the constants of a family does not depend on other constants. -/
  family : ∀ (family : String → Bool) direction e, Common guest host e → groupFor e.name ≠ .misc →
    family e.name →
    yosRemap (guest.restrict family) (host.restrict family) (groupFor e.name) direction
        (Int32.ofInt (e.src direction)) =
      yosRemap guest host (groupFor e.name) direction (Int32.ofInt (e.src direction))

/-- The values of two constants agree on one side exactly when they agree on the other, as values of
`int`; and if the constants are remapped, values that agree as values of `int` are the same. -/
structure Compatible (e e' : Entry) : Prop where
  same : Int32.ofInt e.hostValue = Int32.ofInt e'.hostValue ↔
    Int32.ofInt e.guestValue = Int32.ofInt e'.guestValue
  exact : e.guestValue ≠ e.hostValue → e'.guestValue ≠ e'.hostValue → ∀ direction,
    Int32.ofInt (e.src direction) = Int32.ofInt (e'.src direction) → e.src direction = e'.src direction

/-! ## The lines -/

section Lines

variable {direction : Direction} {seen : List (ℤ × String)} {pairs : List Entry} {l : ℤ × ℤ} {v : Int32}

/-- The labels are the values of the constants that are not taken yet, each once. -/
theorem labels_emitLines (direction : Direction) (seen : List (ℤ × String)) (pairs : List Entry) :
    (∀ e ∈ pairs, seen.lookup (e.src direction) = none →
      e.src direction ∈ (labels (emitLines direction seen pairs)).map Prod.fst) ∧
    (∀ l ∈ labels (emitLines direction seen pairs), seen.lookup l.1 = none ∧
      ∃ e ∈ pairs, l = (e.src direction, e.dst direction)) ∧
    ((labels (emitLines direction seen pairs)).map Prod.fst).Nodup := by
  induction pairs generalizing seen with
  | nil => exact ⟨fun e mem => (nomatch mem), fun l mem => (nomatch mem), List.nodup_nil⟩
  | cons e es ih =>
    cases taken : seen.lookup (e.src direction) with
    | some first =>
      have lines : labels (emitLines direction seen (e :: es)) = labels (emitLines direction seen es) := by
        simp only [emitLines, taken, labels, List.filterMap_cons]
      rw [lines]
      obtain ⟨all, only, once⟩ := ih seen
      refine ⟨List.forall_mem_cons.mpr ⟨fun free => ?_, all⟩, fun l mem => ?_, once⟩
      · rw [taken] at free
        cases free
      · obtain ⟨free, e', mem', eq⟩ := only l mem
        exact ⟨free, e', List.mem_cons_of_mem e mem', eq⟩
    | none =>
      have lines : labels (emitLines direction seen (e :: es)) = (e.src direction, e.dst direction) ::
          labels (emitLines direction ((e.src direction, e.name) :: seen) es) := by
        simp only [emitLines, taken, labels, List.filterMap_cons]
      rw [lines]
      obtain ⟨all, only, once⟩ := ih ((e.src direction, e.name) :: seen)
      have later (k : ℤ) : ((e.src direction, e.name) :: seen).lookup k = none ↔
          k ≠ e.src direction ∧ seen.lookup k = none := by
        rw [List.lookup_cons]
        by_cases same : k = e.src direction
        · simp only [same, beq_self_eq_true, reduceCtorEq, ne_eq, not_true, false_and]
        · simp only [beq_false_of_ne same, ne_eq, same, not_false_eq_true, true_and]
      refine ⟨List.forall_mem_cons.mpr ⟨fun _ => List.mem_cons_self, fun e' mem free => ?_⟩,
        List.forall_mem_cons.mpr ⟨⟨taken, e, List.mem_cons_self, rfl⟩, fun l mem => ?_⟩, ?_⟩
      · by_cases same : e'.src direction = e.src direction
        · rw [same]
          exact List.mem_cons_self
        · exact List.mem_cons_of_mem _ (all e' mem ((later _).mpr ⟨same, free⟩))
      · obtain ⟨free, e', mem', eq⟩ := only l mem
        exact ⟨((later l.1).mp free).2, e', List.mem_cons_of_mem e mem', eq⟩
      · refine List.nodup_cons.mpr ⟨fun again => ?_, once⟩
        obtain ⟨l, mem, same⟩ := List.mem_map.mp again
        exact ((later l.1).mp (only l mem).1).1 same

theorem src_mem_labels (direction : Direction) {e : Entry} (mem : e ∈ pairs) :
    e.src direction ∈ (labels (emitRemapFunction pairs direction)).map Prod.fst :=
  (labels_emitLines direction [] pairs).1 e mem rfl

theorem exists_of_mem_labels (mem : l ∈ labels (emitRemapFunction pairs direction)) :
    ∃ e ∈ pairs, l = (e.src direction, e.dst direction) :=
  ((labels_emitLines direction [] pairs).2.1 l mem).2

/-- The function compiles exactly when constants whose values agree as values of `int` have the same
value. -/
theorem nodup_labels_iff :
    ((labels (emitRemapFunction pairs direction)).map fun l => Int32.ofInt l.1).Nodup ↔
      ∀ e ∈ pairs, ∀ e' ∈ pairs, Int32.ofInt (e.src direction) = Int32.ofInt (e'.src direction) →
        e.src direction = e'.src direction := by
  have once := (labels_emitLines direction [] pairs).2.2
  have split : ((labels (emitRemapFunction pairs direction)).map fun l => Int32.ofInt l.1) =
      ((labels (emitRemapFunction pairs direction)).map Prod.fst).map Int32.ofInt := by
    rw [List.map_map]
    exact List.map_congr_left fun l _ => rfl
  rw [split]
  constructor
  · intro distinct e mem e' mem' same
    exact List.inj_on_of_nodup_map distinct (src_mem_labels direction mem) (src_mem_labels direction mem') same
  · intro exact
    apply once.map_on
    intro s mem s' mem' same
    obtain ⟨l, lmem, rfl⟩ := List.mem_map.mp mem
    obtain ⟨l', lmem', rfl⟩ := List.mem_map.mp mem'
    obtain ⟨e, emem, rfl⟩ := exists_of_mem_labels lmem
    obtain ⟨e', emem', rfl⟩ := exists_of_mem_labels lmem'
    exact exact e emem e' emem' same

/-- What a function that compiles returns: the value after a label with the given value, or the value
itself when there is none. -/
theorem runSwitch_cases (compiles : ∀ e ∈ pairs, ∀ e' ∈ pairs,
      Int32.ofInt (e.src direction) = Int32.ofInt (e'.src direction) → e.src direction = e'.src direction)
    (v : Int32) :
    (∃ e ∈ pairs, Int32.ofInt (e.src direction) = v ∧
      runSwitch (emitRemapFunction pairs direction) v = some (Int32.ofInt (e.dst direction))) ∨
    ((∀ e ∈ pairs, Int32.ofInt (e.src direction) ≠ v) ∧
      runSwitch (emitRemapFunction pairs direction) v = some v) := by
  rw [runSwitch, if_pos (nodup_labels_iff.mpr compiles)]
  cases found : (labels (emitRemapFunction pairs direction)).find? fun l => Int32.ofInt l.1 = v with
  | some l =>
    have here := List.find?_some found
    obtain ⟨e, mem, rfl⟩ := exists_of_mem_labels (List.mem_of_find?_eq_some found)
    exact .inl ⟨e, mem, of_decide_eq_true here, rfl⟩
  | none =>
    refine .inr ⟨fun e mem same => ?_, rfl⟩
    obtain ⟨l, lmem, eq⟩ := List.mem_map.mp (src_mem_labels direction mem)
    have other := List.find?_eq_none.mp found l lmem
    exact other (decide_eq_true (eq ▸ same))

/-- The first constant with a value has a label. -/
theorem label_of_first {before after : List Entry} {e : Entry} (free : seen.lookup (e.src direction) = none)
    (first : ∀ e' ∈ before, e'.src direction ≠ e.src direction) :
    (e.src direction, e.dst direction) ∈ labels (emitLines direction seen (before ++ e :: after)) := by
  induction before generalizing seen with
  | nil =>
    rw [List.nil_append, emitLines, free]
    exact List.mem_cons_self
  | cons a as ih =>
    obtain ⟨other, others⟩ := List.forall_mem_cons.mp first
    rw [List.cons_append, emitLines]
    cases taken : seen.lookup (a.src direction) with
    | some claim => exact ih free others
    | none =>
      refine List.mem_cons_of_mem _ (ih ?_ others)
      rw [List.lookup_cons, beq_false_of_ne other.symm]
      exact free

/-- A function that compiles returns what stands after the label. -/
theorem runSwitch_of_mem_labels
    (compiles : ((labels (emitRemapFunction pairs direction)).map fun l => Int32.ofInt l.1).Nodup)
    (mem : l ∈ labels (emitRemapFunction pairs direction)) :
    runSwitch (emitRemapFunction pairs direction) (Int32.ofInt l.1) = some (Int32.ofInt l.2) := by
  rw [runSwitch, if_pos compiles]
  cases found : (labels (emitRemapFunction pairs direction)).find? fun k =>
      Int32.ofInt k.1 = Int32.ofInt l.1 with
  | none => exact absurd (decide_eq_true rfl) (List.find?_eq_none.mp found l mem)
  | some k =>
    have here := List.find?_some found
    have same : Int32.ofInt k.1 = Int32.ofInt l.1 := of_decide_eq_true here
    rw [List.inj_on_of_nodup_map compiles (List.mem_of_find?_eq_some found) mem same]
    rfl

end Lines

/-! ## The entries of a group -/

section Tables

variable {guest host : ConstTable} {group : Group} {e : Entry}

theorem mem_constantsRemap :
    e ∈ constantsRemap guest host ↔ Common guest host e ∧ e.guestValue ≠ e.hostValue := by
  rw [constantsRemap]
  simp only [List.mem_filterMap, List.mem_insertionSort, List.mem_filter]
  constructor
  · rintro ⟨name, -, eq⟩
    split at eq
    · next gv hv guestHas hostHas =>
      split at eq
      · cases eq
      · next differ =>
        cases eq
        exact ⟨⟨guestHas, hostHas⟩, differ⟩
    · cases eq
  · rintro ⟨⟨guestHas, hostHas⟩, differ⟩
    refine ⟨e.name, ⟨?_, ?_⟩, ?_⟩
    · have some : (guest.entries.lookup e.name).isSome := by
        rw [show guest.entries.lookup e.name = _ from guestHas]
        rfl
      obtain ⟨c, mem, same⟩ := List.lookup_isSome_iff.mp some
      exact List.mem_map.mpr ⟨c, mem, (beq_iff_eq.mp same).symm⟩
    · rw [hostHas]
      rfl
    · simp only [guestHas, hostHas, if_neg differ]

theorem mem_splitGroups : e ∈ splitGroups (constantsRemap guest host) group ↔
    Common guest host e ∧ e.guestValue ≠ e.hostValue ∧ groupFor e.name = group := by
  rw [splitGroups, List.mem_filter, List.mem_insertionSort, mem_constantsRemap, decide_eq_true_iff,
    and_assoc]

theorem value_restrict (t : ConstTable) (family : String → Bool) (name : String) :
    (t.restrict family).value name = if family name then t.value name else none := by
  unfold ConstTable.value ConstTable.restrict
  dsimp only
  induction t.entries with
  | nil => exact (ite_self _).symm
  | cons c cs ih =>
    by_cases belongs : family c.1
    · rw [List.filter_cons, if_pos belongs, List.lookup_cons, List.lookup_cons, ih]
      by_cases same : name = c.1
      · simp only [same, beq_self_eq_true, if_pos belongs]
      · simp only [beq_false_of_ne same]
    · rw [List.filter_cons, if_neg belongs, ih, List.lookup_cons]
      by_cases same : name = c.1
      · simp only [same, if_neg belongs]
      · simp only [beq_false_of_ne same]

theorem common_restrict {family : String → Bool} :
    Common (guest.restrict family) (host.restrict family) e ↔ family e.name ∧ Common guest host e := by
  unfold Common
  rw [value_restrict, value_restrict]
  cases belongs : family e.name
  · simp
  · simp

end Tables

/-! ## The condition -/

/-- In every group that is emitted, any two constants are compatible. -/
def AllCompatible (guest host : ConstTable) : Prop :=
  ∀ e e', Common guest host e → Common guest host e' → groupFor e.name ≠ .misc →
    groupFor e'.name = groupFor e.name → Compatible e e'

section Condition

variable {guest host : ConstTable}

/-- A constant that is not remapped has one value. -/
theorem src_eq_dst_of_free {group : Group} {direction : Direction} {e : Entry} (common : Common guest host e)
    (together : groupFor e.name = group)
    (free : ∀ a ∈ splitGroups (constantsRemap guest host) group,
      Int32.ofInt (a.src direction) ≠ Int32.ofInt (e.src direction)) :
    e.src direction = e.dst direction := by
  have one : e.guestValue = e.hostValue := by
    by_contra differ
    exact free e (mem_splitGroups.mpr ⟨common, differ, together⟩) rfl
  cases direction with
  | g2h => exact one
  | h2g => exact one.symm

theorem Compatible.src_iff {e e' : Entry} (compatible : Compatible e e') (direction : Direction) :
    Int32.ofInt (e.src direction) = Int32.ofInt (e'.src direction) ↔
      Int32.ofInt (e.dst direction) = Int32.ofInt (e'.dst direction) := by
  cases direction with
  | g2h => exact compatible.same.symm
  | h2g => exact compatible.same

theorem AllCompatible.restrict (all : AllCompatible guest host) (family : String → Bool) :
    AllCompatible (guest.restrict family) (host.restrict family) := by
  intro e e' common common' emitted together
  exact all e e' (common_restrict.mp common).2 (common_restrict.mp common').2 emitted together

theorem AllCompatible.maps (all : AllCompatible guest host) {direction : Direction} {e : Entry}
    (common : Common guest host e) (emitted : groupFor e.name ≠ .misc) :
    yosRemap guest host (groupFor e.name) direction (Int32.ofInt (e.src direction)) =
      some (Int32.ofInt (e.dst direction)) := by
  have compiles : ∀ a ∈ splitGroups (constantsRemap guest host) (groupFor e.name),
      ∀ b ∈ splitGroups (constantsRemap guest host) (groupFor e.name),
      Int32.ofInt (a.src direction) = Int32.ofInt (b.src direction) → a.src direction = b.src direction := by
    intro a mem b mem' same
    obtain ⟨common, differ, group⟩ := mem_splitGroups.mp mem
    obtain ⟨common', differ', group'⟩ := mem_splitGroups.mp mem'
    exact (all a b common common' (group ▸ emitted) (group'.trans group.symm)).exact differ differ'
      direction same
  obtain ⟨a, mem, same, returns⟩ | ⟨free, returns⟩ :=
    runSwitch_cases compiles (Int32.ofInt (e.src direction))
  · obtain ⟨common', -, group⟩ := mem_splitGroups.mp mem
    have compatible := all e a common common' emitted group
    rw [yosRemap, returns, (compatible.src_iff direction).mp same.symm]
  · rw [yosRemap, returns, src_eq_dst_of_free common rfl free]

theorem RemapOk.compatible (ok : RemapOk guest host) : AllCompatible guest host := by
  intro e e' common common' emitted together
  have maps' (direction : Direction) : yosRemap guest host (groupFor e.name) direction
      (Int32.ofInt (e'.src direction)) = some (Int32.ofInt (e'.dst direction)) := by
    have there := ok.maps direction e' common' (together ▸ emitted)
    rwa [together] at there
  refine ⟨⟨fun same => ?_, fun same => ?_⟩, fun differ differ' direction same => ?_⟩
  · have here := ok.maps .h2g e common emitted
    have there := maps' .h2g
    rw [show e.src .h2g = e.hostValue from rfl, same] at here
    exact Option.some.inj (here.symm.trans there)
  · have here := ok.maps .g2h e common emitted
    have there := maps' .g2h
    rw [show e.src .g2h = e.guestValue from rfl, same] at here
    exact Option.some.inj (here.symm.trans there)
  · have runs := ok.maps direction e common emitted
    rw [yosRemap, runSwitch] at runs
    split at runs
    · next compiles =>
      exact nodup_labels_iff.mp compiles e (mem_splitGroups.mpr ⟨common, differ, rfl⟩) e'
        (mem_splitGroups.mpr ⟨common', differ', together⟩) same
    · cases runs

end Condition

/-- The emitted functions translate between the tables exactly when any two constants of a group are
compatible. -/
theorem remap_iff (guest host : ConstTable) : RemapOk guest host ↔ AllCompatible guest host := by
  constructor
  · exact RemapOk.compatible
  · intro all
    refine ⟨fun direction e common emitted => all.maps common emitted, ?_, ?_⟩
    · intro group emitted e mem e' mem' same
      obtain ⟨common, differ, group⟩ := mem_splitGroups.mp mem
      obtain ⟨common', differ', group'⟩ := mem_splitGroups.mp mem'
      have compatible := all e e' common common' (group ▸ emitted) (group'.trans group.symm)
      exact compatible.exact differ differ' .g2h (compatible.same.mp (congrArg Int32.ofInt same))
    · intro family direction e common emitted belongs
      rw [all.maps common emitted]
      exact (all.restrict family).maps (common_restrict.mpr ⟨belongs, common⟩) emitted

-- `ENOENT` is not remapped, and so `EAI_AGAIN` takes its value.
example : yosRemap ⟨[("EAI_AGAIN", 2), ("ENOENT", 2)], by decide⟩
    ⟨[("EAI_AGAIN", -3), ("ENOENT", 2)], by decide⟩ .errno .g2h 2 = some (-3) := by decide +kernel

/-! ## Collisions -/

/-- The emitted functions of a group with the constants that collide in it: `first` says which of them
is mapped. -/
structure FirstWins (guest host : ConstTable) (group : Group) (direction : Direction) : Prop where
  /-- A constant is mapped to its namesake if the constants of its group with its value are mapped to the
  same value. -/
  maps : ∀ e, Common guest host e → groupFor e.name = group →
    (∀ e', Common guest host e' → groupFor e'.name = group →
      Int32.ofInt (e'.src direction) = Int32.ofInt (e.src direction) →
      Int32.ofInt (e'.dst direction) = Int32.ofInt (e.dst direction)) →
    yosRemap guest host group direction (Int32.ofInt (e.src direction)) =
      some (Int32.ofInt (e.dst direction))
  /-- Among the remapped constants with one value the first in the order of names is mapped to its
  namesake. -/
  first : ∀ before e after, splitGroups (constantsRemap guest host) group = before ++ e :: after →
    (∀ e' ∈ before, e'.src direction ≠ e.src direction) →
    yosRemap guest host group direction (Int32.ofInt (e.src direction)) =
      some (Int32.ofInt (e.dst direction))
  /-- A value that is no value of a remapped constant stays as it is. -/
  others : ∀ v, (∀ e ∈ splitGroups (constantsRemap guest host) group, Int32.ofInt (e.src direction) ≠ v) →
    yosRemap guest host group direction v = some v

/-- The emitted function is accepted by the C compiler. -/
def Compiles (guest host : ConstTable) (group : Group) (direction : Direction) : Prop :=
  ((labels (emitRemapFunction (splitGroups (constantsRemap guest host) group) direction)).map fun l =>
    Int32.ofInt l.1).Nodup

/-- In every function that compiles the first of the colliding constants wins, and only collisions keep a
constant from being mapped to its namesake. -/
theorem remap_first_wins (guest host : ConstTable) (group : Group) (direction : Direction)
    (compiles : Compiles guest host group direction) : FirstWins guest host group direction := by
  have cases := runSwitch_cases (nodup_labels_iff.mp compiles)
  refine ⟨fun e common together agree => ?_, fun before e after split first => ?_, fun v free => ?_⟩
  · obtain ⟨a, mem, same, returns⟩ | ⟨free, returns⟩ := cases (Int32.ofInt (e.src direction))
    · obtain ⟨common', -, group'⟩ := mem_splitGroups.mp mem
      rw [yosRemap, returns, agree a common' group' same]
    · rw [yosRemap, returns, src_eq_dst_of_free common together free]
  · have mem : (e.src direction, e.dst direction) ∈
        labels (emitRemapFunction (splitGroups (constantsRemap guest host) group) direction) := by
      rw [split]
      exact label_of_first rfl first
    exact runSwitch_of_mem_labels compiles mem
  · obtain ⟨a, mem, same, -⟩ | ⟨-, returns⟩ := cases v
    · exact absurd same (free a mem)
    · exact returns

/-- `AT_EACCESS` and `AT_REMOVEDIR` of FreeBSD, and of a Linux host, where they share a value. -/
def freebsdAtFlags : ConstTable := ⟨[("AT_EACCESS", 0x100), ("AT_REMOVEDIR", 0x800)], by decide⟩

def linuxAtFlags : ConstTable := ⟨[("AT_EACCESS", 0x200), ("AT_REMOVEDIR", 0x200)], by decide⟩

/-- The value of FreeBSD's `AT_EACCESS`, also where the host means `AT_REMOVEDIR`. -/
theorem remap_first_wins_at :
    yosRemap freebsdAtFlags linuxAtFlags .atflag .h2g 0x200 = some 0x100 :=
  (remap_first_wins freebsdAtFlags linuxAtFlags .atflag .h2g (by unfold Compiles; decide +kernel)).first []
    ⟨"AT_EACCESS", 0x100, 0x200⟩ [⟨"AT_REMOVEDIR", 0x800, 0x200⟩] (by decide +kernel) (by decide)

/-- `AT_REMOVEDIR` of the host becomes `AT_EACCESS` of the guest. -/
theorem remap_at_flags_fails : ¬ RemapOk freebsdAtFlags linuxAtFlags := by
  intro ok
  have right := ok.maps .h2g ⟨"AT_REMOVEDIR", 0x800, 0x200⟩ ⟨by decide +kernel, by decide +kernel⟩
    (by decide +kernel)
  exact absurd right (by decide +kernel)

end Yos.Remap
