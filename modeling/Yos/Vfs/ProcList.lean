import Yos.Io.DirLife
import Yos.Lib.System
import Yos.Vfs.Procfs

/-!
# Listing `/proc` while processes come and go (`vfs/procfs.c`)

`procfs_getdents64` goes on at the entry with the number `dir_index`, in the table as it is then.  A process that
exits before that entry moves the others down, and the next one is never listed; one that is made before it moves
them up, and the last one is listed again.  A buffer too small for a record gets 0, as at the end.  In the other
runs the listing is complete (`proc_listing_met`).
-/

namespace Yos

namespace Procfs

open DirStream

/-! ## The system -/

/-- An entry of the process table. -/
inductive Slot where
  | free
  | zombie (pid : ℕ)
  | live (pid : ℕ)
deriving DecidableEq, Repr

/-- The number of a process that is listed. -/
def Slot.pid : Slot → Option ℕ
  | free | zombie _ => none
  | live pid => some pid

/-- The processes in the order of the table. -/
def livePids (table : List Slot) : List ℕ := table.filterMap Slot.pid

/-- A listing: the table, `next_pid`, the directory, the calls with their buffer sizes and records, whether a call
returned 0, and the processes there were when the directory was opened. -/
structure Listing where
  table : List Slot
  nextPid : ℕ
  file : VfsFile
  calls : List (ℕ × List Dirent)
  ended : Bool
  start : List ℕ

/-- The records so far. -/
def Listing.records (s : Listing) : List Dirent := s.calls.flatMap Prod.snd

/-- The listing after a call that stored some records. -/
def Listing.read (s : Listing) (count : ℕ) (l : List Dirent) : Listing :=
  { s with
    file := { s.file with dirIndex := s.file.dirIndex + l.length }
    calls := s.calls ++ [(count, l)]
    ended := l.isEmpty }

/-- What happens: a call, or a change of an entry of the table. -/
inductive ListAct where
  | getdents (count : ℕ)
  | spawn (i : ℕ)
  | exit (i : ℕ)
  | reap (i : ℕ)

/-- The steps of a listing that is not over. -/
inductive ListStep : Listing → ListAct → Listing → Prop
  | getdents {s : Listing} {count : ℕ} {view : ProcView} {l : List Dirent} {file : VfsFile} (going : s.ended = false)
      (sees : view.pids = livePids s.table) (call : procfsGetdents64 view s.file count = .ok (l, file)) :
      ListStep s (.getdents count) { s with file, calls := s.calls ++ [(count, l)], ended := l.isEmpty }
  | spawn {s : Listing} {a b : List Slot} (going : s.ended = false) (shape : s.table = a ++ .free :: b)
      (first : .free ∉ a) :
      ListStep s (.spawn a.length) { s with table := a ++ .live s.nextPid :: b, nextPid := s.nextPid + 1 }
  | exit {s : Listing} {a b : List Slot} {pid : ℕ} {left : Slot} (going : s.ended = false)
      (shape : s.table = a ++ .live pid :: b) (gone : left = .zombie pid ∨ left = .free) :
      ListStep s (.exit a.length) { s with table := a ++ left :: b }
  | reap {s : Listing} {a b : List Slot} {pid : ℕ} (going : s.ended = false) (shape : s.table = a ++ .zombie pid :: b) :
      ListStep s (.reap a.length) { s with table := a ++ .free :: b }

/-- The listings of a directory that was opened for `/proc`. -/
def listSystem : System Listing ListAct where
  init s := s.file.procfsFileType = .root ∧ s.file.dirIndex = 0 ∧ s.calls = [] ∧ s.ended = false ∧
    s.start = livePids s.table ∧ (livePids s.table).Nodup ∧ ∀ pid ∈ livePids s.table, pid < s.nextPid
  step := ListStep

/-- The record of a process. -/
def procEntry (pid : ℕ) : Dirent := dirent pid dtDir (pidName pid)

/-- The directory as it is now. -/
def Listing.entries (s : Listing) : List Dirent := numbered rootEntries ++ (livePids s.table).map procEntry

/-- Each call stores what fits, no entry is listed twice, and after the end nothing is left, and `self`, `mounts`
and every process that was there all the time are listed once. -/
structure ListingMet (s : Listing) : Prop where
  within : ∀ c ∈ s.calls, (c.2.map fun e => recLen e.name).sum ≤ c.1
  once : (s.records.map Dirent.name).Nodup
  honest : s.ended = true → s.entries.drop s.file.dirIndex = []
  fixed : s.ended = true → ∀ e ∈ rootEntries, (s.records.map Dirent.name).count e.1 = 1
  complete : s.ended = true → ∀ pid ∈ s.start, pid ∈ livePids s.table →
    (s.records.map Dirent.name).count (pidName pid) = 1

/-- How many entries of the directory are before the one of a process at `i` in the table. -/
def Listing.rank (s : Listing) (i : ℕ) : ℕ := 2 + (livePids (s.table.take i)).length

/-- A buffer has room for the next record; no process is made before `dir_index`, unless the directory does not
reach so far; and no process exits before it, unless nothing is left to list. -/
def ListOk (s : Listing) : ListAct → Prop
  | .getdents count => ∀ e ∈ (s.entries.drop s.file.dirIndex).head?, recLen e.name ≤ count
  | .spawn i => s.file.dirIndex ≤ s.rank i ∨ s.entries.length < s.file.dirIndex
  | .exit i => s.file.dirIndex ≤ s.rank i ∨ s.entries.length ≤ s.file.dirIndex
  | .reap _ => True

/-! ## A call -/

section Call

variable {view : ProcView} {count d i pos : ℕ} {entries l : List Dirent}

/-- The records fit in the buffer, and the next one does not. -/
theorem getdentsLoop_fits (entries : List Dirent) (le : d ≤ i) (room : pos ≤ count) :
    pos + ((getdentsLoop count i entries d pos).1.map fun e => recLen e.name).sum ≤ count := by
  induction entries generalizing i d pos with
  | nil => exact room
  | cons e rest ih =>
    rw [getdentsLoop, if_pos le]
    split_ifs with full
    · exact room
    · have fits := ih (Nat.le_refl (i + 1)) (by omega : pos + recLen e.name ≤ count)
      dsimp only
      rw [List.map_cons, List.sum_cons]
      omega

/-- What a call stores, and where the next one goes on. -/
theorem getdents_spec {file file' : VfsFile} (root : file.procfsFileType = .root)
    (call : procfsGetdents64 view file count = .ok (l, file')) :
    l <+: (numbered rootEntries ++ view.pids.map procEntry).drop file.dirIndex ∧
      file' = { file with dirIndex := file.dirIndex + l.length } ∧
      (l.map fun e => recLen e.name).sum ≤ count ∧
      (l = [] → ∀ e ∈ ((numbered rootEntries ++ view.pids.map procEntry).drop file.dirIndex).head?,
        count < recLen e.name) := by
  have dir : procfsEntries view file.procfsFileType = some (numbered rootEntries ++ view.pids.map procEntry) := by
    rw [root]
    rfl
  generalize numbered rootEntries ++ view.pids.map procEntry = entries at dir ⊢
  unfold procfsGetdents64 at call
  rw [dir] at call
  dsimp only at call
  have skip : getdentsLoop count 0 entries file.dirIndex 0 = _ := getdentsLoop_skip (Nat.zero_le _)
  rw [Nat.sub_zero] at skip
  obtain ⟨l', front, run⟩ := getdentsLoop_prefix count (entries.drop file.dirIndex) 0 (Nat.le_refl file.dirIndex)
  have fits := getdentsLoop_fits (entries.drop file.dirIndex) (Nat.le_refl file.dirIndex) (Nat.zero_le count)
  rw [skip, run] at call
  obtain ⟨rfl, rfl⟩ := Prod.mk.inj (Except.ok.inj call)
  rw [run, Nat.zero_add] at fits
  refine ⟨front, ?_, fits, fun none e mem => ?_⟩
  · split_ifs with none
    · rw [none]
      rfl
    · rfl
  · by_contra room
    cases left : entries.drop file.dirIndex with
    | nil => rw [left] at mem; cases mem
    | cons e' rest =>
      rw [left] at mem
      obtain rfl := Option.some.inj mem
      have some := getdentsLoop_ne_nil (d := file.dirIndex) rest (Nat.le_of_not_lt room)
      rw [← left, run] at some
      exact some none

end Call

/-! ## The processes that are listed -/

/-- The listing has the fixed entries up to `dir_index`, and some processes: all that are before `dir_index`, but
for those that came later, and none that is behind it. -/
structure Lists (s : Listing) (listed : List ℕ) : Prop where
  records : s.records = (numbered rootEntries).take s.file.dirIndex ++ listed.map procEntry
  nodup : listed.Nodup
  below : ∀ pid ∈ listed, pid < s.nextPid
  early : s.file.dirIndex < 2 → listed = []
  passed : ∀ pid ∈ (livePids s.table).take (s.file.dirIndex - 2), pid ∈ listed ∨ pid ∉ s.start
  ahead : ∀ pid ∈ (livePids s.table).drop (s.file.dirIndex - 2), pid ∉ listed

/-- What stays true of a listing. -/
structure ListInv (s : Listing) : Prop where
  root : s.file.procfsFileType = .root
  nodup : (livePids s.table).Nodup
  fresh : ∀ pid ∈ livePids s.table, pid < s.nextPid
  old : ∀ pid ∈ s.start, pid < s.nextPid
  within : ∀ c ∈ s.calls, (c.2.map fun e => recLen e.name).sum ≤ c.1
  ended : s.ended = true → s.entries.drop s.file.dirIndex = []
  lists : ∃ listed, Lists s listed

section Inv

variable {s : Listing} {a b : List Slot} {x : Slot} {pid : ℕ}

theorem livePids_split (a : List Slot) (x : Slot) (b : List Slot) :
    livePids (a ++ x :: b) = livePids a ++ (x.pid.toList ++ livePids b) := by
  rw [livePids, List.filterMap_append, List.filterMap_cons]
  cases x <;> rfl

theorem rank_eq (shape : s.table = a ++ x :: b) : s.rank a.length = 2 + (livePids a).length := by
  rw [Listing.rank, shape, List.take_left]

theorem length_entries (s : Listing) : s.entries.length = 2 + (livePids s.table).length := by
  rw [Listing.entries, List.length_append, List.length_map]
  rfl

/-- A process that exits behind `dir_index`, or when all is listed, changes nothing. -/
theorem Lists.exit {listed : List ℕ} {left : Slot} (h : Lists s listed) (shape : s.table = a ++ .live pid :: b)
    (gone : left.pid = none)
    (late : s.file.dirIndex ≤ s.rank a.length ∨ s.entries.length ≤ s.file.dirIndex) :
    Lists { s with table := a ++ left :: b } listed := by
  have now : livePids (a ++ left :: b) = livePids a ++ livePids b := by
    rw [livePids_split, gone]
    rfl
  have before : livePids s.table = livePids a ++ pid :: livePids b := by
    rw [shape, livePids_split]
    rfl
  rw [rank_eq shape, length_entries, before, List.length_append, List.length_cons] at late
  have passed := h.passed
  have ahead := h.ahead
  rw [before] at passed ahead
  refine ⟨h.records, h.nodup, h.below, h.early, fun q mem => passed q ?_, fun q mem => ahead q ?_⟩
  · change q ∈ (livePids (a ++ left :: b)).take (s.file.dirIndex - 2) at mem
    rw [now] at mem
    rcases late with late | late
    · rw [List.take_append_of_le_length (by omega)] at mem ⊢
      exact mem
    · rw [List.take_of_length_le (by rw [List.length_append, List.length_cons]; omega)]
      have sub := List.mem_of_mem_take mem
      rw [List.mem_append] at sub ⊢
      exact sub.imp_right (List.mem_cons_of_mem _)
  · change q ∈ (livePids (a ++ left :: b)).drop (s.file.dirIndex - 2) at mem
    rw [now] at mem
    rcases late with late | late
    · rw [List.drop_append_of_le_length (by omega)] at mem ⊢
      rw [List.mem_append] at mem ⊢
      exact mem.imp_right (List.mem_cons_of_mem _)
    · rw [List.drop_eq_nil_of_le (by rw [List.length_append]; omega)] at mem
      cases mem

/-- A process that is made behind `dir_index` is still to be listed. -/
theorem Lists.spawn {listed : List ℕ} (h : Lists s listed) (old : ∀ pid ∈ s.start, pid < s.nextPid)
    (shape : s.table = a ++ .free :: b)
    (late : s.file.dirIndex ≤ s.rank a.length ∨ s.entries.length < s.file.dirIndex) :
    Lists { s with table := a ++ .live s.nextPid :: b, nextPid := s.nextPid + 1 } listed := by
  have now : livePids (a ++ .live s.nextPid :: b) = livePids a ++ s.nextPid :: livePids b := by
    rw [livePids_split]
    rfl
  have before : livePids s.table = livePids a ++ livePids b := by
    rw [shape, livePids_split]
    rfl
  rw [rank_eq shape, length_entries, before, List.length_append] at late
  have passed := h.passed
  have ahead := h.ahead
  rw [before] at passed ahead
  refine ⟨h.records, h.nodup, fun q mem => Nat.lt_succ_of_lt (h.below q mem), h.early, fun q mem => ?_,
    fun q mem => ?_⟩
  · change q ∈ (livePids (a ++ .live s.nextPid :: b)).take (s.file.dirIndex - 2) at mem
    rw [now] at mem
    rcases late with late | late
    · apply passed
      rw [List.take_append_of_le_length (by omega)] at mem ⊢
      exact mem
    · have sub := List.mem_of_mem_take mem
      rw [List.mem_append, List.mem_cons] at sub
      by_cases new : q = s.nextPid
      · exact .inr fun mem => by
          have lt := old q mem
          omega
      · apply passed
        rw [List.take_of_length_le (by rw [List.length_append]; omega), List.mem_append]
        rcases sub with left | rfl | right
        · exact .inl left
        · exact absurd rfl new
        · exact .inr right
  · change q ∈ (livePids (a ++ .live s.nextPid :: b)).drop (s.file.dirIndex - 2) at mem
    rw [now] at mem
    by_cases new : q = s.nextPid
    · intro listed
      have lt := h.below q listed
      omega
    · rcases late with late | late
      · apply ahead
        rw [List.drop_append_of_le_length (by omega)] at mem ⊢
        rw [List.mem_append, List.mem_cons] at mem
        rw [List.mem_append]
        rcases mem with left | rfl | right
        · exact .inl left
        · exact absurd rfl new
        · exact .inr right
      · rw [List.drop_eq_nil_of_le (by rw [List.length_append, List.length_cons]; omega)] at mem
        cases mem

/-- A call lists the next processes. -/
theorem Lists.getdents {listed : List ℕ} {l : List Dirent} (h : Lists s listed) (count : ℕ)
    (nodup : (livePids s.table).Nodup) (fresh : ∀ pid ∈ livePids s.table, pid < s.nextPid)
    (front : l <+: s.entries.drop s.file.dirIndex) :
    ∃ listed, Lists (s.read count l) listed := by
  obtain ⟨rest, front⟩ := front
  have split : s.entries.drop s.file.dirIndex =
      (numbered rootEntries).drop s.file.dirIndex ++ ((livePids s.table).drop (s.file.dirIndex - 2)).map procEntry := by
    rw [Listing.entries, List.drop_append, ← List.map_drop]
    rfl
  have taken : l = ((numbered rootEntries).drop s.file.dirIndex).take l.length ++
      (((livePids s.table).drop (s.file.dirIndex - 2)).take (l.length - (2 - s.file.dirIndex))).map procEntry := by
    have fixed : ((numbered rootEntries).drop s.file.dirIndex).length = 2 - s.file.dirIndex := by
      rw [List.length_drop]
      rfl
    calc l = (s.entries.drop s.file.dirIndex).take l.length := by rw [← front, List.take_left]
      _ = _ := by rw [split, List.take_append, fixed, List.map_take]
  generalize more : ((livePids s.table).drop (s.file.dirIndex - 2)).take (l.length - (2 - s.file.dirIndex)) = new at taken
  have sub : ∀ pid ∈ new, pid ∈ (livePids s.table).drop (s.file.dirIndex - 2) := fun pid mem => by
    rw [← more] at mem
    exact List.mem_of_mem_take mem
  have split_index : s.file.dirIndex + l.length - 2 =
      (s.file.dirIndex - 2) + (l.length - (2 - s.file.dirIndex)) := by omega
  refine ⟨listed ++ new, ?_, ?_, ?_, ?_, ?_, ?_⟩
  · show (s.calls ++ [(count, l)]).flatMap Prod.snd = _
    rw [List.flatMap_append, List.flatMap_singleton]
    show s.records ++ l = _
    rw [h.records, List.map_append]
    show _ = (numbered rootEntries).take (s.file.dirIndex + l.length) ++ _
    rw [List.take_add]
    by_cases early : s.file.dirIndex < 2
    · rw [h.early early, List.map_nil, List.append_nil, List.nil_append, List.append_assoc, ← taken]
    · have none : (numbered rootEntries).drop s.file.dirIndex = [] :=
        List.drop_eq_nil_of_le (Nat.le_of_not_lt early)
      rw [none, List.take_nil, List.nil_append] at taken
      rw [none, List.take_nil, List.append_nil, List.append_assoc, ← taken]
  · refine List.nodup_append.2 ⟨h.nodup, ?_, ?_⟩
    · rw [← more]
      exact (nodup.sublist (List.drop_sublist _ _)).sublist (List.take_sublist _ _)
    · rintro p mem q mem' rfl
      exact h.ahead p (sub p mem') mem
  · intro pid mem
    rcases List.mem_append.1 mem with mem | mem
    · exact h.below pid mem
    · exact fresh pid (List.mem_of_mem_drop (sub pid mem))
  · intro early
    have early : s.file.dirIndex + l.length < 2 := early
    rw [h.early (by omega), ← more, show l.length - (2 - s.file.dirIndex) = 0 by omega, List.take_zero]
    rfl
  · intro pid mem
    change pid ∈ (livePids s.table).take (s.file.dirIndex + l.length - 2) at mem
    rw [split_index, List.take_add, more, List.mem_append] at mem
    rcases mem with mem | mem
    · exact (h.passed pid mem).imp_left fun mem => List.mem_append_left _ mem
    · exact .inl (List.mem_append_right _ mem)
  · intro pid mem
    change pid ∈ (livePids s.table).drop (s.file.dirIndex + l.length - 2) at mem
    rw [split_index, ← List.drop_drop] at mem
    rw [List.mem_append, not_or]
    refine ⟨h.ahead pid (List.mem_of_mem_drop mem), fun mem' => ?_⟩
    rw [← more] at mem'
    exact List.disjoint_take_drop (nodup.sublist (List.drop_sublist _ _)) le_rfl mem' mem

theorem ListInv.init (start : listSystem.init s) : ListInv s := by
  obtain ⟨root, zero, none, going, old, nodup, fresh⟩ := start
  refine ⟨root, nodup, fresh, fun pid mem => fresh pid (old ▸ mem), fun c mem => ?_, fun ended => ?_, [], ?_⟩
  · rw [none] at mem
    cases mem
  · rw [going] at ended
    cases ended
  · refine ⟨?_, List.nodup_nil, fun pid mem => absurd mem List.not_mem_nil, fun _ => rfl, fun pid mem => ?_,
      fun pid _ => List.not_mem_nil⟩
    · rw [Listing.records, none, zero]
      rfl
    · rw [zero] at mem
      cases mem

/-- What an allowed step keeps. -/
theorem ListInv.step {s' : Listing} {act : ListAct} (h : ListInv s) (ok : ListOk s act) (next : ListStep s act s') :
    ListInv s' := by
  obtain ⟨listed, lists⟩ := h.lists
  cases next with
  | @getdents count view l file going sees call =>
    obtain ⟨front, rfl, fits, full⟩ := getdents_spec h.root call
    rw [sees] at front full
    obtain ⟨listed', lists'⟩ := lists.getdents count h.nodup h.fresh front
    refine ⟨h.root, h.nodup, h.fresh, h.old, fun c mem => ?_, fun ended => ?_, listed', lists'⟩
    · rcases List.mem_append.1 mem with mem | mem
      · exact h.within c mem
      · obtain rfl := List.mem_singleton.1 mem
        exact fits
    · have none : l = [] := List.isEmpty_iff.1 ended
      rw [none]
      show s.entries.drop s.file.dirIndex = []
      cases left : s.entries.drop s.file.dirIndex with
      | nil => rfl
      | cons e rest =>
        have room := ok e (by rw [left]; rfl)
        have short := full none e (by
          show e ∈ (s.entries.drop s.file.dirIndex).head?
          rw [left]
          rfl)
        omega
  | @spawn a b going shape first =>
    have now : livePids (a ++ .live s.nextPid :: b) = livePids a ++ s.nextPid :: livePids b := by
      rw [livePids_split]
      rfl
    have before : livePids s.table = livePids a ++ livePids b := by
      rw [shape, livePids_split]
      rfl
    have new : s.nextPid ∉ livePids s.table := fun mem => absurd (h.fresh _ mem) (lt_irrefl _)
    refine ⟨h.root, ?_, fun pid mem => ?_, fun pid mem => Nat.lt_succ_of_lt (h.old pid mem), h.within,
      fun ended => ?_, listed, lists.spawn h.old shape ok⟩
    · show (livePids (a ++ .live s.nextPid :: b)).Nodup
      rw [now]
      refine List.nodup_middle.2 (List.nodup_cons.2 ⟨?_, ?_⟩)
      · rw [← before]
        exact new
      · rw [← before]
        exact h.nodup
    · change pid ∈ livePids (a ++ .live s.nextPid :: b) at mem
      rw [now, List.mem_append, List.mem_cons] at mem
      show pid < s.nextPid + 1
      by_cases is : pid = s.nextPid
      · omega
      · have lt := h.fresh pid (by
          rw [before, List.mem_append]
          rcases mem with left | rfl | right
          · exact .inl left
          · exact absurd rfl is
          · exact .inr right)
        omega
    · have ended : s.ended = true := ended
      rw [going] at ended
      cases ended
  | @exit a b pid left going shape gone =>
    have none : left.pid = none := by
      rcases gone with rfl | rfl <;> rfl
    have sub : List.Sublist (livePids (a ++ left :: b)) (livePids s.table) := by
      rw [shape, livePids_split, livePids_split, none]
      exact List.Sublist.append_left (List.sublist_cons_self _ _) _
    refine ⟨h.root, h.nodup.sublist sub, fun q mem => h.fresh q (sub.subset mem), h.old, h.within, fun ended => ?_,
      listed, lists.exit shape none ok⟩
    have ended : s.ended = true := ended
    rw [going] at ended
    cases ended
  | @reap a b pid going shape =>
    have same : livePids (a ++ .free :: b) = livePids s.table := by
      rw [shape, livePids_split, livePids_split]
      rfl
    refine ⟨h.root, by rw [same]; exact h.nodup, fun q mem => h.fresh q (same ▸ mem), h.old, h.within, fun ended => ?_,
      listed, lists.records, lists.nodup, lists.below, lists.early, ?_, ?_⟩
    · have ended : s.ended = true := ended
      rw [going] at ended
      cases ended
    · show ∀ pid ∈ (livePids (a ++ .free :: b)).take _, _
      rw [same]
      exact lists.passed
    · show ∀ pid ∈ (livePids (a ++ .free :: b)).drop _, _
      rw [same]
      exact lists.ahead

theorem pidName_injective : Function.Injective pidName := fun m n h => by
  rw [← value_pidName m, ← value_pidName n, h]

theorem names_numbered : (numbered rootEntries).map Dirent.name = rootEntries.map Prod.fst := by decide

theorem names_procEntry (l : List ℕ) : (l.map procEntry).map Dirent.name = l.map pidName := by
  rw [List.map_map]
  rfl

/-- The names of a listing, which are all different. -/
theorem Lists.names {listed : List ℕ} (h : Lists s listed) : s.records.map Dirent.name =
      (rootEntries.map Prod.fst).take s.file.dirIndex ++ listed.map pidName ∧
    (s.records.map Dirent.name).Nodup := by
  have names : s.records.map Dirent.name =
      (rootEntries.map Prod.fst).take s.file.dirIndex ++ listed.map pidName := by
    rw [h.records, List.map_append, List.map_take, names_numbered, names_procEntry]
  refine ⟨names, ?_⟩
  rw [names]
  have fixed : (rootEntries.map Prod.fst).Nodup := by decide
  refine List.nodup_append.2 ⟨fixed.sublist (List.take_sublist _ _), h.nodup.map pidName_injective, ?_⟩
  rintro name mem name' mem' rfl
  have letter : ∀ n ∈ rootEntries.map Prod.fst, ∃ c ∈ n, Numeral.isDigit 10 c = false := by decide
  obtain ⟨c, inside, other⟩ := letter name (List.mem_of_mem_take mem)
  obtain ⟨pid, -, rfl⟩ := List.mem_map.1 mem'
  rw [isDigit_of_mem_pidName inside] at other
  cases other

theorem ListInv.met (h : ListInv s) : ListingMet s := by
  obtain ⟨listed, lists⟩ := h.lists
  obtain ⟨names, nodup⟩ := lists.names
  have all (ended : s.ended = true) : 2 + (livePids s.table).length ≤ s.file.dirIndex := by
    have le := List.drop_eq_nil_iff.1 (h.ended ended)
    rw [length_entries] at le
    exact le
  refine ⟨h.within, nodup, h.ended, fun ended e mem => ?_, fun ended pid old alive => ?_⟩
  · refine List.count_eq_one_of_mem nodup ?_
    rw [names, List.take_of_length_le (by have := all ended; simp [rootEntries]; omega)]
    exact List.mem_append_left _ (List.mem_map_of_mem mem)
  · refine List.count_eq_one_of_mem nodup ?_
    have there := lists.passed pid (by
      rw [List.take_of_length_le (by have := all ended; omega)]
      exact alive)
    rw [names]
    exact List.mem_append_right _ (List.mem_map_of_mem (there.resolve_right fun new => new old))

/-- In every run of allowed steps a listing of `/proc` is right. -/
theorem proc_listing_met (run : listSystem.ReachableIf ListOk s) : ListingMet s :=
  (run.invariant (fun _ => ListInv.init) fun _ _ _ => ListInv.step).met

/-- Three processes, and a directory that is just opened. -/
def threeProcs : Listing := ⟨[.live 1, .live 2, .live 3], 4, ⟨true, 0, 0, .root⟩, [], false, [1, 2, 3]⟩

/-- What a call sees of processes below 10. -/
def viewOf (pids : List (Fin 10)) : ProcView where
  pids := pids.map Fin.val
  find _ := false
  small pid mem := by
    obtain ⟨i, -, rfl⟩ := List.mem_map.1 mem
    omega

/-- The listing after a call. -/
def Listing.call (s : Listing) (pids : List (Fin 10)) (count : ℕ) : Listing :=
  match procfsGetdents64 (viewOf pids) s.file count with
  | .ok (l, file) => { s with file, calls := s.calls ++ [(count, l)], ended := l.isEmpty }
  | .error _ => s

theorem step_call {pids : List (Fin 10)} (count : ℕ) (root : s.file.procfsFileType = .root) (going : s.ended = false)
    (sees : (viewOf pids).pids = livePids s.table) : ListStep s (.getdents count) (s.call pids count) := by
  unfold Listing.call
  rcases call : procfsGetdents64 (viewOf pids) s.file count with _ | ⟨l, file⟩
  · unfold procfsGetdents64 at call
    rw [root] at call
    cases call
  · exact .getdents going sees call

theorem threeProcs_init : listSystem.init threeProcs := ⟨rfl, rfl, rfl, rfl, rfl, by decide, by decide⟩

theorem proc_listing_met_three : ListingMet ((threeProcs.call [1, 2, 3] 4096).call [1, 2, 3] 4096) := by
  have first : listSystem.ReachableIf ListOk (threeProcs.call [1, 2, 3] 4096) :=
    (System.ReachableIf.init threeProcs_init).step (a := .getdents 4096) (by unfold ListOk; decide)
      (step_call 4096 rfl rfl (by decide))
  exact proc_listing_met (first.step (a := .getdents 4096) (by unfold ListOk; decide)
    (step_call 4096 rfl rfl (by decide : (viewOf [1, 2, 3]).pids = [1, 2, 3])))

/-- Process 1 exits when it is listed, and process 2 is never listed. -/
theorem listing_skips_process : ∃ s, listSystem.Reachable s ∧ ¬ ListingMet s := by
  have first : listSystem.Reachable (threeProcs.call [1, 2, 3] 80) :=
    (System.Reachable.start threeProcs_init).next (step_call 80 rfl rfl (by decide))
  have exits := first.next (ListStep.exit (a := []) rfl rfl (.inr rfl))
  have second := exits.next (step_call 4096 rfl rfl (by decide : (viewOf [2, 3]).pids = [2, 3]))
  have last := second.next (step_call 4096 rfl rfl (by decide : (viewOf [2, 3]).pids = [2, 3]))
  refine ⟨_, last, fun met => ?_⟩
  have once := met.complete rfl 2 (by decide) (by decide)
  exact absurd once (by decide)

end Inv

end Procfs

end Yos
