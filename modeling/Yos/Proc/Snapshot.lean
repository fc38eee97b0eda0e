import Mathlib.Data.List.TakeWhile
import Yos.Lib.Spans
import Yos.Libc.Env

/-!
# The memory of a forked child (`impl/proc/proc.c`)

`snapshot_wasm_memory` copies the linear memory of the parent to a zeroed buffer: the bytes before
the first host page, the runs of pages that `mincore` calls resident, and the bytes after the last
page.  It records what it copied in a bounded table.  The child replays the recorded copies on its own
memory, which holds the data segments of its program, or copies the whole buffer when the table is
empty.  `fork_memory_iff` says when the child's memory is that of the parent.

Addresses of the host do not wrap in the model, which is so for every object that does not end in the
last page of the address space.  `yos_vfork_pump` calls the same function in the same way.
-/

namespace Yos

namespace Snapshot

open Word

/-- `YOS_FORK_MAX_REGIONS`. -/
def forkMaxRegions : ℕ := 16384

/-- What the host answers during a fork. -/
structure Host where
  /-- The page size is `2 ^ pageBits`. -/
  pageBits : ℕ
  /-- `malloc` of the residency vector. -/
  mallocVec : Bool
  /-- The residency of each page, unless `mincore` fails. -/
  mincore : Option (ℕ → Bool)
  /-- `ResizeMemory` of the child. -/
  resizes : Bool

/-- `YOS_PAGE_SIZE`. -/
def Host.pageSize (host : Host) : ℕ := 2 ^ host.pageBits

/-! ## The snapshot -/

/-- The buffer, the recorded regions and whether the table overflowed. -/
structure Snap where
  dst : Bytes
  outRegions : List Span
  overflow : Bool

/-- Copy the bytes of a range and record it. -/
def Snap.take (outRegionsMax : ℕ) (src : Bytes) (snap : Snap) (r : Span) : Snap where
  dst := fun x => if r.addr ≤ x ∧ x < r.addr + r.len then src x else snap.dst x
  outRegions :=
    if snap.outRegions.length < outRegionsMax then snap.outRegions ++ [⟨u32 r.addr, u32 r.len⟩]
    else snap.outRegions
  overflow := snap.overflow || !decide (snap.outRegions.length < outRegionsMax)

/-- The bytes before the first page boundary. -/
def headLen (host : Host) (s size : ℕ) : ℕ :=
  let alignedStart := bclr (s + host.pageSize - 1) (host.pageSize - 1)
  let headLen := if s < alignedStart then alignedStart - s else 0
  if size < headLen then size else headLen

/-- The bytes in whole pages. -/
def middleSize (host : Host) (s size : ℕ) : ℕ :=
  bclr (size - headLen host s size) (host.pageSize - 1)

/-- The loop over the residency vector: the first page of each run and the page after its last. -/
def pageRuns : (i : ℕ) → List Bool → List (ℕ × ℕ)
  | _, [] => []
  | i, false :: vec => pageRuns (i + 1) vec
  | i, true :: vec =>
    let stop := i + 1 + (vec.takeWhile id).length
    (i, stop) :: pageRuns stop (vec.drop (vec.takeWhile id).length)
termination_by _ vec => vec.length

/-- The ranges that are copied from the whole pages. -/
def middleRegions (host : Host) (s size : ℕ) (vec : ℕ → Bool) : List Span :=
  let npages := middleSize host s size / host.pageSize
  (pageRuns 0 ((List.range npages).map vec)).map fun run =>
    ⟨headLen host s size + run.1 * host.pageSize, (run.2 - run.1) * host.pageSize⟩

/-- `snapshot_wasm_memory` of `size` bytes at the host address `s`, and whether it returns 0. -/
def snapshotWasmMemory (host : Host) (outRegionsMax : ℕ) (src : Bytes) (s size : ℕ) : Snap × Bool :=
  let headLen := headLen host s size
  let middleSize := middleSize host s size
  let tailLen := size - headLen - middleSize
  let snap : Snap := ⟨fun _ => 0, [], false⟩
  let snap := if 0 < headLen then snap.take outRegionsMax src ⟨0, headLen⟩ else snap
  let done (snap : Snap) : Snap × Bool :=
    let snap :=
      if 0 < tailLen then snap.take outRegionsMax src ⟨headLen + middleSize, tailLen⟩ else snap
    (snap, !snap.overflow)
  if 0 < middleSize then
    if !host.mallocVec then (snap, false)
    else
      match host.mincore with
      | none => (snap, false)
      | some vec => done ((middleRegions host s size vec).foldl (Snap.take outRegionsMax src) snap)
  else done snap

/-- The part of `fork_thread_arg_t` that is about the memory. -/
structure Arg where
  memorySnapshot : Bytes
  memorySize : ℕ
  liveRegions : List Span

/-- The part of `yos_fork_pump` that takes the snapshot. -/
def yosForkPump (host : Host) (src : Bytes) (s memSize : ℕ) : Arg :=
  let taken := snapshotWasmMemory host forkMaxRegions src s memSize
  ⟨taken.1.dst, memSize, if taken.2 then taken.1.outRegions else []⟩

/-! ## The child -/

/-- A linear memory. -/
structure Linear where
  size : ℕ
  bytes : Bytes

/-- The program of the child: the size of its memory when it is loaded, and its data segments. -/
structure Program where
  initSize : ℕ
  dataSegments : List (ℕ × List UInt8)

/-- `InitDataSegments`, in a zeroed memory. -/
def initDataSegments (program : Program) : Bytes :=
  program.dataSegments.foldl (fun m segment => writeBytes m segment.1 segment.2) fun _ => 0

/-- `ResizeMemory` to the pages of a size; what it adds is zero. -/
def resizeMemory (host : Host) (program : Program) (memorySize : ℕ) : Linear :=
  ⟨if host.resizes then memorySize / 65536 * 65536 else program.initSize, initDataSegments program⟩

/-- The loop that replays the recorded copies. -/
def replay (arg : Arg) (mem : Bytes) : List Span → Bytes
  | [] => mem
  | r :: regions =>
    if arg.memorySize < u32 (r.addr + r.len) then replay arg mem regions
    else
      replay arg
        (fun x => if r.addr ≤ x ∧ x < r.addr + r.len then arg.memorySnapshot x else mem x) regions

/-- The part of `fork_thread_func` that restores the memory. -/
def forkThreadFunc (host : Host) (program : Program) (arg : Arg) : Linear :=
  let mem := resizeMemory host program arg.memorySize
  if arg.memorySize ≤ mem.size then
    if 0 < arg.liveRegions.length then { mem with bytes := replay arg mem.bytes arg.liveRegions }
    else
      { mem with bytes := fun x => if x < arg.memorySize then arg.memorySnapshot x else mem.bytes x }
  else mem

/-- The memory of the child of a process. -/
def childMemory (host : Host) (program : Program) (src : Bytes) (s size : ℕ) : Linear :=
  forkThreadFunc host program (yosForkPump host src s size)

/-! ## What the loop copies -/

theorem getElem?_of_lt_takeWhile {vec : List Bool} {k : ℕ} (run : k < (vec.takeWhile id).length) :
    vec[k]? = some true := by
  have pre := List.takeWhile_prefix id (l := vec)
  have lt : k < vec.length := run.trans_le pre.length_le
  have set : vec[k] = true := by
    rw [← pre.getElem run]
    exact List.mem_takeWhile_imp (p := id) (List.getElem_mem run)
  rw [List.getElem?_eq_getElem lt, set]

/-- The runs are the pages that are resident. -/
theorem mem_pageRuns {vec : List Bool} {i j : ℕ} :
    (∃ run ∈ pageRuns i vec, run.1 ≤ j ∧ j < run.2) ↔ i ≤ j ∧ vec[j - i]? = some true := by
  induction i, vec using pageRuns.induct with
  | case1 i => simp [pageRuns]
  | case2 i vec ih =>
    rw [pageRuns, ih]
    rcases Nat.lt_trichotomy i j with before | rfl | after
    · rw [show j - i = (j - (i + 1)) + 1 by omega, List.getElem?_cons_succ]
      simp only [Nat.succ_le_iff, before, Nat.le_of_lt before]
    · simp
    · exact iff_of_false (by omega) (by omega)
  | case3 i vec stop ih =>
    have atStop : stop = i + 1 + (vec.takeWhile id).length := rfl
    rw [pageRuns, List.exists_mem_cons_iff]
    change (i ≤ j ∧ j < stop) ∨ (∃ run ∈ pageRuns stop _, _) ↔ _
    rw [ih, List.getElem?_drop]
    rcases Nat.lt_trichotomy i j with before | rfl | after
    · rw [show j - i = (j - i - 1) + 1 by omega, List.getElem?_cons_succ]
      by_cases run : j < stop
      · have set := getElem?_of_lt_takeWhile (show j - i - 1 < (vec.takeWhile id).length by omega)
        exact iff_of_true (Or.inl ⟨by omega, run⟩) ⟨by omega, set⟩
      · rw [show (vec.takeWhile id).length + (j - stop) = j - i - 1 by omega]
        constructor
        · rintro (first | later)
          · exact absurd first.2 run
          · exact ⟨by omega, later.2⟩
        · exact fun set => Or.inr ⟨by omega, set.2⟩
    · exact iff_of_true (Or.inl ⟨Nat.le_refl i, by omega⟩) (by simp)
    · exact iff_of_false (by omega) (by omega)

/-- What a list of copies does. -/
theorem foldl_take (outRegionsMax : ℕ) (src : Bytes) (snap : Snap) {regions : List Span}
    (small : ∀ r ∈ regions, r.addr < 2 ^ 32 ∧ r.len < 2 ^ 32)
    (bound : snap.outRegions.length ≤ outRegionsMax) :
    (∀ x, (regions.foldl (Snap.take outRegionsMax src) snap).dst x =
        if ∃ r ∈ regions, r.Has x then src x else snap.dst x) ∧
      (regions.foldl (Snap.take outRegionsMax src) snap).outRegions =
        snap.outRegions ++ regions.take (outRegionsMax - snap.outRegions.length) ∧
      (regions.foldl (Snap.take outRegionsMax src) snap).overflow =
        (snap.overflow || decide (outRegionsMax < snap.outRegions.length + regions.length)) := by
  induction regions generalizing snap with
  | nil => simp [Nat.not_lt.2 bound]
  | cons r regions ih =>
    obtain ⟨addr, len⟩ := small r (by simp)
    rw [List.foldl_cons]
    have small' : ∀ q ∈ regions, q.addr < 2 ^ 32 ∧ q.len < 2 ^ 32 :=
      fun q hq => small q (by simp [hq])
    have cons (x : ℕ) : (∃ q ∈ r :: regions, q.Has x) ↔ r.Has x ∨ ∃ q ∈ regions, q.Has x :=
      List.exists_mem_cons_iff _ _ _
    have bytes (x : ℕ) (later : Bytes)
        (step : ∀ x, later x = if ∃ q ∈ regions, q.Has x then src x
          else (snap.take outRegionsMax src r).dst x) :
        later x = if ∃ q ∈ r :: regions, q.Has x then src x else snap.dst x := by
      rw [step x]
      by_cases rest : ∃ q ∈ regions, q.Has x
      · rw [if_pos rest, if_pos ((cons x).2 (Or.inr rest))]
      · rw [if_neg rest]
        by_cases here : r.Has x
        · rw [if_pos ((cons x).2 (Or.inl here))]
          exact if_pos here
        · rw [if_neg fun some => ((cons x).1 some).elim here rest]
          exact if_neg here
    by_cases room : snap.outRegions.length < outRegionsMax
    · have recorded : (snap.take outRegionsMax src r).outRegions = snap.outRegions ++ [r] := by
        rw [Snap.take, if_pos room, u32_of_lt addr, u32_of_lt len]
      obtain ⟨h₁, h₂, h₃⟩ := ih (snap.take outRegionsMax src r) small' (by
        rw [recorded, List.length_append, List.length_singleton]
        omega)
      refine ⟨fun x => bytes x _ h₁, ?_, ?_⟩
      · rw [h₂, recorded, List.length_append, List.length_singleton, List.append_assoc,
          show outRegionsMax - snap.outRegions.length =
            outRegionsMax - (snap.outRegions.length + 1) + 1 by omega]
        rfl
      · rw [h₃, recorded]
        simp [Snap.take, room, Nat.add_assoc, Nat.add_comm 1]
    · have recorded : (snap.take outRegionsMax src r).outRegions = snap.outRegions := by
        rw [Snap.take, if_neg room]
      obtain ⟨h₁, h₂, h₃⟩ := ih (snap.take outRegionsMax src r) small' (by
        rw [recorded]
        exact bound)
      refine ⟨fun x => bytes x _ h₁, ?_, ?_⟩
      · rw [h₂, recorded, show outRegionsMax - snap.outRegions.length = 0 by omega]
        rfl
      · rw [h₃, recorded]
        have full : outRegionsMax < snap.outRegions.length + (regions.length + 1) := by omega
        simp [Snap.take, room, full]

/-- The runs are not empty and lie in the vector. -/
theorem pageRuns_bounds {vec : List Bool} {i : ℕ} :
    ∀ run ∈ pageRuns i vec, i ≤ run.1 ∧ run.1 < run.2 := by
  induction i, vec using pageRuns.induct with
  | case1 i => simp [pageRuns]
  | case2 i vec ih =>
    rw [pageRuns]
    intro run mem
    have := ih run mem
    omega
  | case3 i vec stop ih =>
    have atStop : stop = i + 1 + (vec.takeWhile id).length := rfl
    rw [pageRuns]
    intro run mem
    rcases List.mem_cons.1 mem with rfl | mem
    · exact ⟨Nat.le_refl i, by dsimp only; omega⟩
    · have := ih run mem
      omega

section Copied

variable (host : Host) (s size : ℕ) (vec : ℕ → Bool)

/-- The ranges that are copied when nothing fails. -/
def copied : List Span :=
  (if 0 < headLen host s size then [⟨0, headLen host s size⟩] else []) ++
    middleRegions host s size vec ++
    if 0 < size - headLen host s size - middleSize host s size then
      [⟨headLen host s size + middleSize host s size,
        size - headLen host s size - middleSize host s size⟩]
    else []

/-- The byte is in a page that is not resident. -/
def Absent (x : ℕ) : Prop :=
  headLen host s size ≤ x ∧ x < headLen host s size + middleSize host s size ∧
    vec ((x - headLen host s size) / host.pageSize) = false

instance (x : ℕ) : Decidable (Absent host s size vec x) := inferInstanceAs (Decidable (_ ∧ _))

theorem pageSize_pos : 0 < host.pageSize := Nat.two_pow_pos _

theorem headLen_le : headLen host s size ≤ size := by
  unfold headLen
  dsimp only
  split_ifs <;> omega

theorem middleSize_eq :
    middleSize host s size = (size - headLen host s size) / host.pageSize * host.pageSize :=
  bclr_two_pow _ _

theorem middleSize_le : headLen host s size + middleSize host s size ≤ size := by
  have head := headLen_le host s size
  have rounded := Nat.div_mul_le_self (size - headLen host s size) host.pageSize
  rw [middleSize_eq]
  omega

theorem mem_middleRegions (x : ℕ) :
    (∃ r ∈ middleRegions host s size vec, r.Has x) ↔
      headLen host s size ≤ x ∧ x < headLen host s size + middleSize host s size ∧
        vec ((x - headLen host s size) / host.pageSize) = true := by
  have pos := pageSize_pos host
  have rounded := middleSize_eq host s size
  have pages : middleSize host s size / host.pageSize * host.pageSize = middleSize host s size := by
    rw [rounded, Nat.mul_div_cancel _ pos]
  unfold middleRegions
  dsimp only
  generalize middleSize host s size / host.pageSize = n at pages
  generalize headLen host s size = head at *
  rw [← pages]
  -- a run has the byte if it has its page
  have inRun (run : ℕ × ℕ) (order : run.1 < run.2) :
      Span.Has ⟨head + run.1 * host.pageSize, (run.2 - run.1) * host.pageSize⟩ x ↔
        head ≤ x ∧ run.1 ≤ (x - head) / host.pageSize ∧ (x - head) / host.pageSize < run.2 := by
    have split : run.2 * host.pageSize = run.1 * host.pageSize + (run.2 - run.1) * host.pageSize := by
      rw [← Nat.add_mul, Nat.add_sub_cancel' (Nat.le_of_lt order)]
    rw [Nat.le_div_iff_mul_le pos, Nat.div_lt_iff_lt_mul pos]
    unfold Span.Has
    dsimp only
    omega
  have listed : (∃ run ∈ pageRuns 0 ((List.range n).map vec),
      run.1 ≤ (x - head) / host.pageSize ∧ (x - head) / host.pageSize < run.2) ↔
      (x - head) / host.pageSize < n ∧ vec ((x - head) / host.pageSize) = true := by
    rw [mem_pageRuns]
    simp [List.getElem?_eq_some_iff]
  rw [Nat.div_lt_iff_lt_mul pos] at listed
  constructor
  · rintro ⟨r, mem, has⟩
    obtain ⟨run, hrun, rfl⟩ := List.mem_map.1 mem
    obtain ⟨low, page⟩ := (inRun run (pageRuns_bounds run hrun).2).1 has
    obtain ⟨high, set⟩ := listed.1 ⟨run, hrun, page⟩
    exact ⟨low, by omega, set⟩
  · rintro ⟨low, high, set⟩
    obtain ⟨run, hrun, page⟩ := listed.2 ⟨by omega, set⟩
    exact ⟨_, List.mem_map_of_mem hrun, (inRun run (pageRuns_bounds run hrun).2).2 ⟨low, page⟩⟩

theorem has_if {a n x : ℕ} :
    (∃ r ∈ (if 0 < n then [(⟨a, n⟩ : Span)] else []), r.Has x) ↔ a ≤ x ∧ x < a + n := by
  by_cases some : 0 < n
  · rw [if_pos some]
    simp [Span.Has]
  · rw [if_neg some]
    simp only [List.not_mem_nil, false_and, exists_false, false_iff]
    omega

/-- Everything is copied but the pages that are not resident. -/
theorem has_copied (x : ℕ) :
    (∃ r ∈ copied host s size vec, r.Has x) ↔ x < size ∧ ¬ Absent host s size vec x := by
  have middle := mem_middleRegions host s size vec x
  have head := headLen_le host s size
  have whole := middleSize_le host s size
  have split : (∃ r ∈ copied host s size vec, r.Has x) ↔
      (x < headLen host s size ∨ ∃ r ∈ middleRegions host s size vec, r.Has x) ∨
        headLen host s size + middleSize host s size ≤ x ∧ x < size := by
    have last : headLen host s size + middleSize host s size + (size - headLen host s size -
        middleSize host s size) = size := by omega
    unfold copied
    simp only [List.mem_append, or_and_right, exists_or]
    rw [has_if, has_if, last, Nat.zero_add]
    simp only [Nat.zero_le, true_and]
  rw [split, middle]
  unfold Absent
  rcases vec ((x - headLen host s size) / host.pageSize) with - | -
  · simp only [Bool.false_eq_true, and_false, or_false, and_true]
    omega
  · simp only [Bool.true_eq_false, and_false, not_false_eq_true, and_true]
    omega

variable {host s size vec}

theorem mem_copied {r : Span} (mem : r ∈ copied host s size vec) : 0 < r.len ∧ r.fin ≤ size := by
  have pos : 0 < r.len := by
    unfold copied at mem
    rcases List.mem_append.1 mem with mem | mem
    · rcases List.mem_append.1 mem with mem | mem
      · split_ifs at mem with some
        · rw [List.mem_singleton.1 mem]
          exact some
        · simp at mem
      · obtain ⟨run, hrun, rfl⟩ := List.mem_map.1 mem
        exact Nat.mul_pos (Nat.sub_pos_of_lt (pageRuns_bounds run hrun).2) (pageSize_pos host)
    · split_ifs at mem with some
      · rw [List.mem_singleton.1 mem]
        exact some
      · simp at mem
  refine ⟨pos, ?_⟩
  have last := ((has_copied host s size vec _).1 ⟨r, mem, show r.Has (r.addr + r.len - 1) by
    unfold Span.Has
    omega⟩).1
  unfold Span.fin
  omega

end Copied

/-! ## What the snapshot holds -/

/-- The residency of the whole pages is not known. -/
def Fails (host : Host) (s size : ℕ) : Prop :=
  0 < middleSize host s size ∧ (host.mallocVec = false ∨ host.mincore = none)

instance (host : Host) (s size : ℕ) : Decidable (Fails host s size) :=
  inferInstanceAs (Decidable (_ ∧ (_ ∨ _)))

/-- The residency that `mincore` answers. -/
def Host.resident (host : Host) : ℕ → Bool := host.mincore.getD fun _ => false

section Snapshot

variable {host : Host} {outRegionsMax s size : ℕ} {src : Bytes}

theorem foldl_take_if (snap : Snap) (r : Span) (p : Prop) [Decidable p] :
    (if p then [r] else []).foldl (Snap.take outRegionsMax src) snap =
      if p then snap.take outRegionsMax src r else snap := by
  split_ifs <;> rfl

theorem snapshot_done (outRegionsMax : ℕ) (src : Bytes) (known : ¬ Fails host s size) :
    snapshotWasmMemory host outRegionsMax src s size =
      ((copied host s size host.resident).foldl (Snap.take outRegionsMax src)
          ⟨fun _ => 0, [], false⟩,
        !((copied host s size host.resident).foldl (Snap.take outRegionsMax src)
          ⟨fun _ => 0, [], false⟩).overflow) := by
  unfold copied
  rw [List.foldl_append, List.foldl_append, foldl_take_if, foldl_take_if]
  unfold snapshotWasmMemory
  dsimp only
  by_cases pages : 0 < middleSize host s size
  · have answers : ∃ vec, host.mallocVec = true ∧ host.mincore = some vec := by
      unfold Fails at known
      rcases answer : host.mincore with _ | vec
      · exact absurd ⟨pages, Or.inr answer⟩ known
      · exact ⟨vec, by simpa [pages, answer] using known, rfl⟩
    obtain ⟨vec, malloc, mincore⟩ := answers
    rw [if_pos pages, malloc, Host.resident, mincore]
    rfl
  · have none : middleRegions host s size host.resident = [] := by
      unfold middleRegions
      rw [Nat.eq_zero_of_not_pos pages, Nat.zero_div]
      simp [pageRuns]
    rw [if_neg pages, none]
    rfl

theorem snapshot_failed (failed : Fails host s size) :
    snapshotWasmMemory host outRegionsMax src s size =
      ((if 0 < headLen host s size then [⟨0, headLen host s size⟩] else []).foldl
        (Snap.take outRegionsMax src) ⟨fun _ => 0, [], false⟩, false) := by
  obtain ⟨pages, failed⟩ := failed
  rw [foldl_take_if]
  unfold snapshotWasmMemory
  dsimp only
  rw [if_pos pages]
  rcases failed with malloc | mincore
  · rw [malloc]
    rfl
  · rw [mincore]
    rcases host.mallocVec <;> rfl

end Snapshot

theorem replay_apply {arg : Arg} {mem : Bytes} {regions : List Span} (word : arg.memorySize < 2 ^ 32)
    (inside : ∀ r ∈ regions, r.fin ≤ arg.memorySize) (x : ℕ) :
    replay arg mem regions x =
      if ∃ r ∈ regions, r.Has x then arg.memorySnapshot x else mem x := by
  induction regions generalizing mem with
  | nil => simp [replay]
  | cons r regions ih =>
    have fits := inside r (by simp)
    unfold Span.fin at fits
    have cons : (∃ q ∈ r :: regions, q.Has x) ↔ r.Has x ∨ ∃ q ∈ regions, q.Has x :=
      List.exists_mem_cons_iff _ _ _
    rw [replay, u32_of_lt (by omega), if_neg (by omega), ih fun q hq => inside q (by simp [hq])]
    by_cases rest : ∃ q ∈ regions, q.Has x
    · rw [if_pos rest, if_pos (cons.2 (Or.inr rest))]
    · rw [if_neg rest]
      by_cases here : r.Has x
      · rw [if_pos (cons.2 (Or.inl here))]
        exact if_pos here
      · rw [if_neg fun some => (cons.1 some).elim here rest]
        exact if_neg here

/-! ## The child -/

/-- When the child's memory is that of the parent. -/
def Keeps (host : Host) (program : Program) (src : Bytes) (s size : ℕ) : Prop :=
  (if host.resizes then 65536 ∣ size else program.initSize = size) ∧
    if Fails host s size then ∀ x, headLen host s size ≤ x → x < size → src x = 0
    else
      copied host s size host.resident = [] ∨
        forkMaxRegions < (copied host s size host.resident).length ∨
        ∀ x, Absent host s size host.resident x → initDataSegments program x = 0

theorem resized_iff (host : Host) (program : Program) (size : ℕ) :
    (resizeMemory host program size).size = size ↔
      if host.resizes then 65536 ∣ size else program.initSize = size := by
  unfold resizeMemory
  dsimp only
  split_ifs
  · exact ⟨fun exact_pages => ⟨size / 65536, by omega⟩, fun divides => Nat.div_mul_cancel divides⟩
  · rfl

/-- The size is settled before the bytes. -/
theorem forkThreadFunc_size (host : Host) (program : Program) (arg : Arg) :
    (forkThreadFunc host program arg).size = (resizeMemory host program arg.memorySize).size := by
  unfold forkThreadFunc
  dsimp only
  split_ifs <;> rfl

theorem forkThreadFunc_bytes {host : Host} {program : Program} {snapshot : Bytes} {size : ℕ}
    {regions : List Span} (sized : (resizeMemory host program size).size = size)
    (word : size < 2 ^ 32) (inside : ∀ r ∈ regions, r.fin ≤ size) {x : ℕ} (lt : x < size) :
    (forkThreadFunc host program ⟨snapshot, size, regions⟩).bytes x =
      if regions = [] ∨ ∃ r ∈ regions, r.Has x then snapshot x else initDataSegments program x := by
  unfold forkThreadFunc
  dsimp only
  rw [if_pos (Nat.le_of_eq sized.symm)]
  by_cases none : regions = []
  · rw [if_neg (by simp [none]), if_pos (Or.inl none)]
    exact if_pos lt
  · rw [if_pos (List.length_pos_iff.2 none)]
    simp only [none, false_or]
    exact replay_apply word inside x

theorem child_failed {host : Host} {program : Program} {src : Bytes} {s size : ℕ}
    (word : size < 2 ^ 32) (sized : (resizeMemory host program size).size = size)
    (failed : Fails host s size) {x : ℕ} (lt : x < size) :
    (childMemory host program src s size).bytes x = if x < headLen host s size then src x else 0 := by
  have head := headLen_le host s size
  have taken : yosForkPump host src s size = ⟨((if 0 < headLen host s size then
      [(⟨0, headLen host s size⟩ : Span)] else []).foldl (Snap.take forkMaxRegions src)
        ⟨fun _ => 0, [], false⟩).dst, size, []⟩ := by
    unfold yosForkPump
    rw [snapshot_failed failed]
    rfl
  have small : ∀ r ∈ (if 0 < headLen host s size then [(⟨0, headLen host s size⟩ : Span)] else []),
      r.addr < 2 ^ 32 ∧ r.len < 2 ^ 32 := by
    intro r mem
    split_ifs at mem with some
    · rw [List.mem_singleton.1 mem]
      exact ⟨Nat.two_pow_pos 32, by dsimp only; omega⟩
    · simp at mem
  unfold childMemory
  rw [taken, forkThreadFunc_bytes sized word (by simp) lt, if_pos (Or.inl rfl)]
  obtain ⟨dst, -, -⟩ := foldl_take forkMaxRegions src ⟨fun _ => 0, [], false⟩ small (Nat.zero_le _)
  rw [dst x]
  simp only [has_if, Nat.zero_le, true_and, Nat.zero_add]

theorem child_known {host : Host} {program : Program} {src : Bytes} {s size : ℕ}
    (word : size < 2 ^ 32) (sized : (resizeMemory host program size).size = size)
    (known : ¬ Fails host s size)
    (zero : ∀ x, Absent host s size host.resident x → src x = 0) {x : ℕ} (lt : x < size) :
    (childMemory host program src s size).bytes x =
      if copied host s size host.resident = [] ∨
          forkMaxRegions < (copied host s size host.resident).length ∨
          ¬ Absent host s size host.resident x then src x
      else initDataSegments program x := by
  have done := snapshot_done forkMaxRegions src known
  have inside : ∀ r ∈ copied host s size host.resident, r.fin ≤ size := fun r mem => (mem_copied mem).2
  have has := has_copied host s size host.resident x
  generalize copied host s size host.resident = regions at done inside has ⊢
  have small : ∀ r ∈ regions, r.addr < 2 ^ 32 ∧ r.len < 2 ^ 32 := by
    intro r mem
    have within := inside r mem
    unfold Span.fin at within
    omega
  obtain ⟨dst, recorded, overflow⟩ :=
    foldl_take forkMaxRegions src ⟨fun _ => 0, [], false⟩ small (Nat.zero_le _)
  have arg : yosForkPump host src s size =
      ⟨(regions.foldl (Snap.take forkMaxRegions src) ⟨fun _ => 0, [], false⟩).dst, size,
        if forkMaxRegions < regions.length then [] else regions⟩ := by
    unfold yosForkPump
    rw [done]
    dsimp only
    rw [overflow, recorded, Bool.false_or, List.length_nil, Nat.zero_add, Nat.sub_zero,
      List.nil_append]
    by_cases full : forkMaxRegions < regions.length
    · rw [if_pos full, decide_eq_true full]
      rfl
    · rw [if_neg full, decide_eq_false full, List.take_of_length_le (Nat.le_of_not_lt full)]
      rfl
  -- the buffer is exact, whether or not the table overflowed
  have exact_copy :
      (regions.foldl (Snap.take forkMaxRegions src) ⟨fun _ => 0, [], false⟩).dst x = src x := by
    rw [dst x]
    split_ifs with some
    · rfl
    · exact (zero x (of_not_not fun here => some (has.2 ⟨lt, here⟩))).symm
  have within : ∀ r ∈ (if forkMaxRegions < regions.length then [] else regions), r.fin ≤ size := by
    split_ifs
    · simp
    · exact inside
  unfold childMemory
  rw [arg, forkThreadFunc_bytes sized word within lt, exact_copy]
  refine if_congr ?_ rfl rfl
  by_cases full : forkMaxRegions < regions.length
  · rw [if_pos full]
    exact iff_of_true (Or.inl rfl) (Or.inr (Or.inl full))
  · rw [if_neg full, has]
    exact or_congr_right
      ⟨fun here => Or.inr here.2, fun here => ⟨lt, here.resolve_left full⟩⟩

/-- When the snapshot fails, the child has what the parent has before the first page, and zeros. -/
theorem child_failed_iff {host : Host} {program : Program} {src : Bytes} {s size : ℕ}
    (word : size < 2 ^ 32) (sized : (resizeMemory host program size).size = size)
    (failed : Fails host s size) :
    (∀ x < size, (childMemory host program src s size).bytes x = src x) ↔
      ∀ x, headLen host s size ≤ x → x < size → src x = 0 := by
  constructor
  · intro same x low high
    rw [← same x high, child_failed word sized failed high, if_neg (Nat.not_lt.2 low)]
  · intro zeros x high
    rw [child_failed word sized failed high]
    split_ifs with low
    · rfl
    · exact (zeros x (Nat.le_of_not_lt low) high).symm

/-- The pages that are not copied hold what the program starts with, unless the whole buffer is. -/
theorem child_known_iff {host : Host} {program : Program} {src : Bytes} {s size : ℕ}
    (word : size < 2 ^ 32) (sized : (resizeMemory host program size).size = size)
    (known : ¬ Fails host s size)
    (zero : ∀ x, Absent host s size host.resident x → src x = 0) :
    (∀ x < size, (childMemory host program src s size).bytes x = src x) ↔
      copied host s size host.resident = [] ∨
        forkMaxRegions < (copied host s size host.resident).length ∨
        ∀ x, Absent host s size host.resident x → initDataSegments program x = 0 := by
  have inside := middleSize_le host s size
  constructor
  · intro same
    by_cases none : copied host s size host.resident = []
    · exact Or.inl none
    by_cases full : forkMaxRegions < (copied host s size host.resident).length
    · exact Or.inr (Or.inl full)
    refine Or.inr (Or.inr fun x away => ?_)
    have lt : x < size := Nat.lt_of_lt_of_le away.2.1 inside
    have kept := same x lt
    rwa [child_known word sized known zero lt,
      if_neg fun copies => copies.elim none fun copies => copies.elim full fun here => here away,
      zero x away] at kept
  · intro keeps x lt
    rw [child_known word sized known zero lt]
    split_ifs with copies
    · rfl
    · have away : Absent host s size host.resident x :=
        of_not_not fun here => copies (Or.inr (Or.inr here))
      rcases keeps with none | full | fresh
      · exact absurd (Or.inl none) copies
      · exact absurd (Or.inr (Or.inl full)) copies
      · rw [fresh x away, zero x away]

/-- The child's memory is that of the parent exactly under the condition. -/
theorem fork_memory_iff (host : Host) (program : Program) (src : Bytes) (s size : ℕ)
    (word : size < 2 ^ 32)
    (zero : ∀ vec, host.mincore = some vec → ∀ x, Absent host s size vec x → src x = 0) :
    ((childMemory host program src s size).size = size ∧
        ∀ x < size, (childMemory host program src s size).bytes x = src x) ↔
      Keeps host program src s size := by
  have size_eq : (childMemory host program src s size).size = (resizeMemory host program size).size :=
    forkThreadFunc_size host program _
  unfold Keeps
  rw [size_eq, ← resized_iff host program size]
  refine and_congr_right fun sized => ?_
  by_cases failed : Fails host s size
  · rw [if_pos failed]
    exact child_failed_iff word sized failed
  · rw [if_neg failed]
    refine child_known_iff word sized failed fun x away => ?_
    obtain ⟨low, high, out⟩ := away
    rcases answer : host.mincore with _ | vec
    · have inside := middleSize_le host s size
      exact absurd ⟨by omega, Or.inr answer⟩ failed
    · refine zero vec answer x ⟨low, high, ?_⟩
      rwa [Host.resident, answer] at out

/-! ## Two children -/

/-- A host with 4 KiB pages whose `mincore` answers the residency of each page, or fails. -/
def small (mincore : Option (ℕ → Bool)) : Host := ⟨12, true, mincore, true⟩

/-- A program with 64 KiB of memory whose byte 8192 starts as 1. -/
def oneByte : Program := ⟨65536, [(8192, [1])]⟩

/-- A parent that cleared that byte and wrote a 7 at 4096. -/
def seven : Bytes := fun x => if x = 4096 then 7 else 0

theorem fork_memory_iff_resident :
    Keeps (small (some fun _ => true)) oneByte seven 4096 65536 ∧
      (childMemory (small (some fun _ => true)) oneByte seven 4096 65536).bytes 4096 = 7 := by
  have keeps : Keeps (small (some fun _ => true)) oneByte seven 4096 65536 := by
    refine ⟨by decide, ?_⟩
    rw [if_neg (by decide)]
    refine Or.inr (Or.inr fun x away => ?_)
    exact absurd away.2.2 (by simp [Host.resident, small])
  have exact_copy := (fork_memory_iff (small (some fun _ => true)) oneByte seven 4096 65536
    (by decide) fun vec answer x away => by
      cases answer
      exact absurd away.2.2 (by simp)).2 keeps
  exact ⟨keeps, exact_copy.2 4096 (by decide)⟩

theorem copied_two_pages :
    copied (small (some (· < 2))) 4096 65536 (small (some (· < 2))).resident = [⟨0, 8192⟩] := by
  have head : headLen (small (some (· < 2))) 4096 65536 = 0 := by decide
  have middle : middleSize (small (some (· < 2))) 4096 65536 = 65536 := by decide
  have pages : (List.range 16).map (small (some (· < 2))).resident =
      true :: true :: List.replicate 14 false := by decide
  unfold copied middleRegions
  rw [head, middle]
  change [] ++ (pageRuns 0 ((List.range 16).map _)).map _ ++ [] = _
  rw [pages]
  simp [pageRuns, List.replicate_succ, small, Host.pageSize]

/-- The two pages at the start are resident in the second parent. -/
theorem fork_memory_loses :
    (childMemory (small none) oneByte seven 4096 65536).bytes 4096 = 0 ∧ seven 4096 = 7 ∧
      (∀ x, Absent (small (some (· < 2))) 4096 65536 (· < 2) x → seven x = 0) ∧
      (childMemory (small (some (· < 2))) oneByte seven 4096 65536).bytes 8192 = 1 ∧
      seven 8192 = 0 := by
  have zero : ∀ x, Absent (small (some (· < 2))) 4096 65536 (· < 2) x → seven x = 0 := by
    intro x away
    refine if_neg fun at_page => ?_
    subst at_page
    exact absurd away (by decide)
  refine ⟨?_, rfl, zero, ?_, rfl⟩
  · rw [child_failed (by decide) (by decide) (by decide) (by decide)]
    decide
  · rw [child_known (by decide) (by decide) (by decide) zero (by decide), copied_two_pages]
    decide

end Snapshot

end Yos
