import Yos.Io.DirStream

/-!
# The account of the directory streams (`impl/io/dir.c`)

What a process holds is what its open streams hold and what it holds beside them (`Conserved`), in every run of
the calls that `DirOk` allows (`dirs_conserved`).  Each call takes and gives resources through a few updates,
whose effect on the account is said once.  The calls that `DirOk` excludes lose what they acquire: a stream of
a virtual directory is closed without its file, and an open that runs out of slots or of memory keeps the
virtual file or the guest descriptor, or closes the descriptor that the guest handed in.
-/

namespace Yos.DirStream

open Word Bytes

/-! ## The updates -/

section Updates

variable {s : DirCtx} {x : DirRes} {k h w i : ℕ} {slot : DirSlot} {file : VfsFile}

theorem has_setDir : (s.setDir k (some slot)).Has x ↔ s.Has x ∨ x = .slot k := by
  cases x with
  | slot j =>
    simp only [DirCtx.Has, DirCtx.setDir, Function.update_apply]
    split_ifs with same <;> simp [same]
  | _ => exact ⟨Or.inl, fun or => or.resolve_right nofun⟩

theorem has_dropDir : (s.setDir k none).Has x ↔ s.Has x ∧ x ≠ .slot k := by
  cases x with
  | slot j =>
    simp only [DirCtx.Has, DirCtx.setDir, Function.update_apply]
    split_ifs with same <;> simp [same]
  | _ => exact ⟨fun has => ⟨has, nofun⟩, And.left⟩

theorem has_openHost : (s.setHost h true).Has x ↔ s.Has x ∨ x = .host h := by
  cases x with
  | host j =>
    simp only [DirCtx.Has, DirCtx.setHost, Function.update_apply]
    split_ifs with same <;> simp [same]
  | _ => exact ⟨Or.inl, fun or => or.resolve_right nofun⟩

theorem has_closeHost : (s.setHost h false).Has x ↔ s.Has x ∧ x ≠ .host h := by
  cases x with
  | host j =>
    simp only [DirCtx.Has, DirCtx.setHost, Function.update_apply]
    split_ifs with same <;> simp [same]
  | _ => exact ⟨fun has => ⟨has, nofun⟩, And.left⟩

theorem has_setFile (used : file.inUse = true) : (s.setFile i file).Has x ↔ s.Has x ∨ x = .file i := by
  cases x with
  | file j =>
    simp only [DirCtx.Has, DirCtx.setFile, Function.update_apply]
    split_ifs with same <;> simp [same, used]
  | _ => exact ⟨Or.inl, fun or => or.resolve_right nofun⟩

/-- An entry of `fd_map` that was free. -/
theorem has_setFd (free : s.fdMap w < 0) :
    DirCtx.Has { s with fdMap := Function.update s.fdMap w h } x ↔ s.Has x ∨ x = .fd w h := by
  cases x with
  | fd v j =>
    simp only [DirCtx.Has, Function.update_apply, DirRes.fd.injEq]
    split_ifs with same
    · rw [same]
      constructor
      · exact fun eq => Or.inr ⟨rfl, (Nat.cast_inj.mp eq).symm⟩
      · rintro (old | ⟨-, rfl⟩)
        · omega
        · rfl
    · simp [same]
  | _ => exact ⟨Or.inl, fun or => or.resolve_right nofun⟩

/-- An entry of `fd_map` that is cleared. -/
theorem has_dropFd (mapped : s.fdMap w = h) :
    DirCtx.Has { s with fdMap := Function.update s.fdMap w (-1) } x ↔ s.Has x ∧ x ≠ .fd w h := by
  cases x with
  | fd v j =>
    simp only [DirCtx.Has, Function.update_apply, ne_eq, DirRes.fd.injEq]
    split_ifs with same
    · rw [same, mapped]
      constructor
      · exact False.elim
      · exact fun both => absurd ⟨rfl, (Nat.cast_inj.mp both.1).symm⟩ both.2
    · simp [same]
  | _ => exact ⟨fun has => ⟨has, nofun⟩, And.left⟩

end Updates

/-! ## The two blocks -/

section Blocks

variable {mem : MemCtx} {held : List HeldPtr} {k : ℕ}

/-- The blocks of a stream are allocated, and the header is in place. -/
structure Finalised (mem : MemCtx) (held : List HeldPtr) (k : ℕ) (mem' : MemCtx) (scratch dd : HeldPtr) : Prop where
  move : HeapMove ⟨mem, held⟩ ⟨mem', dd :: scratch :: held⟩
  sizes : scratch.size = fbsdDirentSize ∧ dd.size = ddSize
  header : mem'.memory.read32 (dd.ptr + 4) = k

theorem slotFinalise_cases (inv : AllocInv ⟨mem, held⟩) (small : k < 2 ^ 32) (wasmFd : ℤ) :
    (Finalises mem ∧ ∃ mem' scratch dd, slotFinalise mem k wasmFd = some (mem', some (scratch.ptr, dd.ptr)) ∧
        Finalised mem held k mem' scratch dd) ∨
      (¬ Finalises mem ∧ ∃ mem', slotFinalise mem k wasmFd = some (mem', none) ∧
        HeapMove ⟨mem, held⟩ ⟨mem', held⟩) := by
  unfold Finalises slotFinalise
  rcases inv.malloc_cases (show Fits fbsdDirentSize by decide) with ⟨mem₁, eq, move⟩ | ⟨mem₁, scratch, done⟩
  · right
    rw [servedCount_of_zero (by rw [eq]), eq]
    exact ⟨by decide, mem₁, rfl, move⟩
  · have count := servedCount_of_allocated [ddSize] done
    dsimp only at count
    rw [count, done.eq]
    dsimp only
    rw [if_neg done.ptr_ne]
    rcases done.move.inv.malloc_cases (show Fits ddSize by decide) with ⟨mem₂, eq, move⟩ | ⟨mem₂, dd, done'⟩
    · right
      rw [servedCount_of_zero (by rw [eq]), eq]
      obtain ⟨mem₃, freed, back⟩ := move.inv.free_move (h := scratch) List.mem_cons_self
      have left : (scratch :: held).erase scratch = held := List.erase_cons_head _ _
      rw [left] at back
      refine ⟨by decide, mem₃, ?_, (done.move.trans move fun _ mine _ => ?_).trans back fun x mine _ => ?_⟩
      · dsimp only at freed
        rw [if_pos rfl, freed]
        rfl
      · exact done.move.mine_of_subset (fun _ => List.mem_cons_of_mem scratch) mine
      · exact move.mine_of_subset (fun _ => id) (done.move.mine_of_subset (fun _ => List.mem_cons_of_mem scratch) mine)
    · left
      have count' := servedCount_of_allocated [] done'
      dsimp only at count'
      rw [count', done'.eq]
      dsimp only
      rw [if_neg done'.ptr_ne]
      have bounds := done'.move.inv.bounds (h := dd) List.mem_cons_self
      have move : HeapMove ⟨mem, held⟩ ⟨mem₂, [dd, scratch] ++ held⟩ :=
        Allocated.after (s := ⟨mem, held⟩) (e := [scratch]) done' done.move
      let memory := (mem₂.memory.write32 dd.ptr (wasmFd % 2 ^ 32).toNat).write32 (dd.ptr + 4) k
      refine ⟨rfl, { mem₂ with memory }, scratch, dd, rfl, ?_, ⟨done.asked, done'.asked⟩, read32_write32_self small⟩
      refine HeapMove.fillNew (e := [dd, scratch]) move fun x changed => ⟨dd, List.mem_cons_self, ?_⟩
      have inside : dd.ptr ≤ x ∧ x < dd.ptr + 8 := by
        by_contra out
        exact changed ((write32_apply_of_disjoint (by omega)).trans (write32_apply_of_disjoint (by omega)))
      have size : dd.size = 8 := done'.asked
      have owns := done'.move.inv.owns (h := dd) List.mem_cons_self (i := x - dd.ptr) (by omega)
      rwa [Nat.add_sub_cancel' inside.1] at owns

end Blocks

/-! ## Streams -/

section Streams

variable {g : GuestHeap} {r r' : DirRest} {s s' : DirCtx} {l l' : List Stream} {st : Stream} {slot slot' : DirSlot}
  {k : ℕ}

theorem Stream.slot_mem (st : Stream) : .slot st.k ∈ st.res := by
  unfold res
  split <;> exact List.mem_cons_self

theorem Stream.back_mem (st : Stream) : st.back ∈ st.res := by
  unfold res
  split <;> exact List.mem_cons_of_mem _ List.mem_cons_self

theorem DirBack.res_ne_slot (back : DirBack) : back.res ≠ .slot k := by
  cases back <;> nofun

/-- The slot of a stream is its own. -/
theorem Stream.At.slot_mem_iff (place : st.At s slot) : .slot k ∈ st.res ↔ k = st.k := by
  have other := slot.back.res_ne_slot (k := k)
  rw [place.back] at other
  unfold res
  split <;> simp [other.symm]

theorem Stream.At.fd_of_mem (place : st.At s slot) {w h : ℕ} (own : .fd w h ∈ st.res) : st.fd = some (w, h) := by
  have other : st.back ≠ .fd w h := by
    rw [← place.back]
    cases slot.back <;> nofun
  unfold res at own
  cases entry : st.fd with
  | none =>
    rw [entry] at own
    simp [other.symm] at own
  | some p =>
    rw [entry] at own
    simp only [List.mem_cons, reduceCtorEq, other.symm, DirRes.fd.injEq, List.not_mem_nil, or_false, false_or] at own
    rw [own.1, own.2]

/-- The slot, changed but for what it refers to. -/
theorem Stream.At.change (place : st.At s slot) (stored : s'.dirs st.k = some slot')
    (back : slot'.back.res = slot.back.res)
    (same : slot'.scratchOff = slot.scratchOff ∧ slot'.ddOff = slot.ddOff ∧ slot'.wasmFd = slot.wasmFd)
    (header : s'.mem.memory.read32 (st.dd.ptr + 4) = s.mem.memory.read32 (st.dd.ptr + 4)) : st.At s' slot' where
  stored := stored
  back := back.trans place.back
  scratch := ⟨same.1.trans place.scratch.1, place.scratch.2⟩
  dd := ⟨same.2.1.trans place.dd.1, place.dd.2⟩
  fd := same.2.2 ▸ place.fd
  noFd := same.2.2 ▸ place.noFd
  index := place.index
  header := header.trans place.header

/-- A slot in use is that of a stream. -/
theorem Conserved.of_slot (con : Conserved g r s l) (used : s.dirs k = some slot) :
    ∃ st ∈ l, st.k = k ∧ st.At s slot := by
  have has : s.Has (.slot k) := by
    change (s.dirs k).isSome = true
    rw [used]
    rfl
  rcases (con.account.covers _).mp has with rest | ⟨st, mem, own⟩
  · exact rest.elim
  · obtain ⟨slot', place⟩ := con.streams st mem
    have same : k = st.k := place.slot_mem_iff.mp own
    have stored := place.stored
    rw [← same, used] at stored
    cases stored
    exact ⟨st, mem, same.symm, place⟩

theorem Conserved.perm (con : Conserved g r s l) (same : l.Perm l') : Conserved g r s l' where
  account := con.account.perm same
  shut := con.shut
  lent st mem := con.lent st (same.mem_iff.mpr mem)
  heap := ⟨con.heap.inv.perm ((same.flatMap_right _).append_right _), con.heap.lo, con.heap.hi, con.heap.size⟩
  streams st mem := con.streams st (same.mem_iff.mpr mem)

/-- The other streams have other slots. -/
theorem Conserved.other_slot (con : Conserved g r s (st :: l)) {st' : Stream} (mem : st' ∈ l) : st'.k ≠ st.k := by
  obtain ⟨slot, place⟩ := con.streams st' (List.mem_cons_of_mem st mem)
  intro same
  have separate := (List.pairwise_cons.mp con.account.distinct).1 st'.res (List.mem_map_of_mem mem)
  exact separate (.slot st.k) st.slot_mem (place.slot_mem_iff.mpr same.symm)

theorem Conserved.dd_mem (_ : Conserved g r s l) (mem : st ∈ l) : st.dd ∈ l.flatMap Stream.blocks ++ g.held :=
  List.mem_append_left _ (List.mem_flatMap.mpr ⟨st, mem, List.mem_cons_self⟩)

theorem Conserved.scratch_mem (_ : Conserved g r s l) (mem : st ∈ l) :
    st.scratch ∈ l.flatMap Stream.blocks ++ g.held :=
  List.mem_append_left _ (List.mem_flatMap.mpr ⟨st, mem, List.mem_cons_of_mem _ List.mem_cons_self⟩)

/-- A header that is held before and after stays. -/
theorem header_congr {mem mem' : MemCtx} {held held' : List HeldPtr} {dd : HeldPtr}
    (move : HeapMove ⟨mem, held⟩ ⟨mem', held'⟩) (inv : AllocInv ⟨mem, held⟩) (before : dd ∈ held) (after : dd ∈ held')
    (size : dd.size = ddSize) : mem'.memory.read32 (dd.ptr + 4) = mem.memory.read32 (dd.ptr + 4) := by
  refine read32_congr fun x low high => ?_
  have same := move.keeps inv before after (i := x - dd.ptr) (by unfold ddSize at size; omega)
  rwa [Nat.add_sub_cancel' (by omega)] at same

/-- A stream is opened. -/
theorem Conserved.enter (con : Conserved g r s l) (st : Stream) (free : ∀ x ∈ st.res, s.Has x → r.Has x)
    (left : ∀ x, r'.Has x ↔ r.Has x ∧ x ∉ st.res) (more : ∀ x, s'.Has x ↔ s.Has x ∨ x ∈ st.res)
    (shut : ∀ w, s'.fdMap w < 0 → r'.fdMap w = s'.fdMap w)
    (lent : ∀ st' ∈ st :: l, ∀ w h, st'.fd = some (w, h) → r'.fdMap w = -1)
    (move : HeapMove ⟨s.mem, l.flatMap Stream.blocks ++ g.held⟩
      ⟨s'.mem, st.dd :: st.scratch :: (l.flatMap Stream.blocks ++ g.held)⟩)
    (place : st.At s' slot) (others : ∀ j, j ≠ st.k → s'.dirs j = s.dirs j) : Conserved g r' s' (st :: l) where
  account := con.account.take free left more
  shut := shut
  lent := lent
  heap := con.heap.trans move.toHeapStays
  streams st' mem := by
    rcases List.mem_cons.mp mem with rfl | mem
    · exact ⟨slot, place⟩
    · obtain ⟨slot', place'⟩ := con.streams st' mem
      have ne : st'.k ≠ st.k := by
        intro same
        have own := place'.slot_mem_iff.mpr same.symm
        have has := con.account.held mem own
        exact free _ st.slot_mem has
      refine ⟨slot', place'.change ((others _ ne).trans place'.stored) rfl ⟨rfl, rfl, rfl⟩ ?_⟩
      exact header_congr move con.heap.inv (con.dd_mem mem)
        (List.mem_cons_of_mem _ (List.mem_cons_of_mem _ (con.dd_mem mem))) place'.dd.2

/-- A stream is closed. -/
theorem Conserved.leave (con : Conserved g r s (st :: l)) (less : ∀ x, s'.Has x ↔ s.Has x ∧ x ∉ st.res)
    (shut : ∀ w, s'.fdMap w < 0 → r.fdMap w = s'.fdMap w)
    (move : HeapMove ⟨s.mem, st.dd :: st.scratch :: (l.flatMap Stream.blocks ++ g.held)⟩
      ⟨s'.mem, l.flatMap Stream.blocks ++ g.held⟩)
    (others : ∀ j, j ≠ st.k → s'.dirs j = s.dirs j) : Conserved g r s' l where
  account := con.account.give less
  shut := shut
  lent st' mem := con.lent st' (List.mem_cons_of_mem st mem)
  heap := con.heap.trans move.toHeapStays
  streams st' mem := by
    obtain ⟨slot', place⟩ := con.streams st' (List.mem_cons_of_mem st mem)
    refine ⟨slot', place.change ((others _ (con.other_slot mem)).trans place.stored) rfl ⟨rfl, rfl, rfl⟩ ?_⟩
    have held : st'.dd ∈ l.flatMap Stream.blocks ++ g.held :=
      List.mem_append_left _ (List.mem_flatMap.mpr ⟨st', mem, List.mem_cons_self⟩)
    exact header_congr move con.heap.inv (List.mem_cons_of_mem _ (List.mem_cons_of_mem _ held)) held place.dd.2

/-- The stream in a slot is read or rewound: the tables are in use as before, and only bytes of its block for
entries change. -/
theorem Conserved.turn (con : Conserved g r s l) (used : s.dirs k = some slot)
    (same : ∀ x, s'.Has x ↔ s.Has x) (fdMap : s'.fdMap = s.fdMap) {m : Bytes}
    (mem : s'.mem = { s.mem with memory := m })
    (own : ∀ x, m x ≠ s.mem.memory x → slot.scratchOff ≤ x ∧ x < slot.scratchOff + fbsdDirentSize)
    (stored : s'.dirs k = some slot') (back : slot'.back.res = slot.back.res)
    (offs : slot'.scratchOff = slot.scratchOff ∧ slot'.ddOff = slot.ddOff ∧ slot'.wasmFd = slot.wasmFd)
    (others : ∀ j, j ≠ k → s'.dirs j = s.dirs j) : Conserved g r s' l := by
  obtain ⟨st, listed, rfl, place⟩ := con.of_slot used
  have owns {x : ℕ} (inside : slot.scratchOff ≤ x ∧ x < slot.scratchOff + fbsdDirentSize) : st.scratch.Owns x := by
    obtain ⟨at_scratch, size⟩ := place.scratch
    have owns := con.heap.inv.owns (con.scratch_mem listed) (i := x - st.scratch.ptr) (by omega)
    rwa [Nat.add_sub_cancel' (by omega)] at owns
  refine ⟨con.account.congr same, fdMap ▸ con.shut, con.lent, ?_, fun st' listed' => ?_⟩
  · rw [mem]
    exact con.heap.store (m := m) fun x changed => Or.inr ⟨st.scratch, con.scratch_mem listed, owns (own x changed)⟩
  · obtain ⟨slot₁, place'⟩ := con.streams st' listed'
    have header : s'.mem.memory.read32 (st'.dd.ptr + 4) = s.mem.memory.read32 (st'.dd.ptr + 4) := by
      rw [mem]
      refine read32_congr fun x low high => ?_
      by_contra changed
      have size := place'.dd.2
      unfold ddSize at size
      have owns' := con.heap.inv.owns (con.dd_mem listed') (i := x - st'.dd.ptr) (by omega)
      rw [Nat.add_sub_cancel' (by omega)] at owns'
      have eq := con.heap.inv.eq_of_owns (con.dd_mem listed') (con.scratch_mem listed) owns' (owns (own x changed))
      have large := place.scratch.2
      rw [← eq, size] at large
      exact absurd large (by decide)
    by_cases at_k : st'.k = st.k
    · rw [← at_k] at stored used
      obtain rfl : slot = slot₁ := Option.some.inj (used.symm.trans place'.stored)
      exact ⟨slot', place'.change stored back offs header⟩
    · exact ⟨slot₁, place'.change ((others _ at_k).trans place'.stored) rfl ⟨rfl, rfl, rfl⟩ header⟩

end Streams

/-! ## Opening a stream -/

section Open

variable {g : GuestHeap} {r : DirRest} {s : DirCtx} {l : List Stream} {k : ℕ} {rt : ProcView}

theorem slotReserve_spec (found : s.slotReserve = some k) : s.dirs k = none ∧ 1 ≤ k ∧ k < dirMax := by
  have free := List.find?_some found
  have mem := List.mem_of_find?_eq_some found
  rw [List.mem_range'_1] at mem
  unfold dirMax at mem ⊢
  exact ⟨Option.isNone_iff_eq_none.mp free, mem.1, by omega⟩

theorem fileAlloc_spec {i : ℕ} (found : s.fileAlloc = some i) : (s.files i).inUse = false := by
  have free := List.find?_some found
  simpa using free

/-- The guest descriptor of a host directory: a free entry for the copy, or none. -/
theorem allocWasmFd_cases {copy : Option ℕ} (fresh : ∀ h ∈ copy, s.host h = false) :
    (∃ w duped, copy = some duped ∧ firstFree s.fdMap = some w ∧ allocWasmFdForHostDir s copy =
        ({ s.setHost duped true with fdMap := Function.update s.fdMap w duped }, (w : ℤ))) ∨
      ((copy.isSome → (firstFree s.fdMap).isSome → False) ∧ allocWasmFdForHostDir s copy = (s, -1)) := by
  cases copy with
  | none => exact Or.inr ⟨nofun, rfl⟩
  | some duped =>
    have closed : s.host duped = false := fresh duped rfl
    cases found : firstFree s.fdMap with
    | some w =>
      refine Or.inl ⟨w, duped, rfl, rfl, ?_⟩
      unfold allocWasmFdForHostDir DirCtx.fdAlloc
      have alloc : yosFdAlloc (s.setHost duped true).fdMap duped = ⟨Function.update s.fdMap w duped, w, []⟩ :=
        yosFdAlloc_of_free (Int.natCast_nonneg duped) found
      dsimp only
      rw [alloc]
      exact if_neg (by dsimp only; omega)
    | none =>
      refine Or.inr ⟨nofun, ?_⟩
      unfold allocWasmFdForHostDir DirCtx.fdAlloc
      have alloc : yosFdAlloc (s.setHost duped true).fdMap duped = ⟨s.fdMap, -emfile, [(duped : ℤ)]⟩ :=
        yosFdAlloc_of_full (Int.natCast_nonneg duped) found
      dsimp only
      rw [alloc]
      have same : Function.update s.host duped false = s.host := by
        rw [← closed]
        exact Function.update_eq_self duped s.host
      refine (if_pos (show -emfile < 0 by decide)).trans ?_
      simp [DirCtx.setHost, same]

/-- The end of the calls that open a stream. -/
theorem finish_cases (back : DirBack) (wasmFd : ℤ) (undo : DirCtx → DirCtx) {held : List HeldPtr}
    (inv : AllocInv ⟨s.mem, held⟩) (small : k < dirMax) :
    (Finalises s.mem ∧ ∃ mem scratch dd, Finalised s.mem held k mem scratch dd ∧ finish s k back wasmFd undo =
        some ({ s with mem }.setDir k (some ⟨back, scratch.ptr, dd.ptr, wasmFd⟩), .ok dd.ptr)) ∨
      (¬ Finalises s.mem ∧ ∃ mem, (∀ held, AllocInv ⟨s.mem, held⟩ → HeapMove ⟨s.mem, held⟩ ⟨mem, held⟩) ∧
        finish s k back wasmFd undo = some (undo { s with mem }, .error .ENOMEM)) := by
  have word : k < 2 ^ 32 := Nat.lt_trans small (by decide)
  unfold finish
  rcases slotFinalise_cases inv word wasmFd with ⟨room, mem, scratch, dd, run, done⟩ | ⟨full, mem, run, -⟩
  · rw [run]
    exact Or.inl ⟨room, mem, scratch, dd, done, rfl⟩
  · rw [run]
    refine Or.inr ⟨full, mem, fun held' inv' => ?_, rfl⟩
    rcases slotFinalise_cases inv' word wasmFd with ⟨room, -⟩ | ⟨-, mem', run', move⟩
    · exact absurd room full
    · rw [run] at run'
      cases run'
      exact move

/-- What was read ahead of a virtual file: the entries before `dir_index`. -/
def ReadAhead (rt : ProcView) (file : VfsFile) (buf : List Dirent) (exhausted : Bool) : Prop :=
  match procfsEntries rt file.procfsFileType with
  | none => buf = [] ∧ exhausted = false
  | some entries => buf.length ≤ file.dirIndex ∧ file.dirIndex ≤ entries.length ∧
    buf <+: entries.drop (file.dirIndex - buf.length) ∧ (exhausted = true → buf = [] ∧ file.dirIndex = entries.length)

/-- Each stream of a virtual directory has read ahead in order. -/
def Ahead (rt : ProcView) (s : DirCtx) : Prop :=
  ∀ k slot i buf exhausted, s.dirs k = some slot → slot.back = .vfs i buf exhausted →
    ReadAhead rt (s.files i) buf exhausted

/-- The other slots, and the virtual files behind them, are as they were. -/
structure Kept (s s' : DirCtx) (k : ℕ) : Prop where
  dirs : ∀ j, j ≠ k → s'.dirs j = s.dirs j
  files : ∀ j slot i, j ≠ k → s.dirs j = some slot → slot.back.res = .file i → s'.files i = s.files i

theorem Kept.of_files {s' : DirCtx} (dirs : ∀ j, j ≠ k → s'.dirs j = s.dirs j) (files : s'.files = s.files) :
    Kept s s' k :=
  ⟨dirs, fun _ _ i _ _ _ => congrFun files i⟩

/-- The other streams read on. -/
theorem Kept.others {s' : DirCtx} (kept : Kept s s' k) : OthersKept rt s s' k := by
  intro j slot ne used
  have same (i : ℕ) (res : slot.back.res = .file i) : s'.files i = s.files i := kept.files j slot i ne used res
  refine ⟨(kept.dirs j ne).trans used, ?_⟩
  unfold DirCtx.listing DirCtx.place
  cases back : slot.back with
  | host d entries pos => exact ⟨rfl, rfl⟩
  | vfs i buf exhausted =>
    dsimp only
    rw [same i (by rw [back]; rfl)]
    exact ⟨rfl, rfl⟩

/-- What was read ahead is in order if it is for the slot that changes. -/
theorem Kept.ahead {s' : DirCtx} (kept : Kept s s' k) (ahead : Ahead rt s)
    (turned : ∀ slot i buf exhausted, s'.dirs k = some slot → slot.back = .vfs i buf exhausted →
      ReadAhead rt (s'.files i) buf exhausted) : Ahead rt s' := by
  intro j slot i buf exhausted used back
  rcases eq_or_ne j k with rfl | ne
  · exact turned slot i buf exhausted used back
  · rw [kept.dirs j ne] at used
    rw [kept.files j slot i ne used (by rw [back]; rfl)]
    exact ahead j slot i buf exhausted used back

theorem has_mem (s : DirCtx) (mem : MemCtx) (x : DirRes) : DirCtx.Has { s with mem } x ↔ s.Has x := by
  cases x <;> exact Iff.rfl

/-- A stream is opened of resources that were free. -/
theorem Conserved.enter_free {s' : DirCtx} {slot : DirSlot} (con : Conserved g r s l) (st : Stream)
    (free : ∀ x ∈ st.res, ¬ s.Has x) (more : ∀ x, s'.Has x ↔ s.Has x ∨ x ∈ st.res)
    (shut : ∀ w, s'.fdMap w < 0 → s'.fdMap w = s.fdMap w)
    (lent : ∀ w h, st.fd = some (w, h) → s.fdMap w = -1)
    (move : HeapMove ⟨s.mem, l.flatMap Stream.blocks ++ g.held⟩
      ⟨s'.mem, st.dd :: st.scratch :: (l.flatMap Stream.blocks ++ g.held)⟩)
    (place : st.At s' slot) (others : ∀ j, j ≠ st.k → s'.dirs j = s.dirs j) : Conserved g r s' (st :: l) := by
  refine con.enter st (fun x own has => absurd has (free x own))
    (fun x => ⟨fun rest => ⟨rest, fun own => ?_⟩, And.left⟩) more (fun w neg => ?_) (fun st' mem w h fd => ?_) move place others
  · exact free x own ((con.account.covers x).mpr (Or.inl rest))
  · have same := shut w neg
    rw [same] at neg ⊢
    exact con.shut w neg
  · rcases List.mem_cons.mp mem with rfl | mem
    · have none := lent w h fd
      rw [con.shut w (by omega), none]
    · exact con.lent st' mem w h fd

theorem procfsOpen_cases (rt : ProcView) (s : DirCtx) (parsed : Except Errno (ProcfsType × ℤ)) :
    (∃ e, procfsOpen rt s parsed = (s, .error e)) ∨ ∃ i file, procfsOpen rt s parsed = (s.setFile i file, .ok i) ∧
      (s.files i).inUse = false ∧ file.inUse = true ∧ file.dirIndex = 0 := by
  unfold procfsOpen
  cases parsed with
  | error e => exact Or.inl ⟨e, rfl⟩
  | ok p =>
    dsimp only
    split_ifs
    · exact Or.inl ⟨_, rfl⟩
    · cases found : s.fileAlloc with
      | none => exact Or.inl ⟨_, rfl⟩
      | some i => exact Or.inr ⟨i, _, rfl, fileAlloc_spec found, rfl, rfl⟩

/-- What is behind a slot in use is in use. -/
theorem Conserved.back_has {slot : DirSlot} (con : Conserved g r s l) (used : s.dirs k = some slot) :
    s.Has slot.back.res := by
  obtain ⟨st, mem, -, place⟩ := con.of_slot used
  rw [place.back]
  exact con.account.held mem st.back_mem

theorem not_has_slot (empty : s.dirs k = none) : ¬ s.Has (.slot k) := by
  intro has
  change (s.dirs k).isSome = true at has
  rw [empty] at has
  cases has

theorem slot_of_setDir {slot slot' : DirSlot} (used : (s.setDir k (some slot')).dirs k = some slot) : slot = slot' := by
  have stored : (s.setDir k (some slot')).dirs k = some slot' := Function.update_self _ _ _
  exact Option.some.inj (used.symm.trans stored)

theorem dirs_dropDir : (s.setDir k none).dirs k = none := Function.update_self _ _ _

theorem readAhead_start {file : VfsFile} (start : file.dirIndex = 0) : ReadAhead rt file [] false := by
  unfold ReadAhead
  split
  · exact ⟨rfl, rfl⟩
  · exact ⟨Nat.zero_le _, by omega, List.nil_prefix, nofun⟩

/-- What the process holds beside its streams is in order. -/
structure RestOk (r : DirRest) : Prop where
  live : ∀ w (h : ℕ), r.fdMap w = h → r.host h = true
  distinct : ∀ w v (h : ℕ), r.fdMap w = h → r.fdMap v = h → w = v

theorem RestOk.give {w h : ℕ} (rest : RestOk r) (mapped : r.fdMap w = h) : RestOk (r.give w) := by
  have entry {v j : ℕ} (eq : (r.give w).fdMap v = j) : v ≠ w ∧ r.fdMap v = j := by
    change Function.update r.fdMap w (-1) v = j at eq
    rw [Function.update_apply] at eq
    split_ifs at eq with same
    exact ⟨same, eq⟩
  refine ⟨fun v j eq => ?_, fun v u j left right => rest.distinct v u j (entry left).2 (entry right).2⟩
  obtain ⟨ne, eq⟩ := entry eq
  have live := rest.live v j eq
  have other : j ≠ (r.fdMap w).toNat := by
    rintro rfl
    rw [mapped] at eq
    exact ne (rest.distinct v w _ eq (by rw [mapped]; rfl))
  exact (Function.update_of_ne other _ _).trans live

theorem has_give {w h : ℕ} (mapped : r.fdMap w = h) {x : DirRes} :
    (r.give w).Has x ↔ r.Has x ∧ x ≠ .fd w h ∧ x ≠ .host h := by
  have number : (r.fdMap w).toNat = h := by
    rw [mapped]
    rfl
  cases x with
  | fd v j =>
    simp only [DirRest.Has, DirRest.give, Function.update_apply, ne_eq, DirRes.fd.injEq]
    split_ifs with same
    · rw [same, mapped]
      constructor
      · exact False.elim
      · exact fun both => absurd ⟨rfl, (Nat.cast_inj.mp both.1).symm⟩ both.2.1
    · simp [same]
  | host j =>
    simp only [DirRest.Has, DirRest.give, number, Function.update_apply]
    split_ifs with same <;> simp [same]
  | _ => exact ⟨fun has => ⟨has, nofun, nofun⟩, And.left⟩

/-- The call returns, does what it should, and keeps the account, the rest in order and what was read ahead. -/
def CallDone (rt : ProcView) (g : GuestHeap) (s : DirState) (l : List Stream) (c : DirCall) : Prop :=
  ∃ s' ret, s.now.call rt c = some (s', ret) ∧ CallMet rt s.now c s' ret ∧
    (∃ l', StreamsAfter l c ret l' ∧ Conserved g (s.rest.after c ret) s' l') ∧
    (RestOk s.rest → RestOk (s.rest.after c ret)) ∧ (Ahead rt s.now → Ahead rt s')

theorem SameTables.refl (s : DirCtx) : SameTables s s := ⟨rfl, rfl, rfl, rfl, fun _ => id⟩

/-- An open that fails keeps the account. -/
theorem SameTables.conserved {s' : DirCtx} (same : SameTables s s') (con : Conserved g r s l)
    (move : HeapMove ⟨s.mem, l.flatMap Stream.blocks ++ g.held⟩ ⟨s'.mem, l.flatMap Stream.blocks ++ g.held⟩) :
    Conserved g r s' l where
  account := con.account.congr fun x => by
    cases x <;> unfold DirCtx.Has <;> dsimp only
    · rw [same.fdMap]
    · rw [same.host]
    · rw [same.files]
    · rw [same.dirs]
  shut := by
    rw [same.fdMap]
    exact con.shut
  lent := con.lent
  heap := con.heap.trans move.toHeapStays
  streams st mem := by
    obtain ⟨slot, place⟩ := con.streams st mem
    refine ⟨slot, place.change (by rw [same.dirs, place.stored]) rfl ⟨rfl, rfl, rfl⟩ ?_⟩
    exact header_congr move con.heap.inv (con.dd_mem mem) (con.dd_mem mem) place.dd.2

/-- A virtual directory is opened. -/
theorem opendir_vfs (con : Conserved g r s l) {pathOff : ℕ} {parsed : Except Errno (ProcfsType × ℤ)}
    (ok : DirOk rt ⟨s, r⟩ (.opendir pathOff (.vfs parsed))) :
    CallDone rt g ⟨s, r⟩ l (.opendir pathOff (.vfs parsed)) := by
  unfold CallDone DirCtx.call yosOpendir
  dsimp only
  by_cases bad : pathOff = 0 ∨ s.mem.memorySize ≤ pathOff
  · rw [if_pos bad]
    exact ⟨s, _, rfl, .refl s, ⟨l, rfl, con⟩, id, id⟩
  · rw [if_neg bad]
    rcases procfsOpen_cases rt s parsed with ⟨e, eq⟩ | ⟨i, file, eq, free, used, start⟩
    · rw [eq]
      exact ⟨s, _, rfl, .refl s, ⟨l, rfl, con⟩, id, id⟩
    · obtain ⟨slots, room⟩ := ok bad (by rw [eq]; rfl)
      obtain ⟨k, found⟩ := Option.isSome_iff_exists.mp slots
      obtain ⟨empty, index⟩ := slotReserve_spec found
      have found' : (s.setFile i file).slotReserve = some k := found
      rw [eq]
      dsimp only
      rw [found']
      rcases finish_cases (s := s.setFile i file) (.vfs i [] false) (vfsFdBase + i) id
          con.heap.inv index.2 with ⟨-, mem, scratch, dd, done, run⟩ | ⟨full, -⟩
      · let st : Stream := ⟨k, .file i, none, scratch, dd⟩
        have kept : Kept s ({ s.setFile i file with mem }.setDir k
            (some ⟨.vfs i [] false, scratch.ptr, dd.ptr, vfsFdBase + i⟩)) k := by
          refine ⟨fun j ne => Function.update_of_ne ne _ _, fun j slot i' _ at_j res => ?_⟩
          have has : (s.files i').inUse = true := by
            have has := con.back_has at_j
            rwa [res] at has
          refine Function.update_of_ne (fun same => ?_) _ _
          rw [same, free] at has
          cases has
        have stored : Function.update s.files i file i = file := Function.update_self _ _ _
        refine ⟨_, _, run, ⟨k, _, empty, rfl, rfl, ?_, kept.others⟩, ⟨st :: l, ⟨st, rfl, rfl⟩,
          con.enter_free st ?_ (fun x => ?_) (fun _ _ => rfl) nofun done.move ⟨Function.update_self _ _ _, rfl, ⟨rfl, done.sizes.1⟩, ⟨rfl, done.sizes.2⟩,
            nofun, fun _ => ?_, index, done.header⟩ kept.dirs⟩,
          id, fun ahead => kept.ahead ahead fun slot j buf exhausted used back => ?_⟩
        · change (Function.update s.files i file i).dirIndex - 0 = 0
          rw [stored, start]
        · intro x own
          change x ∈ [DirRes.slot k, .file i] at own
          rcases List.mem_pair.mp own with rfl | rfl
          · exact not_has_slot empty
          · exact fun has => Bool.false_ne_true (free.symm.trans has)
        · rw [has_setDir, has_mem, has_setFile used, or_assoc, or_comm (a := x = .file i)]
          exact or_congr Iff.rfl List.mem_pair.symm
        · change ¬ (0 ≤ vfsFdBase + (i : ℤ) ∧ vfsFdBase + (i : ℤ) < fdMax)
          unfold vfsFdBase fdMax
          omega
        · obtain rfl := slot_of_setDir used
          cases back
          change ReadAhead rt (Function.update s.files i file i) [] false
          rw [stored]
          exact readAhead_start start
      · exact absurd room full

theorem setHost_setHost {d : ℕ} (closed : s.host d = false) : (s.setHost d true).setHost d false = s := by
  have same : Function.update s.host d false = s.host := by
    rw [← closed]
    exact Function.update_eq_self d s.host
  simp [DirCtx.setHost, same]

/-- A host directory is opened. -/
theorem opendir_host (con : Conserved g r s l) {pathOff d : ℕ} {entries : List Dirent} {copy : Option ℕ}
    (ok : DirOk rt ⟨s, r⟩ (.opendir pathOff (.host (.ok (d, entries)) copy))) (closed : s.host d = false)
    (copies : ∀ h ∈ copy, s.host h = false ∧ h ≠ d) :
    CallDone rt g ⟨s, r⟩ l (.opendir pathOff (.host (.ok (d, entries)) copy)) := by
  unfold CallDone DirCtx.call yosOpendir
  dsimp only
  by_cases bad : pathOff = 0 ∨ s.mem.memorySize ≤ pathOff
  · rw [if_pos bad]
    exact ⟨s, _, rfl, .refl s, ⟨l, rfl, con⟩, id, id⟩
  · rw [if_neg bad]
    cases found : s.slotReserve with
    | none =>
      have found' : (s.setHost d true).slotReserve = none := found
      rw [found']
      dsimp only
      rw [setHost_setHost closed]
      exact ⟨s, _, rfl, .refl s, ⟨l, rfl, con⟩, id, id⟩
    | some k =>
      obtain ⟨empty, index⟩ := slotReserve_spec found
      have found' : (s.setHost d true).slotReserve = some k := found
      rw [found']
      dsimp only
      have free {x : DirRes} (own : x ∈ [DirRes.slot k, .host d]) : ¬ s.Has x := by
        rcases List.mem_pair.mp own with rfl | rfl
        · exact not_has_slot empty
        · exact fun has => Bool.false_ne_true (closed.symm.trans has)
      have copies' : ∀ h ∈ copy, (s.setHost d true).host h = false := fun h mem =>
        (Function.update_of_ne (copies h mem).2 _ _).trans (copies h mem).1
      rcases allocWasmFd_cases copies' with ⟨w, duped, rfl, at_w, alloc⟩ | ⟨-, alloc⟩
      · obtain ⟨dupClosed, ne⟩ := copies duped rfl
        obtain ⟨below, none⟩ := firstFree_spec at_w
        have at_w' : firstFree s.fdMap = some w := at_w
        have unmapped : s.fdMap w = -1 := none
        let s₂ : DirCtx := { (s.setHost d true).setHost duped true with fdMap := Function.update s.fdMap w (duped : ℤ) }
        rw [alloc]
        rcases finish_cases (s := s₂) (.host d entries 0) w (fun s => s.setHost d false)
            con.heap.inv index.2 with ⟨-, mem, scratch, dd, done, run⟩ | ⟨full, -⟩
        · let st : Stream := ⟨k, .host d, some (w, duped), scratch, dd⟩
          have own {x : DirRes} : x ∈ st.res ↔ x ∈ [DirRes.slot k, .host d] ∨ x = .fd w duped ∨ x = .host duped := by
            change x ∈ [DirRes.slot k, .host d, .fd w duped, .host duped] ↔ _
            simp [or_assoc]
          have kept : Kept s ({ s₂ with mem }.setDir k (some ⟨.host d entries 0, scratch.ptr, dd.ptr, w⟩)) k :=
            .of_files (fun j ne => Function.update_of_ne ne _ _) rfl
          refine ⟨_, _, run, ⟨k, _, empty, rfl, rfl, rfl, kept.others⟩, ⟨st :: l, ⟨st, rfl, rfl⟩, con.enter_free st
            (fun x mem => ?_) (fun x => ?_) (fun v neg => ?_) (fun v h fd => ?_) done.move
            ⟨Function.update_self _ _ _, rfl, ⟨rfl, done.sizes.1⟩, ⟨rfl, done.sizes.2⟩, fun v h fd => ?_, nofun, index,
              done.header⟩ kept.dirs⟩, id, fun ahead => kept.ahead ahead fun slot j buf exhausted used back => ?_⟩
          · rcases own.mp mem with mem | rfl | rfl
            · exact free mem
            · intro has
              change s.fdMap w = duped at has
              omega
            · exact fun has => Bool.false_ne_true (dupClosed.symm.trans has)
          · have unset : ((s.setHost d true).setHost duped true).fdMap w < 0 := by
              change s.fdMap w < 0
              omega
            have mapped : s₂.Has x ↔ _ := has_setFd (h := duped) unset
            rw [own, List.mem_pair, has_setDir, has_mem, mapped, has_openHost, has_openHost]
            tauto
          · change Function.update s.fdMap w (duped : ℤ) v < 0 at neg
            change Function.update s.fdMap w (duped : ℤ) v = s.fdMap v
            rw [Function.update_apply] at neg ⊢
            split_ifs at neg ⊢ with same
            · omega
            · rfl
          · cases fd
            exact unmapped
          · cases fd
            exact ⟨rfl, below⟩
          · obtain rfl := slot_of_setDir used
            cases back
        · exact absurd (ok bad (by rw [found]; rfl) rfl (by rw [at_w']; rfl)) full
      · rw [alloc]
        rcases finish_cases (s := s.setHost d true) (.host d entries 0) (-1)
            (fun s => s.setHost d false) con.heap.inv index.2 with
          ⟨-, mem, scratch, dd, done, run⟩ | ⟨-, mem, move, run⟩
        · let st : Stream := ⟨k, .host d, none, scratch, dd⟩
          have kept : Kept s ({ s.setHost d true with mem }.setDir k
              (some ⟨.host d entries 0, scratch.ptr, dd.ptr, -1⟩)) k :=
            .of_files (fun j ne => Function.update_of_ne ne _ _) rfl
          refine ⟨_, _, run, ⟨k, _, empty, rfl, rfl, rfl, kept.others⟩, ⟨st :: l, ⟨st, rfl, rfl⟩, con.enter_free st
            (fun x => free) (fun x => ?_) (fun _ _ => rfl) nofun done.move ⟨Function.update_self _ _ _, rfl,
              ⟨rfl, done.sizes.1⟩, ⟨rfl, done.sizes.2⟩, nofun, fun _ both => ?_, index, done.header⟩ kept.dirs⟩,
            id, fun ahead => kept.ahead ahead fun slot j buf exhausted used back => ?_⟩
          · rw [has_setDir, has_mem, has_openHost, or_assoc, or_comm (a := x = .host d)]
            exact or_congr Iff.rfl List.mem_pair.symm
          · exact absurd both.1 (show ¬ (0 : ℤ) ≤ -1 by decide)
          · obtain rfl := slot_of_setDir used
            cases back
        · have same : SameTables s { s with mem } := ⟨rfl, rfl, rfl, rfl, fun held inv => (move held inv).inv⟩
          have undone : DirCtx.setHost { s.setHost d true with mem } d false = { s with mem } :=
            congrArg (fun s : DirCtx => { s with mem }) (setHost_setHost closed)
          rw [undone] at run
          exact ⟨_, _, run, same, ⟨l, rfl, same.conserved con (move _ con.heap.inv)⟩, id, id⟩

/-- A guest descriptor becomes a stream. -/
theorem fdopendir_done (con : Conserved g r s l) (rest : RestOk r) {wfd : ℤ} {answer : Except Errno (List Dirent)}
    (ok : DirOk rt ⟨s, r⟩ (.fdopendir wfd answer)) : CallDone rt g ⟨s, r⟩ l (.fdopendir wfd answer) := by
  unfold CallDone DirCtx.call yosFdopendir
  dsimp only
  by_cases bad : wfd < 0 ∨ fdMax ≤ wfd ∨ s.fdMap wfd.toNat < 0
  · rw [if_pos bad]
    exact ⟨s, _, rfl, .refl s, ⟨l, rfl, con⟩, id, id⟩
  · rw [if_neg bad]
    cases answer with
    | error e => exact ⟨s, _, rfl, .refl s, ⟨l, rfl, con⟩, id, id⟩
    | ok entries =>
      obtain ⟨slots, room, unused⟩ := ok bad
      obtain ⟨k, found⟩ := Option.isSome_iff_exists.mp slots
      obtain ⟨empty, index⟩ := slotReserve_spec found
      obtain ⟨w, rfl⟩ := Int.eq_ofNat_of_zero_le (show 0 ≤ wfd by omega)
      rw [Int.toNat_natCast] at bad ⊢
      obtain ⟨h, mapped⟩ := Int.eq_ofNat_of_zero_le (show 0 ≤ s.fdMap w by omega)
      have given : r.Has (.fd w h) := by
        refine con.account.rest_of mapped fun st mem own => ?_
        obtain ⟨slot, place⟩ := con.streams st mem
        exact unused _ slot place.stored (place.fd w h (place.fd_of_mem own)).1
      have live : r.Has (.host h) := rest.live w h given
      have held {x : DirRes} (has : r.Has x) : s.Has x := (con.account.covers x).mpr (Or.inl has)
      rw [found, mapped, Int.toNat_natCast]
      dsimp only
      rcases finish_cases (s := s) (.host h entries 0) w (fun s => s.setHost h false)
          con.heap.inv index.2 with ⟨-, mem, scratch, dd, done, run⟩ | ⟨full, -⟩
      · let st : Stream := ⟨k, .host h, some (w, h), scratch, dd⟩
        have own {x : DirRes} : x ∈ st.res ↔ x = .slot k ∨ x = .host h ∨ x = .fd w h := by
          change x ∈ [DirRes.slot k, .host h, .fd w h, .host h] ↔ _
          simp only [List.mem_cons, List.not_mem_nil, or_false]
          tauto
        have kept : Kept s ({ s with mem }.setDir k (some ⟨.host h entries 0, scratch.ptr, dd.ptr, w⟩)) k :=
          .of_files (fun j ne => Function.update_of_ne ne _ _) rfl
        refine ⟨_, _, run, ⟨k, _, empty, rfl, rfl, rfl, kept.others⟩, ⟨st :: l, ⟨st, rfl, rfl⟩, con.enter st
          (fun x mem has => ?_) (fun x => ?_) (fun x => ?_) (fun v neg => ?_) (fun st' mem v j fd => ?_) done.move
          ⟨Function.update_self _ _ _, rfl, ⟨rfl, done.sizes.1⟩, ⟨rfl, done.sizes.2⟩, fun v j fd => ?_, nofun, index,
            done.header⟩ kept.dirs⟩, fun rest => rest.give given,
          fun ahead => kept.ahead ahead fun slot j buf exhausted used back => ?_⟩
        · rcases own.mp mem with rfl | rfl | rfl
          · exact absurd has (not_has_slot empty)
          · exact live
          · exact given
        · change (r.give w).Has x ↔ _
          rw [has_give given, own]
          constructor
          · rintro ⟨has, other, other'⟩
            refine ⟨has, fun eq => ?_⟩
            rcases eq with rfl | rfl | rfl
            · exact has
            · exact other' rfl
            · exact other rfl
          · tauto
        · rw [has_setDir, has_mem, own]
          constructor
          · tauto
          · rintro (has | rfl | rfl | rfl)
            · exact Or.inl has
            · exact Or.inr rfl
            · exact Or.inl (held live)
            · exact Or.inl (held given)
        · change s.fdMap v < 0 at neg
          change Function.update r.fdMap w (-1) v = s.fdMap v
          rw [Function.update_of_ne fun same => by rw [same, mapped] at neg; omega]
          exact con.shut v neg
        · change Function.update r.fdMap w (-1) v = -1
          rw [Function.update_apply]
          split_ifs with same
          · rfl
          · rcases List.mem_cons.mp mem with rfl | mem
            · cases fd
              exact absurd rfl same
            · exact con.lent st' mem v j fd
        · cases fd
          exact ⟨rfl, by omega⟩
        · obtain rfl := slot_of_setDir used
          cases back
      · exact absurd room full

end Open

/-! ## Closing a stream -/

section Close

variable {g : GuestHeap} {r : DirRest} {s : DirCtx} {l : List Stream} {k dd : ℕ} {rt : ProcView} {slot : DirSlot}

/-- `slot_from_dd` finds the slots in use. -/
theorem slotFromDd_iff (bounds : HostBounds g.ctx) (con : Conserved g r s l) :
    s.slotFromDd dd = some (k, slot) ↔ s.dirs k = some slot ∧ slot.ddOff = dd := by
  unfold DirCtx.slotFromDd
  constructor
  · intro found
    dsimp only at found
    split_ifs at found
    cases used : s.dirs (s.mem.memory.read32 (dd + 4)) with
    | none =>
      simp only [used] at found
      cases found
    | some slot' =>
      simp only [used] at found
      split_ifs at found with other
      cases found
      exact ⟨used, not_not.mp other⟩
  · rintro ⟨used, rfl⟩
    obtain ⟨st, mem, rfl, place⟩ := con.of_slot used
    obtain ⟨at_dd, size⟩ := place.dd
    have low := (con.heap.inv.bounds (con.dd_mem mem)).1
    have high := (con.heap.in_memory bounds (con.dd_mem mem)).1
    have index := place.index
    dsimp only at high
    rw [at_dd, if_neg (by omega), if_neg (by omega), place.header, if_neg (by omega)]
    simp only [used, at_dd, ne_eq, not_true_eq_false, if_false]

/-- A pointer is that of one stream. -/
theorem slotFromDd_unique (bounds : HostBounds g.ctx) (con : Conserved g r s l)
    (found : s.slotFromDd dd = some (k, slot)) {j : ℕ} {slot' : DirSlot} (used : s.dirs j = some slot')
    (at_dd : slot'.ddOff = dd) : k = j ∧ slot = slot' := by
  have same := (slotFromDd_iff bounds con).mpr ⟨used, at_dd⟩
  rw [found] at same
  cases same
  exact ⟨rfl, rfl⟩

/-- The two blocks are freed. -/
theorem freeBlocks_done {mem : MemCtx} {st : Stream} {held : List HeldPtr}
    (inv : AllocInv ⟨mem, st.dd :: st.scratch :: held⟩) (place : st.At s slot) :
    ∃ mem', freeBlocks mem slot = some mem' ∧ HeapMove ⟨mem, st.dd :: st.scratch :: held⟩ ⟨mem', held⟩ := by
  have scratch_mem : st.scratch ∈ st.dd :: st.scratch :: held := by simp
  have ne : st.dd ≠ st.scratch := by
    intro same
    have size := place.dd.2
    rw [same, place.scratch.2] at size
    exact absurd size (by decide)
  obtain ⟨mem₁, freed, first⟩ := inv.free_move scratch_mem
  have left : (st.dd :: st.scratch :: held).erase st.scratch = st.dd :: held := by
    rw [List.erase_cons_tail (by simpa using ne), List.erase_cons_head]
  rw [left] at first
  obtain ⟨mem₂, freed', second⟩ := first.inv.free_move (h := st.dd) List.mem_cons_self
  have left' : (st.dd :: held).erase st.dd = held := List.erase_cons_head _ _
  rw [left'] at second
  have low := (inv.bounds scratch_mem).1
  have low' := (inv.bounds (h := st.dd) List.mem_cons_self).1
  refine ⟨mem₂, ?_, first.trans second fun x _ mine => ?_⟩
  · unfold freeBlocks
    dsimp only at freed freed'
    rw [place.scratch.1, place.dd.1, if_pos (by omega), freed, Option.bind_some, if_pos (by omega), freed']
  · exact mine.imp (second.outside_iff x).mp fun ⟨h, mem, owns⟩ => ⟨h, List.mem_cons_of_mem _ mem, owns⟩

/-- The descriptors of a stream of the host are closed. -/
structure FdsClosed (r : DirRest) (s : DirCtx) (st : Stream) (s' : DirCtx) : Prop where
  has : ∀ x, s'.Has x ↔ s.Has x ∧ (x ∈ st.res → x = .slot st.k)
  shut : ∀ v, s'.fdMap v < 0 → r.fdMap v = s'.fdMap v
  mem : s'.mem = s.mem
  dirs : s'.dirs = s.dirs
  files : s'.files = s.files

theorem Conserved.closeFds {st : Stream} {d : ℕ} (con : Conserved g r s l) (mem : st ∈ l) (place : st.At s slot)
    (back : st.back = .host d) :
    FdsClosed r s st (if 0 ≤ slot.wasmFd ∧ slot.wasmFd < fdMax ∧ slot.wasmFd < vfsFdBase then
      (s.setHost d false).fdClose slot.wasmFd else s.setHost d false) := by
  cases entry : st.fd with
  | none =>
    have outside := place.noFd entry
    have res : st.res = [.slot st.k, .host d] := by
      unfold Stream.res
      rw [entry, back]
    rw [if_neg fun inside => outside ⟨inside.1, inside.2.1⟩]
    refine ⟨fun x => ?_, con.shut, rfl, rfl, rfl⟩
    rw [has_closeHost, res, List.mem_pair]
    refine and_congr Iff.rfl ⟨fun other own => own.resolve_right other, ?_⟩
    rintro own rfl
    exact nomatch own (Or.inr rfl)
  | some e =>
    obtain ⟨w, h⟩ := e
    have res : st.res = [.slot st.k, .host d, .fd w h, .host h] := by
      unfold Stream.res
      rw [entry, back]
    obtain ⟨at_w, below⟩ := place.fd w h entry
    have has : s.Has (.fd w h) := con.account.held mem (by rw [res]; simp)
    have mapped : s.fdMap w = h := has
    have base : (fdMax : ℤ) ≤ vfsFdBase := by decide
    have closed : (s.setHost d false).fdClose w =
        { (s.setHost d false).setHost h false with fdMap := Function.update s.fdMap w (-1) } := by
      have number : (s.setHost d false).fdMap (w : ℤ).toNat = h := mapped
      unfold DirCtx.fdClose
      rw [if_neg (by omega)]
      dsimp only
      rw [number, if_neg (by omega)]
      rfl
    rw [at_w, if_pos ⟨by omega, by omega, by omega⟩, closed]
    refine ⟨fun x => ?_, fun v neg => ?_, rfl, rfl, rfl⟩
    · have dropped : DirCtx.Has { (s.setHost d false).setHost h false with fdMap := Function.update s.fdMap w (-1) } x ↔
          _ := has_dropFd (s := (s.setHost d false).setHost h false) mapped
      rw [dropped, has_closeHost, has_closeHost, res]
      simp only [List.mem_cons, List.not_mem_nil, or_false]
      constructor
      · tauto
      · rintro ⟨has, own⟩
        refine ⟨⟨⟨has, ?_⟩, ?_⟩, ?_⟩
        all_goals
          rintro rfl
          simp at own
    · change Function.update s.fdMap w (-1) v < 0 at neg
      change r.fdMap v = Function.update s.fdMap w (-1) v
      rw [Function.update_apply] at neg ⊢
      split_ifs at neg ⊢ with same
      · rw [same]
        exact con.lent st mem w h entry
      · exact con.shut v neg

/-- A stream is closed. -/
theorem closedir_done (bounds : HostBounds g.ctx) (con : Conserved g r s l) (ok : DirOk rt ⟨s, r⟩ (.closedir dd)) :
    CallDone rt g ⟨s, r⟩ l (.closedir dd) := by
  unfold CallDone DirCtx.call yosClosedir
  dsimp only
  cases found : s.slotFromDd dd with
  | none =>
    refine ⟨s, _, rfl, fun k slot used at_dd => ?_, ⟨l, rfl, con⟩, id, id⟩
    rw [(slotFromDd_iff bounds con).mpr ⟨used, at_dd⟩] at found
    cases found
  | some p =>
    obtain ⟨k, slot⟩ := p
    obtain ⟨used, at_dd⟩ := (slotFromDd_iff bounds con).mp found
    obtain ⟨st, mem, rfl, place⟩ := con.of_slot used
    have has := con.back_has used
    dsimp only
    cases back : slot.back with
    | vfs i buf exhausted => exact absurd back (ok st.k slot i buf exhausted found)
    | host d entries pos =>
      rw [back] at has
      have live : s.host d = true := has
      have at_d : st.back = .host d := by
        rw [← place.back, back]
        rfl
      have front := con.perm (List.perm_cons_erase mem)
      have closed := con.closeFds mem place at_d
      obtain ⟨mem', freed, move⟩ := freeBlocks_done front.heap.inv place
      rw [← closed.mem] at freed
      dsimp only
      rw [live, if_pos rfl, freed]
      have kept (s' : DirCtx) (closed' : s'.dirs = s.dirs ∧ s'.files = s.files) : Kept s (s'.setDir st.k none) st.k :=
        .of_files (fun j ne => (Function.update_of_ne ne _ _).trans (congrFun closed'.1 j)) closed'.2
      refine ⟨_, _, rfl, fun j slot' used' at_dd' => ?_, ⟨l.erase st, ⟨st, mem, place.dd.1.symm.trans at_dd, rfl⟩,
        front.leave (fun x => ?_) closed.shut move (kept _ ⟨closed.dirs, closed.files⟩).dirs⟩, id,
        fun ahead => (kept _ ⟨closed.dirs, closed.files⟩).ahead ahead ?_⟩
      · obtain ⟨rfl, rfl⟩ := slotFromDd_unique bounds con found used' at_dd'
        refine ⟨rfl, ?_, ?_⟩
        · rw [← closed.dirs]
          rfl
        · exact (kept _ ⟨closed.dirs, closed.files⟩).others
      · rw [has_dropDir, has_mem, closed.has]
        constructor
        · rintro ⟨⟨has, own⟩, other⟩
          exact ⟨has, fun mem => other (own mem)⟩
        · rintro ⟨has, other⟩
          refine ⟨⟨has, fun mem => absurd mem other⟩, ?_⟩
          rintro rfl
          exact other st.slot_mem
      · intro slot' i buf exhausted used'
        exact absurd (dirs_dropDir.symm.trans used') nofun

end Close

/-! ## The records of `procfs_getdents64` -/

section Getdents

variable {rt : ProcView} {count d i pos : ℕ} {entries : List Dirent}

/-- The entries before `dir_index` are skipped. -/
theorem getdentsLoop_skip (le : i ≤ d) :
    getdentsLoop count i entries d pos = getdentsLoop count d (entries.drop (d - i)) d pos := by
  induction entries generalizing i with
  | nil =>
    rw [List.drop_nil]
    rfl
  | cons e rest ih =>
    rcases Nat.lt_or_eq_of_le le with lt | rfl
    · rw [getdentsLoop, if_neg (by omega), ih lt, show d - i = d - (i + 1) + 1 by omega, List.drop_succ_cons]
    · rw [Nat.sub_self, List.drop_zero]

/-- The records are the entries from `dir_index` on that have room. -/
theorem getdentsLoop_prefix (count : ℕ) (entries : List Dirent) (pos : ℕ) (le : d ≤ i) : ∃ l, l <+: entries ∧
    getdentsLoop count i entries d pos = (l, if l = [] then d else i + l.length) := by
  induction entries generalizing i d pos with
  | nil => exact ⟨[], List.nil_prefix, rfl⟩
  | cons e rest ih =>
    rw [getdentsLoop, if_pos le]
    split_ifs with full
    · exact ⟨[], List.nil_prefix, rfl⟩
    · obtain ⟨l, start, run⟩ := ih (pos + recLen e.name) (Nat.le_refl (i + 1))
      refine ⟨e :: l, List.cons_prefix_cons.mpr ⟨rfl, start⟩, ?_⟩
      rw [run]
      dsimp only
      rw [if_neg (List.cons_ne_nil e l), List.length_cons]
      split_ifs with none
      · rw [none]
        rfl
      · rw [Nat.add_assoc, Nat.add_comm 1]

theorem getdentsLoop_ne_nil {e : Dirent} (rest : List Dirent) (room : recLen e.name ≤ count) :
    (getdentsLoop count d (e :: rest) d 0).1 ≠ [] := by
  rw [getdentsLoop, if_pos le_rfl, if_neg (by omega)]
  exact List.cons_ne_nil _ _

/-- Each record fits in the buffer. -/
theorem recLen_le {type : ProcfsType} (dir : procfsEntries rt type = some entries) :
    ∀ e ∈ entries, recLen e.name ≤ vfsDirbufSize := by
  have fixed : ∀ e ∈ numbered rootEntries ++ numbered pidEntries, recLen e.name ≤ vfsDirbufSize := by decide
  intro e mem
  unfold procfsEntries at dir
  split at dir
  · cases dir
    rcases List.mem_append.mp mem with mem | mem
    · exact fixed e (List.mem_append_left _ mem)
    · obtain ⟨pid, listed, rfl⟩ := List.mem_map.mp mem
      have short : (Nat.toDigits 10 pid).length ≤ 10 :=
        (Nat.length_toDigits_le_iff (by decide) (by decide)).mpr (Nat.lt_trans (rt.small pid listed) (by decide))
      unfold dirent recLen pidName vfsDirbufSize
      rw [List.length_map]
      omega
  · cases dir
    exact fixed e (List.mem_append_right _ mem)
  · cases dir

/-- A call reads on from `dir_index`, and reads nothing only at the end. -/
theorem procfsGetdents64_spec {file : VfsFile} (dir : procfsEntries rt file.procfsFileType = some entries) :
    ∃ l, procfsGetdents64 rt file vfsDirbufSize = .ok (l, { file with dirIndex := file.dirIndex + l.length }) ∧
      l <+: entries.drop file.dirIndex ∧ (l = [] → entries.drop file.dirIndex = []) := by
  obtain ⟨l, start, run⟩ := getdentsLoop_prefix vfsDirbufSize (entries.drop file.dirIndex) 0
    (Nat.le_refl file.dirIndex)
  have skip : getdentsLoop vfsDirbufSize 0 entries file.dirIndex 0 =
      getdentsLoop vfsDirbufSize file.dirIndex (entries.drop file.dirIndex) file.dirIndex 0 :=
    getdentsLoop_skip (Nat.zero_le _)
  refine ⟨l, ?_, start, fun none => ?_⟩
  · unfold procfsGetdents64
    rw [dir]
    dsimp only
    rw [skip, run]
    split_ifs with none
    · rw [none]
      rfl
    · rfl
  · cases left : entries.drop file.dirIndex with
    | nil => rfl
    | cons e rest =>
      have some := getdentsLoop_ne_nil (d := file.dirIndex) rest
        (recLen_le dir e (List.mem_of_mem_drop (by rw [left]; exact List.mem_cons_self)))
      rw [← left, run] at some
      exact absurd none some

end Getdents

/-! ## Reading a stream -/

section Read

variable {g : GuestHeap} {r : DirRest} {s s' : DirCtx} {l : List Stream} {k dd i scratchOff ddOff : ℕ} {wasmFd : ℤ}
  {rt : ProcView} {slot : DirSlot} {file : VfsFile} {e : Dirent}

theorem length_le (n v : ℕ) : (le n v).length = n := by
  unfold le
  rw [List.length_map, List.length_range]

theorem length_fbsdDirent (e : Dirent) : (fbsdDirent e).length = fbsdDirentSize := by
  have short : (e.name.take 255).length ≤ 255 := List.length_take_le 255 e.name
  unfold fbsdDirent fbsdDirentSize fbsdDirentNameOff
  simp only [List.length_append, length_le, List.length_cons, List.length_nil, List.length_replicate]
  omega

/-- Streams in different slots have different things behind them. -/
theorem Conserved.other_back (con : Conserved g r s l) {j : ℕ} {slot' : DirSlot} (used : s.dirs k = some slot)
    (used' : s.dirs j = some slot') (ne : j ≠ k) : slot'.back.res ≠ slot.back.res := by
  obtain ⟨st, mem, rfl, place⟩ := con.of_slot used
  obtain ⟨st', mem', rfl, place'⟩ := con.of_slot used'
  have other : st' ≠ st := fun same => ne (by rw [same])
  have front := con.perm (List.perm_cons_erase mem)
  have separate := (List.pairwise_cons.mp front.account.distinct).1 st'.res
    (List.mem_map_of_mem ((List.mem_erase_of_ne other).mpr mem'))
  intro same
  rw [place.back, place'.back] at same
  refine separate st.back st.back_mem ?_
  rw [← same]
  exact st'.back_mem

/-- The slot and the virtual file of a stream are stored again. -/
def DirCtx.turn (s : DirCtx) (k : ℕ) (slot : DirSlot) (file : Option (ℕ × VfsFile)) : DirCtx :=
  match file with
  | none => s.setDir k (some slot)
  | some (i, file) => (s.setFile i file).setDir k (some slot)

/-- A stream that is read or rewound keeps the account, and the other streams read on. -/
theorem Conserved.turned (con : Conserved g r s l) (used : s.dirs k = some slot) (slot' : DirSlot)
    (file : Option (ℕ × VfsFile)) (back : slot'.back.res = slot.back.res)
    (same : slot'.scratchOff = slot.scratchOff ∧ slot'.ddOff = slot.ddOff ∧ slot'.wasmFd = slot.wasmFd)
    (files : ∀ p ∈ file, slot.back.res = .file p.1 ∧ p.2.inUse = true) {m : Bytes}
    (own : ∀ x, m x ≠ s.mem.memory x → slot.scratchOff ≤ x ∧ x < slot.scratchOff + fbsdDirentSize) :
    Conserved g r { s.turn k slot' file with mem := { s.mem with memory := m } } l ∧
      Kept s { s.turn k slot' file with mem := { s.mem with memory := m } } k := by
  have has := con.back_has used
  have slots : s.Has (.slot k) := by
    change (s.dirs k).isSome = true
    rw [used]
    rfl
  cases file with
  | none =>
    refine ⟨con.turn used (fun x => ?_) rfl rfl own (Function.update_self _ _ _) back same
      fun j ne => Function.update_of_ne ne _ _, .of_files (fun j ne => Function.update_of_ne ne _ _) rfl⟩
    rw [has_mem]
    unfold DirCtx.turn
    rw [has_setDir]
    exact or_iff_left_of_imp fun eq => eq ▸ slots
  | some p =>
    obtain ⟨at_file, inUse⟩ := files p rfl
    refine ⟨con.turn used (fun x => ?_) rfl rfl own (Function.update_self _ _ _) back same
      fun j ne => Function.update_of_ne ne _ _, fun j ne => Function.update_of_ne ne _ _, ?_⟩
    · rw [has_mem]
      unfold DirCtx.turn
      rw [has_setDir, has_setFile inUse]
      rw [at_file] at has
      constructor
      · rintro ((old | rfl) | rfl)
        · exact old
        · exact has
        · exact slots
      · exact fun old => Or.inl (Or.inl old)
    · intro j slot₁ i ne used' res
      refine Function.update_of_ne (fun eq => con.other_back used used' ne ?_) _ _
      rw [res, at_file, eq]

/-- An entry is delivered. -/
theorem Conserved.emitted (con : Conserved g r s l) (used : s.dirs k = some slot) (slot' : DirSlot)
    (file : Option (ℕ × VfsFile)) (back : slot'.back.res = slot.back.res)
    (same : slot'.scratchOff = slot.scratchOff ∧ slot'.ddOff = slot.ddOff ∧ slot'.wasmFd = slot.wasmFd)
    (files : ∀ p ∈ file, slot.back.res = .file p.1 ∧ p.2.inUse = true) (e : Dirent) :
    Conserved g r (emitFbsdDirent (s.turn k slot' file) slot e) l ∧
      Kept s (emitFbsdDirent (s.turn k slot' file) slot e) k ∧
      ∀ i (lt : i < (fbsdDirent e).length),
        (emitFbsdDirent (s.turn k slot' file) slot e).mem.memory (slot.scratchOff + i) = (fbsdDirent e)[i] := by
  have mem : (s.turn k slot' file).mem = s.mem := by cases file <;> rfl
  have own : ∀ x, writeBytes s.mem.memory slot.scratchOff (fbsdDirent e) x ≠ s.mem.memory x →
      slot.scratchOff ≤ x ∧ x < slot.scratchOff + fbsdDirentSize := by
    intro x changed
    rw [← length_fbsdDirent e]
    by_contra out
    exact changed (writeBytes_of_not_mem out)
  have both := con.turned used slot' file back same files own
  unfold emitFbsdDirent
  rw [mem]
  exact ⟨both.1, both.2, fun i lt => writeBytes_apply lt⟩

/-- What is read ahead after an entry was taken from the front. -/
theorem ReadAhead.next {buf : List Dirent} {exhausted : Bool} {entries : List Dirent}
    (ahead : ReadAhead rt file (e :: buf) exhausted) (dir : procfsEntries rt file.procfsFileType = some entries) :
    entries[file.dirIndex - (e :: buf).length]? = some e ∧
      file.dirIndex - buf.length = file.dirIndex - (e :: buf).length + 1 ∧ ReadAhead rt file buf exhausted := by
  unfold ReadAhead at ahead ⊢
  rw [dir] at ahead ⊢
  dsimp only at ahead ⊢
  obtain ⟨le, inside, start, ended⟩ := ahead
  obtain ⟨tail, eq⟩ := start
  rw [List.length_cons] at le eq ⊢
  have first : entries[file.dirIndex - (buf.length + 1)]? = some e := by
    rw [← Nat.add_zero (file.dirIndex - (buf.length + 1)), ← List.getElem?_drop, ← eq]
    rfl
  refine ⟨first, by omega, by omega, inside, ⟨tail, ?_⟩, fun yes => nomatch (ended yes).1⟩
  rw [show file.dirIndex - buf.length = file.dirIndex - (buf.length + 1) + 1 by omega, ← List.drop_drop, ← eq]
  rfl

theorem readMet_other {ret : DirRet} (dir : s.listing rt slot = none) :
    ReadMet rt s k slot s' ret ↔ ret = .error .ENOTDIR ∧ s' = s := by
  unfold ReadMet
  rw [dir]

theorem readMet_end {ret : DirRet} {entries : List Dirent} (dir : s.listing rt slot = some entries)
    (next : entries[s.place slot]? = none) :
    ReadMet rt s k slot s' ret ↔ ret = .ok 0 ∧ PlacedAt rt s s' k slot (s.place slot) := by
  unfold ReadMet
  rw [dir]
  dsimp only
  rw [next]

theorem readMet_next {ret : DirRet} {entries : List Dirent} (dir : s.listing rt slot = some entries)
    (next : entries[s.place slot]? = some e) :
    ReadMet rt s k slot s' ret ↔ ret = .ok slot.scratchOff ∧ PlacedAt rt s s' k slot (s.place slot + 1) ∧
      ∀ i (lt : i < (fbsdDirent e).length), s'.mem.memory (slot.scratchOff + i) = (fbsdDirent e)[i] := by
  unfold ReadMet
  rw [dir]
  dsimp only
  rw [next]

/-- The stream in slot `k` was read, and the others are as they were. -/
structure SlotRead (rt : ProcView) (g : GuestHeap) (r : DirRest) (s : DirCtx) (l : List Stream) (k : ℕ)
    (slot : DirSlot) (s' : DirCtx) (ret : DirRet) : Prop where
  con : Conserved g r s' l
  kept : Kept s s' k
  met : ReadMet rt s k slot s' ret
  ahead : ∀ slot' i buf exhausted, s'.dirs k = some slot' → slot'.back = .vfs i buf exhausted →
    ReadAhead rt (s'.files i) buf exhausted

theorem SlotRead.still {ret : DirRet} (con : Conserved g r s l) (ahead : Ahead rt s)
    (met : ReadMet rt s k slot s ret) : SlotRead rt g r s l k slot s ret :=
  ⟨con, .of_files (fun _ _ => rfl) rfl, met, ahead k⟩

/-- The next entry of a directory of the host. -/
theorem readdir_host (con : Conserved g r s l) (ahead : Ahead rt s) {d pos : ℕ} {entries : List Dirent}
    (used : s.dirs k = some ⟨.host d entries pos, scratchOff, ddOff, wasmFd⟩)
    (found : s.slotFromDd dd = some (k, ⟨.host d entries pos, scratchOff, ddOff, wasmFd⟩)) :
    ∃ s' ret, yosReaddir rt s dd = (s', ret) ∧
      SlotRead rt g r s l k ⟨.host d entries pos, scratchOff, ddOff, wasmFd⟩ s' ret := by
  unfold yosReaddir
  rw [found]
  dsimp only
  cases next : entries[pos]? with
  | none => exact ⟨s, _, rfl, .still con ahead ((readMet_end rfl next).mpr ⟨rfl, _, used, rfl, rfl, rfl⟩)⟩
  | some e =>
    obtain ⟨con', kept, text⟩ := con.emitted used ⟨.host d entries (pos + 1), scratchOff, ddOff, wasmFd⟩
      none rfl ⟨rfl, rfl, rfl⟩ nofun e
    refine ⟨_, _, rfl, con', kept, (readMet_next rfl next).mpr
      ⟨rfl, ⟨_, Function.update_self _ _ _, rfl, rfl, rfl⟩, text⟩, fun slot' i buf exhausted used' back => ?_⟩
    obtain rfl := slot_of_setDir used'
    cases back

/-- The next entry of a virtual directory, if it was read ahead. -/
theorem readdir_ahead (con : Conserved g r s l) (ahead : Ahead rt s) {buf : List Dirent} {exhausted : Bool}
    (used : s.dirs k = some ⟨.vfs i (e :: buf) exhausted, scratchOff, ddOff, wasmFd⟩)
    (found : s.slotFromDd dd = some (k, ⟨.vfs i (e :: buf) exhausted, scratchOff, ddOff, wasmFd⟩)) :
    ∃ s' ret, yosReaddir rt s dd = (s', ret) ∧
      SlotRead rt g r s l k ⟨.vfs i (e :: buf) exhausted, scratchOff, ddOff, wasmFd⟩ s' ret := by
  have before := ahead k _ i (e :: buf) exhausted used rfl
  obtain ⟨entries, dir⟩ : ∃ entries, procfsEntries rt (s.files i).procfsFileType = some entries := by
    refine Option.ne_none_iff_exists'.mp fun other => ?_
    unfold ReadAhead at before
    rw [other] at before
    cases before.1
  obtain ⟨next, place, rest⟩ := before.next dir
  obtain ⟨con', kept, text⟩ := con.emitted used ⟨.vfs i buf exhausted, scratchOff, ddOff, wasmFd⟩
    none rfl ⟨rfl, rfl, rfl⟩ nofun e
  have listing : s.listing rt ⟨.vfs i (e :: buf) exhausted, scratchOff, ddOff, wasmFd⟩ = some entries := dir
  unfold yosReaddir
  rw [found]
  refine ⟨_, _, rfl, con', kept, (readMet_next listing next).mpr
    ⟨rfl, ⟨_, Function.update_self _ _ _, rfl, rfl, place⟩, text⟩, fun slot' i' buf' exhausted' used' back => ?_⟩
  obtain rfl := slot_of_setDir used'
  cases back
  exact rest

/-- The next entry of a virtual directory, if nothing is left of what was read ahead. -/
theorem readdir_getdents (con : Conserved g r s l) (ahead : Ahead rt s)
    (used : s.dirs k = some ⟨.vfs i [] false, scratchOff, ddOff, wasmFd⟩)
    (found : s.slotFromDd dd = some (k, ⟨.vfs i [] false, scratchOff, ddOff, wasmFd⟩)) :
    ∃ s' ret, yosReaddir rt s dd = (s', ret) ∧
      SlotRead rt g r s l k ⟨.vfs i [] false, scratchOff, ddOff, wasmFd⟩ s' ret := by
  unfold yosReaddir
  rw [found]
  dsimp only
  rw [if_neg Bool.false_ne_true]
  cases dir : procfsEntries rt (s.files i).procfsFileType with
  | none =>
    have refused : procfsGetdents64 rt (s.files i) vfsDirbufSize = .error .ENOTDIR := by
      unfold procfsGetdents64
      rw [dir]
    have listing : s.listing rt ⟨.vfs i [] false, scratchOff, ddOff, wasmFd⟩ = none := dir
    rw [refused]
    exact ⟨s, _, rfl, .still con ahead ((readMet_other listing).mpr ⟨rfl, rfl⟩)⟩
  | some entries =>
    have has : (s.files i).inUse = true := con.back_has used
    have before := ahead k _ i [] false used rfl
    unfold ReadAhead at before
    rw [dir] at before
    obtain ⟨-, inside, -, -⟩ := before
    have listing : s.listing rt ⟨.vfs i [] false, scratchOff, ddOff, wasmFd⟩ = some entries := dir
    obtain ⟨l', run, start, full⟩ := procfsGetdents64_spec dir
    rw [run]
    let file : VfsFile := { s.files i with dirIndex := (s.files i).dirIndex + l'.length }
    have stored : Function.update s.files i file i = file := Function.update_self _ _ _
    have dir' : procfsEntries rt file.procfsFileType = some entries := dir
    have own : ∀ p ∈ some (i, file), DirRes.file i = .file p.1 ∧ p.2.inUse = true := by
      rintro p ⟨⟩
      exact ⟨rfl, has⟩
    have list : procfsEntries rt (Function.update s.files i file i).procfsFileType = some entries := by
      rw [stored, dir']
    cases l' with
    | nil =>
      have stop : entries.length ≤ (s.files i).dirIndex := List.drop_eq_nil_iff.mp (full rfl)
      have next : entries[(s.files i).dirIndex - 0]? = none := List.getElem?_eq_none (by omega)
      have place : (Function.update s.files i file i).dirIndex - 0 = (s.files i).dirIndex - 0 := by
        rw [stored]
        rfl
      obtain ⟨con', kept⟩ := con.turned used ⟨.vfs i [] true, scratchOff, ddOff, wasmFd⟩ (some (i, file)) rfl
        ⟨rfl, rfl, rfl⟩ own (m := s.mem.memory) fun x changed => absurd rfl changed
      refine ⟨(s.setFile i file).setDir k (some ⟨.vfs i [] true, scratchOff, ddOff, wasmFd⟩), _, rfl, con', kept,
        (readMet_end listing next).mpr ⟨rfl, ⟨_, Function.update_self _ _ _, rfl, list.trans listing.symm, place⟩⟩,
        fun slot' i' buf' exhausted' used' back => ?_⟩
      obtain rfl := slot_of_setDir used'
      cases back
      change ReadAhead rt (Function.update s.files i file i) [] true
      unfold ReadAhead
      rw [list, stored]
      exact ⟨Nat.zero_le _, inside, List.nil_prefix, fun _ => ⟨rfl, Nat.le_antisymm inside stop⟩⟩
    | cons e buf =>
      have fresh : ReadAhead rt file (e :: buf) false := by
        unfold ReadAhead
        rw [dir']
        have room := start.length_le
        rw [List.length_drop, List.length_cons] at room
        have index : file.dirIndex = (s.files i).dirIndex + (e :: buf).length := rfl
        rw [List.length_cons] at index
        refine ⟨by rw [List.length_cons]; omega, by omega, ?_, nofun⟩
        rwa [index, List.length_cons, Nat.add_sub_cancel]
      obtain ⟨next, place, rest⟩ := fresh.next dir'
      have home : file.dirIndex - (e :: buf).length = (s.files i).dirIndex - 0 := Nat.add_sub_cancel _ _
      rw [home] at next place
      rw [← stored] at place rest
      obtain ⟨con', kept, text⟩ := con.emitted used ⟨.vfs i buf false, scratchOff, ddOff, wasmFd⟩ (some (i, file))
        rfl ⟨rfl, rfl, rfl⟩ own e
      refine ⟨emitFbsdDirent ((s.setFile i file).setDir k (some ⟨.vfs i buf false, scratchOff, ddOff, wasmFd⟩))
        ⟨.vfs i [] false, scratchOff, ddOff, wasmFd⟩ e, _, rfl, con', kept, (readMet_next listing next).mpr
          ⟨rfl, ⟨_, Function.update_self _ _ _, rfl, list.trans listing.symm, place⟩, text⟩,
        fun slot' i' buf' exhausted' used' back => ?_⟩
      obtain rfl := slot_of_setDir used'
      cases back
      exact rest

/-- A stream of a virtual directory that is at its end stays there. -/
theorem readdir_exhausted (con : Conserved g r s l) (ahead : Ahead rt s)
    (used : s.dirs k = some ⟨.vfs i [] true, scratchOff, ddOff, wasmFd⟩)
    (found : s.slotFromDd dd = some (k, ⟨.vfs i [] true, scratchOff, ddOff, wasmFd⟩)) :
    ∃ s' ret, yosReaddir rt s dd = (s', ret) ∧
      SlotRead rt g r s l k ⟨.vfs i [] true, scratchOff, ddOff, wasmFd⟩ s' ret := by
  have before := ahead k _ i [] true used rfl
  unfold ReadAhead at before
  unfold yosReaddir
  rw [found]
  cases dir : procfsEntries rt (s.files i).procfsFileType with
  | none =>
    rw [dir] at before
    cases before.2
  | some entries =>
    rw [dir] at before
    have last : (s.files i).dirIndex = entries.length := (before.2.2.2 rfl).2
    have listing : s.listing rt ⟨.vfs i [] true, scratchOff, ddOff, wasmFd⟩ = some entries := dir
    have next : entries[(s.files i).dirIndex - 0]? = none := List.getElem?_eq_none (by omega)
    exact ⟨s, _, rfl, .still con ahead ((readMet_end listing next).mpr ⟨rfl, _, used, rfl, rfl, rfl⟩)⟩

/-- A stream is read. -/
theorem readdir_done (bounds : HostBounds g.ctx) (con : Conserved g r s l) (ahead : Ahead rt s) :
    CallDone rt g ⟨s, r⟩ l (.readdir dd) := by
  cases found : s.slotFromDd dd with
  | none =>
    refine ⟨s, .error .EBADF, ?_, fun k slot used at_dd => ?_, ⟨l, rfl, con⟩, id, id⟩
    · unfold DirCtx.call yosReaddir
      dsimp only
      rw [found]
    · rw [(slotFromDd_iff bounds con).mpr ⟨used, at_dd⟩] at found
      cases found
  | some p =>
    obtain ⟨k, slot⟩ := p
    obtain ⟨used, -⟩ := (slotFromDd_iff bounds con).mp found
    have read : ∃ s' ret, yosReaddir rt s dd = (s', ret) ∧ SlotRead rt g r s l k slot s' ret := by
      obtain ⟨back, scratchOff, ddOff, wasmFd⟩ := slot
      rcases back with ⟨d, entries, pos⟩ | ⟨i, _ | ⟨e, buf⟩, _ | _⟩
      · exact readdir_host con ahead used found
      · exact readdir_getdents con ahead used found
      · exact readdir_exhausted con ahead used found
      · exact readdir_ahead con ahead used found
      · exact readdir_ahead con ahead used found
    obtain ⟨s', ret, eq, read⟩ := read
    refine ⟨s', ret, congrArg some eq, fun j slot' used' at_dd => ?_, ⟨l, rfl, read.con⟩, id,
      fun ahead => read.kept.ahead ahead read.ahead⟩
    obtain ⟨rfl, rfl⟩ := slotFromDd_unique bounds con found used' at_dd
    exact ⟨read.kept.others, read.met⟩

/-- A stream is rewound. -/
theorem rewinddir_done (bounds : HostBounds g.ctx) (con : Conserved g r s l) :
    CallDone rt g ⟨s, r⟩ l (.rewinddir dd) := by
  unfold CallDone DirCtx.call yosRewinddir
  dsimp only
  cases found : s.slotFromDd dd with
  | none =>
    refine ⟨s, _, rfl, fun k slot used at_dd => ?_, ⟨l, rfl, con⟩, id, id⟩
    rw [(slotFromDd_iff bounds con).mpr ⟨used, at_dd⟩] at found
    cases found
  | some p =>
    obtain ⟨k, slot⟩ := p
    obtain ⟨used, at_dd⟩ := (slotFromDd_iff bounds con).mp found
    obtain ⟨back, scratchOff, ddOff, wasmFd⟩ := slot
    cases back with
    | host d entries pos =>
      obtain ⟨con', kept⟩ := con.turned used ⟨.host d entries 0, scratchOff, ddOff, wasmFd⟩ none rfl
        ⟨rfl, rfl, rfl⟩ nofun (m := s.mem.memory) fun x changed => absurd rfl changed
      refine ⟨s.setDir k (some ⟨.host d entries 0, scratchOff, ddOff, wasmFd⟩), _, rfl,
        fun j slot' used' at_dd' => ?_, ⟨l, rfl, con'⟩, id, fun ahead => kept.ahead ahead ?_⟩
      · obtain ⟨rfl, rfl⟩ := slotFromDd_unique bounds con found used' at_dd'
        exact ⟨kept.others, _, Function.update_self _ _ _, rfl, rfl, rfl⟩
      · intro slot' i buf exhausted used' back
        obtain rfl := slot_of_setDir used'
        cases back
    | vfs i buf exhausted =>
      have has : (s.files i).inUse = true := con.back_has used
      let file : VfsFile := { s.files i with dirIndex := 0 }
      have stored : Function.update s.files i file i = file := Function.update_self _ _ _
      have own : ∀ p ∈ some (i, file), DirRes.file i = .file p.1 ∧ p.2.inUse = true := by
        rintro p ⟨⟩
        exact ⟨rfl, has⟩
      obtain ⟨con', kept⟩ := con.turned used ⟨.vfs i [] false, scratchOff, ddOff, wasmFd⟩ (some (i, file)) rfl
        ⟨rfl, rfl, rfl⟩ own (m := s.mem.memory) fun x changed => absurd rfl changed
      refine ⟨(s.setFile i file).setDir k (some ⟨.vfs i [] false, scratchOff, ddOff, wasmFd⟩), _, rfl,
        fun j slot' used' at_dd' => ?_, ⟨l, rfl, con'⟩, id, fun ahead => kept.ahead ahead ?_⟩
      · obtain ⟨rfl, rfl⟩ := slotFromDd_unique bounds con found used' at_dd'
        refine ⟨kept.others, _, Function.update_self _ _ _, rfl, ?_, ?_⟩
        · change procfsEntries rt (Function.update s.files i file i).procfsFileType = _
          rw [stored]
          rfl
        · change (Function.update s.files i file i).dirIndex - 0 = 0
          rw [stored]
          rfl
      · intro slot' i' buf' exhausted' used' back
        obtain rfl := slot_of_setDir used'
        cases back
        change ReadAhead rt (Function.update s.files i file i) [] false
        rw [stored]
        exact readAhead_start rfl

end Read

/-! ## Runs -/

section Run

variable {rt : ProcView} {g : GuestHeap} {s : DirState} {l : List Stream}

/-- Every call that the condition allows. -/
theorem call_done {c : DirCall} (bounds : HostBounds g.ctx) (con : Conserved g s.rest s.now l) (rest : RestOk s.rest)
    (ahead : Ahead rt s.now) (ok : DirOk rt s c) (nodup : c.news.Nodup) (fresh : ∀ h ∈ c.news, s.now.host h = false) :
    CallDone rt g s l c := by
  cases c with
  | opendir pathOff target =>
    cases target with
    | vfs parsed => exact opendir_vfs con ok
    | host answer copy =>
      cases answer with
      | error e =>
        unfold CallDone DirCtx.call yosOpendir
        dsimp only
        split_ifs <;> exact ⟨s.now, _, rfl, .refl s.now, ⟨l, rfl, con⟩, id, id⟩
      | ok answer =>
        obtain ⟨d, entries⟩ := answer
        refine opendir_host con ok (fresh d List.mem_cons_self) fun h copied => ?_
        have new : h ∈ copy.toList := Option.mem_toList.mpr copied
        refine ⟨fresh h (List.mem_cons_of_mem d new), ?_⟩
        rintro rfl
        exact (List.nodup_cons.mp nodup).1 new
  | fdopendir wfd answer => exact fdopendir_done con rest ok
  | readdir dd => exact readdir_done bounds con ahead
  | rewinddir dd => exact rewinddir_done bounds con
  | closedir dd => exact closedir_done bounds con ok

/-- What every state of a run has. -/
structure DirInv (rt : ProcView) (g : GuestHeap) (s : DirState) : Prop where
  con : ∃ l, Conserved g s.rest s.now l
  rest : RestOk s.rest
  ahead : Ahead rt s.now

theorem DirStarted.inv (heap : AllocInv g) (start : DirStarted g s) : DirInv rt g s where
  con := by
    refine ⟨[], ⟨?_, ?_, nofun, ?_, nofun⟩⟩
    · refine Account.nil.congr fun x => ?_
      rw [start.rest]
      cases x with
      | slot k =>
        change (s.now.dirs k).isSome = true ↔ False
        rw [start.dirs k]
        exact iff_of_false nofun id
      | _ => exact Iff.rfl
    · rw [start.rest]
      exact fun _ _ => rfl
    · rw [start.mem]
      exact (HeapMove.refl heap).toHeapStays
  rest := by
    rw [start.rest]
    exact ⟨start.live, start.distinct⟩
  ahead k slot i buf exhausted used := by
    rw [start.dirs k] at used
    cases used

theorem DirInv.of_run (heap : AllocInv g) (bounds : HostBounds g.ctx)
    (run : (dirSystem rt g).ReachableIf (DirOk rt) s) : DirInv rt g s := by
  refine run.invariant (fun s start => DirStarted.inv heap start) fun s c s' inv ok step => ?_
  obtain ⟨nodup, fresh, ret, returns, after⟩ := step
  obtain ⟨l, con⟩ := inv.con
  obtain ⟨now, ret', eq, -, ⟨l', -, con'⟩, rest, ahead⟩ := call_done bounds con inv.rest inv.ahead ok nodup fresh
  rw [eq] at returns
  cases returns
  rw [← after] at con' rest
  exact ⟨⟨l', con'⟩, rest inv.rest, ahead inv.ahead⟩

/-- Without streams everything has been given back. -/
theorem Conserved.returned {r : DirRest} {s : DirCtx} (con : Conserved g r s l) (heap : AllocInv g)
    (idle : ∀ k, s.dirs k = none) : Returned g r s := by
  have none : l = [] := by
    refine List.eq_nil_iff_forall_not_mem.mpr fun st mem => ?_
    obtain ⟨slot, place⟩ := con.streams st mem
    exact absurd ((idle st.k).symm.trans place.stored) nofun
  subst none
  have same (x : DirRes) : s.Has x ↔ r.Has x := con.account.of_nil x
  have stays : HeapStays g ⟨s.mem, g.held⟩ := con.heap
  refine ⟨funext fun w => ?_, funext fun h => Bool.eq_iff_iff.mpr (same (.host h)),
    fun i => Bool.eq_iff_iff.mpr (same (.file i)), stays.inv, fun sizes fits => ?_⟩
  · rcases lt_or_ge (s.fdMap w) 0 with neg | pos
    · exact (con.shut w neg).symm
    · obtain ⟨h, eq⟩ := Int.eq_ofNat_of_zero_le pos
      have mapped : r.fdMap w = h := (same (.fd w h)).mp eq
      rw [eq, mapped]
  · exact stays.inv.servedCount_congr heap stays.lo stays.hi fits

/-- In a run whose calls meet the condition the tables and the heap hold what the open streams and the rest
hold, and without streams all that was acquired is given back.  A further call that meets the condition returns
and does what it should: an open that fails changes nothing, one that succeeds adds a stream of resources that
were free, `closedir` releases exactly those of its stream, and the streams deliver their entries in order, from
the first one on after `rewinddir`. -/
theorem dirs_conserved (heap : AllocInv g) (bounds : HostBounds g.ctx)
    (run : (dirSystem rt g).ReachableIf (DirOk rt) s) :
    (∃ l, Conserved g s.rest s.now l) ∧ ((∀ k, s.now.dirs k = none) → Returned g s.rest s.now) ∧
      ∀ c l, DirOk rt s c → c.news.Nodup → (∀ h ∈ c.news, s.now.host h = false) → Conserved g s.rest s.now l →
        ∃ s' ret, s.now.call rt c = some (s', ret) ∧ CallMet rt s.now c s' ret ∧
          ∃ l', StreamsAfter l c ret l' ∧ Conserved g (s.rest.after c ret) s' l' := by
  have inv := DirInv.of_run heap bounds run
  obtain ⟨l, con⟩ := inv.con
  refine ⟨⟨l, con⟩, con.returned heap, fun c l ok nodup fresh con => ?_⟩
  obtain ⟨s', ret, eq, met, streams, -⟩ := call_done bounds con inv.rest inv.ahead ok nodup fresh
  exact ⟨s', ret, eq, met, streams⟩

end Run

/-- The heap of a guest that holds nothing. -/
def dirHeap : GuestHeap := ⟨.blank (2 ^ 22) 0x50000, []⟩

/-- No processes. -/
def noProcs : ProcView := ⟨[], fun _ => false, nofun⟩

/-- A process that holds nothing. -/
def noStreams : DirState where
  now := ⟨dirHeap.ctx, fun _ => -1, fun _ => false, fun _ => ⟨false, 0, 0, .other⟩, fun _ => none⟩
  rest := ⟨fun _ => -1, fun _ => false, fun _ => false⟩

/-- The state after a call. -/
def DirState.next (s : DirState) (c : DirCall) : DirState :=
  match s.now.call noProcs c with
  | none => s
  | some (now, ret) => ⟨now, s.rest.after c ret⟩

theorem noStreams_init : (dirSystem noProcs dirHeap).init noStreams where
  mem := rfl
  rest := rfl
  dirs _ := rfl
  live w h mapped := absurd mapped (by change ¬ (-1 : ℤ) = h; omega)
  distinct w _ h mapped := absurd mapped (by change ¬ (-1 : ℤ) = h; omega)

theorem DirState.next_step {s : DirState} {c : DirCall} (nodup : c.news.Nodup)
    (fresh : ∀ h ∈ c.news, s.now.host h = false) (returns : (s.now.call noProcs c).isSome) :
    (dirSystem noProcs dirHeap).step s c (s.next c) := by
  obtain ⟨⟨now, ret⟩, eq⟩ := Option.isSome_iff_exists.mp returns
  unfold next
  rw [eq]
  exact ⟨nodup, fresh, ret, eq, rfl⟩

/-- `opendir` of a directory of the host with one entry. -/
def openHostDir : DirCall := .opendir 16 (.host (.ok (3, [⟨2, 0, dtDir, [46]⟩])) (some 4))

/-- `opendir` of `/proc`. -/
def openProc : DirCall := .opendir 16 (.vfs (.ok (.root, 0)))

theorem dirs_conserved_host :
    (∃ l, Conserved dirHeap (noStreams.next openHostDir).rest (noStreams.next openHostDir).now l) ∧
    ((∀ k, (noStreams.next openHostDir).now.dirs k = none) →
      Returned dirHeap (noStreams.next openHostDir).rest (noStreams.next openHostDir).now) ∧
    ∀ c l, DirOk noProcs (noStreams.next openHostDir) c → c.news.Nodup →
      (∀ h ∈ c.news, (noStreams.next openHostDir).now.host h = false) →
      Conserved dirHeap (noStreams.next openHostDir).rest (noStreams.next openHostDir).now l →
        ∃ s' ret, (noStreams.next openHostDir).now.call noProcs c = some (s', ret) ∧
          CallMet noProcs (noStreams.next openHostDir).now c s' ret ∧
          ∃ l', StreamsAfter l c ret l' ∧ Conserved dirHeap ((noStreams.next openHostDir).rest.after c ret) s' l' := by
  have ok : DirOk noProcs noStreams openHostDir := fun _ _ _ _ =>
    show servedCount noStreams.now.mem [fbsdDirentSize, ddSize] = 2 by decide +kernel
  exact dirs_conserved (Or.inl ⟨freshHeap_blank, rfl⟩) ⟨by decide, by decide, fun set => absurd rfl set⟩
    (.step (.init noStreams_init) ok (DirState.next_step (by decide) (fun _ _ => rfl) (by decide +kernel)))

/-- The file behind a stream of `/proc` is in use after the stream was closed. -/
theorem proc_file_lost : ¬ ∀ s, (dirSystem noProcs dirHeap).Reachable s → ∃ l, Conserved dirHeap s.rest s.now l := by
  intro claim
  have opened : (dirSystem noProcs dirHeap).step noStreams openProc (noStreams.next openProc) :=
    DirState.next_step (by decide) (fun _ mem => absurd mem List.not_mem_nil) (by decide +kernel)
  have closed : (dirSystem noProcs dirHeap).step (noStreams.next openProc) (.closedir 0x50128)
      ((noStreams.next openProc).next (.closedir 0x50128)) :=
    DirState.next_step (by decide) (fun _ mem => absurd mem List.not_mem_nil) (by decide +kernel)
  have run : (dirSystem noProcs dirHeap).Reachable ((noStreams.next openProc).next (.closedir 0x50128)) :=
    .next (.next (.start noStreams_init) opened) closed
  obtain ⟨l, con⟩ := claim _ run
  have used : ((noStreams.next openProc).next (.closedir 0x50128)).now.Has (.file 0) := by
    change (((noStreams.next openProc).next (.closedir 0x50128)).now.files 0).inUse = true
    decide +kernel
  have idle : ∀ k < dirMax, (((noStreams.next openProc).next (.closedir 0x50128)).now.dirs k).isSome = false := by
    decide +kernel
  rcases (con.account.covers _).mp used with rest | ⟨st, mem, -⟩
  · change ((noStreams.next openProc).next (.closedir 0x50128)).rest.files 0 = true at rest
    exact absurd rest (by decide +kernel)
  · obtain ⟨slot, place⟩ := con.streams st mem
    have none := idle st.k place.index.2
    rw [place.stored] at none
    cases none

end Yos.DirStream
