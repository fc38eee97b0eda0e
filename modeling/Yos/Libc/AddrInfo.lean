import Yos.Lib.FlagMap
import Yos.Libc.Glob
import Yos.Libc.SockAddr

/-!
# Address lists for the guest (`impl/libc/posix.c`)

`yos_getaddrinfo` copies the list that the host's `getaddrinfo` answers to the guest: a block for each entry
holds the `struct addrinfo`, the address behind it and the canonical name behind that, and `ai_next` links the
blocks.  `yos_freeaddrinfo` walks the list and frees them.  A request that fails after another was served makes
`yos_getaddrinfo` return `EAI_MEMORY` with the blocks it has allocated still held by nobody, as `yos_glob`
does (`list_met_iff`).
-/

namespace Yos

open Word Bytes Span FlagMap

/-! ## The code -/

/-- An entry of the host's list, without its link. -/
structure HostAddrinfo where
  flags : BitVec 32
  family : UInt32
  socktype : UInt32
  protocol : UInt32
  addr : List UInt8
  canonname : Option HostString

/-- `EAI_MEMORY`. -/
def eaiMemory : ℤ := -10

/-- `EAI_SYSTEM`. -/
def eaiSystem : ℤ := -11

/-- `ai_flags_lx_to_fb`. -/
def aiFlagsLxToFb : BitVec 32 → BitVec 32 :=
  mapFlags [(0x1, 0x1), (0x2, 0x2), (0x4, 0x4), (0x400, 0x8), (0x10, 0x100), (0x20, 0x400), (0x8, 0x800)]

/-- `WASM_ADDRINFO_SZ`. -/
def wasmAddrinfoSz : ℕ := 32

/-- `namelen`. -/
def HostAddrinfo.namelen (p : HostAddrinfo) : ℕ :=
  match p.canonname with
  | none => 0
  | some name => name.1.length + 1

/-- `total`. -/
def HostAddrinfo.total (p : HostAddrinfo) : ℕ := u32 (u32 (wasmAddrinfoSz + u32 p.addr.length) + u32 p.namelen)

/-- The canonical name, and the pointer to it. -/
def putCanonname (memory : Bytes) (blk nameOff : ℕ) : Option HostString → Bytes
  | none => memory
  | some name => (writeBytes memory nameOff (name.1 ++ [0])).write32 (blk + 20) nameOff

/-- The cleared block with the first fields of the entry. -/
def putHeader (memory : Bytes) (blk : ℕ) (p : HostAddrinfo) : Bytes :=
  let memory := memory.fill blk p.total 0
  let memory := memory.write32 blk (aiFlagsLxToFb p.flags).toNat
  let memory := memory.write32 (blk + 4) p.family.toNat
  let memory := memory.write32 (blk + 8) p.socktype.toNat
  let memory := memory.write32 (blk + 12) p.protocol.toNat
  memory.write32 (blk + 16) (u32 p.addr.length)

/-- The body of the loop of `yos_getaddrinfo`, but for `ai_next`. -/
def putAddrinfo (memory : Bytes) (blk : ℕ) (p : HostAddrinfo) : Bytes :=
  let memory := putHeader memory blk p
  let addrOff := u32 (blk + wasmAddrinfoSz)
  let memory := writeBytes memory addrOff (SockAddr.hostSockaddrToFreebsd p.addr)
  let memory := memory.write32 (blk + 24) addrOff
  putCanonname memory blk (u32 (addrOff + u32 p.addr.length)) p.canonname

/-- `ai_next` of the entry before. -/
def putNext (memory : Bytes) (prev blk : ℕ) : Bytes := if prev ≠ 0 then memory.write32 (prev + 28) blk else memory

/-- The loop of `yos_getaddrinfo`: the memory, and the first entry unless a request fails. -/
def getaddrinfoLoop : List HostAddrinfo → (first prev : ℕ) → MemCtx → MemCtx × Option ℕ
  | [], first, _, ctx => (ctx, some first)
  | p :: rest, first, prev, ctx =>
    let (ctx, blk) := yosMalloc ctx p.total
    if blk = 0 then (ctx, none)
    else
      let memory := putNext (putAddrinfo ctx.memory blk p) prev blk
      getaddrinfoLoop rest (if prev ≠ 0 then first else blk) blk { ctx with memory }

/-- `yos_getaddrinfo`, when the host's `getaddrinfo` answers `host`: its list, or its error. -/
def yosGetaddrinfo (ctx : MemCtx) (resOff : ℕ) (host : Except ℤ (List HostAddrinfo)) : MemCtx × ℤ :=
  if resOff = 0 ∨ ctx.memorySize < u32 (resOff + 4) then (ctx, eaiSystem)
  else
    match host with
    | .error rc => ({ ctx with memory := ctx.memory.write32 resOff 0 }, rc)
    | .ok entries =>
      match getaddrinfoLoop entries 0 0 ctx with
      | (ctx, none) => (ctx, eaiMemory)
      | (ctx, some first) => ({ ctx with memory := ctx.memory.write32 resOff first }, 0)

/-- `yos_freeaddrinfo`; `none` if a walk does not end within `fuel` entries. -/
def yosFreeaddrinfo : (fuel : ℕ) → MemCtx → (resOff : ℕ) → Option MemCtx
  | 0, _, _ => none
  | fuel + 1, ctx, resOff =>
    if resOff ≠ 0 ∧ u32 (resOff + wasmAddrinfoSz) ≤ ctx.memorySize then
      let next := ctx.memory.read32 (resOff + 28)
      (freeCall ctx resOff).bind fun ctx => yosFreeaddrinfo fuel ctx next
    else some ctx

/-! ## What it is for -/

/-- The name, if there is one. -/
def CanonnameAt (m : Bytes) (q : ℕ) : Option HostString → Prop
  | none => q = 0
  | some name => q ≠ 0 ∧ StringAt m q name

/-- The `struct addrinfo` at `a` holds the entry, its flags and its address in the guest's form. -/
structure EntryAt (m : Bytes) (a : ℕ) (p : HostAddrinfo) : Prop where
  flags : m.read32 a = (aiFlagsLxToFb p.flags).toNat
  family : m.read32 (a + 4) = p.family.toNat
  socktype : m.read32 (a + 8) = p.socktype.toNat
  protocol : m.read32 (a + 12) = p.protocol.toNat
  addrlen : m.read32 (a + 16) = p.addr.length
  canonname : CanonnameAt m (m.read32 (a + 20)) p.canonname
  addr : ∀ i (lt : i < (SockAddr.hostSockaddrToFreebsd p.addr).length),
    m (m.read32 (a + 24) + i) = (SockAddr.hostSockaddrToFreebsd p.addr)[i]

/-- The list that starts at `a` holds the entries. -/
def EntriesAt (m : Bytes) (a : ℕ) : List HostAddrinfo → Prop
  | [] => a = 0
  | p :: rest => a ≠ 0 ∧ EntryAt m a p ∧ EntriesAt m (m.read32 (a + 28)) rest

/-- The cell points to the entries, and `yos_freeaddrinfo` gives everything back. -/
structure EntriesDelivered (held : List HeldPtr) (ctx : MemCtx) (resOff : ℕ) (entries : List HostAddrinfo) : Prop where
  entries : EntriesAt ctx.memory (ctx.memory.read32 resOff) entries
  frees : ∃ fuel ctx', yosFreeaddrinfo fuel ctx (ctx.memory.read32 resOff) = some ctx' ∧ AllocInv ⟨ctx', held⟩

/-- All or nothing: the entries are delivered, or the guest is told that memory ran out, no block is lost and
the cell is as it was. -/
def GetaddrinfoMet (s : GuestHeap) (resOff : ℕ) (entries : List HostAddrinfo) : Prop :=
  ((yosGetaddrinfo s.ctx resOff (.ok entries)).2 = 0 ∧
      EntriesDelivered s.held (yosGetaddrinfo s.ctx resOff (.ok entries)).1 resOff entries) ∨
    ((yosGetaddrinfo s.ctx resOff (.ok entries)).2 = eaiMemory ∧
      AllocInv ⟨(yosGetaddrinfo s.ctx resOff (.ok entries)).1, s.held⟩ ∧
      ∀ x, resOff ≤ x → x < resOff + 4 → (yosGetaddrinfo s.ctx resOff (.ok entries)).1.memory x = s.ctx.memory x)

/-- The cell for the result is the guest's, and lies in the memory. -/
structure GetaddrinfoCall (s : GuestHeap) (resOff : ℕ) : Prop where
  heap : AllocInv s
  bounds : HostBounds s.ctx
  given : resOff ≠ 0
  range : resOff + 4 ≤ s.ctx.memorySize
  mine : ∀ x, resOff ≤ x → x < resOff + 4 → s.Mine x

/-- The bytes of an entry. -/
def HostAddrinfo.size (p : HostAddrinfo) : ℕ := wasmAddrinfoSz + p.addr.length + p.namelen

/-! ## An entry -/

section Entry

variable {m m' : Bytes} {a x : ℕ} {p : HostAddrinfo}

theorem length_hostSockaddrToFreebsd (addr : List UInt8) :
    (SockAddr.hostSockaddrToFreebsd addr).length = addr.length := by
  unfold SockAddr.hostSockaddrToFreebsd
  split <;> rfl

theorem HostAddrinfo.total_eq (fits : Fits p.size) : p.total = p.size := by
  unfold Fits size wasmAddrinfoSz at fits
  unfold total size wasmAddrinfoSz
  rw [u32_of_lt (n := p.addr.length) (by omega), u32_of_lt (n := p.namelen) (by omega),
    u32_of_lt (n := 32 + p.addr.length) (by omega), u32_of_lt (by omega)]

theorem read32_writeBytes {q : ℕ} {l : List UInt8} (apart : a + 4 ≤ q ∨ q + l.length ≤ a) :
    (writeBytes m q l).read32 a = m.read32 a :=
  read32_congr fun x low high => writeBytes_of_not_mem (by omega)

theorem read32_fill_zero {q n : ℕ} (low : q ≤ a) (high : a + 4 ≤ q + n) : (m.fill q n 0).read32 a = 0 := by
  rw [read32, fill_of_mem (by omega), fill_of_mem (by omega), fill_of_mem (by omega), fill_of_mem (by omega)]
  rfl

theorem putCanonname_of_not_mem {q : ℕ} (word : x < a + 20 ∨ a + 24 ≤ x) (text : x < q ∨ q + p.namelen ≤ x) :
    putCanonname m a q p.canonname x = m x := by
  unfold HostAddrinfo.namelen at text
  unfold putCanonname
  cases some : p.canonname with
  | none => rfl
  | some name =>
    rw [some] at text
    dsimp only at text ⊢
    have length : (name.1 ++ [0]).length = name.1.length + 1 := List.length_append
    exact (write32_apply_of_disjoint (by omega)).trans (writeBytes_of_not_mem (by omega))

/-- The entry lies in one block: the address behind the structure, and the name behind the address. -/
structure NodeAt (m : Bytes) (a : ℕ) (p : HostAddrinfo) : Prop where
  entry : EntryAt m a p
  addrOff : m.read32 (a + 24) = a + 32
  nameOff : p.canonname ≠ none → m.read32 (a + 20) = a + 32 + p.addr.length

/-- What is in the entry stays if the block does, but for `ai_next`. -/
theorem NodeAt.congr (node : NodeAt m a p)
    (same : ∀ i < p.size, i < 28 ∨ 32 ≤ i → m' (a + i) = m (a + i)) : NodeAt m' a p := by
  unfold HostAddrinfo.size wasmAddrinfoSz at same
  have word {k : ℕ} (lt : k + 4 ≤ 28) : m'.read32 (a + k) = m.read32 (a + k) :=
    read32_congr fun x low high => by
      have byte := same (x - a) (by omega) (Or.inl (by omega))
      rwa [Nat.add_sub_cancel' (by omega)] at byte
  have length := length_hostSockaddrToFreebsd p.addr
  obtain ⟨⟨flags, family, socktype, protocol, addrlen, canonname, addr⟩, addrOff, nameOff⟩ := node
  refine ⟨⟨(word (k := 0) (by omega)).trans flags, (word (by omega)).trans family, (word (by omega)).trans socktype,
    (word (by omega)).trans protocol, (word (by omega)).trans addrlen, ?_, fun i lt => ?_⟩,
    (word (by omega)).trans addrOff, fun some => (word (by omega)).trans (nameOff some)⟩
  · rw [word (by omega)]
    unfold HostAddrinfo.namelen at same
    cases some : p.canonname with
    | none =>
      rw [some] at canonname
      exact canonname
    | some name =>
      rw [some] at canonname same nameOff
      obtain ⟨given, text⟩ := canonname
      refine ⟨given, text.congr fun i lt => ?_⟩
      rw [nameOff nofun]
      have byte := same (32 + p.addr.length + i) (by dsimp only; omega) (Or.inr (by omega))
      rwa [← Nat.add_assoc, ← Nat.add_assoc] at byte
  · rw [← addr i lt, word (by omega), addrOff]
    have byte := same (32 + i) (by omega) (Or.inr (by omega))
    rwa [← Nat.add_assoc] at byte

theorem putAddrinfo_eq (small : a + p.size < 2 ^ 32) :
    putAddrinfo m a p = putCanonname
      ((writeBytes (putHeader m a p) (a + 32) (SockAddr.hostSockaddrToFreebsd p.addr)).write32 (a + 24) (a + 32)) a
      (a + 32 + p.addr.length) p.canonname := by
  unfold HostAddrinfo.size wasmAddrinfoSz at small
  unfold putAddrinfo wasmAddrinfoSz
  dsimp only
  rw [u32_of_lt (n := p.addr.length) (by omega), u32_of_lt (n := a + 32) (by omega), u32_of_lt (by omega)]

theorem putHeader_of_not_mem (fits : Fits p.size) (out : ¬ (a ≤ x ∧ x < a + p.size)) : putHeader m a p x = m x := by
  have total := p.total_eq fits
  unfold HostAddrinfo.size wasmAddrinfoSz at out total
  unfold putHeader
  iterate 5 rw [write32_apply_of_disjoint (by omega)]
  exact if_neg (by omega)

theorem putHeader_zero (fits : Fits p.size) {k : ℕ} (late : 20 ≤ k ∧ k + 4 ≤ 32) :
    (putHeader m a p).read32 (a + k) = 0 := by
  have total := p.total_eq fits
  unfold HostAddrinfo.size wasmAddrinfoSz at total
  unfold putHeader
  iterate 5 rw [read32_write32_disjoint (by omega)]
  exact read32_fill_zero (by omega) (by omega)

/-- Nothing outside the block changes. -/
theorem putAddrinfo_of_not_mem (fits : Fits p.size) (small : a + p.size < 2 ^ 32)
    (out : ¬ (a ≤ x ∧ x < a + p.size)) : putAddrinfo m a p x = m x := by
  have length := length_hostSockaddrToFreebsd p.addr
  rw [putAddrinfo_eq small]
  refine Eq.trans ?_ (putHeader_of_not_mem fits out)
  unfold HostAddrinfo.size wasmAddrinfoSz at out
  rw [putCanonname_of_not_mem (by omega) (by omega), write32_apply_of_disjoint (by omega),
    writeBytes_of_not_mem (by omega)]

/-- The words of the structure that are stored before the address. -/
theorem putAddrinfo_word (small : a + p.size < 2 ^ 32) {k : ℕ}
    (early : k + 4 ≤ 20 ∨ k = 28) : (putAddrinfo m a p).read32 (a + k) = (putHeader m a p).read32 (a + k) := by
  have length := length_hostSockaddrToFreebsd p.addr
  rw [putAddrinfo_eq small]
  refine read32_congr fun x low high => ?_
  rw [putCanonname_of_not_mem (by omega) (by omega), write32_apply_of_disjoint (by omega),
    writeBytes_of_not_mem (by omega)]

/-- The block holds the entry, and no entry follows. -/
theorem nodeAt_putAddrinfo (fits : Fits p.size) (small : a + p.size < 2 ^ 32) :
    NodeAt (putAddrinfo m a p) a p ∧ (putAddrinfo m a p).read32 (a + 28) = 0 := by
  have length := length_hostSockaddrToFreebsd p.addr
  have total := p.total_eq fits
  have header {k : ℕ} (early : k + 4 ≤ 20 ∨ k = 28) := putAddrinfo_word (m := m) small early
  have bounds := small
  unfold HostAddrinfo.size wasmAddrinfoSz at small total
  have size : u32 p.addr.length = p.addr.length := u32_of_lt (by omega)
  have addrOff : (putAddrinfo m a p).read32 (a + 24) = a + 32 := by
    rw [putAddrinfo_eq bounds]
    refine (read32_congr fun x low high => putCanonname_of_not_mem ?_ ?_).trans (read32_write32_self ?_)
    all_goals omega
  refine ⟨⟨⟨(header (k := 0) (by omega)).trans ?_, (header (by omega)).trans ?_, (header (by omega)).trans ?_,
    (header (by omega)).trans ?_, (header (by omega)).trans ?_, ?_, fun i lt => ?_⟩, addrOff, fun some => ?_⟩,
    (header (Or.inr rfl)).trans ?_⟩
  · unfold putHeader
    iterate 4 rw [read32_write32_disjoint (by omega)]
    exact read32_write32_self (BitVec.isLt _)
  · unfold putHeader
    iterate 3 rw [read32_write32_disjoint (by omega)]
    exact read32_write32_self (UInt32.toNat_lt _)
  · unfold putHeader
    iterate 2 rw [read32_write32_disjoint (by omega)]
    exact read32_write32_self (UInt32.toNat_lt _)
  · unfold putHeader
    rw [read32_write32_disjoint (by omega)]
    exact read32_write32_self (UInt32.toNat_lt _)
  · unfold putHeader
    rw [size]
    exact read32_write32_self (by omega)
  · rw [putAddrinfo_eq bounds]
    cases some : p.canonname with
    | none =>
      refine Eq.trans ?_ (putHeader_zero (m := m) (a := a) fits (show 20 ≤ 20 ∧ 20 + 4 ≤ 32 by decide))
      refine (read32_write32_disjoint (by omega)).trans (read32_writeBytes (by omega))
    | some name =>
      unfold HostAddrinfo.namelen at small
      rw [some] at small
      dsimp only at small
      unfold putCanonname
      rw [read32_write32_self (by omega)]
      refine ⟨by omega, StringAt.congr stringAt_writeBytes fun i lt => write32_apply_of_disjoint (by omega)⟩
  · rw [addrOff, putAddrinfo_eq bounds, putCanonname_of_not_mem (by omega) (by omega),
      write32_apply_of_disjoint (by omega)]
    exact writeBytes_apply lt
  · rw [putAddrinfo_eq bounds]
    unfold HostAddrinfo.namelen at small
    cases name : p.canonname with
    | none => exact absurd name some
    | some name' => exact read32_write32_self (by rw [name] at small; dsimp only at small; omega)
  · exact putHeader_zero fits (by decide)

end Entry

/-! ## The entries in their blocks -/

section Nodes

variable {m m' : Bytes} {bs : List HeldPtr} {entries : List HostAddrinfo}

/-- The pointer to the first of the blocks. -/
def firstPtr : List HeldPtr → ℕ
  | [] => 0
  | b :: _ => b.ptr

/-- The blocks hold the entries, and `ai_next` links them. -/
def NodesAt (m : Bytes) : List HeldPtr → List HostAddrinfo → Prop
  | [], [] => True
  | b :: bs, p :: rest =>
    NodeAt m b.ptr p ∧ b.size = p.size ∧ m.read32 (b.ptr + 28) = firstPtr bs ∧ NodesAt m bs rest
  | _, _ => False

theorem NodesAt.congr (nodes : NodesAt m bs entries)
    (same : ∀ b ∈ bs, ∀ i < b.size, m' (b.ptr + i) = m (b.ptr + i)) : NodesAt m' bs entries := by
  induction bs generalizing entries with
  | nil =>
    cases entries with
    | nil => trivial
    | cons p rest => exact nodes.elim
  | cons b bs ih =>
    cases entries with
    | nil => exact nodes.elim
    | cons p rest =>
      obtain ⟨node, size, next, nodes⟩ := nodes
      have block := same b List.mem_cons_self
      rw [size] at block
      refine ⟨node.congr fun i lt _ => block i lt, size, ?_, ih nodes fun c mem => same c (List.mem_cons_of_mem b mem)⟩
      rw [← next]
      refine read32_congr fun x low high => ?_
      unfold HostAddrinfo.size wasmAddrinfoSz at block
      have byte := block (x - b.ptr) (by omega)
      rwa [Nat.add_sub_cancel' (by omega)] at byte

theorem NodesAt.entriesAt (nodes : NodesAt m bs entries) (given : ∀ b ∈ bs, b.ptr ≠ 0) :
    EntriesAt m (firstPtr bs) entries := by
  induction bs generalizing entries with
  | nil =>
    cases entries with
    | nil => rfl
    | cons p rest => exact nodes.elim
  | cons b bs ih =>
    cases entries with
    | nil => exact nodes.elim
    | cons p rest =>
      obtain ⟨node, -, next, nodes⟩ := nodes
      refine ⟨given b List.mem_cons_self, node.entry, ?_⟩
      rw [firstPtr, next]
      exact ih nodes fun c mem => given c (List.mem_cons_of_mem b mem)

/-- The walk of `yos_freeaddrinfo` frees the blocks. -/
theorem NodesAt.frees {ctx : MemCtx} {held : List HeldPtr} (nodes : NodesAt ctx.memory bs entries)
    (inv : AllocInv ⟨ctx, bs ++ held⟩) (room : ∀ b ∈ bs, b.ptr + b.size ≤ ctx.memorySize) :
    ∃ ctx', yosFreeaddrinfo (bs.length + 1) ctx (firstPtr bs) = some ctx' ∧ AllocInv ⟨ctx', held⟩ := by
  induction bs generalizing entries ctx with
  | nil => exact ⟨ctx, if_neg fun walk => walk.1 rfl, inv⟩
  | cons b bs ih =>
    cases entries with
    | nil => exact nodes.elim
    | cons p rest =>
      obtain ⟨-, size, next, nodes⟩ := nodes
      obtain ⟨low, high⟩ := inv.bounds (h := b) List.mem_cons_self
      have inside := room b List.mem_cons_self
      unfold HostAddrinfo.size wasmAddrinfoSz at size
      obtain ⟨ctx₁, freed, move⟩ := inv.free_move (h := b) List.mem_cons_self
      have left : ((b :: bs) ++ held).erase b = bs ++ held := List.erase_cons_head b _
      rw [left] at move
      obtain ⟨ctx', run, inv'⟩ := ih (nodes.congr fun c mem i lt => move.keeps inv (by simp [mem]) (by simp [mem]) lt)
        move.inv fun c mem => by
          rw [move.size]
          exact room c (List.mem_cons_of_mem b mem)
      refine ⟨ctx', ?_, inv'⟩
      rw [firstPtr, yosFreeaddrinfo, wasmAddrinfoSz, u32_of_lt (by omega), if_pos ⟨by omega, by omega⟩, next, freed]
      exact run

end Nodes

/-! ## The loop of `yos_getaddrinfo` -/

section Loop

variable {s : GuestHeap} {ctx : MemCtx} {new : HeldPtr} {p : HostAddrinfo} {prev x : ℕ}

/-- The byte is in `ai_next` of the entry at `prev`. -/
def InNext (prev x : ℕ) : Prop := prev ≠ 0 ∧ prev + 28 ≤ x ∧ x < prev + 32

/-- The entry at `prev` is in a block that is held, and is the last. -/
def LastAt (s : GuestHeap) (prev : ℕ) : Prop :=
  prev ≠ 0 → s.ctx.memory.read32 (prev + 28) = 0 ∧ ∃ h ∈ s.held, h.ptr = prev ∧ 32 ≤ h.size

theorem LastAt.owns (last : LastAt s prev) (inv : AllocInv s) (inside : InNext prev x) : ∃ h ∈ s.held, h.Owns x := by
  obtain ⟨-, h, held, rfl, room⟩ := last inside.1
  have owns := inv.owns held (i := x - h.ptr) (by have := inside.2; omega)
  rw [Nat.add_sub_cancel' (by have := inside.2; omega)] at owns
  exact ⟨h, held, owns⟩

theorem putNext_of_not_inNext {m : Bytes} {blk : ℕ} (out : ¬ InNext prev x) : putNext m prev blk x = m x := by
  unfold InNext at out
  unfold putNext
  split_ifs with some
  · exact write32_apply_of_disjoint (by omega)
  · rfl

/-- The heap with another entry. -/
def GuestHeap.addEntry (s : GuestHeap) (ctx : MemCtx) (new : HeldPtr) (p : HostAddrinfo) (prev : ℕ) : GuestHeap :=
  ⟨{ ctx with memory := putNext (putAddrinfo ctx.memory new.ptr p) prev new.ptr }, new :: s.held⟩

/-- What is stored for an entry lies in its block and in `ai_next` of the entry before. -/
theorem Allocated.addEntry_of_not_owns (done : Allocated s p.size ctx new) (fits : Fits p.size)
    (other : ¬ new.Owns x) (out : ¬ InNext prev x) : (s.addEntry ctx new p prev).ctx.memory x = ctx.memory x := by
  have small := (done.move.inv.bounds (h := new) List.mem_cons_self).2
  rw [done.asked] at small
  refine (putNext_of_not_inNext out).trans (putAddrinfo_of_not_mem fits (by omega) fun inside => other ?_)
  have owns := done.move.inv.owns (h := new) List.mem_cons_self (i := x - new.ptr) (by rw [done.asked]; omega)
  rwa [Nat.add_sub_cancel' inside.1] at owns

theorem Allocated.addEntry_frame (done : Allocated s p.size ctx new) (fits : Fits p.size) (mine : s.Mine x)
    (out : ¬ InNext prev x) : (s.addEntry ctx new p prev).ctx.memory x = s.ctx.memory x :=
  (done.addEntry_of_not_owns fits (fun owns => done.apart x owns mine) out).trans
    (done.move.frame x mine (done.move.mine_of_subset (fun _ => List.mem_cons_of_mem new) mine))

theorem Allocated.addEntry_stays (done : Allocated s p.size ctx new) (fits : Fits p.size) (inv : AllocInv s)
    (last : LastAt s prev) : HeapStays s (s.addEntry ctx new p prev) := by
  refine done.move.toHeapStays.store fun x changed => Or.inr ?_
  by_contra none
  refine changed (done.addEntry_of_not_owns fits (fun owns => none ⟨new, List.mem_cons_self, owns⟩) fun inside => ?_)
  obtain ⟨h, held, owns⟩ := last.owns inv inside
  exact none ⟨h, List.mem_cons_of_mem new held, owns⟩

/-- The new block holds the entry, which is the last. -/
theorem Allocated.addEntry_node (done : Allocated s p.size ctx new) (fits : Fits p.size) (inv : AllocInv s)
    (last : LastAt s prev) : NodeAt (s.addEntry ctx new p prev).ctx.memory new.ptr p ∧
      LastAt (s.addEntry ctx new p prev) new.ptr := by
  have small := (done.move.inv.bounds (h := new) List.mem_cons_self).2
  rw [done.asked] at small
  obtain ⟨node, stop⟩ := nodeAt_putAddrinfo (m := ctx.memory) fits (show new.ptr + p.size < 2 ^ 32 by omega)
  have same {i : ℕ} (lt : i < p.size) : (s.addEntry ctx new p prev).ctx.memory (new.ptr + i) =
      putAddrinfo ctx.memory new.ptr p (new.ptr + i) := by
    have owns := done.move.inv.owns (h := new) List.mem_cons_self (i := i) (by rw [done.asked]; exact lt)
    refine putNext_of_not_inNext fun inside => done.apart _ owns (Or.inr ?_)
    exact last.owns inv inside
  have room := done.asked
  unfold HostAddrinfo.size wasmAddrinfoSz at room
  refine ⟨node.congr fun i lt _ => same lt, fun _ => ⟨?_, new, List.mem_cons_self, rfl, by omega⟩⟩
  rw [← stop]
  refine read32_congr fun x low high => ?_
  have byte := same (i := x - new.ptr) (by unfold HostAddrinfo.size wasmAddrinfoSz; omega)
  rwa [Nat.add_sub_cancel' (by omega)] at byte

theorem Allocated.not_inNext (done : Allocated s p.size ctx new) (mine : s.Mine x) : ¬ InNext new.ptr x := by
  intro inside
  have room := done.asked
  unfold HostAddrinfo.size wasmAddrinfoSz at room
  have owns := done.move.inv.owns (h := new) List.mem_cons_self (i := x - new.ptr) (by have := inside.2; omega)
  rw [Nat.add_sub_cancel' (by have := inside.2; omega)] at owns
  exact done.apart x owns mine

/-- The requests that follow do not depend on what is stored. -/
theorem Allocated.servedCount_addEntry (done : Allocated s p.size ctx new) {prev : ℕ}
    (stays : HeapStays s (s.addEntry ctx new p prev)) {sizes : List ℕ} (fits : ∀ size ∈ sizes, Fits size) :
    servedCount s.ctx (p.size :: sizes) = servedCount (s.addEntry ctx new p prev).ctx sizes + 1 := by
  have bounds := setUp_store ctx (s.addEntry ctx new p prev).ctx.memory
  rw [servedCount_of_allocated _ done]
  exact congrArg (· + 1)
    (done.move.inv.servedCount_congr stays.inv bounds.1.symm bounds.2.symm fits)

/-- The entries that were allocated are held, and nothing else of the guest's changes. -/
structure EntriesBuilt (s : GuestHeap) (prev : ℕ) (entries : List HostAddrinfo) (ctx : MemCtx) (bs : List HeldPtr) :
    Prop where
  stays : HeapStays s ⟨ctx, bs.reverse ++ s.held⟩
  frame : ∀ x, s.Mine x → ¬ InNext prev x → ctx.memory x = s.ctx.memory x
  count : bs.length = servedCount s.ctx (entries.map HostAddrinfo.size)

/-- The loop builds the list behind `prev`, or it ends early with what it has built. -/
theorem getaddrinfoLoop_ends {entries : List HostAddrinfo} (inv : AllocInv s) (last : LastAt s prev)
    (fits : ∀ p ∈ entries, Fits p.size) (first : ℕ) (start : prev = 0 → first = 0) :
    ∃ ctx bs, EntriesBuilt s prev entries ctx bs ∧
      ((bs.length = entries.length ∧
          getaddrinfoLoop entries first prev s.ctx = (ctx, some (if prev ≠ 0 then first else firstPtr bs)) ∧
          NodesAt ctx.memory bs entries ∧ (prev ≠ 0 → ctx.memory.read32 (prev + 28) = firstPtr bs)) ∨
        (bs.length < entries.length ∧ getaddrinfoLoop entries first prev s.ctx = (ctx, none))) := by
  induction entries generalizing s prev first with
  | nil =>
    refine ⟨s.ctx, [], ⟨⟨inv, rfl, rfl, rfl⟩, fun _ _ _ => rfl, rfl⟩,
      Or.inl ⟨rfl, ?_, trivial, fun some => (last some).1⟩⟩
    rw [getaddrinfoLoop]
    split_ifs with linked
    · rfl
    · rw [start (not_not.mp linked)]
      rfl
  | cons p rest ih =>
    obtain ⟨fit, fits⟩ := List.forall_mem_cons.mp fits
    rw [List.length_cons, getaddrinfoLoop, p.total_eq fit]
    rcases inv.malloc_cases fit with ⟨ctx₁, eq, move⟩ | ⟨ctx₁, new, done⟩
    · refine ⟨ctx₁, [], ⟨move.toHeapStays, fun x mine _ => ?_, ?_⟩, Or.inr ⟨Nat.succ_pos _, ?_⟩⟩
      · exact move.frame x mine (move.mine_of_subset (fun _ => id) mine)
      · exact (servedCount_of_zero (by rw [eq])).symm
      · rw [eq]
        rfl
    · have stays := done.addEntry_stays fit inv last
      obtain ⟨node, last'⟩ := done.addEntry_node fit inv last
      have order (bs : List HeldPtr) : (new :: bs).reverse ++ s.held = bs.reverse ++ new :: s.held := by
        rw [List.reverse_cons, List.append_assoc, List.singleton_append]
      obtain ⟨ctx, bs, built, ends⟩ := ih stays.inv last' fits (if prev ≠ 0 then first else new.ptr)
        fun zero => absurd zero done.ptr_ne
      have kept {x : ℕ} (mine : s.Mine x) : ctx.memory x = (s.addEntry ctx₁ new p prev).ctx.memory x :=
        built.frame x (stays.mine_of_subset (fun _ => List.mem_cons_of_mem new) mine) (done.not_inNext mine)
      rw [done.eq]
      dsimp only
      rw [if_neg done.ptr_ne]
      refine ⟨ctx, new :: bs, ⟨?_, fun x mine out => (kept mine).trans (done.addEntry_frame fit mine out), ?_⟩, ?_⟩
      · rw [order]
        exact stays.trans built.stays
      · have stays' : HeapStays s (s.addEntry ctx₁ new p prev) := stays
        rw [List.map_cons, done.servedCount_addEntry stays' fun size mem => ?_, List.length_cons, built.count]
        obtain ⟨q, listed, rfl⟩ := List.mem_map.mp mem
        exact fits q listed
      · rcases ends with ⟨all, run, nodes, next⟩ | ⟨few, run⟩
        · refine Or.inl ⟨congrArg (· + 1) all, ?_,
            ⟨node.congr fun i lt body => ?_, done.asked, next done.ptr_ne, nodes⟩, fun some => ?_⟩
          · rw [if_pos done.ptr_ne] at run
            exact run
          · have owns := stays.inv.owns (h := new) List.mem_cons_self (i := i) (by rw [done.asked]; exact lt)
            refine built.frame _ (Or.inr ⟨new, List.mem_cons_self, owns⟩) ?_
            unfold InNext
            omega
          · have stored : (s.addEntry ctx₁ new p prev).ctx.memory.read32 (prev + 28) = new.ptr := by
              unfold GuestHeap.addEntry putNext
              have small := (done.move.inv.bounds (h := new) List.mem_cons_self).2
              rw [if_pos some]
              exact read32_write32_self (by omega)
            refine Eq.trans (read32_congr fun x low high => ?_) stored
            exact kept (Or.inr (last.owns inv ⟨some, low, high⟩))
        · exact Or.inr ⟨Nat.succ_lt_succ few, run⟩

end Loop

/-! ## The call -/

/-- The entries are delivered. -/
theorem EntriesBuilt.delivered {s : GuestHeap} {resOff : ℕ} {entries : List HostAddrinfo} {ctx : MemCtx}
    {bs : List HeldPtr} (built : EntriesBuilt s 0 entries ctx bs) (nodes : NodesAt ctx.memory bs entries)
    (call : GetaddrinfoCall s resOff) :
    EntriesDelivered s.held { ctx with memory := ctx.memory.write32 resOff (firstPtr bs) } resOff entries := by
  let m := ctx.memory.write32 resOff (firstPtr bs)
  have held {h : HeldPtr} (mem : h ∈ bs) : h ∈ bs.reverse ++ s.held :=
    List.mem_append_left _ (List.mem_reverse.mpr mem)
  have bounds {h : HeldPtr} (mem : h ∈ bs) : 24 ≤ h.ptr ∧ h.ptr + h.size ≤ 2 ^ 31 := built.stays.inv.bounds (held mem)
  -- the cell is in none of the blocks
  have nodes' : NodesAt m bs entries := nodes.congr fun h mem i lt => by
    have out : ¬ (resOff ≤ h.ptr + i ∧ h.ptr + i < resOff + 4) := fun inside =>
      built.stays.not_mine (List.mem_reverse.mpr mem) (built.stays.inv.owns (held mem) lt)
        (call.mine _ inside.1 inside.2)
    exact write32_apply_of_disjoint (by omega)
  have cell : m.read32 resOff = firstPtr bs := by
    refine read32_write32_self ?_
    cases bs with
    | nil => exact Nat.two_pow_pos 32
    | cons b bs =>
      have small := bounds (h := b) List.mem_cons_self
      change b.ptr < 2 ^ 32
      omega
  have stays : HeapStays s ⟨{ ctx with memory := m }, bs.reverse ++ s.held⟩ := by
    refine built.stays.store fun x changed => ?_
    refine built.stays.mine_of_subset (fun _ => List.mem_append_right _) (call.mine x ?_ ?_)
    all_goals
      by_contra out
      exact changed (write32_apply_of_disjoint (by omega))
  have order : (bs.reverse ++ s.held).Perm (bs ++ s.held) := (List.reverse_perm bs).append_right s.held
  have walk : ∃ ctx', yosFreeaddrinfo (bs.length + 1) { ctx with memory := m } (firstPtr bs) = some ctx' ∧
      AllocInv ⟨ctx', s.held⟩ :=
    nodes'.frees (stays.inv.perm order) fun b mem => (stays.in_memory call.bounds (held mem)).1
  rw [← cell] at walk
  refine ⟨?_, bs.length + 1, walk⟩
  change EntriesAt m (m.read32 resOff) entries
  rw [cell]
  exact nodes'.entriesAt fun b mem => Nat.ne_of_gt (Nat.lt_of_lt_of_le (by decide) (bounds mem).1)

/-- `yos_getaddrinfo` is all or nothing exactly when `yos_malloc` serves each of its requests or not even the
first. -/
theorem getaddrinfo_met_iff {s : GuestHeap} {resOff : ℕ} (call : GetaddrinfoCall s resOff)
    {entries : List HostAddrinfo} (fits : ∀ p ∈ entries, Fits p.size) :
    GetaddrinfoMet s resOff entries ↔
      servedCount s.ctx (entries.map HostAddrinfo.size) = (entries.map HostAddrinfo.size).length ∨
        servedCount s.ctx (entries.map HostAddrinfo.size) = 0 := by
  have range := call.range
  have half := call.bounds.size
  obtain ⟨ctx, bs, built, ends⟩ := getaddrinfoLoop_ends call.heap (fun linked => absurd rfl linked) fits 0 fun _ => rfl
  unfold GetaddrinfoMet yosGetaddrinfo
  rw [if_neg (by rw [u32_of_lt (by omega)]; exact not_or.mpr ⟨call.given, by omega⟩), List.length_map, ← built.count]
  dsimp only
  rcases ends with ⟨all, run, nodes, -⟩ | ⟨few, run⟩
  · rw [run, if_neg (not_not.mpr rfl)]
    exact iff_of_true (Or.inl ⟨rfl, built.delivered nodes call⟩) (Or.inl all)
  · rw [run]
    constructor
    · rintro (⟨code, -⟩ | ⟨-, inv, -⟩)
      · exact absurd code (show eaiMemory ≠ 0 by decide)
      · have none := built.stays.inv.held_unique inv
        rw [List.reverse_eq_nil_iff.mp none]
        exact Or.inr rfl
    · rintro (all | none)
      · exact absurd all (Nat.ne_of_lt few)
      · have inv := built.stays.inv
        rw [List.length_eq_zero_iff.mp none] at inv
        exact Or.inr ⟨rfl, inv, fun x low high => built.frame x (call.mine x low high) fun inside => inside.1 rfl⟩

/-! ## Both lists -/

/-- A call that copies a list of the host. -/
inductive ListCall where
  | glob (patOff flags globOff : ℕ) (host : HostGlob)
  | getaddrinfo (resOff : ℕ) (entries : List HostAddrinfo)

/-- What the call asks `yos_malloc` for. -/
def ListCall.requests : ListCall → List ℕ
  | .glob _ _ _ host => globRequests host.paths
  | .getaddrinfo _ entries => entries.map HostAddrinfo.size

/-- The arguments pass the tests, and what is written to is the guest's. -/
def ListCall.Valid (s : GuestHeap) : ListCall → Prop
  | .glob patOff _ globOff _ => GlobCall s patOff globOff
  | .getaddrinfo resOff _ => GetaddrinfoCall s resOff

/-- All or nothing. -/
def ListCall.Met (s : GuestHeap) : ListCall → Prop
  | .glob patOff flags globOff host => GlobMet s patOff flags globOff host
  | .getaddrinfo resOff entries => GetaddrinfoMet s resOff entries

/-- The lists are all or nothing exactly when `yos_malloc` serves each request of the call or not even the
first. -/
theorem list_met_iff {s : GuestHeap} (call : ListCall) (valid : call.Valid s)
    (fits : ∀ size ∈ call.requests, Fits size) :
    call.Met s ↔ servedCount s.ctx call.requests = call.requests.length ∨ servedCount s.ctx call.requests = 0 := by
  cases call with
  | glob patOff flags globOff host => exact glob_met_iff valid flags host fits
  | getaddrinfo resOff entries =>
    exact getaddrinfo_met_iff valid fun p mem => fits p.size (List.mem_map_of_mem mem)

/-- A heap with one block and 64 free bytes. -/
def tightHeap : GuestHeap :=
  GuestHeap.take ⟨.blank (2 ^ 22) 0x50000, []⟩ 1769400 1769400 hdrSize (yosMalloc (.blank (2 ^ 22) 0x50000) 1769400)

theorem tightHeap_valid (entries : List HostAddrinfo) : (ListCall.getaddrinfo 16 entries).Valid tightHeap := by
  have start : AllocInv ⟨.blank (2 ^ 22) 0x50000, []⟩ := Or.inl ⟨freshHeap_blank, rfl⟩
  have low : (2 ^ 18 : ℕ) ≤ tightHeap.ctx.setUp.allocLo := by decide +kernel
  refine ⟨start.malloc (show Fits 1769400 by decide) le_rfl,
    ⟨by decide +kernel, by decide +kernel, fun _ => by decide +kernel⟩, by decide, by decide +kernel, fun x _ high => Or.inl (Or.inl ?_)⟩
  exact Nat.lt_of_lt_of_le (show x < 2 ^ 18 by omega) low

/-- An address of 16 bytes, as the host's `getaddrinfo` lists it. -/
def loopback : HostAddrinfo := ⟨1, 2, 1, 6, [2, 0, 0, 80, 127, 0, 0, 1, 0, 0, 0, 0, 0, 0, 0, 0], none⟩

theorem list_met_loopback : (ListCall.getaddrinfo 16 [loopback]).Met tightHeap :=
  (list_met_iff _ (tightHeap_valid [loopback]) (by decide)).mpr (Or.inl (by decide +kernel))

/-- There is room for the first of two entries. -/
theorem list_lost : ¬ ∀ s (call : ListCall), call.Valid s → (∀ size ∈ call.requests, Fits size) → call.Met s := by
  intro claim
  have valid := tightHeap_valid [loopback, loopback]
  have met := claim _ _ valid (by decide)
  have requests : [loopback, loopback].map HostAddrinfo.size = [48, 48] := rfl
  have count : servedCount tightHeap.ctx [48, 48] = 1 := by decide +kernel
  have fits : ∀ p ∈ [loopback, loopback], Fits p.size :=
    List.forall_mem_map.mp (by decide : ∀ size ∈ [48, 48], Fits size)
  have ends := (getaddrinfo_met_iff valid fits).mp met
  rw [requests, count] at ends
  exact absurd ends (by decide)

end Yos
