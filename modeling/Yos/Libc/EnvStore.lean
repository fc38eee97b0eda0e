import Yos.Libc.EnvMaps
import Yos.Libc.Glob

/-!
# The environment store as a map (`impl/libc/env.c`)

`getenv` finds the value of the last call that set a variable, and nothing after `unsetenv`; the guest heap
holds two blocks for each entry, its name and its value, beside what the guest itself holds.  That is so in
every run in which the initial vector can be loaded whole (`env_is_map`): its names differ, each is shorter
than 256 bytes, there are at most `YOS_ENV_MAX` of them, and the heap has room.  A name that is twice in the
vector is still found after `unsetenv` (`unset_still_found`).
-/

namespace Yos

open Bytes EnvMaps

/-! ## The code -/

/-- The blocks of an entry are freed. -/
def freeEntry (mem : MemCtx) (e : EnvEntry) : MemCtx := freeOff (freeOff mem e.nameOff) e.valueOff

/-- `yos_clearenv`. -/
def yosClearenv (ctx : EnvCtx) (vec : List (List UInt8)) : EnvCtx × Ret :=
  let ctx := envInitOnce ctx vec
  (⟨ctx.store.entries.foldl freeEntry ctx.mem, { ctx.store with entries := [] }⟩, ⟨0, none⟩)

/-- `yos_putenv`. -/
def yosPutenv (ctx : EnvCtx) (vec : List (List UInt8)) (sOff : ℕ) : EnvCtx × Ret :=
  let ctx := envInitOnce ctx vec
  if sOff = 0 ∨ ctx.mem.memorySize ≤ sOff then (ctx, yosErrnoNeg .EINVAL)
  else
    let s := ctx.mem.cString sOff
    let name := s.takeWhile (· ≠ eqByte)
    if !s.contains eqByte ∨ name = [] then (ctx, yosErrnoNeg .EINVAL)
    else if 256 ≤ name.length then (ctx, yosErrnoNeg .EINVAL)
    else
      let (mem, nameOff) := copyToWasm ctx.mem name
      let (mem, valOff) := copyToWasm mem (s.drop (name.length + 1))
      if nameOff = 0 ∨ valOff = 0 then
        ({ ctx with mem := freeOff (freeOff mem nameOff) valOff }, yosErrnoNeg .ENOMEM)
      else
        let (ctx, r) := yosSetenv { ctx with mem } vec nameOff valOff true
        ({ ctx with mem := freeOff (freeOff ctx.mem nameOff) valOff }, r)

/-- The calls of the guest. -/
inductive EnvCall where
  | getenv (nameOff : ℕ)
  | setenv (nameOff valueOff : ℕ) (overwrite : Bool)
  | putenv (sOff : ℕ)
  | unsetenv (nameOff : ℕ)
  | clearenv

/-- What a call returns: `getenv` an offset, the others a status. -/
inductive EnvReply where
  | off (p : ℕ)
  | ret (r : Ret)

/-- A call. -/
def EnvCtx.call (ctx : EnvCtx) (vec : List (List UInt8)) : EnvCall → EnvCtx × EnvReply
  | .getenv nameOff => (yosGetenv ctx vec nameOff).map id .off
  | .setenv nameOff valueOff overwrite => (yosSetenv ctx vec nameOff valueOff overwrite).map id .ret
  | .putenv sOff => (yosPutenv ctx vec sOff).map id .ret
  | .unsetenv nameOff => (yosUnsetenv ctx vec nameOff).map id .ret
  | .clearenv => (yosClearenv ctx vec).map id .ret

/-! ## What it is for -/

/-- The characters of the strings of a vector. -/
def texts (vec : List HostString) : List (List UInt8) := vec.map (·.1)

/-- The value of each variable. -/
abbrev EnvMap := List UInt8 → Option (List UInt8)

/-- The strings that are variables. -/
def assignments (vec : List (List UInt8)) : List (List UInt8) := vec.filter (·.contains eqByte)

/-- The map that a vector stands for. -/
def vecMap (vec : List (List UInt8)) : EnvMap := Store.get ((assignments vec).map splitVar)

/-- What a call makes of the map: a call that fails leaves it as it is. -/
def EnvCall.apply (mem : MemCtx) (want : EnvMap) : EnvCall → EnvReply → EnvMap
  | .setenv nameOff valueOff overwrite, .ret r =>
    if r.value = 0 ∧ (overwrite = true ∨ want (mem.cString nameOff) = none) then
      Function.update want (mem.cString nameOff) (some (mem.cString valueOff))
    else want
  | .putenv sOff, .ret r =>
    if r.value = 0 then
      Function.update want (splitVar (mem.cString sOff)).1 (some (splitVar (mem.cString sOff)).2)
    else want
  | .unsetenv nameOff, .ret r =>
    if r.value = 0 then Function.update want (mem.cString nameOff) none else want
  | .clearenv, .ret _ => fun _ => none
  | _, _ => want

/-- The strings of an entry and its blocks. -/
structure EnvBlocks where
  name : HostString
  value : HostString
  nameBlk : HeldPtr
  valueBlk : HeldPtr

/-- The blocks of an entry. -/
def EnvBlocks.held (b : EnvBlocks) : List HeldPtr := [b.nameBlk, b.valueBlk]

/-- The entry that points to the blocks. -/
def EnvBlocks.entry (b : EnvBlocks) : EnvEntry := ⟨b.nameBlk.ptr, b.valueBlk.ptr, b.name.1.length⟩

/-- The blocks hold the strings. -/
structure EnvBlocks.At (m : Bytes) (b : EnvBlocks) : Prop where
  nameSize : b.nameBlk.size = b.name.1.length + 1
  valueSize : b.valueBlk.size = b.value.1.length + 1
  name : StringAt m b.nameBlk.ptr b.name
  value : StringAt m b.valueBlk.ptr b.value

/-- The strings of the entries. -/
def contents (l : List EnvBlocks) : Store := l.map fun b => (b.name.1, b.value.1)

/-- What the heap holds: the blocks of the entries, and what the guest holds. -/
def envHeld (l : List EnvBlocks) (guest : List HeldPtr) : List HeldPtr := l.flatMap EnvBlocks.held ++ guest

/-- The entries have the blocks `l`, and the heap, in order and where that of `g` is, holds these and what the
guest holds, and no more. -/
structure EnvKept (g : GuestHeap) (ctx : EnvCtx) (guest : List HeldPtr) (l : List EnvBlocks) : Prop where
  stays : HeapStays g ⟨ctx.mem, envHeld l guest⟩
  entries : ctx.store.entries = l.map EnvBlocks.entry
  strings : ∀ b ∈ l, b.At ctx.mem.memory

/-! ## Runs -/

/-- The process: its environment, what the guest holds, and the map that its calls made. -/
structure EnvRun where
  ctx : EnvCtx
  guest : List HeldPtr
  want : EnvMap

/-- The byte is the guest's, or one of a value that `getenv` hands out. -/
def EnvRun.Readable (s : EnvRun) (x : ℕ) : Prop :=
  s.ctx.mem.Outside x ∨ (∃ h ∈ s.guest, h.Owns x) ∨
    ∃ e ∈ s.ctx.store.entries, e.valueOff ≤ x ∧ x ≤ e.valueOff + (s.ctx.mem.cString e.valueOff).length

/-- The guest's string `l` lies at `p`. -/
structure EnvRun.Text (s : EnvRun) (p : ℕ) (l : HostString) : Prop where
  text : StringAt s.ctx.mem.memory p l
  inside : p + l.1.length < s.ctx.mem.memorySize
  readable : ∀ i ≤ l.1.length, s.Readable (p + i)

/-- The bridges refuse the pointer. -/
def MemCtx.Refused (mem : MemCtx) (p : ℕ) : Prop := p = 0 ∨ mem.memorySize ≤ p

/-- The pointers that the guest passes. -/
def EnvCall.ptrs : EnvCall → List ℕ
  | .getenv nameOff => [nameOff]
  | .setenv nameOff valueOff _ => [nameOff, valueOff]
  | .putenv sOff => [sOff]
  | .unsetenv nameOff => [nameOff]
  | .clearenv => []

/-- The guest passes strings, or pointers that the bridges refuse. -/
def EnvRun.Args (s : EnvRun) (c : EnvCall) : Prop :=
  ∀ p ∈ c.ptrs, s.ctx.mem.Refused p ∨ ∃ l, s.Text p l

/-- The steps: a call, or the guest uses its heap and its memory and leaves the blocks of the entries alone. -/
inductive EnvStep where
  | call (c : EnvCall)
  | guest (mem : MemCtx) (held : List HeldPtr)

/-- The runs of a process that starts with the heap `g` and gets the vector `vec`. -/
def envSystem (g : GuestHeap) (vec : List HostString) : System EnvRun EnvStep where
  init s := s = ⟨⟨g.ctx, ⟨[], false⟩⟩, g.held, vecMap (texts vec)⟩
  step s
    | .call c, s' => s.Args c ∧ s' = ⟨(s.ctx.call (texts vec) c).1, s.guest,
        c.apply s.ctx.mem s.want (s.ctx.call (texts vec) c).2⟩
    | .guest mem held, s' => s' = ⟨⟨mem, s.ctx.store⟩, held, s.want⟩ ∧
        ∀ l, EnvKept g s.ctx s.guest l → EnvKept g ⟨mem, s.ctx.store⟩ held l

/-- What loading a vector asks `yos_malloc` for. -/
def envRequests (vec : List (List UInt8)) : List ℕ :=
  (assignments vec).flatMap fun s => [(splitVar s).1.length + 1, (splitVar s).2.length + 1]

/-- The vector can be loaded whole. -/
structure Loads (mem : MemCtx) (vec : List (List UInt8)) : Prop where
  differ : ((assignments vec).map fun s => (splitVar s).1).Nodup
  short : ∀ s ∈ assignments vec, (splitVar s).1.length < 256
  few : (assignments vec).length ≤ envMax
  served : servedCount mem (envRequests vec) = (envRequests vec).length

/-- If a call loads the store, the vector can be loaded whole. -/
def EnvLoads (vec : List HostString) (s : EnvRun) : EnvStep → Prop
  | .call _ => s.ctx.store.initialised = false → Loads s.ctx.mem (texts vec)
  | .guest _ _ => True

/-- `q` is where the value of a variable lies, or 0 if there is none. -/
def ValueAt (m : Bytes) (q : ℕ) : Option (List UInt8) → Prop
  | none => q = 0
  | some v => q ≠ 0 ∧ ∃ l : HostString, l.1 = v ∧ StringAt m q l

/-- `getenv` hands out the value of the map; a call that fails leaves the store as it was loaded, and the heap
holds what it held. -/
structure EnvCallMet (g : GuestHeap) (vec : List (List UInt8)) (s : EnvRun) (c : EnvCall) : Prop where
  found : ∀ p, c = .getenv p → ∃ q, (s.ctx.call vec c).2 = .off q ∧ (s.ctx.mem.Refused p → q = 0) ∧
    (¬ s.ctx.mem.Refused p → ValueAt (s.ctx.call vec c).1.mem.memory q (s.want (s.ctx.mem.cString p)))
  failed : ∀ r, (s.ctx.call vec c).2 = .ret r → r.value ≠ 0 →
    (s.ctx.call vec c).1.store = (envInitOnce s.ctx vec).store ∧
      ∃ l, EnvKept g (envInitOnce s.ctx vec) s.guest l ∧ EnvKept g (s.ctx.call vec c).1 s.guest l

/-! ## Strings in the heap -/

section Heap

variable {g s s' : GuestHeap} {h new : HeldPtr} {held held' rest : List HeldPtr} {ctx ctx' : MemCtx} {l : HostString}

theorem cString_of_at {m : Bytes} {p fuel : ℕ} (text : StringAt m p l) (lt : l.1.length < fuel) :
    cString m fuel p = l.1 := by
  obtain ⟨l, solid⟩ := l
  induction l generalizing p fuel with
  | nil =>
    obtain ⟨n, rfl⟩ := Nat.exists_eq_add_of_lt lt
    have zero : m p = 0 := text.2
    exact if_pos zero
  | cons c rest ih =>
    obtain ⟨n, rfl⟩ := Nat.exists_eq_add_of_lt lt
    have first : m p = c := text.1 0 (Nat.zero_lt_succ _)
    have ne : ¬ m p = 0 := fun zero => solid (by rw [← first, zero]; exact List.mem_cons_self)
    have later := ih (p := p + 1) (fun mem => solid (List.mem_cons_of_mem c mem))
      ⟨fun i lt => ?_, ?_⟩ (show rest.length < rest.length + 1 + n by omega)
    · refine (if_neg ne).trans ?_
      rw [first]
      exact congrArg (c :: ·) later
    · have at_i := text.1 (i + 1) (Nat.succ_lt_succ lt)
      rwa [Nat.add_assoc, Nat.add_comm 1 i]
    · have stop := text.2
      rwa [Nat.add_assoc, Nat.add_comm 1]

theorem HeapMove.perm_after (move : HeapMove s ⟨ctx, held⟩) (same : held.Perm held') : HeapMove s ⟨ctx, held'⟩ where
  inv := move.inv.perm same
  lo := move.lo
  hi := move.hi
  size := move.size
  frame x before after := move.frame x before (after.imp_right fun ⟨h, mem, owns⟩ => ⟨h, same.mem_iff.2 mem, owns⟩)

theorem HeapMove.stays (move : HeapMove s s') (stays : HeapStays g s) : HeapStays g s' := stays.trans move.toHeapStays

/-- `copy_to_wasm` put the string in a new block. -/
structure Copied (s : GuestHeap) (l : HostString) (ctx' : MemCtx) (new : HeldPtr) : Prop where
  eq : copyToWasm s.ctx l.1 = (ctx', new.ptr)
  size : new.size = l.1.length + 1
  text : StringAt ctx'.memory new.ptr l
  move : HeapMove s ⟨ctx', new :: s.held⟩
  served : ∀ more, (∀ size ∈ more, Fits size) →
    servedCount s.ctx ((l.1.length + 1) :: more) = servedCount ctx' more + 1

theorem Copied.ptr_ne (done : Copied s l ctx' new) : new.ptr ≠ 0 := by
  have low := (done.move.inv.bounds List.mem_cons_self).1
  omega

/-- `copy_to_wasm` fails, or puts the string in a new block. -/
theorem AllocInv.copy_cases (inv : AllocInv s) (fits : Fits (l.1.length + 1)) :
    (∃ ctx', copyToWasm s.ctx l.1 = (ctx', 0) ∧ HeapMove s ⟨ctx', s.held⟩ ∧
        ∀ more, servedCount s.ctx ((l.1.length + 1) :: more) = 0) ∨
      ∃ ctx' new, Copied s l ctx' new := by
  rcases inv.malloc_cases fits with ⟨ctx', eq, move⟩ | ⟨ctx', new, done⟩
  · refine Or.inl ⟨ctx', ?_, move, fun more => servedCount_of_zero (by rw [eq])⟩
    unfold copyToWasm
    rw [eq]
    exact if_pos rfl
  · have length : (l.1 ++ [0]).length = l.1.length + 1 := List.length_append
    have fill := HeapMove.fillNew (e := [new]) (m := writeBytes ctx'.memory new.ptr (l.1 ++ [0])) done.move
      fun x changed => by
        refine ⟨new, List.mem_singleton_self new, ?_⟩
        by_contra out
        refine changed (writeBytes_of_not_mem fun inside => out ?_)
        have owns := done.move.inv.owns (h := new) List.mem_cons_self (i := x - new.ptr) (by rw [done.asked]; omega)
        rwa [Nat.add_sub_cancel' inside.1] at owns
    refine Or.inr ⟨{ ctx' with memory := writeBytes ctx'.memory new.ptr (l.1 ++ [0]) }, new, ?_, done.asked,
      stringAt_writeBytes, fill, fun more small => ?_⟩
    · unfold copyToWasm
      rw [done.eq]
      exact if_neg done.ptr_ne
    · rw [servedCount_of_allocated more done]
      refine congrArg (· + 1) (done.move.inv.servedCount_congr fill.inv ?_ ?_ small)
      · exact done.move.lo.trans fill.lo.symm
      · exact done.move.hi.trans fill.hi.symm

/-- A block of the store is freed. -/
theorem HeapStays.freeOff (stays : HeapStays g s) (bounds : HostBounds g.ctx) (same : s.held.Perm (h :: rest)) :
    HeapMove s ⟨Yos.freeOff s.ctx h.ptr, rest⟩ := by
  have mem : h ∈ s.held := same.mem_iff.2 List.mem_cons_self
  obtain ⟨free, ready⟩ := stays.inv.ready mem
  obtain ⟨ctx', returns, move⟩ := stays.inv.free_move mem
  have enough : free.length < s.ctx.memorySize + 1 := by
    have count := ready.heap.length_lt
    have whole := stays.hi_le bounds ready
    omega
  obtain ⟨ctx'', -, eq, -, -⟩ := ready.yosFree mem enough
  obtain rfl := yosFree_unique returns eq
  have freed : Yos.freeOff s.ctx h.ptr = ctx' := by
    unfold Yos.freeOff
    rw [if_neg (ready.ne_zero mem), eq]
    rfl
  have left : (s.held.erase h).Perm rest := by
    have erased := same.erase h
    rwa [List.erase_cons_head] at erased
  rw [freed]
  exact move.perm_after left

theorem freeOff_zero (ctx : MemCtx) : freeOff ctx 0 = ctx := if_pos rfl

/-- A string in a block that stays held. -/
theorem HeapMove.text (move : HeapMove s s') (inv : AllocInv s) (before : h ∈ s.held) (after : h ∈ s'.held)
    (size : h.size = l.1.length + 1) (text : StringAt s.ctx.memory h.ptr l) : StringAt s'.ctx.memory h.ptr l :=
  text.congr fun i lt => move.keeps inv before after (by omega)

/-- Two blocks of the store are freed. -/
theorem HeapStays.freeTwo {h₁ h₂ : HeldPtr} (stays : HeapStays g s) (bounds : HostBounds g.ctx)
    (same : s.held.Perm (h₁ :: h₂ :: rest)) :
    HeapMove s ⟨Yos.freeOff (Yos.freeOff s.ctx h₁.ptr) h₂.ptr, rest⟩ := by
  have first := stays.freeOff bounds same
  have second := (first.stays stays).freeOff bounds (.refl _)
  refine first.trans second fun x before after => ?_
  refine after.imp (fun out => (second.outside_iff x).1 out) fun ⟨h, mem, owns⟩ => ?_
  exact ⟨h, List.mem_cons_of_mem _ mem, owns⟩

/-- `copy_to_wasm` put two strings in new blocks. -/
structure CopiedTwo (s : GuestHeap) (n v : HostString) (mid ctx' : MemCtx) (nb vb : HeldPtr) : Prop where
  name : copyToWasm s.ctx n.1 = (mid, nb.ptr)
  value : copyToWasm mid v.1 = (ctx', vb.ptr)
  null : ¬ (nb.ptr = 0 ∨ vb.ptr = 0)
  move : HeapMove s ⟨ctx', nb :: vb :: s.held⟩
  strings : EnvBlocks.At ctx'.memory ⟨n, v, nb, vb⟩
  served : ∀ more, (∀ size ∈ more, Fits size) →
    servedCount s.ctx ((n.1.length + 1) :: (v.1.length + 1) :: more) = servedCount ctx' more + 2

/-- At most one of two strings was copied, and what was allocated can be freed. -/
structure NotCopied (s : GuestHeap) (n v : HostString) (mid ctx' : MemCtx) (p q : ℕ) : Prop where
  name : copyToWasm s.ctx n.1 = (mid, p)
  value : copyToWasm mid v.1 = (ctx', q)
  null : p = 0 ∨ q = 0
  move : HeapMove s ⟨Yos.freeOff (Yos.freeOff ctx' p) q, s.held⟩
  served : ∀ more, (∀ size ∈ more, Fits size) →
    servedCount s.ctx ((n.1.length + 1) :: (v.1.length + 1) :: more) ≤ 1

/-- Two strings are copied, or not both. -/
theorem HeapStays.copyTwo {n v : HostString} (stays : HeapStays g s) (bounds : HostBounds g.ctx)
    (fits : Fits (n.1.length + 1)) (fits' : Fits (v.1.length + 1)) :
    (∃ mid ctx' p q, NotCopied s n v mid ctx' p q) ∨ ∃ mid ctx' nb vb, CopiedTwo s n v mid ctx' nb vb := by
  rcases stays.inv.copy_cases fits with ⟨mid, eq, move, none⟩ | ⟨mid, nb, done⟩
  · left
    have served (more : List ℕ) : servedCount s.ctx ((n.1.length + 1) :: (v.1.length + 1) :: more) ≤ 1 := by
      rw [none]
      exact Nat.zero_le 1
    rcases move.inv.copy_cases fits' with ⟨ctx', eq', move', -⟩ | ⟨ctx', vb, done'⟩
    · refine ⟨mid, ctx', 0, 0, eq, eq', Or.inl rfl, ?_, fun more _ => served more⟩
      rw [freeOff_zero, freeOff_zero]
      exact move.trans move' fun x before _ => move.mine_of_subset (fun _ => id) before
    · refine ⟨mid, ctx', 0, vb.ptr, eq, done'.eq, Or.inl rfl, ?_, fun more _ => served more⟩
      rw [freeOff_zero]
      have freed := (done'.move.stays (move.stays stays)).freeOff bounds (.refl _)
      have made := move.trans done'.move fun x before _ => move.mine_of_subset (fun _ => id) before
      exact made.trans freed fun x before _ => made.mine_of_subset (fun _ => List.mem_cons_of_mem vb) before
  · rcases done.move.inv.copy_cases fits' with ⟨ctx', eq', move', none⟩ | ⟨ctx', vb, done'⟩
    · left
      refine ⟨mid, ctx', nb.ptr, 0, done.eq, eq', Or.inr rfl, ?_, fun more small => ?_⟩
      · rw [freeOff_zero]
        have made := done.move.trans move' fun x before _ =>
          done.move.mine_of_subset (fun _ => List.mem_cons_of_mem nb) before
        have freed := (made.stays stays).freeOff bounds (.refl _)
        exact made.trans freed fun x before _ => made.mine_of_subset (fun _ => List.mem_cons_of_mem nb) before
      · rw [done.served _ (List.forall_mem_cons.2 ⟨fits', small⟩), none]
    · right
      have made := done.move.trans done'.move fun x before _ =>
        done.move.mine_of_subset (fun _ => List.mem_cons_of_mem nb) before
      have kept := done'.move.text done.move.inv List.mem_cons_self (List.mem_cons_of_mem vb List.mem_cons_self)
        done.size done.text
      refine ⟨mid, ctx', nb, vb, done.eq, done'.eq, ?_, made.perm_after (List.Perm.swap nb vb _),
        ⟨done.size, done'.size, kept, done'.text⟩, fun more small => ?_⟩
      · exact not_or.2 ⟨done.ptr_ne, done'.ptr_ne⟩
      · rw [done.served _ (List.forall_mem_cons.2 ⟨fits', small⟩), done'.served more small]

end Heap

/-! ## The entries -/

section Entries

variable {g : GuestHeap} {ctx : EnvCtx} {guest : List HeldPtr} {l l' : List EnvBlocks} {b b' : EnvBlocks}

theorem envHeld_perm (guest : List HeldPtr) (same : l.Perm (b :: l')) :
    (envHeld l guest).Perm (b.nameBlk :: b.valueBlk :: envHeld l' guest) :=
  (same.flatMap_right EnvBlocks.held).append_right guest

theorem mem_envHeld {h : HeldPtr} (mem : b ∈ l) (block : h ∈ b.held) : h ∈ envHeld l guest :=
  List.mem_append_left _ (List.mem_flatMap.2 ⟨b, mem, block⟩)

/-- An entry whose blocks stay held. -/
theorem EnvBlocks.At.move {s s' : GuestHeap} (at_s : b.At s.ctx.memory) (move : HeapMove s s') (inv : AllocInv s)
    (before : ∀ h ∈ b.held, h ∈ s.held) (after : ∀ h ∈ b.held, h ∈ s'.held) : b.At s'.ctx.memory where
  nameSize := at_s.nameSize
  valueSize := at_s.valueSize
  name := move.text inv (before _ (by simp [held])) (after _ (by simp [held])) at_s.nameSize at_s.name
  value := move.text inv (before _ (by simp [held])) (after _ (by simp [held])) at_s.valueSize at_s.value

end Entries

/-! ## The map of the store -/

section Maps

variable {st st' : Store} {e : List UInt8 × List UInt8} {k v : List UInt8}

/-- The names of the entries differ. -/
def Distinct (st : Store) : Prop := (st.map Prod.fst).Nodup

theorem Distinct.get_iff (distinct : Distinct st) : st.get k = some v ↔ (k, v) ∈ st := by
  refine ⟨mem_of_get, get_eq_some fun v v' mem mem' => ?_⟩
  exact congrArg Prod.snd (List.inj_on_of_nodup_map distinct mem mem' rfl)

theorem Distinct.perm (distinct : Distinct st) (same : st.Perm st') : Distinct st' :=
  (same.map Prod.fst).nodup_iff.1 distinct

theorem Distinct.get_perm (distinct : Distinct st) (same : st.Perm st') : st.get = st'.get := by
  funext k
  refine Option.ext fun v => ?_
  rw [distinct.get_iff, (distinct.perm same).get_iff, same.mem_iff]

theorem get_eq_none (fresh : k ∉ st.map Prod.fst) : st.get k = none := by
  refine Option.eq_none_iff_forall_ne_some.2 fun v found => fresh ?_
  exact List.mem_map.2 ⟨(k, v), mem_of_get found, rfl⟩

theorem get_cons_eq (e : List UInt8 × List UInt8) (st : Store) :
    Store.get (e :: st) = Function.update (Store.get st) e.1 (some e.2) := by
  funext k
  rw [get_cons, Function.update_apply]
  simp only [eq_comm]

/-- The map of a store with an entry taken out. -/
theorem Distinct.get_rest (distinct : Distinct st) (same : st.Perm (e :: st')) :
    st'.get = Function.update st.get e.1 none := by
  have fresh := (List.nodup_cons.1 (distinct.perm same)).1
  rw [distinct.get_perm same, get_cons_eq, Function.update_idem]
  exact (Function.update_eq_self_iff.2 (get_eq_none fresh).symm).symm

/-- The map of a store with a changed entry. -/
theorem Distinct.get_changed {e' : List UInt8 × List UInt8} {rest : Store} (distinct : Distinct st)
    (same : st.Perm (e :: rest)) (same' : st'.Perm (e' :: rest)) (name : e'.1 = e.1) :
    Distinct st' ∧ st'.get = Function.update st.get e.1 (some e'.2) := by
  have keys : Distinct (e' :: rest) := by
    have before := distinct.perm same
    unfold Distinct at before ⊢
    rwa [List.map_cons, name]
  have distinct' := keys.perm same'.symm
  refine ⟨distinct', ?_⟩
  rw [distinct'.get_perm same', distinct.get_perm same, get_cons_eq, get_cons_eq, name, Function.update_idem]

/-- The map of a store with a new entry. -/
theorem Distinct.get_new (distinct : Distinct st) (e : List UInt8 × List UInt8) (fresh : st.get e.1 = none) :
    Distinct (st ++ [e]) ∧ Store.get (st ++ [e]) = Function.update st.get e.1 (some e.2) := by
  have key : e.1 ∉ st.map Prod.fst := fun mem => by
    obtain ⟨f, inside, same⟩ := List.mem_map.1 mem
    have found := distinct.get_iff.2 (show (e.1, f.2) ∈ st by rw [← same]; exact inside)
    exact absurd (fresh.symm.trans found) (by simp)
  have keys : Distinct (e :: st) := List.nodup_cons.2 ⟨key, distinct⟩
  have turned : (st ++ [e]).Perm (e :: st) := List.perm_append_singleton e st
  have distinct' := keys.perm turned.symm
  exact ⟨distinct', by rw [distinct'.get_perm turned, get_cons_eq]⟩

end Maps

/-! ## The calls on a loaded store -/

section Calls

variable {g : GuestHeap} {ctx : EnvCtx} {guest : List HeldPtr} {l rest : List EnvBlocks} {b : EnvBlocks} {i : ℕ}

theorem StringAt.bytes {m : Bytes} {p : ℕ} {n : HostString} (text : StringAt m p n) :
    (List.range n.1.length).map (fun i => m (p + i)) = n.1 := by
  refine List.ext_getElem (by simp) fun i lt lt' => ?_
  rw [List.getElem_map, List.getElem_range]
  exact text.1 i lt'

/-- `find_entry` finds the first entry with the name. -/
theorem EnvKept.findEntry (kept : EnvKept g ctx guest l) (n : List UInt8) :
    findEntry ctx n = l.findIdx? fun b => b.name.1 = n := by
  unfold Yos.findEntry
  rw [kept.entries, List.findIdx?_map]
  have same : ∀ b ∈ l, ((fun e : EnvEntry => decide (e.nameOff ≠ 0) && (e.nameLen == n.length &&
      (List.range n.length).map (fun i => ctx.mem.memory (e.nameOff + i)) == n)) ∘ EnvBlocks.entry) b =
        decide (b.name.1 = n) := by
    intro b mem
    have text := (kept.strings b mem).name.bytes
    have low := (kept.stays.inv.bounds (mem_envHeld mem List.mem_cons_self)).1
    have null : b.nameBlk.ptr ≠ 0 := by omega
    rw [Bool.eq_iff_iff]
    simp only [Function.comp_apply, EnvBlocks.entry, Bool.and_eq_true, decide_eq_true_eq, beq_iff_eq]
    constructor
    · rintro ⟨-, length, bytes⟩
      rwa [← length, text] at bytes
    · rintro rfl
      exact ⟨decide_eq_true null, rfl, text⟩
  generalize ((fun e : EnvEntry => _) ∘ EnvBlocks.entry) = p at same
  clear kept
  induction l with
  | nil => rfl
  | cons b l ih =>
    rw [List.findIdx?_cons, List.findIdx?_cons, same b List.mem_cons_self,
      ih fun b mem => same b (List.mem_cons_of_mem _ mem)]

/-- The entry that `find_entry` finds. -/
theorem EnvKept.found (kept : EnvKept g ctx guest l) {n : List UInt8} (found : Yos.findEntry ctx n = some i) :
    ∃ b, l[i]? = some b ∧ b.name.1 = n ∧ ctx.store.entries[i]? = some b.entry := by
  rw [kept.findEntry] at found
  obtain ⟨lt, name, -⟩ := List.findIdx?_eq_some_iff_getElem.1 found
  refine ⟨l[i], List.getElem?_eq_getElem lt, of_decide_eq_true name, ?_⟩
  rw [kept.entries, List.getElem?_map, List.getElem?_eq_getElem lt]
  rfl

theorem EnvKept.missing (kept : EnvKept g ctx guest l) {n : List UInt8} (missing : Yos.findEntry ctx n = none) :
    (contents l).get n = none := by
  rw [kept.findEntry] at missing
  refine get_eq_none fun mem => ?_
  obtain ⟨e, inside, named⟩ := List.mem_map.1 mem
  obtain ⟨b, mem', rfl⟩ := List.mem_map.1 inside
  exact absurd named (by simpa using List.findIdx?_eq_none_iff.1 missing b mem')

theorem Distinct.get_contents (distinct : Distinct (contents l)) (at_i : l[i]? = some b) :
    (contents l).get b.name.1 = some b.value.1 :=
  distinct.get_iff.2 (List.mem_map.2 ⟨b, List.mem_of_getElem? at_i, rfl⟩)

/-- The blocks of an entry are freed. -/
theorem EnvKept.drop (kept : EnvKept g ctx guest l) (bounds : HostBounds g.ctx) (same : l.Perm (b :: rest)) :
    HeapStays g ⟨freeOff (freeOff ctx.mem b.nameBlk.ptr) b.valueBlk.ptr, envHeld rest guest⟩ ∧
      ∀ c ∈ rest, c.At (freeOff (freeOff ctx.mem b.nameBlk.ptr) b.valueBlk.ptr).memory := by
  have move := kept.stays.freeTwo bounds (envHeld_perm guest same)
  refine ⟨move.stays kept.stays, fun c mem => ?_⟩
  have before : c ∈ l := same.mem_iff.2 (List.mem_cons_of_mem b mem)
  exact (kept.strings c before).move move kept.stays.inv (fun h => mem_envHeld before) fun h => mem_envHeld mem

/-- Another heap with the same blocks. -/
theorem EnvKept.moved (kept : EnvKept g ctx guest l) {mem : MemCtx}
    (move : HeapMove ⟨ctx.mem, envHeld l guest⟩ ⟨mem, envHeld l guest⟩) : EnvKept g { ctx with mem } guest l where
  stays := move.stays kept.stays
  entries := kept.entries
  strings b inside :=
    (kept.strings b inside).move move kept.stays.inv (fun _ => mem_envHeld inside) fun _ => mem_envHeld inside

/-- The entries with two new blocks. -/
theorem EnvKept.add (kept : EnvKept g ctx guest l) {n v : HostString} {mid mem : MemCtx} {nb vb : HeldPtr}
    (done : CopiedTwo ⟨ctx.mem, envHeld l guest⟩ n v mid mem nb vb) {loaded : Bool} :
    EnvKept g ⟨mem, ctx.store.entries ++ [⟨nb.ptr, vb.ptr, n.1.length⟩], loaded⟩ guest (l ++ [⟨n, v, nb, vb⟩]) where
  stays := by
    have turned : (l ++ [(⟨n, v, nb, vb⟩ : EnvBlocks)]).Perm (⟨n, v, nb, vb⟩ :: l) := List.perm_append_singleton _ _
    exact (done.move.perm_after (envHeld_perm guest turned).symm).stays kept.stays
  entries := by
    rw [kept.entries, List.map_append]
    rfl
  strings b inside := by
    rcases List.mem_append.1 inside with old | new
    · refine (kept.strings b old).move done.move kept.stays.inv (fun _ => mem_envHeld old) fun h block => ?_
      exact List.mem_cons_of_mem _ (List.mem_cons_of_mem _ (mem_envHeld old block))
    · obtain rfl := List.mem_singleton.1 new
      exact done.strings

/-- The entry with another value. -/
def EnvBlocks.withValue (v : HostString) (new : HeldPtr) (b : EnvBlocks) : EnvBlocks :=
  { b with value := v, valueBlk := new }

theorem EnvKept.replace (kept : EnvKept g ctx guest l) (bounds : HostBounds g.ctx) (at_i : l[i]? = some b)
    {v : HostString} {mem : MemCtx} {new : HeldPtr} (done : Copied ⟨ctx.mem, envHeld l guest⟩ v mem new)
    {loaded : Bool} :
    EnvKept g ⟨freeOff mem b.valueBlk.ptr, ctx.store.entries.modify i fun e => { e with valueOff := new.ptr }, loaded⟩
      guest (l.modify i (.withValue v new)) := by
  have removed := Table.perm_swapRemove at_i
  have changed := Table.perm_modify (EnvBlocks.withValue v new) at_i
  -- the new block takes the place of the old one
  have same : (new :: envHeld l guest).Perm (b.valueBlk :: envHeld (l.modify i (.withValue v new)) guest) := by
    refine ((envHeld_perm guest removed).cons new).trans ?_
    refine List.Perm.trans ?_ ((envHeld_perm guest changed).symm.cons b.valueBlk)
    exact (List.reverse_perm [new, b.nameBlk, b.valueBlk]).symm.append_right _
  have stays := done.move.stays kept.stays
  have move := stays.freeOff bounds same
  refine ⟨move.stays stays, ?_, fun c inside => ?_⟩
  · rw [kept.entries, List.modify_eq_set_getElem?, List.modify_eq_set_getElem?, List.getElem?_map, at_i]
    show (l.map EnvBlocks.entry).set i (EnvBlocks.withValue v new b).entry =
      (l.set i (EnvBlocks.withValue v new b)).map EnvBlocks.entry
    exact List.map_set.symm
  · have blocks {h : HeldPtr} (block : h ∈ c.held) : h ∈ envHeld (l.modify i (.withValue v new)) guest :=
      mem_envHeld inside block
    have name := blocks (List.mem_cons_self (l := [c.valueBlk]))
    have value := blocks (List.mem_cons_of_mem c.nameBlk (List.mem_singleton_self c.valueBlk))
    rcases List.mem_cons.1 (changed.mem_iff.1 inside) with rfl | other
    · have old := List.mem_of_getElem? at_i
      have at_b := kept.strings b old
      have block : b.nameBlk ∈ envHeld l guest := mem_envHeld old List.mem_cons_self
      refine ⟨at_b.nameSize, done.size, ?_, move.text stays.inv List.mem_cons_self value done.size done.text⟩
      exact move.text stays.inv (List.mem_cons_of_mem new block) name at_b.nameSize
        (done.move.text kept.stays.inv block (List.mem_cons_of_mem new block) at_b.nameSize at_b.name)
    · have old : c ∈ l := removed.mem_iff.2 (List.mem_cons_of_mem b other)
      have between {h : HeldPtr} (block : h ∈ c.held) : h ∈ new :: envHeld l guest :=
        List.mem_cons_of_mem new (mem_envHeld old block)
      have at_c := (kept.strings c old).move done.move kept.stays.inv (fun _ => mem_envHeld old) fun _ => between
      exact at_c.move move stays.inv (fun _ => between) fun _ => blocks

theorem contents_perm (same : l.Perm (b :: rest)) :
    (contents l).Perm ((b.name.1, b.value.1) :: contents rest) := same.map _

theorem contents_append (l : List EnvBlocks) (b : EnvBlocks) :
    contents (l ++ [b]) = contents l ++ [(b.name.1, b.value.1)] := List.map_append

/-- What a call returned, and the store that it left: a call that failed left it as it was. -/
structure EnvDone (g : GuestHeap) (ctx : EnvCtx) (guest : List HeldPtr) (l : List EnvBlocks) (out : EnvCtx × Ret)
    (next : EnvMap) : Prop where
  loaded : out.1.store.initialised = true
  result : (out.2.value ≠ 0 ∧ out.1.store = ctx.store ∧ EnvKept g out.1 guest l) ∨
    out.2.value = 0 ∧ ∃ l', EnvKept g out.1 guest l' ∧ Distinct (contents l') ∧ (contents l').get = next

theorem EnvDone.fails {mem : MemCtx} {e : Errno} {next : EnvMap} (loaded : ctx.store.initialised = true)
    (kept : EnvKept g { ctx with mem } guest l) : EnvDone g ctx guest l ({ ctx with mem }, yosErrnoNeg e) next :=
  ⟨loaded, Or.inl ⟨by simp [yosErrnoNeg], rfl, kept⟩⟩

theorem envInitOnce_loaded (vec : List (List UInt8)) (loaded : ctx.store.initialised = true) :
    envInitOnce ctx vec = ctx := if_pos loaded

/-- What `setenv` makes of the map. -/
def setMap (map : EnvMap) (name value : List UInt8) (overwrite : Bool) : EnvMap :=
  if overwrite = true ∨ map name = none then Function.update map name (some value) else map

theorem EnvKept.setenv (kept : EnvKept g ctx guest l) (bounds : HostBounds g.ctx) (distinct : Distinct (contents l))
    (loaded : ctx.store.initialised = true) (vec : List (List UInt8)) {nameOff valueOff : ℕ} {n v : HostString}
    (overwrite : Bool)
    (args : ¬ (nameOff = 0 ∨ valueOff = 0 ∨ ctx.mem.memorySize ≤ nameOff ∨ ctx.mem.memorySize ≤ valueOff))
    (name : ctx.mem.cString nameOff = n.1) (value : ctx.mem.cString valueOff = v.1)
    (fits : Fits (n.1.length + 1)) (fits' : Fits (v.1.length + 1)) :
    EnvDone g ctx guest l (yosSetenv ctx vec nameOff valueOff overwrite)
      (setMap (contents l).get n.1 v.1 overwrite) := by
  unfold yosSetenv
  simp only [envInitOnce_loaded vec loaded, if_neg args, name, value]
  by_cases bad : n.1 = [] ∨ n.1.contains eqByte
  · rw [if_pos bad]
    exact .fails loaded kept
  rw [if_neg bad]
  cases found : Yos.findEntry ctx n.1 with
  | some i =>
    obtain ⟨b, at_i, named, entry⟩ := kept.found found
    have known := distinct.get_contents at_i
    rw [named] at known
    cases overwrite with
    | false =>
      refine ⟨loaded, Or.inr ⟨rfl, l, kept, distinct, ?_⟩⟩
      rw [setMap, if_neg (by simp [known])]
    | true =>
      simp only [Bool.not_true, Bool.false_eq_true, if_false, entry, Option.map_some, Option.getD_some]
      rcases kept.stays.inv.copy_cases fits' with ⟨mem, eq, move, -⟩ | ⟨mem, new, done⟩
      · simp only at eq
        simp only [eq, if_true]
        exact .fails loaded (kept.moved move)
      · have eq := done.eq
        simp only at eq
        simp only [eq, if_neg done.ptr_ne]
        obtain ⟨distinct', next⟩ := distinct.get_changed (contents_perm (Table.perm_swapRemove at_i))
          (contents_perm (Table.perm_modify (EnvBlocks.withValue v new) at_i)) rfl
        refine ⟨loaded, Or.inr ⟨rfl, _, kept.replace bounds at_i done, distinct', ?_⟩⟩
        rw [setMap, if_pos (Or.inl rfl), ← named]
        exact next
  | none =>
    have fresh := kept.missing found
    by_cases full : envMax ≤ ctx.store.entries.length
    · simp only [if_pos full]
      exact .fails loaded kept
    simp only [if_neg full]
    rcases kept.stays.copyTwo bounds fits fits' with ⟨mid, mem, p, q, none⟩ | ⟨mid, mem, nb, vb, done⟩
    · have first := none.name
      simp only at first
      simp only [first, none.value, if_pos none.null]
      exact .fails loaded (kept.moved none.move)
    · have first := done.name
      simp only at first
      simp only [first, done.value, if_neg done.null]
      obtain ⟨distinct', next⟩ := distinct.get_new (n.1, v.1) fresh
      refine ⟨loaded, Or.inr ⟨rfl, _, kept.add done, ?_⟩⟩
      rw [contents_append, setMap, if_pos (Or.inr fresh)]
      exact ⟨distinct', next⟩

theorem EnvKept.unsetenv (kept : EnvKept g ctx guest l) (bounds : HostBounds g.ctx) (distinct : Distinct (contents l))
    (loaded : ctx.store.initialised = true) (vec : List (List UInt8)) {nameOff : ℕ}
    (args : ¬ (nameOff = 0 ∨ ctx.mem.memorySize ≤ nameOff)) :
    EnvDone g ctx guest l (yosUnsetenv ctx vec nameOff)
      (Function.update (contents l).get (ctx.mem.cString nameOff) none) := by
  unfold yosUnsetenv
  simp only [envInitOnce_loaded vec loaded, if_neg args]
  generalize ctx.mem.cString nameOff = n
  by_cases bad : n = [] ∨ n.contains eqByte
  · rw [if_pos bad]
    exact .fails loaded kept
  rw [if_neg bad]
  cases found : Yos.findEntry ctx n with
  | none =>
    refine ⟨loaded, Or.inr ⟨rfl, l, kept, distinct, ?_⟩⟩
    exact (Function.update_eq_self_iff.2 (kept.missing found).symm).symm
  | some i =>
    obtain ⟨b, at_i, rfl, entry⟩ := kept.found found
    have removed := Table.perm_swapRemove at_i
    obtain ⟨stays, strings⟩ := kept.drop bounds removed
    simp only [List.getD_eq_getElem?_getD, entry, Option.getD_some]
    refine ⟨loaded, Or.inr ⟨rfl, Table.swapRemove l i, ⟨stays, ?_, strings⟩, ?_, ?_⟩⟩
    · rw [kept.entries]
      exact Table.map_swapRemove EnvBlocks.entry l i
    · exact (List.nodup_cons.1 (distinct.perm (contents_perm removed))).2
    · exact distinct.get_rest (contents_perm removed)

/-- The loop of `yos_clearenv`. -/
theorem HeapStays.clear {mem : MemCtx} (stays : HeapStays g ⟨mem, envHeld l guest⟩) (bounds : HostBounds g.ctx) :
    HeapStays g ⟨(l.map EnvBlocks.entry).foldl freeEntry mem, guest⟩ := by
  induction l generalizing mem with
  | nil => exact stays
  | cons b l ih =>
    have freed := stays.freeTwo bounds (envHeld_perm guest (.refl (b :: l)))
    exact ih (freed.stays stays)

theorem EnvKept.clearenv (kept : EnvKept g ctx guest l) (bounds : HostBounds g.ctx)
    (loaded : ctx.store.initialised = true) (vec : List (List UInt8)) :
    EnvDone g ctx guest l (yosClearenv ctx vec) fun _ => none := by
  unfold yosClearenv
  simp only [envInitOnce_loaded vec loaded, kept.entries]
  refine ⟨loaded, Or.inr ⟨rfl, [], ⟨kept.stays.clear bounds, rfl, fun b mem => ?_⟩, List.nodup_nil, rfl⟩⟩
  exact absurd mem List.not_mem_nil

theorem envHeld_beside (l : List EnvBlocks) (nb vb : HeldPtr) (guest : List HeldPtr) :
    (envHeld l (nb :: vb :: guest)).Perm (nb :: vb :: envHeld l guest) :=
  List.perm_middle.trans (List.perm_middle.cons nb)

/-- Two blocks beside the entries are freed. -/
theorem EnvKept.dropTwo {nb vb : HeldPtr} (kept : EnvKept g ctx (nb :: vb :: guest) l) (bounds : HostBounds g.ctx) :
    EnvKept g { ctx with mem := freeOff (freeOff ctx.mem nb.ptr) vb.ptr } guest l := by
  have move := kept.stays.freeTwo bounds (envHeld_beside l nb vb guest)
  refine ⟨move.stays kept.stays, kept.entries, fun b mem => ?_⟩
  exact (kept.strings b mem).move move kept.stays.inv (fun _ => mem_envHeld mem) fun _ => mem_envHeld mem

/-- The entries with two blocks beside them. -/
theorem EnvKept.beside (kept : EnvKept g ctx guest l) {n v : HostString} {mid mem : MemCtx} {nb vb : HeldPtr}
    (done : CopiedTwo ⟨ctx.mem, envHeld l guest⟩ n v mid mem nb vb) :
    EnvKept g { ctx with mem } (nb :: vb :: guest) l := by
  have move := done.move.perm_after (envHeld_beside l nb vb guest).symm
  refine ⟨move.stays kept.stays, kept.entries, fun b mem => ?_⟩
  exact (kept.strings b mem).move move kept.stays.inv (fun _ => mem_envHeld mem) fun _ => mem_envHeld mem

/-- A string behind a pointer that is held. -/
theorem HeapStays.cString_of_at {s : GuestHeap} {h : HeldPtr} {n : HostString} (stays : HeapStays g s)
    (bounds : HostBounds g.ctx) (held : h ∈ s.held) (size : h.size = n.1.length + 1)
    (text : StringAt s.ctx.memory h.ptr n) : s.ctx.cString h.ptr = n.1 ∧ h.ptr < s.ctx.memorySize := by
  have inside := (stays.in_memory bounds held).1
  exact ⟨Yos.cString_of_at text (by omega), by omega⟩

theorem EnvDone.dropTwo {nb vb : HeldPtr} {ctx' : EnvCtx} {out : EnvCtx × Ret} {next : EnvMap}
    (done : EnvDone g ctx' (nb :: vb :: guest) l out next) (same : ctx'.store = ctx.store)
    (bounds : HostBounds g.ctx) :
    EnvDone g ctx guest l ({ out.1 with mem := freeOff (freeOff out.1.mem nb.ptr) vb.ptr }, out.2) next where
  loaded := done.loaded
  result := by
    rcases done.result with ⟨failed, store, kept⟩ | ⟨succeeded, l', kept, map⟩
    · exact Or.inl ⟨failed, store.trans same, kept.dropTwo bounds⟩
    · exact Or.inr ⟨succeeded, l', kept.dropTwo bounds, map⟩

theorem mem_splitVar {s : List UInt8} {c : UInt8} (mem : c ∈ (splitVar s).1 ∨ c ∈ (splitVar s).2) : c ∈ s :=
  mem.elim (fun h => List.takeWhile_sublist _ |>.mem h) fun h => List.mem_of_mem_drop h

/-- The name of an assignment. -/
def HostString.varName (s : HostString) : HostString :=
  ⟨(splitVar s.1).1, fun mem => s.2 (mem_splitVar (Or.inl mem))⟩

/-- The value of an assignment. -/
def HostString.varValue (s : HostString) : HostString :=
  ⟨(splitVar s.1).2, fun mem => s.2 (mem_splitVar (Or.inr mem))⟩

theorem length_splitVar (s : List UInt8) : (splitVar s).1.length ≤ s.length ∧ (splitVar s).2.length ≤ s.length :=
  ⟨(List.takeWhile_sublist _).length_le, (List.drop_sublist _ _).length_le⟩

theorem EnvKept.putenv (kept : EnvKept g ctx guest l) (bounds : HostBounds g.ctx) (distinct : Distinct (contents l))
    (loaded : ctx.store.initialised = true) (vec : List (List UInt8)) {sOff : ℕ} {s : HostString}
    (args : ¬ (sOff = 0 ∨ ctx.mem.memorySize ≤ sOff)) (text : ctx.mem.cString sOff = s.1)
    (fits : Fits (s.1.length + 1)) :
    EnvDone g ctx guest l (yosPutenv ctx vec sOff)
      (Function.update (contents l).get (splitVar s.1).1 (some (splitVar s.1).2)) := by
  unfold yosPutenv
  simp only [envInitOnce_loaded vec loaded, if_neg args, text]
  have name : s.1.takeWhile (· ≠ eqByte) = s.varName.1 := rfl
  have value : s.1.drop (s.varName.1.length + 1) = s.varValue.1 := rfl
  have named : (splitVar s.1).1 = s.varName.1 := rfl
  have valued : (splitVar s.1).2 = s.varValue.1 := rfl
  have lengths := length_splitVar s.1
  simp only [name, value, named, valued] at lengths ⊢
  have small : Fits (s.varName.1.length + 1) ∧ Fits (s.varValue.1.length + 1) := by
    unfold Fits at fits ⊢
    omega
  clear name value named valued
  by_cases bad : (!s.1.contains eqByte) = true ∨ s.varName.1 = []
  · rw [if_pos bad]
    exact .fails loaded kept
  rw [if_neg bad]
  by_cases long : 256 ≤ s.varName.1.length
  · rw [if_pos long]
    exact .fails loaded kept
  rw [if_neg long]
  rcases kept.stays.copyTwo bounds small.1 small.2 with ⟨mid, mem, p, q, none⟩ | ⟨mid, mem, nb, vb, done⟩
  · have first := none.name
    simp only at first
    simp only [first, none.value, if_pos none.null]
    exact .fails loaded (kept.moved none.move)
  · have first := done.name
    simp only at first
    simp only [first, done.value, if_neg done.null]
    -- the two copies are held by nobody but the call
    have stays := done.move.stays kept.stays
    have name : mem.cString nb.ptr = s.varName.1 ∧ nb.ptr < mem.memorySize :=
      stays.cString_of_at bounds (by simp) done.strings.nameSize done.strings.name
    have value : mem.cString vb.ptr = s.varValue.1 ∧ vb.ptr < mem.memorySize :=
      stays.cString_of_at bounds (by simp) done.strings.valueSize done.strings.value
    have null := done.null
    have passed : ¬ (nb.ptr = 0 ∨ vb.ptr = 0 ∨ mem.memorySize ≤ nb.ptr ∨ mem.memorySize ≤ vb.ptr) := by omega
    have set := (kept.beside done).setenv bounds distinct loaded vec true passed name.1 value.1 small.1 small.2
    rw [setMap, if_pos (Or.inl rfl)] at set
    exact set.dropTwo rfl bounds

end Calls

/-! ## Loading -/

section Load

variable {g : GuestHeap} {ctx : EnvCtx} {guest : List HeldPtr} {l : List EnvBlocks} {s : HostString}
  {vec : List HostString}

theorem envLoadOne_of_plain (plain : s.1.contains eqByte = false) : envLoadOne ctx s.1 = ctx := by
  unfold envLoadOne
  simp only [plain, Bool.not_false, if_true, ite_self]

theorem assignments_cons_of_plain (plain : s.1.contains eqByte = false) :
    assignments (texts (s :: vec)) = assignments (texts vec) := by
  exact List.filter_cons_of_neg (by rw [plain]; exact Bool.false_ne_true)

theorem assignments_cons (has : s.1.contains eqByte = true) :
    assignments (texts (s :: vec)) = s.1 :: assignments (texts vec) := by
  exact List.filter_cons_of_pos has

theorem envRequests_fits (fits : ∀ s ∈ vec, Fits (s.1.length + 1)) :
    ∀ size ∈ envRequests (texts vec), Fits size := by
  intro size mem
  obtain ⟨t, inside, mem⟩ := List.mem_flatMap.1 mem
  obtain ⟨s, here, rfl⟩ := List.mem_map.1 (List.mem_of_mem_filter inside)
  have whole := fits s here
  have lengths := length_splitVar s.1
  unfold Fits at whole ⊢
  rcases List.mem_pair.1 mem with rfl | rfl <;> omega

/-- One string of the vector is loaded. -/
theorem EnvKept.loadOne (kept : EnvKept g ctx guest l) (bounds : HostBounds g.ctx) (few : l.length < envMax)
    (has : s.1.contains eqByte = true) (short : (splitVar s.1).1.length < 256) (fits : Fits (s.1.length + 1))
    {more : List ℕ} (small : ∀ size ∈ more, Fits size)
    (served : servedCount ctx.mem (((splitVar s.1).1.length + 1) :: ((splitVar s.1).2.length + 1) :: more) =
      more.length + 2) :
    ∃ b : EnvBlocks, b.name = s.varName ∧ b.value = s.varValue ∧ EnvKept g (envLoadOne ctx s.1) guest (l ++ [b]) ∧
      HeapMove ⟨ctx.mem, envHeld l guest⟩ ⟨(envLoadOne ctx s.1).mem, envHeld (l ++ [b]) guest⟩ ∧
      servedCount (envLoadOne ctx s.1).mem more = more.length ∧
      (envLoadOne ctx s.1).store.initialised = ctx.store.initialised := by
  have count : ctx.store.entries.length = l.length := by rw [kept.entries, List.length_map]
  have name : s.1.takeWhile (· ≠ eqByte) = s.varName.1 := rfl
  have value : s.1.drop (s.varName.1.length + 1) = s.varValue.1 := rfl
  have named : (splitVar s.1).1 = s.varName.1 := rfl
  have valued : (splitVar s.1).2 = s.varValue.1 := rfl
  have lengths := length_splitVar s.1
  simp only [named, valued] at lengths short served
  have fit : Fits (s.varName.1.length + 1) ∧ Fits (s.varValue.1.length + 1) := by
    unfold Fits at fits ⊢
    omega
  unfold envLoadOne
  simp only [name, value, count, has]
  rw [if_neg (not_not.2 few), if_neg (by simp), if_neg (not_le.2 short)]
  rcases kept.stays.copyTwo bounds fit.1 fit.2 with ⟨mid, mem, p, q, none⟩ | ⟨mid, mem, nb, vb, done⟩
  · have few := none.served more small
    simp only at few
    omega
  · have first := done.name
    simp only at first
    simp only [first, done.value, if_neg done.null]
    have turned : (l ++ [(⟨s.varName, s.varValue, nb, vb⟩ : EnvBlocks)]).Perm (⟨s.varName, s.varValue, nb, vb⟩ :: l) :=
      List.perm_append_singleton _ _
    have left := done.served more small
    refine ⟨⟨s.varName, s.varValue, nb, vb⟩, rfl, rfl, kept.add done,
      done.move.perm_after (envHeld_perm guest turned).symm, ?_, trivial⟩
    simp only at left
    omega

/-- A vector is loaded. -/
theorem EnvKept.load (kept : EnvKept g ctx guest l) (bounds : HostBounds g.ctx)
    (few : l.length + (assignments (texts vec)).length ≤ envMax)
    (short : ∀ t ∈ assignments (texts vec), (splitVar t).1.length < 256) (fits : ∀ s ∈ vec, Fits (s.1.length + 1))
    (served : servedCount ctx.mem (envRequests (texts vec)) = (envRequests (texts vec)).length) :
    ∃ l', contents l' = (assignments (texts vec)).map splitVar ∧
      EnvKept g ((texts vec).foldl envLoadOne ctx) guest (l ++ l') ∧
      HeapMove ⟨ctx.mem, envHeld l guest⟩ ⟨((texts vec).foldl envLoadOne ctx).mem, envHeld (l ++ l') guest⟩ ∧
      ((texts vec).foldl envLoadOne ctx).store.initialised = ctx.store.initialised := by
  induction vec generalizing ctx l with
  | nil =>
    refine ⟨[], rfl, ?_, ?_, rfl⟩
    · rwa [List.append_nil]
    · rw [List.append_nil]
      exact .refl kept.stays.inv
  | cons s vec ih =>
    obtain ⟨fit, fits⟩ := List.forall_mem_cons.1 fits
    change ∃ l', _ ∧ EnvKept g ((texts vec).foldl envLoadOne (envLoadOne ctx s.1)) guest (l ++ l') ∧
      HeapMove _ ⟨((texts vec).foldl envLoadOne (envLoadOne ctx s.1)).mem, envHeld (l ++ l') guest⟩ ∧
      ((texts vec).foldl envLoadOne (envLoadOne ctx s.1)).store.initialised = _
    by_cases has : s.1.contains eqByte = true
    · unfold envRequests at served
      rw [assignments_cons has] at few short served
      obtain ⟨first, short⟩ := List.forall_mem_cons.1 short
      rw [List.length_cons] at few
      obtain ⟨b, named, valued, kept', move, served', loaded⟩ := kept.loadOne bounds (by omega) has first fit
        (envRequests_fits fits) served
      obtain ⟨l', eq, kept'', move', loaded'⟩ := ih kept' (by rw [List.length_append, List.length_singleton]; omega)
        short fits served'
      refine ⟨b :: l', ?_, ?_, ?_, loaded'.trans loaded⟩
      · rw [assignments_cons has, List.map_cons, ← eq, contents, List.map_cons, named, valued]
        rfl
      · rwa [List.append_cons]
      · rw [List.append_cons]
        refine move.trans move' fun x before _ => move.mine_of_subset (fun h mem => ?_) before
        unfold envHeld at mem ⊢
        simp only [List.flatMap_append, List.mem_append] at mem ⊢
        exact mem.imp_left Or.inl
    · have plain := Bool.eq_false_iff.2 has
      unfold envRequests at served
      rw [assignments_cons_of_plain plain] at few short served ⊢
      rw [envLoadOne_of_plain plain]
      exact ih kept few short fits served

end Load

/-! ## Every call -/

section Every

variable {g : GuestHeap} {ctx : EnvCtx} {guest : List HeldPtr} {l : List EnvBlocks}

/-- `getenv` hands out the value that the store has. -/
theorem EnvKept.getenv (kept : EnvKept g ctx guest l) (distinct : Distinct (contents l))
    (loaded : ctx.store.initialised = true) (vec : List (List UInt8)) (p : ℕ) :
    (yosGetenv ctx vec p).1 = ctx ∧ (ctx.mem.Refused p → (yosGetenv ctx vec p).2 = 0) ∧
      (¬ ctx.mem.Refused p →
        ValueAt ctx.mem.memory (yosGetenv ctx vec p).2 ((contents l).get (ctx.mem.cString p))) := by
  unfold yosGetenv MemCtx.Refused
  simp only [envInitOnce_loaded vec loaded]
  by_cases refused : p = 0 ∨ ctx.mem.memorySize ≤ p
  · rw [if_pos refused]
    exact ⟨rfl, fun _ => rfl, fun none => absurd refused none⟩
  rw [if_neg refused]
  refine ⟨?_, fun bad => absurd bad refused, fun _ => ?_⟩
  · split <;> rfl
  generalize ctx.mem.cString p = n
  cases found : Yos.findEntry ctx n with
  | none =>
    rw [kept.missing found]
    rfl
  | some i =>
    obtain ⟨b, at_i, rfl, entry⟩ := kept.found found
    have mem := List.mem_of_getElem? at_i
    have low := (kept.stays.inv.bounds (mem_envHeld mem (List.mem_cons_of_mem _ List.mem_cons_self))).1
    simp only [entry, Option.map_some, Option.getD_some, distinct.get_contents at_i]
    exact ⟨by simp only [EnvBlocks.entry]; omega, b.value, rfl, (kept.strings b mem).value⟩

/-- The store after a call, whether it failed or not. -/
theorem EnvDone.store {out : EnvCtx × Ret} {next : EnvMap} (done : EnvDone g ctx guest l out next)
    (distinct : Distinct (contents l)) :
    ∃ l', EnvKept g out.1 guest l' ∧ Distinct (contents l') ∧
      (contents l').get = if out.2.value = 0 then next else (contents l).get := by
  rcases done.result with ⟨failed, -, kept⟩ | ⟨succeeded, l', kept, distinct', map⟩
  · exact ⟨l, kept, distinct, (if_neg failed).symm⟩
  · exact ⟨l', kept, distinct', by rw [if_pos succeeded, map]⟩

/-- What every call does to a loaded store; `mem` has the strings that the guest passes. -/
structure EnvCalled (g : GuestHeap) (ctx : EnvCtx) (guest : List HeldPtr) (l : List EnvBlocks) (mem : MemCtx)
    (c : EnvCall) (out : EnvCtx × EnvReply) : Prop where
  loaded : out.1.store.initialised = true
  store : ∃ l', EnvKept g out.1 guest l' ∧ Distinct (contents l') ∧
    (contents l').get = c.apply mem (contents l).get out.2
  failed : ∀ r, out.2 = .ret r → r.value ≠ 0 → out.1.store = ctx.store ∧ EnvKept g out.1 guest l

theorem EnvDone.called {out : EnvCtx × Ret} {next : EnvMap} (done : EnvDone g ctx guest l out next)
    (distinct : Distinct (contents l)) {mem : MemCtx} {c : EnvCall}
    (apply : c.apply mem (contents l).get (.ret out.2) = if out.2.value = 0 then next else (contents l).get) :
    EnvCalled g ctx guest l mem c (out.map id .ret) where
  loaded := done.loaded
  store := by
    obtain ⟨l', kept, distinct', map⟩ := done.store distinct
    exact ⟨l', kept, distinct', map.trans apply.symm⟩
  failed r eq bad := by
    obtain rfl := EnvReply.ret.inj eq
    rcases done.result with ⟨-, store, kept⟩ | ⟨zero, -⟩
    · exact ⟨store, kept⟩
    · exact absurd zero bad

/-- The bridges refuse a pointer with `EINVAL`. -/
theorem EnvCalled.refused (kept : EnvKept g ctx guest l) (distinct : Distinct (contents l))
    (loaded : ctx.store.initialised = true) {mem : MemCtx} {c : EnvCall} {out : EnvCtx × EnvReply}
    (eq : out = (ctx, .ret (yosErrnoNeg .EINVAL)))
    (apply : c.apply mem (contents l).get (.ret (yosErrnoNeg .EINVAL)) = (contents l).get) :
    EnvCalled g ctx guest l mem c out := by
  rw [eq]
  exact ⟨loaded, ⟨l, kept, distinct, apply.symm⟩, fun r _ _ => ⟨rfl, kept⟩⟩

theorem EnvKept.called (kept : EnvKept g ctx guest l) (bounds : HostBounds g.ctx) (distinct : Distinct (contents l))
    (loaded : ctx.store.initialised = true) (vec : List (List UInt8)) (mem : MemCtx) (c : EnvCall)
    (args : ∀ p ∈ c.ptrs, ctx.mem.Refused p ∨ ∃ n : HostString, ctx.mem.cString p = n.1 ∧ mem.cString p = n.1 ∧
      Fits (n.1.length + 1)) :
    EnvCalled g ctx guest l mem c (ctx.call vec c) := by
  have init := envInitOnce_loaded vec loaded
  have minus : (yosErrnoNeg .EINVAL).value ≠ 0 := by decide
  unfold MemCtx.Refused at args
  cases c with
  | getenv p =>
    have same : (ctx.call vec (.getenv p)).1 = ctx := (kept.getenv distinct loaded vec p).1
    refine ⟨?_, ⟨l, ?_, distinct, rfl⟩, fun r eq => ?_⟩
    · rwa [same]
    · rwa [same]
    · cases eq
  | setenv nameOff valueOff overwrite =>
    obtain ⟨first, second, -⟩ := List.forall_mem_cons.1 args |>.imp_right List.forall_mem_cons.1
    by_cases bad : nameOff = 0 ∨ valueOff = 0 ∨ ctx.mem.memorySize ≤ nameOff ∨ ctx.mem.memorySize ≤ valueOff
    · refine .refused kept distinct loaded ?_ (by rw [EnvCall.apply, if_neg fun h => minus h.1])
      rw [EnvCtx.call, yosSetenv]
      simp only [init, if_pos bad]
      rfl
    · obtain ⟨n, name, name', fits⟩ := first.resolve_left (by omega)
      obtain ⟨v, value, value', fits'⟩ := second.resolve_left (by omega)
      refine (kept.setenv bounds distinct loaded vec overwrite bad name value fits fits').called distinct ?_
      rw [EnvCall.apply, name', value', setMap]
      split_ifs <;> simp_all
  | putenv sOff =>
    obtain ⟨only, -⟩ := List.forall_mem_cons.1 args
    by_cases bad : sOff = 0 ∨ ctx.mem.memorySize ≤ sOff
    · refine .refused kept distinct loaded ?_ (by rw [EnvCall.apply, if_neg minus])
      rw [EnvCtx.call, yosPutenv]
      simp only [init, if_pos bad]
      rfl
    · obtain ⟨s, text, text', fits⟩ := only.resolve_left bad
      refine (kept.putenv bounds distinct loaded vec bad text fits).called distinct ?_
      rw [EnvCall.apply, text']
  | unsetenv nameOff =>
    obtain ⟨only, -⟩ := List.forall_mem_cons.1 args
    by_cases bad : nameOff = 0 ∨ ctx.mem.memorySize ≤ nameOff
    · refine .refused kept distinct loaded ?_ (by rw [EnvCall.apply, if_neg minus])
      rw [EnvCtx.call, yosUnsetenv]
      simp only [init, if_pos bad]
      rfl
    · obtain ⟨n, name, name', -⟩ := only.resolve_left bad
      refine (kept.unsetenv bounds distinct loaded vec bad).called distinct ?_
      rw [EnvCall.apply, name, name']
  | clearenv =>
    refine (kept.clearenv bounds loaded vec).called distinct ?_
    rw [EnvCall.apply, yosClearenv]
    exact (if_pos rfl).symm

end Every

/-! ## Every run -/

section Run

variable {g : GuestHeap} {vec : List HostString} {s s' : EnvRun}

/-- The store, once loaded, is the map that the calls made, and nothing before. -/
structure EnvInv (g : GuestHeap) (vec : List HostString) (s : EnvRun) (l : List EnvBlocks) : Prop where
  kept : EnvKept g s.ctx s.guest l
  loaded : s.ctx.store.initialised = true → Distinct (contents l) ∧ (contents l).get = s.want
  fresh : s.ctx.store.initialised = false → l = [] ∧ s.want = vecMap (texts vec)

/-- A loaded store that shows the guest's strings as `s` does. -/
structure EnvLoaded (g : GuestHeap) (s : EnvRun) (ctx : EnvCtx) (l : List EnvBlocks) : Prop where
  kept : EnvKept g ctx s.guest l
  loaded : ctx.store.initialised = true
  distinct : Distinct (contents l)
  map : (contents l).get = s.want
  size : ctx.mem.memorySize = s.ctx.mem.memorySize
  texts : ∀ p n, s.Text p n → ctx.mem.cString p = n.1

theorem EnvRun.Text.cString_of_at {p : ℕ} {n : HostString} (text : s.Text p n) : s.ctx.mem.cString p = n.1 :=
  Yos.cString_of_at text.text (by have := text.inside; omega)

/-- The first call loads the store. -/
theorem EnvInv.init {l : List EnvBlocks} (inv : EnvInv g vec s l) (bounds : HostBounds g.ctx)
    (fits : ∀ t ∈ vec, Fits (t.1.length + 1))
    (ok : s.ctx.store.initialised = false → Loads s.ctx.mem (texts vec)) :
    ∃ l', EnvLoaded g s (envInitOnce s.ctx (texts vec)) l' := by
  cases init : s.ctx.store.initialised with
  | true =>
    obtain ⟨distinct, map⟩ := inv.loaded init
    rw [envInitOnce_loaded _ init]
    exact ⟨l, inv.kept, init, distinct, map, rfl, fun p n text => text.cString_of_at⟩
  | false =>
    obtain ⟨rfl, want⟩ := inv.fresh init
    have loads := ok init
    have started : EnvKept g ⟨s.ctx.mem, ⟨s.ctx.store.entries, true⟩⟩ s.guest [] :=
      ⟨inv.kept.stays, inv.kept.entries, inv.kept.strings⟩
    obtain ⟨l', eq, kept, move, loaded⟩ := started.load bounds (by simpa using loads.few) loads.short fits loads.served
    have same : envInitOnce s.ctx (texts vec) =
        (texts vec).foldl envLoadOne ⟨s.ctx.mem, ⟨s.ctx.store.entries, true⟩⟩ := if_neg (by simp [init])
    rw [← same, List.nil_append] at kept move
    rw [← same] at loaded
    have size : (envInitOnce s.ctx (texts vec)).mem.memorySize = s.ctx.mem.memorySize := move.size
    refine ⟨l', kept, loaded, ?_, ?_, size, fun p n text => ?_⟩
    · unfold Distinct
      rw [eq, List.map_map]
      exact loads.differ
    · rw [eq, want]
      rfl
    · have mine {i : ℕ} (le : i ≤ n.1.length) : (⟨s.ctx.mem, envHeld [] s.guest⟩ : GuestHeap).Mine (p + i) := by
        rcases text.readable i le with out | own | ⟨e, mem, -⟩
        · exact Or.inl out
        · exact Or.inr own
        · rw [inv.kept.entries] at mem
          exact absurd mem List.not_mem_nil
      refine Yos.cString_of_at (text.text.congr fun i lt => move.frame _ (mine (by omega)) ?_) ?_
      · exact move.mine_of_subset (fun h mem => List.mem_append_right _ mem) (mine (by omega))
      · have inside := text.inside
        omega

theorem EnvCtx.call_init (ctx : EnvCtx) (vec : List (List UInt8)) (c : EnvCall)
    (loaded : (envInitOnce ctx vec).store.initialised = true) :
    ctx.call vec c = (envInitOnce ctx vec).call vec c := by
  have again := envInitOnce_loaded vec loaded
  cases c with
  | getenv p => rw [call, call, yosGetenv, yosGetenv, again]
  | setenv p q overwrite => rw [call, call, yosSetenv, yosSetenv, again]
  | putenv p => rw [call, call, yosPutenv, yosPutenv, again]
  | unsetenv p => rw [call, call, yosUnsetenv, yosUnsetenv, again]
  | clearenv => rw [call, call, yosClearenv, yosClearenv, again]

/-- A call of a run. -/
theorem EnvInv.call {l : List EnvBlocks} (inv : EnvInv g vec s l) (bounds : HostBounds g.ctx)
    (fits : ∀ t ∈ vec, Fits (t.1.length + 1))
    (ok : s.ctx.store.initialised = false → Loads s.ctx.mem (texts vec)) {c : EnvCall} (args : s.Args c) :
    (∃ l', EnvInv g vec ⟨(s.ctx.call (texts vec) c).1, s.guest,
      c.apply s.ctx.mem s.want (s.ctx.call (texts vec) c).2⟩ l') ∧ EnvCallMet g (texts vec) s c := by
  obtain ⟨l', done⟩ := inv.init bounds fits ok
  have same := s.ctx.call_init (texts vec) c done.loaded
  have half : s.ctx.mem.memorySize ≤ 2 ^ 31 := by
    have size : s.ctx.mem.memorySize = g.ctx.memorySize := inv.kept.stays.size
    rw [size]
    exact bounds.size
  have called := done.kept.called bounds done.distinct done.loaded (texts vec) s.ctx.mem c fun p mem => by
    unfold MemCtx.Refused
    rw [done.size]
    refine (args p mem).imp_right fun ⟨n, text⟩ => ⟨n, done.texts p n text, text.cString_of_at, ?_⟩
    have inside := text.inside
    unfold Fits hdrSize blkAlign
    omega
  rw [← same] at called
  obtain ⟨l'', kept, distinct, map⟩ := called.store
  rw [done.map] at map
  refine ⟨⟨l'', kept, fun _ => ⟨distinct, map⟩, fun none => ?_⟩, ?_, fun r eq bad => ?_⟩
  · exact absurd (called.loaded.symm.trans none) (by decide)
  · rintro p rfl
    obtain ⟨ctx_eq, refused, found⟩ := done.kept.getenv done.distinct done.loaded (texts vec) p
    have result : (s.ctx.call (texts vec) (.getenv p)).1 = envInitOnce s.ctx (texts vec) := by
      rw [same]
      exact ctx_eq
    refine ⟨_, by rw [same]; rfl, fun bad => refused ?_, fun good => ?_⟩
    · unfold MemCtx.Refused at bad ⊢
      rwa [done.size]
    · rcases args p List.mem_cons_self with bad | ⟨n, text⟩
      · exact absurd bad good
      · rw [result, text.cString_of_at, ← done.map, ← done.texts p n text]
        refine found fun bad => good ?_
        unfold MemCtx.Refused at bad ⊢
        rwa [← done.size]
  · obtain ⟨store, kept'⟩ := called.failed r eq bad
    exact ⟨store, l', done.kept, kept'⟩

theorem EnvInv.step {l : List EnvBlocks} (inv : EnvInv g vec s l) (bounds : HostBounds g.ctx)
    (fits : ∀ t ∈ vec, Fits (t.1.length + 1)) {a : EnvStep} (ok : EnvLoads vec s a)
    (step : (envSystem g vec).step s a s') : ∃ l', EnvInv g vec s' l' := by
  cases a with
  | call c =>
    obtain ⟨args, rfl⟩ := step
    exact (inv.call bounds fits ok args).1
  | guest mem held =>
    obtain ⟨rfl, keeps⟩ := step
    exact ⟨l, keeps l inv.kept, inv.loaded, inv.fresh⟩

theorem EnvInv.of_run (heap : AllocInv g) (bounds : HostBounds g.ctx) (fits : ∀ t ∈ vec, Fits (t.1.length + 1))
    (run : (envSystem g vec).ReachableIf (EnvLoads vec) s) : ∃ l, EnvInv g vec s l := by
  refine run.invariant (I := fun s => ∃ l, EnvInv g vec s l) ?_ ?_
  · rintro s rfl
    refine ⟨[], ⟨⟨heap, rfl, rfl, rfl⟩, rfl, fun b mem => absurd mem List.not_mem_nil⟩, ?_, fun _ => ⟨rfl, rfl⟩⟩
    exact fun loaded => absurd loaded Bool.false_ne_true
  · rintro s a s' ⟨l, inv⟩ ok step
    exact inv.step bounds fits ok step

/-- In every run in which the vector is loaded whole, the store is the map that the calls made of the vector, and
the heap holds the two blocks of each entry, what the guest holds, and nothing else; a further call finds what the
map has, and leaves everything as it is if it fails. -/
theorem env_is_map (heap : AllocInv g) (bounds : HostBounds g.ctx) (fits : ∀ t ∈ vec, Fits (t.1.length + 1))
    (run : (envSystem g vec).ReachableIf (EnvLoads vec) s) :
    (∃ l, EnvInv g vec s l) ∧
      ∀ c, s.Args c → EnvLoads vec s (.call c) → EnvCallMet g (texts vec) s c := by
  obtain ⟨l, inv⟩ := EnvInv.of_run heap bounds fits run
  exact ⟨⟨l, inv⟩, fun c args ok => (inv.call bounds fits ok args).2⟩

end Run

/-! ## Vectors with one variable -/

/-- A heap with the guest's string `A` at 16. -/
def envHeap : GuestHeap := ⟨{ MemCtx.blank (2 ^ 22) 0x50000 with memory := writeBytes (fun _ => 0) 16 [65, 0] }, []⟩

/-- `A=1` -/
def oneVar : HostString := ⟨[65, 61, 49], by decide⟩

/-- `A=2` -/
def otherValue : HostString := ⟨[65, 61, 50], by decide⟩

/-- The start of a run. -/
def envStart (vec : List HostString) : EnvRun := ⟨⟨envHeap.ctx, ⟨[], false⟩⟩, envHeap.held, vecMap (texts vec)⟩

/-- The state after a call. -/
def EnvRun.next (s : EnvRun) (vec : List HostString) (c : EnvCall) : EnvRun :=
  ⟨(s.ctx.call (texts vec) c).1, s.guest, c.apply s.ctx.mem s.want (s.ctx.call (texts vec) c).2⟩

theorem envHeap_inv : AllocInv envHeap := Or.inl ⟨⟨rfl, by decide, by decide, by decide⟩, rfl⟩

theorem envHeap_bounds : HostBounds envHeap.ctx := ⟨by decide, by decide, fun set => absurd rfl set⟩

/-- The string `A` is the guest's in a state whose heap is where that of `envHeap` is. -/
theorem EnvRun.Args.of_name {s : EnvRun} (name : s.ctx.mem.memory 16 = 65 ∧ s.ctx.mem.memory 17 = 0)
    (lo : 17 < s.ctx.mem.setUp.allocLo) (size : 17 < s.ctx.mem.memorySize) {c : EnvCall} (ptrs : c.ptrs = [16]) :
    s.Args c := by
  intro p mem
  rw [ptrs] at mem
  obtain rfl := List.mem_singleton.1 mem
  refine Or.inr ⟨⟨[65], by decide⟩, ⟨fun i lt => ?_, name.2⟩, size, fun i le => Or.inl (Or.inl ?_)⟩
  · obtain rfl : i = 0 := Nat.lt_one_iff.1 lt
    exact name.1
  · have one : i ≤ 1 := le
    omega

theorem env_is_map_one :
    (∃ l, EnvInv envHeap [oneVar] ((envStart [oneVar]).next [oneVar] (.getenv 16)) l) ∧
      ∀ c, ((envStart [oneVar]).next [oneVar] (.getenv 16)).Args c →
        EnvLoads [oneVar] ((envStart [oneVar]).next [oneVar] (.getenv 16)) (.call c) →
        EnvCallMet envHeap (texts [oneVar]) ((envStart [oneVar]).next [oneVar] (.getenv 16)) c := by
  refine env_is_map envHeap_inv envHeap_bounds (by decide) (.step (a := .call (.getenv 16)) (.init rfl) ?_ ⟨?_, rfl⟩)
  · exact fun _ => ⟨by decide, by decide, by decide, by decide +kernel⟩
  · exact .of_name (by decide) (by decide +kernel) (by decide) rfl

/-- `A` is removed from the vector `A=1`, `A=2`. -/
def unsetTwice : EnvRun := (envStart [oneVar, otherValue]).next [oneVar, otherValue] (.unsetenv 16)

/-- The variable is twice in the vector, and is still found after it was removed. -/
theorem unset_still_found :
    ¬ ∀ s, (envSystem envHeap [oneVar, otherValue]).Reachable s →
      ∀ c, s.Args c → EnvCallMet envHeap (texts [oneVar, otherValue]) s c := by
  intro claim
  have run : (envSystem envHeap [oneVar, otherValue]).Reachable unsetTwice :=
    .next (.start rfl) (a := .call (.unsetenv 16)) ⟨.of_name (by decide) (by decide +kernel) (by decide) rfl, rfl⟩
  have size : 17 < unsetTwice.ctx.mem.memorySize := by decide +kernel
  have args : unsetTwice.Args (.getenv 16) :=
    .of_name (by decide +kernel) (by decide +kernel) size rfl
  have name : unsetTwice.ctx.mem.cString 16 = [65] := by decide +kernel
  have want : unsetTwice.want [65] = none := by decide +kernel
  have found : (yosGetenv unsetTwice.ctx (texts [oneVar, otherValue]) 16).2 ≠ 0 := by decide +kernel
  have passed : ¬ unsetTwice.ctx.mem.Refused 16 := fun refused => by
    rcases refused with null | high
    · exact absurd null (by decide)
    · omega
  obtain ⟨q, reply, -, value⟩ := (claim unsetTwice run (.getenv 16) args).found 16 rfl
  rw [name, want] at value
  have zero : q = 0 := value passed
  exact found ((EnvReply.off.inj reply).trans zero)

end Yos
