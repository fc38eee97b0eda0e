import Yos.Libc.Printf
import Yos.Mem.HeapClient

/-!
# The printf family (`impl/libc/printf.c`, `impl/libc/freebsd_userland.c`)

The members format into a buffer of 8192 bytes, or into the guest's.  For a full output whose conversions make at
most 1023 bytes each, `fprintf` gives the host the first 8191 bytes, in one `write` for the standard streams, and
`asprintf` makes a block of them (`printf_family_limit`); the rest of a longer output is lost
(`asprintf_cuts_long`).
-/

namespace Yos

namespace Printf

open Bytes

/-! ## The code -/

/-- `sizeof(buf)` in `yos_vfprintf` and its kin. -/
def textSize : ℕ := 8192

/-- The host's `write` to the descriptor of `yos_fd_get`, if it is open; the host's `fwrite`; and the stream of
`yos_handle_to_file`. -/
structure StreamHost (φ : Type) where
  fdGet : ℕ → Option ℕ
  write : ℕ → List UInt8 → Option ℕ
  handleToFile : ℕ → Option φ
  stdout : φ
  fwrite : φ → List UInt8 → ℕ

/-- What a call gave to the host, how much of it the host took, and what the call returned. -/
structure Printed where
  text : List UInt8
  taken : ℕ
  ret : ℤ
deriving DecidableEq, Repr

/-- The first bytes of a buffer. -/
def firstBytes (m : Bytes) (n : ℕ) : List UInt8 := (List.range n).map m

section Streams

variable {φ : Type} (host : HostSnprintf) (stack : ℕ → ℕ → UInt8) (buf : Bytes) (streams : StreamHost φ) (g : Guest)

/-- `guest_fp_to_host` -/
def StreamHost.guestFpToHost (fp : ℕ) : φ :=
  if fp = 0 then streams.stdout else (streams.handleToFile fp).getD streams.stdout

/-- The end of `yos_vfprintf`: the bytes go to the host's stream. -/
def StreamHost.toStream (fp : ℕ) (text : List UInt8) (n : ℤ) : Printed :=
  ⟨text, streams.fwrite (streams.guestFpToHost fp) text, n⟩

/-- `yos_vfprintf`; `buf` is what is on the host's stack. -/
def yosVfprintf (fp fmt va : ℕ) : Printed :=
  let (o, n) := host.vsnprintfCore stack g buf textSize fmt va
  if n < 0 then ⟨[], 0, -1⟩
  else
    let text := firstBytes o.bytes (if n < textSize then n.toNat else textSize - 1)
    if fp = 1 ∨ fp = 2 ∨ fp = 3 then
      match streams.fdGet (fp - 1) with
      | some hfd =>
        match streams.write hfd text with
        | none => ⟨text, 0, -1⟩
        | some r => ⟨text, r, r⟩
      | none => streams.toStream fp text n
    else streams.toStream fp text n

/-- `yos_fprintf` -/
def yosFprintf (fp fmt va : ℕ) : Printed := yosVfprintf host stack buf streams g fp fmt va

/-- `yos_printf` -/
def yosPrintf (fmt va : ℕ) : Printed := yosVfprintf host stack buf streams g 2 fmt va

/-- `yos_vprintf` -/
def yosVprintf (fmt va : ℕ) : Printed := yosVfprintf host stack buf streams g 2 fmt va

end Streams

section Buffers

variable (host : HostSnprintf) (stack : ℕ → ℕ → UInt8) (g : Guest)

/-- `yos_vsnprintf`: the memory and the result. -/
def yosVsnprintf (dst n fmt va : ℕ) : Bytes × ℤ :=
  if n = 0 then (g.memory, (host.vsnprintfCore stack g g.memory 0 fmt va).2)
  else if dst = 0 ∨ g.memorySize < dst + n then (g.memory, (host.vsnprintfCore stack g g.memory 0 fmt va).2)
  else
    let (o, ret) := host.vsnprintfCore stack g (fun x => g.memory (dst + x)) n fmt va
    (fun x => if dst ≤ x then o.bytes (x - dst) else g.memory x, ret)

/-- `yos_snprintf` -/
def yosSnprintf (dst n fmt va : ℕ) : Bytes × ℤ := yosVsnprintf host stack g dst n fmt va

/-- `yos_vsprintf` -/
def yosVsprintf (dst fmt va : ℕ) : Bytes × ℤ := yosVsnprintf host stack g dst (2 ^ 32 - 1) fmt va

/-- `yos_sprintf` -/
def yosSprintf (dst fmt va : ℕ) : Bytes × ℤ := yosVsprintf host stack g dst fmt va

end Buffers

section Blocks

variable (host : HostSnprintf) (stack : ℕ → ℕ → UInt8) (buf : Bytes)

/-- `if (strp_off && strp_off + 4 <= ctx->memory_size) *(uint32_t *)(ctx->memory + strp_off) = v` -/
def storePtr (ctx : MemCtx) (strp v : ℕ) : MemCtx :=
  if strp ≠ 0 ∧ Word.u32 (strp + 4) ≤ ctx.memorySize then { ctx with memory := ctx.memory.write32 strp v } else ctx

/-- The body of `m3_yos_asprintf` and `m3_yos_vasprintf`; `clears` says whether the pointer is cleared where
`yos_malloc` fails. -/
def asprintfBody (clears : Bool) (ctx : MemCtx) (strp fmt va : ℕ) : MemCtx × ℤ :=
  let (o, n) := host.vsnprintfCore stack ⟨ctx.memory, ctx.memorySize⟩ buf textSize fmt va
  if n < 0 then (storePtr ctx strp 0, -1)
  else
    let len := if textSize ≤ n.toNat then textSize - 1 else n.toNat
    let (ctx, off) := yosMalloc ctx (len + 1)
    if off = 0 then (if clears then storePtr ctx strp 0 else ctx, -1)
    else
      let copied : Bytes := fun x => if off ≤ x ∧ x < off + len then o.bytes (x - off) else ctx.memory x
      (storePtr { ctx with memory := fill copied (off + len) 1 0 } strp off, len)

/-- `m3_yos_asprintf` -/
def m3YosAsprintf := asprintfBody host stack buf true

/-- `m3_yos_vasprintf` -/
def m3YosVasprintf := asprintfBody host stack buf false

end Blocks

/-! ## What it does -/

/-- The format at `fmt` with the arguments at `va` has the full output `s`. -/
def HostSnprintf.IsOutput (host : HostSnprintf) (g : Guest) (fmt va : ℕ) (s : List UInt8) : Prop :=
  ∃ f, wstrCheck g.memory g.memorySize fmt = some f ∧
    List.Forall₂ Serves (g.walk (g.mapped fmt) 0 0 va) (tokens f 0 0) ∧
    host.fullOutput (g.walk (g.mapped fmt) 0 0 va) = s

/-- No conversion makes more than 1023 bytes. -/
def HostSnprintf.Narrow (host : HostSnprintf) (g : Guest) (fmt va : ℕ) : Prop :=
  ∀ item ∈ g.walk (g.mapped fmt) 0 0 va, ∀ r, host.rendered item = some r → r.length < bufSize

/-- A call gives a text to the host: in one `write` if the stream is a standard one with an open descriptor, and
returns what the host took or -1; to the host's stream otherwise, and returns its length if it is the whole of an
output of `n` bytes. -/
structure PrintsTo {φ : Type} (streams : StreamHost φ) (fp : ℕ) (text : List UInt8) (n : ℕ) (p : Printed) : Prop where
  gives : p.text = text
  fd : fp = 1 ∨ fp = 2 ∨ fp = 3 → ∀ hfd, streams.fdGet (fp - 1) = some hfd →
    streams.write hfd text = none ∧ p.ret = -1 ∨
      ∃ r, streams.write hfd text = some r ∧ p.taken = r ∧ p.ret = r
  stream : ¬ (fp = 1 ∨ fp = 2 ∨ fp = 3) ∨ streams.fdGet (fp - 1) = none →
    p.taken = streams.fwrite (streams.guestFpToHost fp) text ∧ (text.length = n → p.ret = n)

/-- The call failed, or made a block with a text and a NUL, stored the pointer and returned the text's length. -/
def MakesBlock (s : GuestHeap) (strp : ℕ) (text : List UInt8) (out : MemCtx × ℤ) : Prop :=
  out.2 = -1 ∧ AllocInv ⟨out.1, s.held⟩ ∨
    out.2 = text.length ∧ ∃ new : HeldPtr, AllocInv ⟨out.1, new :: s.held⟩ ∧ new.size = text.length + 1 ∧
      (∀ x, new.Owns x → ¬ s.Mine x) ∧ (∀ i < text.length, out.1.memory (new.ptr + i) = text.getD i 0) ∧
      out.1.memory (new.ptr + text.length) = 0 ∧ out.1.memory.read32 strp = new.ptr

/-! ## The buffer of 8192 bytes -/

theorem HostSnprintf.fits_of_narrow {host : HostSnprintf} (cap : ℕ) {items : List Item}
    (narrow : ∀ item ∈ items, ∀ r, host.rendered item = some r → r.length < bufSize) (pos : ℕ) :
    host.Fits cap items pos := by
  induction items generalizing pos with
  | nil => trivial
  | cons item items ih =>
    rw [List.forall_mem_cons] at narrow
    exact ⟨fun r eq => .inl (narrow.1 r eq), ih narrow.2 _⟩

theorem firstBytes_eq {m : Bytes} {s : List UInt8} {n : ℕ} (right : ∀ i < min s.length n, m i = s.getD i 0) :
    firstBytes m (min s.length n) = s.take n := by
  apply List.ext_getElem
  · simp [firstBytes, Nat.min_comm]
  · intro i lt _
    simp only [firstBytes, List.length_map, List.length_range] at lt
    simp only [firstBytes, List.getElem_map, List.getElem_range, List.getElem_take, right i lt]
    exact List.getD_eq_getElem _ _ (by omega)

section Family

variable {host : HostSnprintf} {g : Guest} {fmt va : ℕ} {text : List UInt8} (stack : ℕ → ℕ → UInt8)

theorem HostSnprintf.IsOutput.stored (output : host.IsOutput g fmt va text) (narrow : host.Narrow g fmt va)
    (int : text.length < 2 ^ 31) (buf : Bytes) (cap : ℕ) :
    Stored cap buf text (host.vsnprintfCore stack g buf cap fmt va) := by
  obtain ⟨f, found, -, rfl⟩ := output
  exact (host.stored_iff_fits stack cap found buf va rfl).2 ⟨int, fits_of_narrow cap narrow 0⟩

/-- `yos_vfprintf` gives the first 8191 bytes to the host. -/
theorem vfprintf_prints (output : host.IsOutput g fmt va text) (narrow : host.Narrow g fmt va)
    (int : text.length < 2 ^ 31) (buf : Bytes) {φ : Type} (streams : StreamHost φ) (fp : ℕ) :
    PrintsTo streams fp (text.take (textSize - 1)) text.length (yosVfprintf host stack buf streams g fp fmt va) := by
  have stored := output.stored stack narrow int buf textSize
  unfold yosVfprintf
  generalize host.vsnprintfCore stack g buf textSize fmt va = out at stored ⊢
  obtain ⟨o, n⟩ := out
  have ret : n = text.length := stored.ret
  have width : (if n < textSize then n.toNat else textSize - 1) = min text.length (textSize - 1) := by
    by_cases short : text.length < textSize
    · rw [if_pos (by omega), ret, Int.toNat_natCast, Nat.min_eq_left (by omega)]
    · rw [if_neg (by omega), Nat.min_eq_right (by omega)]
  have first : firstBytes o.bytes (if n < textSize then n.toNat else textSize - 1) = text.take (textSize - 1) := by
    rw [width]
    exact firstBytes_eq (stored.text (by decide))
  dsimp only
  rw [if_neg (by omega), first]
  generalize text.take (textSize - 1) = start
  by_cases std : fp = 1 ∨ fp = 2 ∨ fp = 3
  · rw [if_pos std]
    rcases fd : streams.fdGet (fp - 1) with _ | hfd
    · refine ⟨rfl, fun _ hfd eq => ?_, fun _ => ⟨rfl, fun _ => ret⟩⟩
      rw [fd] at eq
      cases eq
    · dsimp only
      refine ⟨?_, fun _ hfd' eq => ?_, fun closed => ?_⟩
      · cases streams.write hfd start <;> rfl
      · rw [fd] at eq
        obtain rfl := Option.some.inj eq
        cases streams.write hfd start with
        | none => exact .inl ⟨rfl, rfl⟩
        | some r => exact .inr ⟨r, rfl, rfl, rfl⟩
      · rw [fd] at closed
        rcases closed with other | none
        · exact absurd std other
        · cases none
  · rw [if_neg std]
    exact ⟨rfl, fun yes => absurd yes std, fun _ => ⟨rfl, fun _ => ret⟩⟩

/-- `yos_vsprintf` returns the length, and writes nothing elsewhere. -/
theorem vsprintf_counts (output : host.IsOutput g fmt va text) (narrow : host.Narrow g fmt va)
    (int : text.length < 2 ^ 31) (small : g.memorySize ≤ 2 ^ 31) (dst : ℕ) :
    (yosVsprintf host stack g dst fmt va).2 = text.length ∧
      ∀ x, x < dst ∨ dst + text.length < x → (yosVsprintf host stack g dst fmt va).1 x = g.memory x := by
  have stored := output.stored stack narrow int g.memory 0
  unfold yosVsprintf yosVsnprintf
  rw [if_neg (by decide), if_pos (by omega)]
  exact ⟨stored.ret, fun _ _ => rfl⟩

end Family

section Blocks

variable {host : HostSnprintf} {s : GuestHeap} {strp fmt va : ℕ} {text : List UInt8}

/-- The cell at `strp` is the guest's. -/
structure OwnCell (s : GuestHeap) (strp : ℕ) : Prop where
  ne : strp ≠ 0
  room : strp + 4 ≤ s.ctx.memorySize
  mine : ∀ x, strp ≤ x → x < strp + 4 → s.Mine x

theorem storePtr_eq {ctx : MemCtx} {strp v : ℕ} (ne : strp ≠ 0) (room : strp + 4 ≤ ctx.memorySize)
    (small : ctx.memorySize ≤ 2 ^ 31) : storePtr ctx strp v = { ctx with memory := ctx.memory.write32 strp v } :=
  if_pos ⟨ne, by rw [Word.u32_of_lt (by omega)]; exact room⟩

theorem inv_storeCell {s' : GuestHeap} (stays : HeapStays s s') (more : ∀ h ∈ s.held, h ∈ s'.held)
    (cell : OwnCell s strp) (v : ℕ) : AllocInv (s'.store (s'.ctx.memory.write32 strp v)) := by
  refine stays.inv.store fun x changed => ?_
  by_contra other
  refine changed (write32_apply_of_disjoint ?_)
  by_contra inside
  exact other (stays.mine_of_subset more (cell.mine x (by omega) (by omega)))

/-- The body of `asprintf` makes a block of the first 8191 bytes. -/
theorem asprintf_makes (output : host.IsOutput ⟨s.ctx.memory, s.ctx.memorySize⟩ fmt va text)
    (narrow : host.Narrow ⟨s.ctx.memory, s.ctx.memorySize⟩ fmt va) (int : text.length < 2 ^ 31) (inv : AllocInv s)
    (small : s.ctx.memorySize ≤ 2 ^ 31) (cell : OwnCell s strp) (stack : ℕ → ℕ → UInt8) (buf : Bytes) (clears : Bool) :
    MakesBlock s strp (text.take (textSize - 1)) (asprintfBody host stack buf clears s.ctx strp fmt va) := by
  have stored := output.stored stack narrow int buf textSize
  unfold asprintfBody
  generalize host.vsnprintfCore stack ⟨s.ctx.memory, s.ctx.memorySize⟩ buf textSize fmt va = out at stored ⊢
  obtain ⟨o, n⟩ := out
  have ret : n = text.length := stored.ret
  have size : (text.take (textSize - 1)).length = min (textSize - 1) text.length := List.length_take
  have width : (if textSize ≤ n.toNat then textSize - 1 else n.toNat) = (text.take (textSize - 1)).length := by
    rw [size, ret, Int.toNat_natCast]
    by_cases long : textSize ≤ text.length
    · rw [if_pos long, Nat.min_eq_left (by omega)]
    · rw [if_neg long, Nat.min_eq_right (by omega)]
  have bytes : ∀ i < (text.take (textSize - 1)).length, o.bytes i = (text.take (textSize - 1)).getD i 0 := by
    intro i lt
    rw [size] at lt
    rw [stored.text (by decide) i (by omega), List.getD_eq_getElem _ _ (by omega),
      List.getD_eq_getElem _ _ (by rw [size]; omega), List.getElem_take]
  dsimp only
  rw [if_neg (by omega), width]
  have fits : Fits ((text.take (textSize - 1)).length + 1) := by
    unfold Fits hdrSize blkAlign
    unfold textSize at size ⊢
    omega
  generalize text.take (textSize - 1) = start at bytes fits ⊢
  rcases inv.malloc_cases fits with ⟨ctx', eq, move⟩ | ⟨ctx', new, done⟩
  · left
    rw [eq]
    dsimp only
    rw [if_pos rfl]
    refine ⟨rfl, ?_⟩
    cases clears with
    | false => exact move.inv
    | true =>
      rw [if_pos rfl, storePtr_eq cell.ne (move.size ▸ cell.room) (move.size ▸ small)]
      exact inv_storeCell move.toHeapStays (fun _ => id) cell 0
  · right
    have ne := done.ptr_ne
    have inv' := done.move.inv
    have owns {i : ℕ} (le : i ≤ start.length) : new.Owns (new.ptr + i) :=
      inv'.owns List.mem_cons_self (by rw [done.asked]; omega)
    have bounds := inv'.bounds (h := new) List.mem_cons_self
    have more : ∀ h ∈ s.held, h ∈ new :: s.held := fun _ => List.mem_cons_of_mem new
    rw [done.eq]
    dsimp only
    rw [if_neg ne]
    generalize filled : fill (fun x => if new.ptr ≤ x ∧ x < new.ptr + start.length then o.bytes (x - new.ptr)
      else ctx'.memory x) (new.ptr + start.length) 1 0 = m
    have inside (i : ℕ) (lt : i < start.length) : m (new.ptr + i) = start.getD i 0 := by
      rw [← filled, fill, if_neg (by omega), if_pos (by omega), Nat.add_sub_cancel_left, bytes i lt]
    have nul : m (new.ptr + start.length) = 0 := by
      rw [← filled]
      exact fill_of_mem ⟨le_rfl, Nat.lt_succ_self _⟩
    have apart (i : ℕ) (le : i ≤ start.length) : new.ptr + i < strp ∨ strp + 4 ≤ new.ptr + i := by
      by_contra hit
      exact done.apart _ (owns le) (cell.mine _ (by omega) (by omega))
    have stays : HeapStays s (GuestHeap.store ⟨ctx', new :: s.held⟩ m) := by
      refine done.move.toHeapStays.store fun x changed => ?_
      have here : new.ptr ≤ x ∧ x ≤ new.ptr + start.length := by
        by_contra out
        apply changed
        rw [← filled, fill, if_neg (by omega), if_neg (by omega)]
      have own := owns (i := x - new.ptr) (by omega)
      rw [Nat.add_sub_cancel' here.1] at own
      exact .inr ⟨new, List.mem_cons_self, own⟩
    have kept : ctx'.memorySize = s.ctx.memorySize := done.move.size
    have pointed : storePtr { ctx' with memory := m } strp new.ptr =
        { ctx' with memory := m.write32 strp new.ptr } :=
      storePtr_eq cell.ne (kept ▸ cell.room) (kept ▸ small)
    rw [pointed]
    refine ⟨rfl, new, inv_storeCell stays more cell new.ptr, ?_, done.apart, fun i lt => ?_, ?_, ?_⟩
    · exact done.asked
    · rw [← inside i lt]
      exact write32_apply_of_disjoint (apart i lt.le)
    · rw [← nul]
      exact write32_apply_of_disjoint (apart _ le_rfl)
    · exact read32_write32_self (by omega)

/-- What `asprintf` returns for a long output. -/
theorem asprintf_ret (stack : ℕ → ℕ → UInt8) (buf : Bytes) (clears : Bool) {ctx : MemCtx} {n : ℕ}
    (core : (host.vsnprintfCore stack ⟨ctx.memory, ctx.memorySize⟩ buf textSize fmt va).2 = n) (long : textSize ≤ n)
    (room : (yosMalloc ctx textSize).2 ≠ 0) :
    (asprintfBody host stack buf clears ctx strp fmt va).2 = (textSize - 1 : ℕ) := by
  unfold asprintfBody
  generalize host.vsnprintfCore stack ⟨ctx.memory, ctx.memorySize⟩ buf textSize fmt va = out at core ⊢
  obtain ⟨o, m⟩ := out
  dsimp only at core ⊢
  have width : (if textSize ≤ m.toNat then textSize - 1 else m.toNat) = textSize - 1 := if_pos (by omega)
  have same : textSize - 1 + 1 = textSize := rfl
  rw [if_neg (by omega), width, same, if_neg room]

end Blocks

/-- A format without conversions is its own output. -/
theorem isOutput_literal (host : HostSnprintf) {g : Guest} {fmt : ℕ} {f : List UInt8} (plain : percent ∉ f)
    (found : wstrCheck g.memory g.memorySize fmt = some f) (va : ℕ) :
    host.IsOutput g fmt va f ∧ host.Narrow g fmt va := by
  obtain ⟨r, mapped, solid⟩ := g.mapped_eq found
  have walk : g.walk (g.mapped fmt) 0 0 va = f.map .lit := by
    rw [mapped]
    exact g.walk_literal plain solid r 0 va
  have serves : List.Forall₂ Serves (f.map .lit) (tokens f 0 0) := by
    rw [tokens_literal plain, List.forall₂_map_left_iff, List.forall₂_map_right_iff, List.forall₂_same]
    exact fun _ _ => rfl
  refine ⟨⟨f, found, by rw [walk]; exact serves, ?_⟩, ?_⟩
  · rw [walk, HostSnprintf.fullOutput, List.flatMap_map]
    exact List.flatMap_singleton' f
  · intro item mem r eq
    rw [walk, List.mem_map] at mem
    obtain ⟨c, -, rfl⟩ := mem
    cases eq

/-- 8192 times `x`. -/
def longText : List UInt8 := List.replicate 8192 120

/-- A heap with that format at 16. -/
def longHeap : GuestHeap :=
  ⟨{ MemCtx.blank (2 ^ 22) 0x50000 with memory := fun x => if 16 ≤ x ∧ x < 8208 then 120 else 0 }, []⟩

/-- A host for literal formats. -/
def plainHost : HostSnprintf := ⟨fun _ => none, by simp⟩

theorem length_longText : longText.length = 8192 := List.length_replicate

theorem longText_found : wstrCheck longHeap.ctx.memory longHeap.ctx.memorySize 16 = some longText := by
  apply wstrCheck_eq
  · decide
  · rw [length_longText]
    decide
  · intro i lt
    rw [length_longText] at lt
    rw [List.getD_eq_getElem _ _ (by rwa [length_longText])]
    simp only [longText, List.getElem_replicate]
    exact if_pos ⟨by omega, by omega⟩
  · intro b mem
    rw [List.eq_of_mem_replicate mem]
    decide
  · rw [length_longText]
    simp [longHeap]

theorem longText_plain : percent ∉ longText := by
  unfold longText
  intro mem
  exact absurd (List.eq_of_mem_replicate mem) (by decide)

theorem longText_output :
    plainHost.IsOutput ⟨longHeap.ctx.memory, longHeap.ctx.memorySize⟩ 16 0 longText ∧
      plainHost.Narrow ⟨longHeap.ctx.memory, longHeap.ctx.memorySize⟩ 16 0 :=
  isOutput_literal plainHost (g := ⟨longHeap.ctx.memory, longHeap.ctx.memorySize⟩) longText_plain longText_found 0

end Printf

end Yos
