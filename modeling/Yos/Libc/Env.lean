import Yos.Errno
import Yos.Lib.Table
import Yos.Mem.Alloc

/-!
# The environment store (`impl/libc/env.c`)

The environment is a table of offsets of names and values in the guest memory.  It is loaded on
first use from a vector of `NAME=VALUE` strings: the one of the last `execve`, else the one of the
host process.  The entries of the vector are split at their first `=`; names of 256 bytes or more
are skipped.

`yos_setenv` also switches the host's tracing for a few names; that part is left out.
-/

namespace Yos

/-- `YOS_ENV_MAX`. -/
def envMax : ℕ := 512

/-- `struct yos_env_entry`. -/
structure EnvEntry where
  nameOff : ℕ
  valueOff : ℕ
  nameLen : ℕ
deriving DecidableEq, Repr

/-- `env_store`: its first `count` entries, and whether it was loaded. -/
structure EnvStore where
  entries : List EnvEntry
  initialised : Bool
deriving DecidableEq, Repr

/-- The memory and the environment of a process. -/
structure EnvCtx where
  mem : MemCtx
  store : EnvStore

/-- The string at `off`, which ends before the first zero byte. -/
def cString (memory : Bytes) : (fuel off : ℕ) → List UInt8
  | 0, _ => []
  | fuel + 1, off => if memory off = 0 then [] else memory off :: cString memory fuel (off + 1)

/-- The string a guest pointer stands for. -/
def MemCtx.cString (ctx : MemCtx) (off : ℕ) : List UInt8 :=
  Yos.cString ctx.memory ctx.memorySize off

/-- `memcpy` of bytes to the memory. -/
def writeBytes (memory : Bytes) (off : ℕ) (l : List UInt8) : Bytes := fun x =>
  if off ≤ x ∧ x < off + l.length then l.getD (x - off) 0 else memory x

theorem writeBytes_apply {m : Bytes} {off : ℕ} {l : List UInt8} {i : ℕ} (lt : i < l.length) :
    writeBytes m off l (off + i) = l[i] := by
  unfold writeBytes
  rw [if_pos ⟨Nat.le_add_right _ _, by omega⟩, Nat.add_sub_cancel_left, List.getD_eq_getElem?_getD,
    List.getElem?_eq_getElem lt, Option.getD_some]

theorem writeBytes_of_not_mem {m : Bytes} {off x : ℕ} {l : List UInt8} (out : ¬ (off ≤ x ∧ x < off + l.length)) :
    writeBytes m off l x = m x := if_neg out

/-- `copy_to_wasm`. -/
def copyToWasm (ctx : MemCtx) (s : List UInt8) : MemCtx × ℕ :=
  let (ctx, off) := yosMalloc ctx (s.length + 1)
  if off = 0 then (ctx, 0) else ({ ctx with memory := writeBytes ctx.memory off (s ++ [0]) }, off)

/-- `yos_free` of a block of the store; the walk visits no more blocks than the memory holds. -/
def freeOff (ctx : MemCtx) (off : ℕ) : MemCtx :=
  if off = 0 then ctx else (yosFree (ctx.memorySize + 1) ctx off).getD ctx

/-- `find_entry`. -/
def findEntry (ctx : EnvCtx) (name : List UInt8) : Option ℕ :=
  ctx.store.entries.findIdx? fun e =>
    e.nameOff ≠ 0 && (e.nameLen == name.length &&
      (List.range name.length).map (fun i => ctx.mem.memory (e.nameOff + i)) == name)

/-- The byte `=`. -/
def eqByte : UInt8 := 61

/-- One iteration of `env_load_from_vec`. -/
def envLoadOne (ctx : EnvCtx) (s : List UInt8) : EnvCtx :=
  if ¬ ctx.store.entries.length < envMax then ctx
  else if !s.contains eqByte then ctx
  else
    let name := s.takeWhile (· ≠ eqByte)
    if 256 ≤ name.length then ctx
    else
      let (mem, nameOff) := copyToWasm ctx.mem name
      let (mem, valueOff) := copyToWasm mem (s.drop (name.length + 1))
      if nameOff = 0 ∨ valueOff = 0 then { ctx with mem }
      else ⟨mem, { ctx.store with
        entries := ctx.store.entries ++ [⟨nameOff, valueOff, name.length⟩] }⟩

/-- `env_init_once`; `vec` is the vector it loads. -/
def envInitOnce (ctx : EnvCtx) (vec : List (List UInt8)) : EnvCtx :=
  if ctx.store.initialised then ctx
  else vec.foldl envLoadOne { ctx with store := { ctx.store with initialised := true } }

/-- `yos_getenv`. -/
def yosGetenv (ctx : EnvCtx) (vec : List (List UInt8)) (nameOff : ℕ) : EnvCtx × ℕ :=
  let ctx := envInitOnce ctx vec
  if nameOff = 0 ∨ ctx.mem.memorySize ≤ nameOff then (ctx, 0)
  else
    match findEntry ctx (ctx.mem.cString nameOff) with
    | none => (ctx, 0)
    | some i => (ctx, (ctx.store.entries[i]?.map EnvEntry.valueOff).getD 0)

/-- `yos_setenv`. -/
def yosSetenv (ctx : EnvCtx) (vec : List (List UInt8)) (nameOff valueOff : ℕ) (overwrite : Bool) :
    EnvCtx × Ret :=
  let ctx := envInitOnce ctx vec
  if nameOff = 0 ∨ valueOff = 0 ∨ ctx.mem.memorySize ≤ nameOff ∨ ctx.mem.memorySize ≤ valueOff then
    (ctx, yosErrnoNeg .EINVAL)
  else
    let name := ctx.mem.cString nameOff
    let value := ctx.mem.cString valueOff
    if name = [] ∨ name.contains eqByte then (ctx, yosErrnoNeg .EINVAL)
    else
      match findEntry ctx name with
      | some i =>
        if !overwrite then (ctx, ⟨0, none⟩)
        else
          let (mem, newVal) := copyToWasm ctx.mem value
          if newVal = 0 then ({ ctx with mem }, yosErrnoNeg .ENOMEM)
          else
            let old := (ctx.store.entries[i]?.map EnvEntry.valueOff).getD 0
            (⟨freeOff mem old, { ctx.store with
              entries := ctx.store.entries.modify i fun e => { e with valueOff := newVal } }⟩,
              ⟨0, none⟩)
      | none =>
        if envMax ≤ ctx.store.entries.length then (ctx, yosErrnoNeg .ENOMEM)
        else
          let (mem, nm) := copyToWasm ctx.mem name
          let (mem, vl) := copyToWasm mem value
          if nm = 0 ∨ vl = 0 then
            ({ ctx with mem := freeOff (freeOff mem nm) vl }, yosErrnoNeg .ENOMEM)
          else
            (⟨mem, { ctx.store with
              entries := ctx.store.entries ++ [⟨nm, vl, name.length⟩] }⟩, ⟨0, none⟩)

/-- `yos_unsetenv`; the last entry moves to the freed place. -/
def yosUnsetenv (ctx : EnvCtx) (vec : List (List UInt8)) (nameOff : ℕ) : EnvCtx × Ret :=
  let ctx := envInitOnce ctx vec
  if nameOff = 0 ∨ ctx.mem.memorySize ≤ nameOff then (ctx, yosErrnoNeg .EINVAL)
  else
    let name := ctx.mem.cString nameOff
    if name = [] ∨ name.contains eqByte then (ctx, yosErrnoNeg .EINVAL)
    else
      match findEntry ctx name with
      | none => (ctx, ⟨0, none⟩)
      | some i =>
        let e := ctx.store.entries.getD i ⟨0, 0, 0⟩
        (⟨freeOff (freeOff ctx.mem e.nameOff) e.valueOff,
          { ctx.store with entries := Table.swapRemove ctx.store.entries i }⟩, ⟨0, none⟩)

end Yos
