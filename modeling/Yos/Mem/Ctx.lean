import Yos.Lib.Bytes
import Yos.Lib.Spans

/-!
# The memory part of an execution context

`MemCtx` is `struct yos_exec_ctx` restricted to the linear memory and to the fields the memory
bridges (`impl/mem/alloc.c`, `impl/mem/mem.c`) read and write.  The region tables `free_list` and
`live_list` are the lists of their first `free_count` and `live_count` entries.  The locks
`mem_lock` and `g_alloc_lock` make every bridge one atomic step and are not represented.
-/

namespace Yos

/-- The fields of `struct yos_exec_ctx` the memory bridges use. -/
structure MemCtx where
  memory : Bytes
  memorySize : ℕ
  heapEnd : ℕ
  mmapTop : ℕ
  freeList : List Span
  liveList : List Span
  allocLo : ℕ
  allocHi : ℕ
  allocFreeHead : ℕ

/-- A zeroed memory with a program break and nothing allocated. -/
def MemCtx.blank (memorySize heapEnd : ℕ) : MemCtx where
  memory := fun _ => 0
  memorySize := memorySize
  heapEnd := heapEnd
  mmapTop := 0
  freeList := []
  liveList := []
  allocLo := 0
  allocHi := 0
  allocFreeHead := 0

/-- `YOS_MAX_FREE_REGIONS`. -/
def maxFreeRegions : ℕ := 64

/-- `YOS_MAX_LIVE_REGIONS`. -/
def maxLiveRegions : ℕ := 128

end Yos
