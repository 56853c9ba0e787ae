import FenwickOS.Libk.Memory
import FenwickOS.Mm.HeapBlocks
import FenwickOS.Mm.Paging

/-! `mm_start` of kernel/mm/mm.c, which runs `mm_init` and `paging_init`. -/
namespace FenwickOS.Mm
open Machine

/-- The page tables and the heap of paging.c, the heap of libk's memory.rs, and the flag of mm.c.
The words of the tables and the bytes of the blocks are kept apart: they share no address. -/
structure MemoryManager where
  mm : MmState
  blocks : BlockHeap
  libk : Libk.Heap
  mmInitialized : Bool

/-- The bits set in CR4 and the console output are left out. -/
def pagingInit (kernelDir : Word) (s : MemoryManager) : MemoryManager :=
  let s := { s with blocks := heapInit s.blocks }
  { s with mm := { s.mm with currentDir := kernelDir } }

/-- `kernelDir` is the address of the static `kernel_dir`. -/
def mmStart (kernelDir : Word) (s : MemoryManager) : MemoryManager :=
  let s := { s with mm := { s.mm with pool := mmInit } }
  let s := pagingInit kernelDir s
  { s with mmInitialized := true }

def MemoryManager.boot : MemoryManager where
  mm := ⟨⟨fun _ => ⟨0#64, 0#8, 0#8, 0#8⟩, fun _ => 0#8⟩, fun _ => 0#64, 0#64⟩
  blocks := ⟨0#64, 0#64, 0#64, 0#64, fun _ => 0#8⟩
  libk := ⟨0#64, 0#64, 0#64, false, fun _ => 0#8⟩
  mmInitialized := false

variable {kd : Word} {s : MemoryManager}

-- what is shown for any pool keeps the loops of `mm_init` out of the comparisons
theorem mm_mmStart : (mmStart kd s).mm = ⟨mmInit, s.mm.mem, kd⟩ := by
  have hpool (pool : Pool) :
      ({ pagingInit kd { s with mm := { s.mm with pool := pool } } with
        mmInitialized := true } : MemoryManager).mm = ⟨pool, s.mm.mem, kd⟩ := rfl
  rw [mmStart]
  exact hpool mmInit

theorem libk_mmStart : (mmStart kd s).libk = s.libk := by
  have hpool (pool : Pool) :
      ({ pagingInit kd { s with mm := { s.mm with pool := pool } } with
        mmInitialized := true } : MemoryManager).libk = s.libk := rfl
  rw [mmStart]
  exact hpool mmInit

end FenwickOS.Mm
