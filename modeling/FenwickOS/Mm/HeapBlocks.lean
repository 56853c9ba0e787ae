import FenwickOS.Lib.Bytes

/-! The free-list heap of kernel/mm/paging.c: block headers in memory, linked both ways. -/
namespace FenwickOS.Mm
open Machine

def heapStart : Word := 0x100000#64
def heapSize : Word := 0x800000#64

def heapBlockMagic : Word := 0xDEADBEEF12345678#64

/-- `sizeof(struct heap_block)`. -/
def sizeofHeapBlock : Word := 40#64

/-! The fields of the `struct heap_block` at `b`. -/
namespace HeapBlock

variable (m : Word → Byte) (b : Word)

def magic : Word := load64 m b
def size : Word := load64 m (b + 8#64)
def isFree : Byte := m (b + 16#64)
def next : Word := load64 m (b + 24#64)
def prev : Word := load64 m (b + 32#64)

def setMagic (v : Word) : Word → Byte := store64 m b v
def setSize (v : Word) : Word → Byte := store64 m (b + 8#64) v
def setIsFree (v : Byte) : Word → Byte := store8 m (b + 16#64) v
def setNext (v : Word) : Word → Byte := store64 m (b + 24#64) v
def setPrev (v : Word) : Word → Byte := store64 m (b + 32#64) v

end HeapBlock

/-- The statics of the heap, and memory. -/
structure BlockHeap where
  heapHead : Word
  heapTotal : Word
  heapUsed : Word
  heapFreeBytes : Word
  mem : Word → Byte

def heapInit (s : BlockHeap) : BlockHeap :=
  let head := heapStart
  let m := HeapBlock.setMagic s.mem head heapBlockMagic
  let m := HeapBlock.setSize m head (heapSize - sizeofHeapBlock)
  let m := HeapBlock.setIsFree m head 1#8
  let m := HeapBlock.setNext m head 0#64
  let m := HeapBlock.setPrev m head 0#64
  { heapHead := head
    heapTotal := heapSize
    heapUsed := sizeofHeapBlock
    heapFreeBytes := HeapBlock.size m head
    mem := m }

/-- The loop of `heap_find_best_fit`. `none` says that `rounds` rounds do not end it. -/
def bestFitFrom (m : Word → Byte) (size : Word) : (rounds : Nat) → (best cur : Word) → Option Word
  | 0, _, _ => none
  | rounds + 1, best, cur =>
    if cur = 0#64 then some best
    else if HeapBlock.isFree m cur ≠ 0#8 ∧ size ≤ HeapBlock.size m cur ∧
        (best = 0#64 ∨ HeapBlock.size m cur < HeapBlock.size m best) then
      if HeapBlock.size m cur = size then some cur
      else bestFitFrom m size rounds cur (HeapBlock.next m cur)
    else bestFitFrom m size rounds best (HeapBlock.next m cur)

def heapFindBestFit (rounds : Nat) (size : Word) (s : BlockHeap) : Option Word :=
  bestFitFrom s.mem size rounds 0#64 s.heapHead

/-- The sum in the test is unsigned and wraps. -/
def heapSplitBlock (block size : Word) (s : BlockHeap) : BlockHeap :=
  if HeapBlock.size s.mem block ≤ size + sizeofHeapBlock + 16#64 then s
  else
    let oldSize := HeapBlock.size s.mem block
    let newBlock := block + sizeofHeapBlock + size
    let m := HeapBlock.setMagic s.mem newBlock heapBlockMagic
    let m := HeapBlock.setSize m newBlock (oldSize - size - sizeofHeapBlock)
    let m := HeapBlock.setIsFree m newBlock 1#8
    let m := HeapBlock.setNext m newBlock (HeapBlock.next m block)
    let m := HeapBlock.setPrev m newBlock block
    let m :=
      if HeapBlock.next m block ≠ 0#64 then HeapBlock.setPrev m (HeapBlock.next m block) newBlock
      else m
    let m := HeapBlock.setNext m block newBlock
    let m := HeapBlock.setSize m block size
    { s with mem := m, heapFreeBytes := HeapBlock.size m newBlock }

end FenwickOS.Mm
