import FenwickOS.Lib.Radix
import FenwickOS.Mm.Pool

/-! The four-level page tables of kernel/mm/paging.c. Memory is a map from the address of an
eight-byte word to its value: the walk reads and writes nothing smaller. -/
namespace FenwickOS.Mm
open Machine

def pagePresent : Word := 0x01#64
def pageWritable : Word := 0x02#64
def pageUser : Word := 0x04#64

abbrev pagesPerTable : Nat := 512

/-- The file's state: the page pool, physical memory and the pointer `current_dir`. -/
structure MmState where
  pool : Pool
  mem : Word → Word
  currentDir : Word

/-- `&table->entries[idx]`. -/
def entryAddr (table idx : Word) : Word := table + 8#64 * idx

/-- The table or page frame that an entry points to. -/
def frame (entry : Word) : Word := entry &&& ~~~0xFFF#64

def isPresent (entry : Word) : Bool := entry &&& pagePresent != 0

def pml4Idx (virt : Word) : Word := (virt >>> 39) &&& 0x1FF#64
def pdptIdx (virt : Word) : Word := (virt >>> 30) &&& 0x1FF#64
def pdIdx (virt : Word) : Word := (virt >>> 21) &&& 0x1FF#64
def ptIdx (virt : Word) : Word := (virt >>> 12) &&& 0x1FF#64

def zeroTable (mem : Word → Word) (table : Word) : Word → Word :=
  (List.range pagesPerTable).foldl
    (fun mem i => Function.update mem (entryAddr table (BitVec.ofNat 64 i)) 0#64) mem

def tableEntry (phys : Word) : Word := phys ||| pagePresent ||| pageWritable ||| pageUser

/-- Clear a new table and enter it into its parent. -/
def installTable (s : MmState) (table idx phys : Word) (pool : Pool) : MmState :=
  { s with
    pool := pool
    mem := Function.update (zeroTable s.mem phys) (entryAddr table idx) (tableEntry phys) }

/-- One level of `get_pte`, the same at all three: the table that entry `idx` of `table` points
to, installed first when it is absent and `create` is set. `none` is the `return 0`. -/
def nextTable (table idx : Word) (create : Bool) (s : MmState) : Option Word × MmState :=
  if isPresent (s.mem (entryAddr table idx)) then
    (some (frame (s.mem (entryAddr table idx))), s)
  else if create then
    let (phys, pool) := mmAllocPage s.pool
    if phys = 0#64 then (none, { s with pool := pool })
    else
      let s := installTable s table idx phys pool
      (some (frame (s.mem (entryAddr table idx))), s)
  else (none, s)

/-- The address of the page table entry of `virt`, or the null pointer. -/
def getPte (virt : Word) (create : Bool) (s : MmState) : Word × MmState :=
  match nextTable s.currentDir (pml4Idx virt) create s with
  | (none, s) => (0#64, s)
  | (some pdpt, s) =>
    match nextTable pdpt (pdptIdx virt) create s with
    | (none, s) => (0#64, s)
    | (some pd, s) =>
      match nextTable pd (pdIdx virt) create s with
      | (none, s) => (0#64, s)
      | (some pt, s) => (entryAddr pt (ptIdx virt), s)

def leafEntry (phys flags : Word) : Word :=
  phys &&& ~~~0xFFF#64 ||| flags &&& 0xFFF#64 ||| pagePresent

def mmMapPage (phys virt flags : Word) (s : MmState) : Word × MmState :=
  let (pte, s) := getPte virt true s
  if pte = 0#64 then (0#64, s)
  else (virt, { s with mem := Function.update s.mem pte (leafEntry phys flags) })

def mmUnmapPage (virt : Word) (s : MmState) : Word × MmState :=
  let (pte, s) := getPte virt false s
  if pte = 0#64 ∨ !isPresent (s.mem pte) then (0#64, s)
  else (frame (s.mem pte), { s with mem := Function.update s.mem pte 0#64 })

inductive MmOp
  | mapPage (phys virt flags : Word)
  | unmapPage (virt : Word)
  | allocPage

def mmStep (s : MmState) : MmOp → MmState
  | .mapPage phys virt flags => (mmMapPage phys virt flags s).2
  | .unmapPage virt => (mmUnmapPage virt s).2
  | .allocPage => { s with pool := (mmAllocPage s.pool).2 }

/-- The leaf entry that the walk of `get_pte(virt, 0)` ends in, when it is present. -/
def lookup (s : MmState) (virt : Word) : Option Word :=
  let pte := (getPte virt false s).1
  if pte = 0#64 ∨ !isPresent (s.mem pte) then none else some (s.mem pte)

/-! The tables as a radix tree: indices are nine bits, entries point to tables or hold leaves. -/

abbrev Index := BitVec 9

def entry (mem : Word → Word) (table : Word) (i : Index) : Word :=
  mem (entryAddr table (i.setWidth 64))

def next (mem : Word → Word) (table : Word) (i : Index) : Option Word :=
  if isPresent (entry mem table i) then some (frame (entry mem table i)) else none

def leaf (mem : Word → Word) (table : Word) (i : Index) : Option Word :=
  if isPresent (entry mem table i) then some (entry mem table i) else none

/-- The indices that select the page table of `virt`. -/
def path (virt : Word) : List Index :=
  [virt.extractLsb' 39 9, virt.extractLsb' 30 9, virt.extractLsb' 21 9]

def lastIndex (virt : Word) : Index := virt.extractLsb' 12 9

/-- The walk of `get_pte(virt, 1)` from `table` on: `none` is a level without a page. -/
def createWalk : (table : Word) → List Index → MmState → Option Word × MmState
  | table, [], s => (some table, s)
  | table, i :: is, s =>
    match nextTable table (i.setWidth 64) true s with
    | (none, s) => (none, s)
    | (some c, s) => createWalk c is s

theorem and_0x1FF (v : Word) (k : Nat) :
    (v >>> k) &&& 0x1FF#64 = (v.extractLsb' k 9).setWidth 64 := by
  apply BitVec.eq_of_toNat_eq
  have hmask : (0x1FF#64 : Word).toNat = 2 ^ 9 - 1 := rfl
  rw [BitVec.toNat_and, hmask, Nat.and_two_pow_sub_one_eq_mod, BitVec.toNat_setWidth,
    BitVec.extractLsb'_toNat, BitVec.toNat_ushiftRight]
  omega

/-- Reading a table never changes the state, and follows one edge of the tree. -/
theorem nextTable_false (s : MmState) (table : Word) (i : Index) :
    nextTable table (i.setWidth 64) false s = (next s.mem table i, s) := by
  unfold nextTable next entry
  split <;> simp_all

theorem getPte_false (s : MmState) (virt : Word) :
    getPte virt false s =
      (((Radix.walk (next s.mem) s.currentDir (path virt)).map
        fun pt => entryAddr pt ((lastIndex virt).setWidth 64)).getD 0#64, s) := by
  simp only [getPte, pml4Idx, pdptIdx, pdIdx, ptIdx, and_0x1FF, nextTable_false, path, lastIndex,
    Radix.walk]
  cases next s.mem s.currentDir (virt.extractLsb' 39 9) with
  | none => rfl
  | some pdpt =>
    simp only [Option.bind_some]
    cases next s.mem pdpt (virt.extractLsb' 30 9) with
    | none => rfl
    | some pd =>
      simp only [Option.bind_some]
      cases next s.mem pd (virt.extractLsb' 21 9) <;> rfl

/-- What one creating level does: it follows an edge, finds the pool empty, or hangs a table. -/
theorem nextTable_true_cases (s : MmState) (table : Word) (i : Index) :
    (∃ c, next s.mem table i = some c ∧ nextTable table (i.setWidth 64) true s = (some c, s)) ∨
    (next s.mem table i = none ∧ nextTable table (i.setWidth 64) true s =
      (none, { s with pool := (mmAllocPage s.pool).2 }) ∧ (mmAllocPage s.pool).1 = 0#64) ∨
    (next s.mem table i = none ∧ (mmAllocPage s.pool).1 ≠ 0#64 ∧
      nextTable table (i.setWidth 64) true s =
        (some (frame (tableEntry (mmAllocPage s.pool).1)),
          installTable s table (i.setWidth 64) (mmAllocPage s.pool).1 (mmAllocPage s.pool).2)) := by
  unfold nextTable next entry
  by_cases hp : isPresent (s.mem (entryAddr table (i.setWidth 64))) = true
  · left
    simp [hp]
  · right
    by_cases hz : (mmAllocPage s.pool).1 = 0#64
    · left
      simp [hp, hz]
    · right
      simp [hp, hz, installTable]

theorem getPte_true (s : MmState) (virt : Word) :
    getPte virt true s =
      (((createWalk s.currentDir (path virt) s).1.map
        fun pt => entryAddr pt ((lastIndex virt).setWidth 64)).getD 0#64,
        (createWalk s.currentDir (path virt) s).2) := by
  simp only [getPte, pml4Idx, pdptIdx, pdIdx, ptIdx, and_0x1FF, path, lastIndex, createWalk]
  rcases nextTable s.currentDir _ true s with ⟨_ | pdpt, t⟩
  · rfl
  dsimp only
  rcases nextTable pdpt _ true t with ⟨_ | pd, u⟩
  · rfl
  dsimp only
  rcases nextTable pd _ true u with ⟨_ | pt, v⟩
  · rfl
  · rfl

theorem createWalk_of_next {s : MmState} {table c : Word} {i : Index} (is : List Index)
    (h : next s.mem table i = some c) : createWalk table (i :: is) s = createWalk c is s := by
  rcases nextTable_true_cases s table i with ⟨d, hd, he⟩ | ⟨hn, -⟩ | ⟨hn, -⟩
  · rw [createWalk, he]
    obtain rfl := Option.some.inj (h.symm.trans hd)
    rfl
  · rw [h] at hn
    cases hn
  · rw [h] at hn
    cases hn

theorem zeroTable_apply (mem : Word → Word) (table a : Word) :
    zeroTable mem table a =
      if ∃ i : Index, a = entryAddr table (i.setWidth 64) then 0#64 else mem a := by
  have hiff : (∃ i ∈ List.range pagesPerTable, a = entryAddr table (BitVec.ofNat 64 i)) ↔
      ∃ i : Index, a = entryAddr table (i.setWidth 64) := by
    constructor
    · rintro ⟨k, hk, rfl⟩
      have hlt : k < 512 := List.mem_range.mp hk
      refine ⟨BitVec.ofNat 9 k, ?_⟩
      congr 1
      apply BitVec.eq_of_toNat_eq
      simp only [BitVec.toNat_setWidth, BitVec.toNat_ofNat]
      omega
    · rintro ⟨i, rfl⟩
      refine ⟨i.toNat, List.mem_range.mpr i.isLt, ?_⟩
      congr 1
      apply BitVec.eq_of_toNat_eq
      simp only [BitVec.toNat_setWidth, BitVec.toNat_ofNat]
  rw [zeroTable, foldl_update_apply]
  simp only [hiff]

end FenwickOS.Mm
