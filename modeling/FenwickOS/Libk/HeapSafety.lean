import FenwickOS.Lib.Runs
import FenwickOS.Libk.Memory

/-! Blocks handed out by the bump allocator over whole runs. -/
namespace FenwickOS.Libk
open Machine

inductive HeapOp
  | kmalloc (size : Word)
  | kmallocAligned (size align : Word)
  | kfree (ptr : Word)
  | krealloc (ptr oldSize newSize : Word)

/-- The result of a call and the heap after it; `kfree` returns nothing. -/
def HeapOp.call (h : Heap) : HeapOp → Word × Heap
  | .kmalloc size => Libk.kmalloc size h
  | .kmallocAligned size align => Libk.kmallocAligned size align h
  | .kfree ptr => (0#64, Libk.kfree ptr h)
  | .krealloc ptr oldSize newSize => Libk.krealloc ptr oldSize newSize h

def HeapOp.size : HeapOp → Word
  | .kmalloc size => size
  | .kmallocAligned size _ => size
  | .kfree _ => 0#64
  | .krealloc _ _ newSize => newSize

def HeapOp.align : HeapOp → Word
  | .kmallocAligned _ align => align
  | _ => 8#64

structure Block where
  ptr : Word
  size : Word
  align : Word

def Block.bounds (b : Block) : Nat × Nat := (b.ptr.toNat, b.ptr.toNat + b.size.toNat)

structure HeapRun where
  heap : Heap
  results : List Block

def heapStep (r : HeapRun) (op : HeapOp) : HeapRun :=
  let (p, h) := op.call r.heap
  ⟨h, if p = 0#64 then r.results else ⟨p, op.size, op.align⟩ :: r.results⟩

/-- The heap's range as an arena: the cursor is `HEAP_CURRENT`, the blocks are the results. -/
structure Represents (start size : Word) (r : HeapRun)
    (A : Arena start.toNat (start.toNat + size.toNat)) : Prop where
  usable : Usable r.heap
  heapStart : r.heap.heapStart = start
  heapEnd : r.heap.heapEnd.toNat = start.toNat + size.toNat
  cursor : r.heap.heapCurrent.toNat = A.cursor
  blocks : r.results.map Block.bounds = A.blocks
  aligned : ∀ b ∈ r.results, isPowerOfTwo b.align = true ∧ b.align.toNat ∣ b.ptr.toNat

variable {start size p : Word} {h t : Heap} {r : HeapRun} {op : HeapOp}
  {A : Arena start.toNat (start.toNat + size.toNat)}

/-- What any call does: it cuts a block for its request, or changes nothing and returns null. -/
theorem call_cases (hu : Usable h) (op : HeapOp) :
    (isPowerOfTwo op.align = true ∧
      ∃ p t, op.call h = (p, t) ∧ Cut h op.size op.align p t) ∨
    op.call h = (0#64, h) := by
  cases op with
  | kmalloc size => exact (kmalloc_cases hu).imp_left fun hcut => ⟨isPowerOfTwo_eight, hcut⟩
  | kmallocAligned size align => exact kmallocAligned_cases hu
  | kfree ptr => exact Or.inr rfl
  | krealloc ptr oldSize newSize =>
    exact (krealloc_cases hu).imp_left fun hcut => ⟨isPowerOfTwo_eight, hcut⟩

theorem represents_init (hpos : 0#64 < start) (hend : start.toNat + size.toNat ≤ 2 ^ 63)
    (h : Heap) :
    Represents start size ⟨kheapInit start size h, []⟩ (Arena.empty (Nat.le_add_right _ _)) := by
  have hsum : (start + size).toNat = start.toNat + size.toNat := by
    rw [BitVec.toNat_add]
    omega
  refine ⟨⟨rfl, ?_, Nat.le_refl _, ?_, ?_⟩, rfl, hsum, rfl, rfl, by simp⟩
  · exact hpos
  · exact hsum ▸ Nat.le_add_right _ _
  · exact hsum ▸ hend

theorem represents_step (hr : Represents start size r A) (op : HeapOp) :
    ∃ A' : Arena start.toNat (start.toNat + size.toNat),
      Represents start size (heapStep r op) A' := by
  rcases call_cases hr.usable op with ⟨hpow, p, t, hcall, hcut⟩ | hcall
  · have hne : p ≠ 0#64 := by
      rintro rfl
      have := hr.usable.start_pos
      have := hr.usable.start_le
      have := hcut.above
      simp only [BitVec.toNat_ofNat, Nat.zero_mod] at this
      omega
    have hfits := hcut.fits
    have hends := hcut.ends
    rw [hr.heapEnd] at hfits
    have hp : A.cursor ≤ p.toNat := hr.cursor ▸ hcut.above
    refine ⟨A.push p.toNat (p.toNat + op.size.toNat) hp (Nat.le_add_right _ _) (by omega), ?_⟩
    have hstep : heapStep r op = ⟨t, ⟨p, op.size, op.align⟩ :: r.results⟩ := by
      simp [heapStep, hcall, hne]
    rw [hstep]
    refine ⟨hcut.usable hr.usable, hcut.heapStart.trans hr.heapStart, ?_, hends.symm, ?_, ?_⟩
    · rw [hcut.heapEnd, hr.heapEnd]
    · rw [List.map_cons, hr.blocks]
      rfl
    · intro b hb
      rcases List.mem_cons.mp hb with rfl | hb
      · exact ⟨hpow, hcut.aligned⟩
      · exact hr.aligned b hb
  · have hstep : heapStep r op = r := by simp [heapStep, hcall]
    rw [hstep]
    exact ⟨A, hr⟩

theorem represents_run (hr : Represents start size r A) (ops : List HeapOp) :
    ∃ A' : Arena start.toNat (start.toNat + size.toNat),
      Represents start size (run heapStep r ops) A' :=
  run_invariant
    (P := fun r => ∃ A : Arena start.toNat (start.toNat + size.toNat), Represents start size r A)
    (fun _ op ⟨_, hr⟩ => represents_step hr op) ⟨A, hr⟩ ops

/-- The heap hands out aligned, disjoint blocks of its own range, whatever the calls. -/
theorem heap_safety (h : Heap) (hpos : 0#64 < start)
    (hend : start.toNat + size.toNat ≤ 2 ^ 63) (ops : List HeapOp) :
    let r := run heapStep ⟨kheapInit start size h, []⟩ ops
    (∀ b ∈ r.results, start.toNat ≤ b.ptr.toNat ∧
      b.ptr.toNat + b.size.toNat ≤ start.toNat + size.toNat ∧
      isPowerOfTwo b.align = true ∧ b.align.toNat ∣ b.ptr.toNat) ∧
    (r.results.Pairwise fun b c => Disjoint (Set.Ico b.bounds.1 b.bounds.2)
      (Set.Ico c.bounds.1 c.bounds.2)) ∧
    (r.heap.heapStart = start ∧ r.heap.heapEnd = start + size) ∧
    (r.heap.heapStart ≤ r.heap.heapCurrent ∧ r.heap.heapCurrent ≤ r.heap.heapEnd) ∧
    ∀ op : HeapOp, r.heap.heapCurrent ≤ (op.call r.heap).2.heapCurrent ∧
      ((op.call r.heap).1 = 0#64 → (op.call r.heap).2.heapCurrent = r.heap.heapCurrent) := by
  intro r
  obtain ⟨A, hr⟩ := represents_run (represents_init hpos hend h) ops
  change Represents start size r A at hr
  refine ⟨fun b hb => ?_, ?_, ⟨hr.heapStart, ?_⟩, ⟨hr.usable.start_le, hr.usable.le_end⟩,
    fun op => ?_⟩
  · have hmem : b.bounds ∈ A.blocks := hr.blocks ▸ List.mem_map_of_mem hb
    obtain ⟨hlo, hhi⟩ := A.inside b.bounds hmem
    exact ⟨hlo, hhi.trans A.le_hi, hr.aligned b hb⟩
  · have hdisj := A.disjoint
    rw [← hr.blocks, List.pairwise_map] at hdisj
    exact hdisj
  · apply BitVec.eq_of_toNat_eq
    rw [hr.heapEnd, BitVec.toNat_add]
    omega
  · rcases call_cases hr.usable op with ⟨_, p, t, hcall, hcut⟩ | hcall
    · have hgrows : r.heap.heapCurrent.toNat ≤ t.heapCurrent.toNat := by
        have := hcut.above
        have := hcut.ends
        omega
      rw [hcall]
      exact ⟨hgrows, fun hz => (hcut.ne_zero hr.usable hz).elim⟩
    · rw [hcall]
      exact ⟨BitVec.le_refl _, fun _ => rfl⟩

/-- Two requests to a heap of 256 bytes, the second on a 32-byte boundary. -/
theorem heap_safety_two_blocks :
    let r := run heapStep ⟨kheapInit 0x1000#64 0x100#64 ⟨0#64, 0#64, 0#64, false, fun _ => 0#8⟩, []⟩
      [.kmalloc 5#64, .kmallocAligned 16#64 32#64]
    r.results.map Block.bounds = [(0x1020, 0x1030), (0x1000, 0x1005)] ∧
    r.results.Pairwise fun b c => Disjoint (Set.Ico b.bounds.1 b.bounds.2)
      (Set.Ico c.bounds.1 c.bounds.2) := by
  refine ⟨by decide +kernel, ?_⟩
  exact (heap_safety ⟨0#64, 0#64, 0#64, false, fun _ => 0#8⟩ (by decide) (by decide)
    [.kmalloc 5#64, .kmallocAligned 16#64 32#64]).2.1

end FenwickOS.Libk
