import FenwickOS.Libk.HeapSafety
import FenwickOS.Mm.Start

/-! What the kernel gets from `kmalloc` after `mm_start`. -/
namespace FenwickOS.Mm
open Machine Libk

inductive AllocOp
  | kmalloc (n : Word)
  | kmallocAligned (n a : Word) (ha : isPowerOfTwo a = true)

def AllocOp.op : AllocOp → HeapOp
  | .kmalloc n => .kmalloc n
  | .kmallocAligned n a _ => .kmallocAligned n a

/-- Some part of the heap's region that no block has taken holds `size` bytes at the alignment. -/
def Fits (taken : List Block) (size align : Nat) : Prop :=
  ∃ p, align ∣ p ∧ heapStart.toNat ≤ p ∧ p + size ≤ heapStart.toNat + heapSize.toNat ∧
    ∀ b ∈ taken, Disjoint (Set.Ico p (p + size)) (Set.Ico b.bounds.1 b.bounds.2)

/-- The call returns null only for lack of room, and otherwise a block of the region. -/
def Serves (r : HeapRun) (op : HeapOp) : Prop :=
  if (op.call r.heap).1 = 0#64 then ¬ Fits r.results op.size.toNat op.align.toNat
  else heapStart.toNat ≤ (op.call r.heap).1.toNat ∧
    (op.call r.heap).1.toNat + op.size.toNat ≤ heapStart.toNat + heapSize.toNat

def HeapRun.start (kernelDir : Word) (s : MemoryManager) : HeapRun :=
  ⟨(mmStart kernelDir s).libk, []⟩

def TooLarge (op : HeapOp) : Prop :=
  heapStart.toNat + heapSize.toNat < alignUp heapStart.toNat op.align.toNat + op.size.toNat

instance (op : HeapOp) : Decidable (TooLarge op) := by
  unfold TooLarge
  infer_instance

variable {kd : Word} {s : MemoryManager} {r : HeapRun} {size align : Nat}

theorem fits_nil (ha : 0 < align) : Fits [] size align ↔
    alignUp heapStart.toNat align + size ≤ heapStart.toNat + heapSize.toNat := by
  constructor
  · rintro ⟨p, hdvd, hp, hend, -⟩
    have := alignUp_le ha hdvd hp
    omega
  · intro h
    exact ⟨_, dvd_alignUp ha, le_alignUp, h, by simp⟩

theorem AllocOp.align_pos (op : AllocOp) : 0 < op.op.align.toNat := by
  cases op with
  | kmalloc n => exact (by decide : 0 < (8#64).toNat)
  | kmallocAligned n a ha => exact (toNat_pos_of_isPowerOfTwo ha).1

theorem call_uninitialized (h : r.heap.heapInitialized = false) (op : AllocOp) :
    op.op.call r.heap = (0#64, r.heap) := by
  cases op with
  | kmalloc n => simp [AllocOp.op, HeapOp.call, Libk.kmalloc, h]
  | kmallocAligned n a ha => simp [AllocOp.op, HeapOp.call, Libk.kmallocAligned, h]

theorem serves_iff (h : r.heap.heapInitialized = false) (hempty : r.results = []) (op : AllocOp) :
    Serves r op.op ↔ TooLarge op.op := by
  rw [Serves, call_uninitialized h, if_pos rfl, hempty, fits_nil op.align_pos, TooLarge]
  omega

/-- After `mm_start`, which never reaches `kheap_init`, the requests of a run are served exactly
if all are too large for the region. -/
theorem served_iff (kd : Word) (s : MemoryManager) (h : s.libk.heapInitialized = false)
    (ops : List AllocOp) :
    Allowed heapStep Serves (HeapRun.start kd s) (ops.map AllocOp.op) ↔
      ∀ op ∈ ops, TooLarge op.op := by
  have hinit : (HeapRun.start kd s).heap.heapInitialized = false := by
    rw [HeapRun.start, libk_mmStart, h]
  have hempty : (HeapRun.start kd s).results = [] := rfl
  generalize HeapRun.start kd s = r at hinit hempty
  induction ops with
  | nil => simp [Allowed]
  | cons op ops ih =>
    have hstep : heapStep r op.op = r := by simp [heapStep, call_uninitialized hinit]
    rw [List.map_cons, Allowed, hstep, serves_iff hinit hempty, List.forall_mem_cons]
    exact and_congr_right fun _ => ih

/-- A request for one more byte than the region has. -/
theorem served_too_large :
    Allowed heapStep Serves (HeapRun.start 0x180000#64 MemoryManager.boot)
      ([.kmalloc 0x800001#64].map AllocOp.op) :=
  (served_iff _ _ rfl _).mpr (by decide)

/-- A single byte of the empty region is refused. -/
theorem not_served_one_byte :
    ¬ Allowed heapStep Serves (HeapRun.start 0x180000#64 MemoryManager.boot)
      ([.kmalloc 1#64].map AllocOp.op) := by
  have hinit : (HeapRun.start 0x180000#64 MemoryManager.boot).heap.heapInitialized = false := by
    rw [HeapRun.start, libk_mmStart]
    rfl
  rintro ⟨h, -⟩
  rw [serves_iff hinit rfl] at h
  exact absurd h (by decide)

end FenwickOS.Mm
