import FenwickOS.Libk.HeapSafety

/-! What `krealloc` of lib/libk/src/memory.rs does to memory. -/
namespace FenwickOS.Libk
open Machine

/-- A call of the allocator, or anything that its callers do to memory. -/
inductive HeapEvent
  | call (op : HeapOp)
  | store (mem : Word → Byte)

def heapEventStep (r : HeapRun) : HeapEvent → HeapRun
  | .call op => heapStep r op
  | .store mem => { r with heap := { r.heap with mem := mem } }

/-- `count` bytes from `src` have come to `dst`, and no other byte has changed. -/
structure Copied (src dst : Word) (count : Nat) (mem mem' : Word → Byte) : Prop where
  copied : ∀ i < count, mem' (dst + BitVec.ofNat 64 i) = mem (src + BitVec.ofNat 64 i)
  frame : ∀ a : Word, a.toNat < dst.toNat ∨ dst.toNat + count ≤ a.toNat → mem' a = mem a

/-- What `krealloc` of the block `b` does: a new block apart from all those handed out gets the old
contents as far as they fit, or it returns null and changes nothing. -/
structure Reallocates (r : HeapRun) (b : Block) (newSize newPtr : Word) (t : Heap) : Prop where
  apart : newPtr ≠ 0#64 → ∀ c ∈ r.results,
    Disjoint (Set.Ico newPtr.toNat (newPtr.toNat + newSize.toNat)) (Set.Ico c.bounds.1 c.bounds.2)
  copied : newPtr ≠ 0#64 →
    Copied b.ptr newPtr (min b.size.toNat newSize.toNat) r.heap.mem t.mem
  null : newPtr = 0#64 → t = r.heap

variable {start size src dst count newSize p : Word} {h t : Heap} {r : HeapRun} {b c : Block}
  {A : Arena start.toNat (start.toNat + size.toNat)}

theorem copied_copyNonoverlapping (hdst : dst.toNat + count.toNat ≤ 2 ^ 64) (mem : Word → Byte) :
    Copied src dst count.toNat mem (copyNonoverlapping src dst count mem) := by
  constructor
  · intro i hi
    have hsub : dst + BitVec.ofNat 64 i - dst = BitVec.ofNat 64 i := by
      rw [BitVec.add_comm, BitVec.add_sub_cancel]
    have hlt : BitVec.ofNat 64 i < count := by
      have hcount := count.isLt
      rw [BitVec.lt_def, BitVec.toNat_ofNat]
      omega
    rw [copyNonoverlapping, hsub, if_pos hlt]
  · intro a ha
    have hlt : ¬ a - dst < count := by
      have hcount := count.isLt
      have haddr := a.isLt
      rw [BitVec.lt_def, BitVec.toNat_sub]
      omega
    rw [copyNonoverlapping, if_neg hlt]

theorem krealloc_block (hu : Usable h) (hb : b.ptr ≠ 0#64) (hnew : newSize ≠ 0#64) :
    (∃ p t, kmalloc newSize h = (p, t) ∧ Cut h newSize 8#64 p t ∧
      krealloc b.ptr b.size newSize h =
        (p, { t with
              mem := copyNonoverlapping b.ptr p (if b.size < newSize then b.size else newSize)
                t.mem })) ∨
    krealloc b.ptr b.size newSize h = (0#64, h) := by
  have hcases : (∃ p t, kmalloc newSize h = (p, t) ∧ Cut h newSize 8#64 p t) ∨
      kmalloc newSize h = (0#64, h) := kmalloc_cases hu
  rw [krealloc, if_neg hb, if_neg hnew]
  rcases hcases with ⟨p, t, he, hcut⟩ | he
  · refine Or.inl ⟨p, t, he, hcut, ?_⟩
    rw [he]
    dsimp only
    rw [if_neg (hcut.ne_zero hu)]
    rfl
  · refine Or.inr ?_
    rw [he]
    simp

theorem mem_kmalloc (size : Word) (h : Heap) : (kmalloc size h).2.mem = h.mem := by
  unfold kmalloc bump
  dsimp only
  split
  · rfl
  · split
    · split <;> rfl
    · rfl

/-- Writing to memory changes nothing that the allocator looks at. -/
theorem represents_event (hr : Represents start size r A) (event : HeapEvent) :
    ∃ A' : Arena start.toNat (start.toNat + size.toNat),
      Represents start size (heapEventStep r event) A' := by
  cases event with
  | call op => exact represents_step hr op
  | store mem =>
    obtain ⟨hinit, hpos, hstart, hend, hle⟩ := hr.usable
    exact ⟨A, ⟨hinit, hpos, hstart, hend, hle⟩, hr.heapStart, hr.heapEnd, hr.cursor, hr.blocks,
      hr.aligned⟩

theorem Represents.inside (hr : Represents start size r A) (hb : b ∈ r.results) :
    start.toNat ≤ b.bounds.1 ∧ b.bounds.2 ≤ r.heap.heapCurrent.toNat := by
  rw [hr.cursor]
  exact A.inside b.bounds (hr.blocks ▸ List.mem_map_of_mem hb)

theorem toNat_copySize (old new : Word) :
    (if old < new then old else new).toNat = min old.toNat new.toNat := by
  by_cases hlt : old < new
  · rw [if_pos hlt]
    exact (Nat.min_eq_left (Nat.le_of_lt hlt)).symm
  · rw [if_neg hlt]
    exact (Nat.min_eq_right (Nat.le_of_not_lt hlt)).symm

theorem Represents.reallocates (hr : Represents start size r A) (hb : b ∈ r.results)
    (hnew : newSize ≠ 0#64) :
    Reallocates r b newSize (krealloc b.ptr b.size newSize r.heap).1
      (krealloc b.ptr b.size newSize r.heap).2 := by
  have hptr : b.ptr ≠ 0#64 := by
    intro hz
    have hstart := (hr.inside hb).1
    have hpos := hr.usable.start_pos
    rw [hr.heapStart] at hpos
    rw [Block.bounds, hz] at hstart
    simp at hstart
    omega
  rcases krealloc_block hr.usable hptr hnew with ⟨p, t, hkmalloc, hcut, hcall⟩ | hcall
  · rw [hcall]
    dsimp only
    have habove := hcut.above
    have hends := hcut.ends
    have hcurrent := t.heapCurrent.isLt
    have hmem : t.mem = r.heap.mem := by rw [← mem_kmalloc newSize r.heap, hkmalloc]
    refine ⟨fun _ c hc => ?_, fun _ => ?_, fun hnull => (hcut.ne_zero hr.usable hnull).elim⟩
    · have hin := (hr.inside hc).2
      refine Set.disjoint_left.mpr fun x hx hx' => ?_
      exact absurd (Nat.lt_of_lt_of_le hx'.2 (Nat.le_trans hin habove)) (Nat.not_lt.mpr hx.1)
    · have hcount := toNat_copySize b.size newSize
      rw [← hmem, ← hcount]
      exact copied_copyNonoverlapping (by omega) t.mem
  · rw [hcall]
    exact ⟨fun hne => (hne rfl).elim, fun hne => (hne rfl).elim, fun _ => rfl⟩

/-- In every reachable heap, whatever memory holds, `krealloc` moves a block's contents to a block
of their own or changes nothing. -/
theorem krealloc_keeps (h : Heap) (hpos : 0#64 < start) (hend : start.toNat + size.toNat ≤ 2 ^ 63)
    (events : List HeapEvent) :
    let r := run heapEventStep ⟨kheapInit start size h, []⟩ events
    ∀ b ∈ r.results, ∀ newSize ≠ 0#64,
      Reallocates r b newSize (krealloc b.ptr b.size newSize r.heap).1
        (krealloc b.ptr b.size newSize r.heap).2 := by
  intro r b hb newSize hnew
  obtain ⟨A, hr⟩ := run_invariant
    (P := fun r => ∃ A : Arena start.toNat (start.toNat + size.toNat), Represents start size r A)
    (fun _ event ⟨_, hr⟩ => represents_event hr event) ⟨_, represents_init hpos hend h⟩ events
  exact hr.reallocates hb hnew

/-- A block of four bytes grows to eight in a heap of 256 bytes. -/
theorem krealloc_keeps_grow :
    let h : Heap := ⟨0#64, 0#64, 0#64, false, fun _ => 0#8⟩
    let r := run heapEventStep ⟨kheapInit 0x1000#64 0x100#64 h, []⟩
      [.call (.kmalloc 4#64), .store fun a => a.setWidth 8]
    let result := krealloc 0x1000#64 4#64 8#64 r.heap
    result.1 = 0x1008#64 ∧ Copied 0x1000#64 result.1 4 r.heap.mem result.2.mem := by
  intro h r result
  have hp : result.1 = 0x1008#64 := by decide +kernel
  have hresults : r.results = [⟨0x1000#64, 4#64, 8#64⟩] := by
    simp [r, h, heapEventStep, heapStep, HeapOp.call, kmalloc, bump, kheapInit, checkedAdd,
      HeapOp.size, HeapOp.align]
  have hrealloc : Reallocates r ⟨0x1000#64, 4#64, 8#64⟩ 8#64 result.1 result.2 :=
    krealloc_keeps h (by decide) (by decide) [.call (.kmalloc 4#64), .store fun a => a.setWidth 8]
      ⟨0x1000#64, 4#64, 8#64⟩ (hresults ▸ List.mem_singleton_self _) 8#64 (by decide)
  have hne : result.1 ≠ 0#64 := by
    rw [hp]
    decide
  exact ⟨hp, hrealloc.copied hne⟩

end FenwickOS.Libk
