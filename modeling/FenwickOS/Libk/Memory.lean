import FenwickOS.Lib.Arena
import FenwickOS.Lib.Words

/-! The bump allocator of lib/libk/src/memory.rs. Arithmetic on `usize` wraps, as in the
release build. -/
namespace FenwickOS.Libk
open Machine

/-- The statics of the module and the memory that `krealloc` copies. -/
structure Heap where
  heapStart : Word
  heapEnd : Word
  heapCurrent : Word
  heapInitialized : Bool
  mem : Word → Byte

def kheapInit (start size : Word) (h : Heap) : Heap :=
  { h with
    heapStart := start
    heapEnd := start + size
    heapCurrent := start
    heapInitialized := true }

def checkedAdd (a b : Word) : Option Word :=
  if a.toNat + b.toNat < 2 ^ 64 then some (a + b) else none

def isPowerOfTwo (a : Word) : Bool := decide (∃ k : Fin 64, a = BitVec.twoPow 64 k)

/-- The part that `kmalloc` and `kmalloc_aligned` share; `0` is the null pointer. -/
def bump (size align : Word) (h : Heap) : Word × Heap :=
  let current := h.heapCurrent
  let offset := (align - current % align) % align
  let aligned := current + offset
  match checkedAdd aligned size with
  | some e => if e ≤ h.heapEnd then (aligned, { h with heapCurrent := e }) else (0#64, h)
  | none => (0#64, h)

def kmalloc (size : Word) (h : Heap) : Word × Heap :=
  if !h.heapInitialized || h.heapStart == 0#64 then (0#64, h) else bump size 8#64 h

def kmallocAligned (size align : Word) (h : Heap) : Word × Heap :=
  if !h.heapInitialized || h.heapStart == 0#64 then (0#64, h)
  else if align < 1#64 || !isPowerOfTwo align then (0#64, h)
  else bump size align h

def kfree (_ptr : Word) (h : Heap) : Heap := h

/-- `core::ptr::copy_nonoverlapping`. -/
def copyNonoverlapping (src dst count : Word) (mem : Word → Byte) : Word → Byte :=
  fun a => if a - dst < count then mem (src + (a - dst)) else mem a

def krealloc (ptr oldSize newSize : Word) (h : Heap) : Word × Heap :=
  if ptr = 0#64 then kmalloc newSize h
  else if newSize = 0#64 then (0#64, kfree ptr h)
  else
    let (newPtr, h) := kmalloc newSize h
    if newPtr = 0#64 then (newPtr, h)
    else
      let copySize := if oldSize < newSize then oldSize else newSize
      (newPtr, kfree ptr { h with mem := copyNonoverlapping ptr newPtr copySize h.mem })

/-- A heap whose statics `kheap_init` has set to a range in the lower half. -/
structure Usable (h : Heap) : Prop where
  initialized : h.heapInitialized = true
  start_pos : 0 < h.heapStart.toNat
  start_le : h.heapStart.toNat ≤ h.heapCurrent.toNat
  le_end : h.heapCurrent.toNat ≤ h.heapEnd.toNat
  end_le : h.heapEnd.toNat ≤ 2 ^ 63

/-- `t` is `h` after the block of `size` bytes at `p` has been cut from it. -/
structure Cut (h : Heap) (size align p : Word) (t : Heap) : Prop where
  above : h.heapCurrent.toNat ≤ p.toNat
  aligned : align.toNat ∣ p.toNat
  ends : p.toNat + size.toNat = t.heapCurrent.toNat
  fits : t.heapCurrent.toNat ≤ h.heapEnd.toNat
  heapStart : t.heapStart = h.heapStart
  heapEnd : t.heapEnd = h.heapEnd
  initialized : t.heapInitialized = h.heapInitialized

variable {h t : Heap} {size align p : Word}

theorem isPowerOfTwo_eight : isPowerOfTwo 8#64 = true := by decide

theorem toNat_pos_of_isPowerOfTwo (ha : isPowerOfTwo align = true) :
    0 < align.toNat ∧ align.toNat ≤ 2 ^ 63 := by
  obtain ⟨k, rfl⟩ := of_decide_eq_true ha
  have hk : 2 ^ k.val ≤ 2 ^ 63 := Nat.pow_le_pow_right (by omega) (by omega)
  have hpos := Nat.two_pow_pos k.val
  rw [BitVec.toNat_twoPow, Nat.mod_eq_of_lt (by omega)]
  exact ⟨hpos, hk⟩

/-- The word arithmetic of `aligned` rounds up and wraps at most once. -/
theorem toNat_aligned_mod (ha : isPowerOfTwo align = true) (current : Word) :
    (current + (align - current % align) % align).toNat =
      alignUp current.toNat align.toNat % 2 ^ 64 := by
  have hmod := Nat.mod_lt current.toNat (toNat_pos_of_isPowerOfTwo ha).1
  have hrem : (current % align).toNat = current.toNat % align.toNat := BitVec.toNat_umod
  have hsub : (align - current % align).toNat =
      align.toNat - current.toNat % align.toNat := by
    rw [BitVec.toNat_sub_of_le (by rw [BitVec.le_def, hrem]; omega), hrem]
  rw [BitVec.toNat_add, BitVec.toNat_umod, hsub, alignUp]

theorem toNat_aligned (hu : Usable h) (ha : isPowerOfTwo align = true) :
    (h.heapCurrent + (align - h.heapCurrent % align) % align).toNat =
      alignUp h.heapCurrent.toNat align.toNat := by
  obtain ⟨hpos, hle⟩ := toNat_pos_of_isPowerOfTwo ha
  have hlt := alignUp_lt (c := h.heapCurrent.toNat) hpos
  have hcur := hu.le_end
  have hend := hu.end_le
  rw [toNat_aligned_mod ha]
  exact Nat.mod_eq_of_lt (by omega)

theorem checkedAdd_eq_some {a b e : Word} (hadd : checkedAdd a b = some e) :
    e.toNat = a.toNat + b.toNat := by
  unfold checkedAdd at hadd
  split at hadd
  · obtain rfl := Option.some.inj hadd
    rw [BitVec.toNat_add]
    omega
  · simp at hadd

theorem bump_cases (hu : Usable h) (ha : isPowerOfTwo align = true) :
    (∃ p t, bump size align h = (p, t) ∧ Cut h size align p t) ∨
    bump size align h = (0#64, h) := by
  have halign := toNat_aligned hu ha
  have hpos := (toNat_pos_of_isPowerOfTwo ha).1
  unfold bump
  dsimp only
  cases hadd : checkedAdd (h.heapCurrent + (align - h.heapCurrent % align) % align) size with
  | none => exact Or.inr rfl
  | some e =>
    have he := checkedAdd_eq_some hadd
    by_cases hle : e ≤ h.heapEnd
    · refine Or.inl ⟨_, _, if_pos hle, ?_⟩
      refine ⟨?_, ?_, he.symm, hle, rfl, rfl, rfl⟩
      · rw [halign]
        exact le_alignUp
      · rw [halign]
        exact dvd_alignUp hpos
    · exact Or.inr (if_neg hle)

theorem kmalloc_cases (hu : Usable h) :
    (∃ p t, kmalloc size h = (p, t) ∧ Cut h size 8#64 p t) ∨ kmalloc size h = (0#64, h) := by
  have hready : ¬ (!h.heapInitialized || h.heapStart == 0#64) = true := by
    have := hu.start_pos
    simp only [hu.initialized, Bool.not_true, Bool.false_or, beq_iff_eq]
    rintro hz
    simp [hz] at this
  rw [kmalloc, if_neg hready]
  exact bump_cases hu isPowerOfTwo_eight

theorem kmallocAligned_cases (hu : Usable h) :
    (isPowerOfTwo align = true ∧
      ∃ p t, kmallocAligned size align h = (p, t) ∧ Cut h size align p t) ∨
    kmallocAligned size align h = (0#64, h) := by
  unfold kmallocAligned
  split
  · exact Or.inr rfl
  · split
    · exact Or.inr rfl
    · rename_i _ hpow
      have ha : isPowerOfTwo align = true := by simp_all
      exact (bump_cases hu ha).imp_left fun hcut => ⟨ha, hcut⟩

/-- Copying the old contents touches none of the statics. -/
theorem krealloc_cases {ptr oldSize : Word} (hu : Usable h) :
    (∃ p t, krealloc ptr oldSize size h = (p, t) ∧ Cut h size 8#64 p t) ∨
    krealloc ptr oldSize size h = (0#64, h) := by
  unfold krealloc
  split
  · exact kmalloc_cases hu
  · split
    · exact Or.inr rfl
    · have hnew : (∃ p t, kmalloc size h = (p, t) ∧ Cut h size 8#64 p t) ∨
          kmalloc size h = (0#64, h) := kmalloc_cases hu
      rcases hnew with ⟨p, t, he, hcut⟩ | he
      · rw [he]
        dsimp only
        split
        · exact Or.inl ⟨p, t, rfl, hcut⟩
        · exact Or.inl ⟨p, _, rfl, { hcut with }⟩
      · rw [he]
        exact Or.inr (by simp)

theorem Cut.usable (hu : Usable h) (hc : Cut h size align p t) : Usable t where
  initialized := hc.initialized.trans hu.initialized
  start_pos := hc.heapStart ▸ hu.start_pos
  start_le := by
    have := hu.start_le
    have := hc.above
    have := hc.ends
    rw [hc.heapStart]
    omega
  le_end := hc.heapEnd ▸ hc.fits
  end_le := hc.heapEnd ▸ hu.end_le

theorem Cut.ne_zero (hu : Usable h) (hc : Cut h size align p t) : p ≠ 0#64 := by
  rintro rfl
  have hpos := hu.start_pos
  have hlow := hu.start_le
  have habove := hc.above
  simp only [BitVec.toNat_ofNat, Nat.zero_mod] at habove
  omega

end FenwickOS.Libk
