import FenwickOS.Lib.Bitmap

/-! The physical page pool of kernel/mm/paging.c: one bit a page, set when the page is free. -/
namespace FenwickOS.Mm
open Machine

abbrev pageSize : Nat := 4096

/-- `MAX_PAGES`, 16384: eight pages for each byte of `page_bitmap`. -/
abbrev maxPages : Nat := 8 * 2048

abbrev maxPhysPages : Nat := 262144

abbrev ramSizeGb : Nat := 1

structure Page where
  physAddr : Word
  present : Byte
  writable : Byte
  user : Byte
  deriving DecidableEq

structure Pool where
  pages : Fin maxPages → Page
  pageBitmap : Bitmap 2048

def pageAddr (i : Fin maxPages) : Word := BitVec.ofNat 64 (i.val * pageSize)

def mapEnd : Nat :=
  if ramSizeGb * 1024 * 1024 * 1024 > maxPhysPages * pageSize then maxPhysPages * pageSize
  else ramSizeGb * 1024 * 1024 * 1024

def Pool.setPresent (s : Pool) (i : Fin maxPages) (v : Byte) : Fin maxPages → Page :=
  Function.update s.pages i { s.pages i with present := v }

/-- The body of the loop over `p` in `mm_init`. -/
def markFree (s : Pool) (p : Nat) : Pool :=
  if h : p / pageSize < maxPages then
    { pages := s.setPresent ⟨p / pageSize, h⟩ 1#8
      pageBitmap := s.pageBitmap.set ⟨p / pageSize, h⟩ }
  else s

def mmInit : Pool :=
  (List.range' 0x200000 ((mapEnd - 0x200000) / pageSize) pageSize).foldl markFree
    { pages := fun i => ⟨pageAddr i, 0#8, 0#8, 0#8⟩
      pageBitmap := fun _ => 0#8 }

def mmAllocPage (s : Pool) : Word × Pool :=
  match s.pageBitmap.first with
  | some i => (pageAddr i, { pages := s.setPresent i 1#8, pageBitmap := s.pageBitmap.clear i })
  | none => (0#64, s)

/-- `none` is an access outside `page_bitmap` and `pages`: `idx` is a signed int, so a page
number whose low 32 bits are negative passes the only check. -/
def mmFreePage (phys : Word) (s : Pool) : Option Pool :=
  let idx := ((phys / BitVec.ofNat 64 pageSize).setWidth 32).toInt
  if idx ≥ maxPages then some s
  else if h : 0 ≤ idx ∧ idx.toNat < maxPages then
    some { pages := s.setPresent ⟨idx.toNat, h.2⟩ 0#8
           pageBitmap := s.pageBitmap.set ⟨idx.toNat, h.2⟩ }
  else none

variable {s : Pool} {i j : Fin maxPages}

theorem lt_maxPages (i : Fin maxPages) : i.val < 16384 := i.isLt

theorem pageAddr_toNat (i : Fin maxPages) : (pageAddr i).toNat = i.val * 4096 := by
  have := lt_maxPages i
  rw [pageAddr, BitVec.toNat_ofNat, pageSize]
  omega

theorem pageAddr_injective : Function.Injective pageAddr := by
  intro i j h
  have := congrArg BitVec.toNat h
  simp only [pageAddr_toNat] at this
  exact Fin.ext (by omega)

theorem pageAddr_eq_zero : pageAddr i = 0#64 ↔ i.val = 0 := by
  rw [← BitVec.toNat_inj, pageAddr_toNat]
  change i.val * 4096 = 0 ↔ i.val = 0
  omega

theorem test_markFree (s : Pool) (p : Nat) (i : Fin maxPages) :
    (markFree s p).pageBitmap.test i = (decide (p / 4096 = i.val) || s.pageBitmap.test i) := by
  have := lt_maxPages i
  unfold markFree
  split
  · simp [Bitmap.test_set, Fin.ext_iff, eq_comm]
  · rename_i h
    have hne : p / 4096 ≠ i.val := by
      unfold pageSize maxPages at h
      omega
    simp [hne]

theorem test_foldl_markFree (ps : List Nat) (s : Pool) (i : Fin maxPages) :
    (ps.foldl markFree s).pageBitmap.test i = true ↔
      (∃ p ∈ ps, p / 4096 = i.val) ∨ s.pageBitmap.test i = true := by
  induction ps generalizing s with
  | nil => simp
  | cons p ps ih =>
    rw [List.foldl_cons, ih, test_markFree]
    simp only [List.mem_cons, Bool.or_eq_true, decide_eq_true_eq, exists_eq_or_imp]
    rw [← or_assoc, or_comm (a := ∃ p ∈ ps, _)]

/-- The addresses that the loop of `mm_init` visits: 2 MiB up to the end of the map. -/
theorem mem_initPages (p : Nat) :
    p ∈ List.range' 0x200000 ((mapEnd - 0x200000) / pageSize) pageSize ↔
      ∃ k < 261632, p = 0x200000 + 4096 * k := by
  have hcount : (mapEnd - 0x200000) / pageSize = 261632 := by decide
  rw [hcount, List.mem_range']

/-- `mm_init` frees exactly the pages from 2 MiB up. -/
theorem test_mmInit (i : Fin maxPages) : mmInit.pageBitmap.test i = true ↔ 512 ≤ i.val := by
  have hlt := lt_maxPages i
  rw [mmInit, test_foldl_markFree]
  simp only [mem_initPages, Bitmap.test_empty, Bool.false_eq_true, or_false]
  constructor
  · rintro ⟨p, ⟨k, _, rfl⟩, hk⟩
    omega
  · intro h
    have hk : i.val * 4096 = 0x200000 + 4096 * (i.val - 512) := by omega
    exact ⟨i.val * 4096, ⟨i.val - 512, by omega, hk⟩, by omega⟩

-- unfolding the 261632 rounds of the loop would not end; `test_mmInit` says what they do
attribute [irreducible] mmInit

/-- What one allocation does: it takes the lowest free page, or finds none. -/
theorem mmAllocPage_cases (s : Pool) :
    (∃ i, s.pageBitmap.test i = true ∧ (∀ j < i, s.pageBitmap.test j = false) ∧
      mmAllocPage s = (pageAddr i,
        { pages := s.setPresent i 1#8, pageBitmap := s.pageBitmap.clear i })) ∨
    ((∀ i, s.pageBitmap.test i = false) ∧ mmAllocPage s = (0#64, s)) := by
  rcases Bitmap.first_cases s.pageBitmap with ⟨i, hf, hi, hlow⟩ | ⟨hf, hnone⟩
  · exact Or.inl ⟨i, hi, hlow, by rw [mmAllocPage, hf]⟩
  · exact Or.inr ⟨hnone, by rw [mmAllocPage, hf]⟩

theorem taken_mono {t : Pool}
    (h : ∀ i, t.pageBitmap.test i = true → s.pageBitmap.test i = true)
    (hi : s.pageBitmap.test i = false) : t.pageBitmap.test i = false := by
  by_contra hfree
  rw [h i (Bool.not_eq_false _ ▸ hfree)] at hi
  cases hi

theorem pageIndex_pageAddr (i : Fin maxPages) :
    ((pageAddr i / BitVec.ofNat 64 pageSize).setWidth 32).toInt = (i.val : Int) := by
  have hlt := lt_maxPages i
  have hnat : ((pageAddr i / BitVec.ofNat 64 pageSize).setWidth 32).toNat = i.val := by
    have hsize : (BitVec.ofNat 64 pageSize).toNat = 4096 := rfl
    rw [BitVec.toNat_setWidth, BitVec.toNat_udiv, pageAddr_toNat, hsize]
    omega
  rw [BitVec.toInt_eq_toNat_of_lt (by omega), hnat]

/-- Freeing a page of the pool only sets its bit and drops its present mark. -/
theorem mmFreePage_pageAddr (s : Pool) (i : Fin maxPages) :
    mmFreePage (pageAddr i) s = some
      { pages := s.setPresent i 0#8, pageBitmap := s.pageBitmap.set i } := by
  have hlt := i.isLt
  simp only [mmFreePage, pageIndex_pageAddr]
  rw [if_neg (by omega), dif_pos ⟨by omega, by omega⟩]
  rfl

end FenwickOS.Mm
