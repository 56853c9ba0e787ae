import FenwickOS.Mm.PagingRefinement
import FenwickOS.Mm.Start
import Mathlib.Data.List.Nodup

/-! Which page tables the processor walks: those of setup_paging in bootloader.asm, or those that
kernel/mm/paging.c edits. -/
namespace FenwickOS.Mm
open Machine

/-- The state of paging.c and the processor's root register. -/
structure PagingState where
  mm : MmState
  cr3 : Word

/-- `pml4_table`, `pdpt_table` and `pd_table` follow each other in `.bss`. -/
def pdptTable (pml4Table : Word) : Word := pml4Table + 0x1000#64
def pdTable (pml4Table : Word) : Word := pml4Table + 0x2000#64

/-- The entries are stored in their lower halves; the upper halves are zero like all of `.bss`. -/
def setupPaging (pml4Table : Word) (s : PagingState) : PagingState :=
  let mem := Function.update s.mm.mem pml4Table (pdptTable pml4Table ||| 0b11#64)
  let mem := Function.update mem (pdptTable pml4Table) (pdTable pml4Table ||| 0b11#64)
  let mem := (List.range 512).foldl
    (fun mem i => Function.update mem (entryAddr (pdTable pml4Table) (BitVec.ofNat 64 i))
      (BitVec.ofNat 64 (0x200000 * i) ||| 0b10000011#64)) mem
  { mm := { s.mm with mem := mem }, cr3 := pml4Table }

def pagingSwitchDirectory (dir : Word) (s : PagingState) : PagingState :=
  { mm := { s.mm with currentDir := dir }, cr3 := dir }

inductive PagingOp
  | mm (op : MmOp)
  | switchDirectory (dir : Word)

def pagingStep (s : PagingState) : PagingOp → PagingState
  | .mm op => { s with mm := mmStep s.mm op }
  | .switchDirectory dir => pagingSwitchDirectory dir s

/-! ### The processor's walk -/

def physFrame (e : Word) : Word := e &&& 0x000FFFFFFFFFF000#64

def isHuge (e : Word) : Bool := e &&& 0x80#64 != 0

/-- The address that the processor translates `virt` to when its root register holds `cr3`. -/
def mmuTranslate (mem : Word → Word) (cr3 virt : Word) : Option Word :=
  let pml4e := mem (entryAddr (physFrame cr3) (pml4Idx virt))
  if !isPresent pml4e then none
  else
    let pdpte := mem (entryAddr (physFrame pml4e) (pdptIdx virt))
    if !isPresent pdpte then none
    else if isHuge pdpte then some (pdpte &&& 0x000FFFFFC0000000#64 ||| virt &&& 0x3FFFFFFF#64)
    else
      let pde := mem (entryAddr (physFrame pdpte) (pdIdx virt))
      if !isPresent pde then none
      else if isHuge pde then some (pde &&& 0x000FFFFFFFE00000#64 ||| virt &&& 0x1FFFFF#64)
      else
        let pte := mem (entryAddr (physFrame pde) (ptIdx virt))
        if !isPresent pte then none else some (physFrame pte ||| virt &&& 0xFFF#64)

def isWritable (e : Word) : Bool := e &&& pageWritable != 0

/-- The same walk with the write permission, which every entry on the way must grant. -/
def mmuWalk (mem : Word → Word) (cr3 virt : Word) : Option (Word × Bool) :=
  let pml4e := mem (entryAddr (physFrame cr3) (pml4Idx virt))
  if !isPresent pml4e then none
  else
    let pdpte := mem (entryAddr (physFrame pml4e) (pdptIdx virt))
    let writable := isWritable pml4e && isWritable pdpte
    if !isPresent pdpte then none
    else if isHuge pdpte then
      some (pdpte &&& 0x000FFFFFC0000000#64 ||| virt &&& 0x3FFFFFFF#64, writable)
    else
      let pde := mem (entryAddr (physFrame pdpte) (pdIdx virt))
      let writable := writable && isWritable pde
      if !isPresent pde then none
      else if isHuge pde then
        some (pde &&& 0x000FFFFFFFE00000#64 ||| virt &&& 0x1FFFFF#64, writable)
      else
        let pte := mem (entryAddr (physFrame pde) (ptIdx virt))
        if !isPresent pte then none
        else some (physFrame pte ||| virt &&& 0xFFF#64, writable && isWritable pte)

def PagingState.translate (s : PagingState) (virt : Word) : Option Word :=
  mmuTranslate s.mm.mem s.cr3 virt

/-- The tables that the kernel edits are the ones the processor walks, and the next call that
installs or clears a leaf takes effect. -/
structure Active (s : PagingState) : Prop where
  root : s.cr3 = s.mm.currentDir
  maps : ∀ phys virt flags, succeeds s.mm (.mapPage phys virt flags) = true →
    (pagingStep s (.mm (.mapPage phys virt flags))).translate virt =
      some (frame phys ||| virt &&& 0xFFF#64)
  unmaps : ∀ virt, lookup s.mm virt ≠ none →
    (pagingStep s (.mm (.unmapPage virt))).translate virt = none

/-- The page tables of the bootloader and `kernel_dir` lie apart, outside the page pool. -/
structure Layout (pml4Table kd : Word) : Prop where
  aligned : pml4Table.toNat % 4096 = 0
  boot : pml4Table.toNat + 0x3000 ≤ 0x200000
  kernelDir : OutsidePool kd
  apart : kd.toNat + 4096 ≤ pml4Table.toNat ∨ pml4Table.toNat + 0x3000 ≤ kd.toNat

/-- The bootloader's `setup_paging`, then `mm_start`, in memory whose `.bss` is zero. -/
def PagingState.start (pml4Table kd : Word) (s : MemoryManager) : PagingState :=
  let p := setupPaging pml4Table ⟨s.mm, 0#64⟩
  { p with mm := (mmStart kd { s with mm := p.mm }).mm }

variable {kd pml4Table a b c : Word} {mem : Word → Word} {s t : MmState} {i j : Index}
  {q : List Index} {virt : Word} {p : PagingState}

theorem pdptTable_toNat (hbound : pml4Table.toNat + 0x3000 ≤ 2 ^ 32) :
    (pdptTable pml4Table).toNat = pml4Table.toNat + 0x1000 := by
  rw [pdptTable, BitVec.toNat_add, BitVec.toNat_ofNat]
  omega

theorem pdTable_toNat (hbound : pml4Table.toNat + 0x3000 ≤ 2 ^ 32) :
    (pdTable pml4Table).toNat = pml4Table.toNat + 0x2000 := by
  rw [pdTable, BitVec.toNat_add, BitVec.toNat_ofNat]
  omega

/-- One of the tables that `setup_paging` fills. -/
def BootTable (pml4Table c : Word) : Prop :=
  c = pml4Table ∨ c = pdptTable pml4Table ∨ c = pdTable pml4Table

theorem BootTable.toNat (hc : BootTable pml4Table c)
    (hbound : pml4Table.toNat + 0x3000 ≤ 2 ^ 32) :
    c.toNat = pml4Table.toNat ∨ c.toNat = pml4Table.toNat + 0x1000 ∨
      c.toNat = pml4Table.toNat + 0x2000 := by
  rcases hc with rfl | rfl | rfl
  · exact Or.inl rfl
  · exact Or.inr (Or.inl (pdptTable_toNat hbound))
  · exact Or.inr (Or.inr (pdTable_toNat hbound))

theorem Layout.bound (hl : Layout pml4Table kd) : pml4Table.toNat + 0x3000 ≤ 2 ^ 32 :=
  Nat.le_trans hl.boot (by decide)

/-! ### What map and unmap leave alone -/

/-- Mapping and unmapping write to nothing but entries of the kernel's own tables. -/
theorem mmStep_mem (hkd : OutsidePool kd) (hs : Tables kd s) (ha : OffTables kd a) (op : MmOp) :
    (mmStep s op).mem a = s.mem a := by
  cases op with
  | mapPage phys virt flags =>
    rw [mmStep]
    rcases mmMapPage_cases hkd hs phys virt flags with ⟨t, -, hg, -, he⟩ | ⟨pt, t, -, hg, -, hw, he⟩
    · rw [he]
      exact hg.others a ha
    · have htable := hg.ext.tables.isTable (by simp [path]) hw
      rw [he]
      exact (Function.update_of_ne (ha pt _ htable) _ _).trans (hg.others a ha)
  | unmapPage virt =>
    rw [mmStep]
    rcases mmUnmapPage_cases hs virt with ⟨-, he⟩ | ⟨pt, e, -, hw, he⟩
    · rw [he]
    · rw [he]
      exact Function.update_of_ne (ha pt _ (hs.isTable (by simp [path]) hw)) _ _
  | allocPage => rfl

/-! ### The identity map of the bootloader -/

/-- The tables hold what `setup_paging` put there. -/
structure BootMapped (pml4Table : Word) (mem : Word → Word) : Prop where
  pml4 : ∀ i : Index, entry mem pml4Table i = if i = 0 then pdptTable pml4Table ||| 0b11#64 else 0#64
  pdpt : ∀ i : Index,
    entry mem (pdptTable pml4Table) i = if i = 0 then pdTable pml4Table ||| 0b11#64 else 0#64
  pd : ∀ i : Index,
    entry mem (pdTable pml4Table) i = BitVec.ofNat 64 (0x200000 * i.toNat) ||| 0b10000011#64

theorem physFrame_toNat (e : Word) : (physFrame e).toNat = e.toNat / 2 ^ 12 % 2 ^ 40 * 2 ^ 12 :=
  toNat_and_field e (k := 12) (n := 40) (by omega)

theorem physFrame_or {f : Word} (ha : a.toNat % 4096 = 0) (hlt : a.toNat < 2 ^ 52)
    (hf : f.toNat < 4096) : physFrame (a ||| f) = a := by
  apply BitVec.eq_of_toNat_eq
  rw [physFrame_toNat, toNat_or_of_aligned (k := 12) ha hf]
  omega

theorem physFrame_of_aligned (ha : a.toNat % 4096 = 0) (hlt : a.toNat < 2 ^ 52) :
    physFrame a = a := by
  have h := physFrame_or (f := 0#64) ha hlt (by decide)
  rwa [BitVec.or_zero] at h

theorem isHuge_eq_getLsbD (e : Word) : isHuge e = e.getLsbD 7 := by
  have hbit : (0x80#64 : Word) = BitVec.twoPow 64 7 := rfl
  rw [isHuge, hbit, BitVec.and_twoPow]
  cases e.getLsbD 7 <;> rfl

theorem isWritable_eq_getLsbD (e : Word) : isWritable e = e.getLsbD 1 := by
  have hbit : pageWritable = BitVec.twoPow 64 1 := rfl
  rw [isWritable, hbit, BitVec.and_twoPow]
  cases e.getLsbD 1 <;> rfl

theorem mmuTranslate_eq (mem : Word → Word) (cr3 virt : Word) :
    mmuTranslate mem cr3 virt = (mmuWalk mem cr3 virt).map Prod.fst := by
  simp only [mmuTranslate, mmuWalk, apply_ite (Option.map Prod.fst), Option.map_none,
    Option.map_some]

theorem table_flags (ha : a.toNat % 4096 = 0) :
    isPresent (a ||| 0b11#64) = true ∧ isHuge (a ||| 0b11#64) = false := by
  have hbit : a.getLsbD 7 = false := by
    rw [BitVec.getLsbD, Nat.testBit_eq_decide_div_mod_eq, decide_eq_false_iff_not]
    omega
  rw [isPresent_eq_getLsbD, isHuge_eq_getLsbD, BitVec.getLsbD_or, BitVec.getLsbD_or, hbit]
  exact ⟨Bool.or_true _, rfl⟩

/-- The entries of the last table map 2 MiB each. -/
theorem huge_flags (i : Index) :
    isPresent (BitVec.ofNat 64 (0x200000 * i.toNat) ||| 0b10000011#64) = true ∧
    isHuge (BitVec.ofNat 64 (0x200000 * i.toNat) ||| 0b10000011#64) = true := by
  rw [isPresent_eq_getLsbD, isHuge_eq_getLsbD, BitVec.getLsbD_or, BitVec.getLsbD_or]
  exact ⟨Bool.or_true _, Bool.or_true _⟩

theorem boot_writable (a : Word) :
    isWritable (a ||| 0b11#64) = true ∧ isWritable (a ||| 0b10000011#64) = true := by
  rw [isWritable_eq_getLsbD, isWritable_eq_getLsbD, BitVec.getLsbD_or, BitVec.getLsbD_or]
  exact ⟨Bool.or_true _, Bool.or_true _⟩

theorem huge_address (virt : Word) :
    (BitVec.ofNat 64 (0x200000 * (virt.extractLsb' 21 9).toNat) ||| 0b10000011#64) &&&
        0x000FFFFFFFE00000#64 ||| virt &&& 0x1FFFFF#64 = virt &&& 0x3FFFFFFF#64 := by
  have hlow : (virt &&& 0x1FFFFF#64).toNat = virt.toNat / 2 ^ 0 % 2 ^ 21 * 2 ^ 0 :=
    toNat_and_field virt (k := 0) (n := 21) (by omega)
  have hall : (virt &&& 0x3FFFFFFF#64).toNat = virt.toNat / 2 ^ 0 % 2 ^ 30 * 2 ^ 0 :=
    toNat_and_field virt (k := 0) (n := 30) (by omega)
  have hidx : (virt.extractLsb' 21 9).toNat = virt.toNat / 2 ^ 21 % 2 ^ 9 := by
    rw [BitVec.extractLsb'_toNat, Nat.shiftRight_eq_div_pow]
  generalize virt.extractLsb' 21 9 = i at hidx
  have hi := i.isLt
  have hbase : (BitVec.ofNat 64 (0x200000 * i.toNat)).toNat = 0x200000 * i.toNat := by
    rw [BitVec.toNat_ofNat]
    omega
  have hhigh : ((BitVec.ofNat 64 (0x200000 * i.toNat) ||| 0b10000011#64) &&&
      0x000FFFFFFFE00000#64).toNat = 0x200000 * i.toNat := by
    have hfield := toNat_and_field (BitVec.ofNat 64 (0x200000 * i.toNat) ||| 0b10000011#64)
      (k := 21) (n := 31) (by omega)
    rw [toNat_or_of_aligned (k := 21) (by rw [hbase]; omega) (by decide), hbase] at hfield
    refine hfield.trans ?_
    have hflags : (0b10000011#64 : Word).toNat = 131 := rfl
    rw [hflags]
    omega
  apply BitVec.eq_of_toNat_eq
  rw [toNat_or_of_aligned (k := 21) (by rw [hhigh]; omega) (by rw [hlow]; omega), hhigh, hlow, hall]
  omega

theorem index_eq_zero (virt : Word) : virt.extractLsb' 30 18 = 0#18 ↔
    virt.extractLsb' 39 9 = 0 ∧ virt.extractLsb' 30 9 = 0 := by
  simp only [← BitVec.toNat_inj, BitVec.extractLsb'_toNat, Nat.shiftRight_eq_div_pow,
    BitVec.ofNat_eq_ofNat, BitVec.toNat_ofNat]
  omega

/-- Through these tables the processor maps the first GiB to itself, writable, and nothing else. -/
theorem mmuWalk_boot (haligned : pml4Table.toNat % 4096 = 0)
    (hbound : pml4Table.toNat + 0x3000 ≤ 2 ^ 32) (h : BootMapped pml4Table mem) (virt : Word) :
    mmuWalk mem pml4Table virt =
      if virt.extractLsb' 30 18 = 0#18 then some (virt &&& 0x3FFFFFFF#64, true) else none := by
  have hpdpt := pdptTable_toNat hbound
  have hpd := pdTable_toNat hbound
  have hpml4 := h.pml4 (virt.extractLsb' 39 9)
  have hpdpte := h.pdpt (virt.extractLsb' 30 9)
  have hpde := h.pd (virt.extractLsb' 21 9)
  have hnone : isPresent 0#64 = false := rfl
  unfold entry at hpml4 hpdpte hpde
  unfold mmuWalk
  simp only [pml4Idx, pdptIdx, pdIdx, and_0x1FF, index_eq_zero,
    physFrame_of_aligned haligned (by omega), hpml4]
  by_cases h4 : virt.extractLsb' 39 9 = 0
  · have hf := table_flags (a := pdptTable pml4Table) (by omega)
    simp only [h4, if_true, hf.1, Bool.not_true, Bool.false_eq_true, if_false,
      physFrame_or (a := pdptTable pml4Table) (by omega) (by omega) (by decide : (0b11#64).toNat < _),
      hpdpte, true_and]
    by_cases h3 : virt.extractLsb' 30 9 = 0
    · have hf := table_flags (a := pdTable pml4Table) (by omega)
      simp only [h3, if_true, hf.1, hf.2, Bool.not_true, Bool.false_eq_true, if_false,
        physFrame_or (a := pdTable pml4Table) (by omega) (by omega) (by decide : (0b11#64).toNat < _),
        hpde, (huge_flags _).1, (huge_flags _).2, huge_address, boot_writable, Bool.and_self]
    · simp only [h3, if_false, hnone, Bool.not_false, if_true]
  · simp only [h4, if_false, hnone, Bool.not_false, if_true, false_and]

theorem mmuTranslate_boot (haligned : pml4Table.toNat % 4096 = 0)
    (hbound : pml4Table.toNat + 0x3000 ≤ 2 ^ 32) (h : BootMapped pml4Table mem) (virt : Word) :
    mmuTranslate mem pml4Table virt =
      if virt.extractLsb' 30 18 = 0#18 then some (virt &&& 0x3FFFFFFF#64) else none := by
  rw [mmuTranslate_eq, mmuWalk_boot haligned hbound h, apply_ite (Option.map Prod.fst)]
  rfl

/-! ### Runs -/

/-- The cells that `setup_paging` writes in its loop. -/
theorem pdCell_toNat (hbound : pml4Table.toNat + 0x3000 ≤ 2 ^ 32) {k : Nat} (hk : k < 512) :
    (entryAddr (pdTable pml4Table) (BitVec.ofNat 64 k)).toNat =
      pml4Table.toNat + 0x2000 + 8 * k := by
  have hpd := pdTable_toNat hbound
  rw [entryAddr, BitVec.toNat_add, hpd, BitVec.toNat_mul, BitVec.toNat_ofNat, BitVec.toNat_ofNat]
  omega

/-- The loop of `setup_paging` writes to its own table only. -/
theorem not_pdCell (hbound : pml4Table.toNat + 0x3000 ≤ 2 ^ 32)
    (ha : a.toNat < pml4Table.toNat + 0x2000 ∨ pml4Table.toNat + 0x3000 ≤ a.toNat) :
    ∀ k ∈ List.range 512, a ≠ entryAddr (pdTable pml4Table) (BitVec.ofNat 64 k) := by
  rintro k hk rfl
  have hlt := List.mem_range.mp hk
  rw [pdCell_toNat hbound hlt] at ha
  omega

theorem pdCells_nodup (hbound : pml4Table.toNat + 0x3000 ≤ 2 ^ 32) :
    ((List.range 512).map fun k => entryAddr (pdTable pml4Table) (BitVec.ofNat 64 k)).Nodup := by
  refine List.Nodup.map_on (fun j hj k hk he => ?_) List.nodup_range
  have hnat := congrArg BitVec.toNat he
  rw [pdCell_toNat hbound (List.mem_range.mp hj),
    pdCell_toNat hbound (List.mem_range.mp hk)] at hnat
  omega

theorem pdptTable_ne (hbound : pml4Table.toNat + 0x3000 ≤ 2 ^ 32) :
    pdptTable pml4Table ≠ pml4Table := by
  intro he
  have hpdpt := pdptTable_toNat hbound
  rw [he] at hpdpt
  omega

theorem setupPaging_other (hbound : pml4Table.toNat + 0x3000 ≤ 2 ^ 32)
    (ha : a.toNat < pml4Table.toNat + 0x2000 ∨ pml4Table.toNat + 0x3000 ≤ a.toNat)
    (h4 : a ≠ pml4Table) (h3 : a ≠ pdptTable pml4Table) (p : PagingState) :
    (setupPaging pml4Table p).mm.mem a = p.mm.mem a := by
  dsimp only [setupPaging]
  rw [foldl_update_other (fun i => BitVec.ofNat 64 (0x200000 * i) ||| 0b10000011#64)
    (not_pdCell hbound ha), Function.update_of_ne h3, Function.update_of_ne h4]

theorem setupPaging_pml4 (hbound : pml4Table.toNat + 0x3000 ≤ 2 ^ 32) (p : PagingState) :
    (setupPaging pml4Table p).mm.mem pml4Table = pdptTable pml4Table ||| 0b11#64 := by
  dsimp only [setupPaging]
  rw [foldl_update_other _ (not_pdCell hbound (Or.inl (by omega))),
    Function.update_of_ne (pdptTable_ne hbound).symm, Function.update_self]

theorem setupPaging_pdpt (hbound : pml4Table.toNat + 0x3000 ≤ 2 ^ 32) (p : PagingState) :
    (setupPaging pml4Table p).mm.mem (pdptTable pml4Table) = pdTable pml4Table ||| 0b11#64 := by
  have hpdpt := pdptTable_toNat hbound
  dsimp only [setupPaging]
  rw [foldl_update_other _ (not_pdCell hbound (Or.inl (by omega))), Function.update_self]

theorem setupPaging_pd (hbound : pml4Table.toNat + 0x3000 ≤ 2 ^ 32) (p : PagingState)
    (i : Index) : entry (setupPaging pml4Table p).mm.mem (pdTable pml4Table) i =
      BitVec.ofNat 64 (0x200000 * i.toNat) ||| 0b10000011#64 := by
  have hindex : (i.setWidth 64 : Word) = BitVec.ofNat 64 i.toNat := (BitVec.ofNat_toNat 64 i).symm
  have hmem : i.toNat ∈ List.range 512 := List.mem_range.mpr i.isLt
  rw [entry, hindex]
  dsimp only [setupPaging]
  exact foldl_update_cell (fun k => BitVec.ofNat 64 (0x200000 * k) ||| 0b10000011#64)
    (pdCells_nodup hbound) hmem _

theorem entryAddr_zero (c : Word) : entryAddr c ((0 : Index).setWidth 64) = c := by
  simp [entryAddr]

theorem entryAddr_later (hc : c.toNat + 4096 ≤ 2 ^ 64) (hi : i ≠ 0) :
    c.toNat < (entryAddr c (i.setWidth 64)).toNat ∧
      (entryAddr c (i.setWidth 64)).toNat < c.toNat + 4096 := by
  have hlt := i.isLt
  have hpos : 0 < i.toNat := BitVec.toNat_pos_of_ne_zero hi
  rw [entryAddr_toNat hc]
  omega

theorem setupPaging_later (hbound : pml4Table.toNat + 0x3000 ≤ 2 ^ 32)
    (hc : c = pml4Table ∨ c = pdptTable pml4Table) (hi : i ≠ 0) (p : PagingState) :
    entry (setupPaging pml4Table p).mm.mem c i = entry p.mm.mem c i := by
  have hpdpt := pdptTable_toNat hbound
  have hnat : c.toNat = pml4Table.toNat ∨ c.toNat = pml4Table.toNat + 0x1000 := by
    rcases hc with rfl | rfl
    · exact Or.inl rfl
    · exact Or.inr hpdpt
  obtain ⟨hlo, hhi⟩ := entryAddr_later (c := c) (i := i) (by omega) hi
  refine setupPaging_other hbound (by omega) ?_ ?_ p
  · intro he
    rw [he] at hlo hhi
    omega
  · intro he
    rw [he] at hlo hhi
    omega

theorem bootMapped_setupPaging (hbound : pml4Table.toNat + 0x3000 ≤ 2 ^ 32) {p : PagingState}
    (hpml4 : ∀ i : Index, entry p.mm.mem pml4Table i = 0#64)
    (hpdpt : ∀ i : Index, entry p.mm.mem (pdptTable pml4Table) i = 0#64) :
    BootMapped pml4Table (setupPaging pml4Table p).mm.mem := by
  refine ⟨fun i => ?_, fun i => ?_, setupPaging_pd hbound p⟩
  · by_cases hi : i = 0
    · rw [entry, hi, entryAddr_zero, if_pos rfl, setupPaging_pml4 hbound]
    · rw [setupPaging_later hbound (Or.inl rfl) hi, if_neg hi, hpml4]
  · by_cases hi : i = 0
    · rw [entry, hi, entryAddr_zero, if_pos rfl, setupPaging_pdpt hbound]
    · rw [setupPaging_later hbound (Or.inr rfl) hi, if_neg hi, hpdpt]

theorem setupPaging_kernelDir (hl : Layout pml4Table kd) (p : PagingState) (i : Index) :
    entry (setupPaging pml4Table p).mm.mem kd i = entry p.mm.mem kd i := by
  have hi := i.isLt
  have hapart := hl.apart
  have hpdpt := pdptTable_toNat hl.bound
  have haddr := entryAddr_toNat (IsTable.bound hl.kernelDir (Or.inl rfl)) i
  refine setupPaging_other hl.bound (by omega) ?_ ?_ p
  · intro he
    rw [he] at haddr
    omega
  · intro he
    rw [he] at haddr
    omega

/-- While no directory has been switched to, the processor keeps to the bootloader's tables. -/
structure Unswitched (pml4Table kd : Word) (p : PagingState) : Prop where
  cr3 : p.cr3 = pml4Table
  mapped : BootMapped pml4Table p.mm.mem
  refines : ∃ m, Refines kd (p.mm, m)

theorem Layout.offTables (hl : Layout pml4Table kd)
    (ha : pml4Table.toNat ≤ a.toNat ∧ a.toNat < pml4Table.toNat + 0x3000) : OffTables kd a := by
  rintro c j hc rfl
  have hj := j.isLt
  have hboot := hl.boot
  have hapart := hl.apart
  rw [entryAddr_toNat (hc.bound hl.kernelDir)] at ha
  rcases hc with rfl | ⟨p, hp, rfl⟩
  · omega
  · rw [pageAddr_toNat] at ha
    omega

theorem BootMapped.of_entries (h : BootMapped pml4Table mem) {mem' : Word → Word}
    (hsame : ∀ c, BootTable pml4Table c → ∀ i : Index, entry mem' c i = entry mem c i) :
    BootMapped pml4Table mem' := by
  refine ⟨fun i => ?_, fun i => ?_, fun i => ?_⟩
  · rw [hsame _ (Or.inl rfl), h.pml4]
  · rw [hsame _ (Or.inr (Or.inl rfl)), h.pdpt]
  · rw [hsame _ (Or.inr (Or.inr rfl)), h.pd]

theorem BootMapped.congr (hl : Layout pml4Table kd) (h : BootMapped pml4Table mem)
    {mem' : Word → Word} (hsame : ∀ a, OffTables kd a → mem' a = mem a) :
    BootMapped pml4Table mem' := by
  have hbound := hl.bound
  refine h.of_entries fun c hc i => hsame _ (hl.offTables ?_)
  have hi := i.isLt
  have htable := hc.toNat hbound
  rw [entryAddr_toNat (by omega)]
  omega

theorem Unswitched.step (hl : Layout pml4Table kd) (h : Unswitched pml4Table kd p) (op : MmOp) :
    Unswitched pml4Table kd (pagingStep p (.mm op)) := by
  obtain ⟨hcr3, hmapped, m, hm⟩ := h
  exact ⟨hcr3, hmapped.congr hl fun a ha => mmStep_mem hl.kernelDir hm.tables ha op,
    _, refines_step hl.kernelDir (p.mm, m) op hm⟩

theorem start_eq (s : MemoryManager) : PagingState.start pml4Table kd s =
    ⟨⟨mmInit, (setupPaging pml4Table ⟨s.mm, 0#64⟩).mm.mem, kd⟩, pml4Table⟩ := by
  have hpool (pool : Pool) (p : PagingState) (hp : p.cr3 = pml4Table) :
      { p with mm := ⟨pool, p.mm.mem, kd⟩ } =
        (⟨⟨pool, p.mm.mem, kd⟩, pml4Table⟩ : PagingState) := by
    rw [hp]
  unfold PagingState.start
  dsimp only
  rw [mm_mmStart]
  exact hpool mmInit (setupPaging pml4Table ⟨s.mm, 0#64⟩) rfl

theorem unswitched_of (hdir : ∀ i : Index, entry mem kd i = 0#64) (h : BootMapped pml4Table mem) :
    Unswitched pml4Table kd ⟨⟨mmInit, mem, kd⟩, pml4Table⟩ :=
  ⟨rfl, h, fun _ => none, refines_init hdir⟩

theorem unswitched_start (hl : Layout pml4Table kd) {s : MemoryManager}
    (hpml4 : ∀ i : Index, entry s.mm.mem pml4Table i = 0#64)
    (hpdpt : ∀ i : Index, entry s.mm.mem (pdptTable pml4Table) i = 0#64)
    (hkd : ∀ i : Index, entry s.mm.mem kd i = 0#64) :
    Unswitched pml4Table kd (PagingState.start pml4Table kd s) := by
  have hmapped := bootMapped_setupPaging (p := ⟨s.mm, 0#64⟩) hl.bound hpml4 hpdpt
  have hdir (i : Index) :
      entry (setupPaging pml4Table ⟨s.mm, 0#64⟩).mm.mem kd i = 0#64 := by
    rw [setupPaging_kernelDir hl]
    exact hkd i
  rw [start_eq]
  exact unswitched_of hdir hmapped

theorem nextTable_currentDir (s : MmState) (table idx : Word) (create : Bool) :
    (nextTable table idx create s).2.currentDir = s.currentDir := by
  unfold nextTable
  split
  · rfl
  · split
    · dsimp only
      split <;> rfl
    · rfl

theorem getPte_currentDir (s : MmState) (virt : Word) (create : Bool) :
    (getPte virt create s).2.currentDir = s.currentDir := by
  have hlevel {s t : MmState} {table idx : Word} {c : Option Word}
      (h : nextTable table idx create s = (c, t)) : t.currentDir = s.currentDir := by
    have := nextTable_currentDir s table idx create
    rwa [h] at this
  unfold getPte
  split
  · rename_i t ht
    exact hlevel ht
  · rename_i pdpt t ht
    split
    · rename_i u hu
      exact (hlevel hu).trans (hlevel ht)
    · rename_i pd u hu
      split
      · rename_i v hv
        exact (hlevel hv).trans ((hlevel hu).trans (hlevel ht))
      · rename_i pt v hv
        exact (hlevel hv).trans ((hlevel hu).trans (hlevel ht))

theorem mmStep_currentDir (s : MmState) (op : MmOp) :
    (mmStep s op).currentDir = s.currentDir := by
  cases op with
  | mapPage phys virt flags =>
    have h := getPte_currentDir s virt true
    simp only [mmStep, mmMapPage]
    split <;> exact h
  | unmapPage virt =>
    have h := getPte_currentDir s virt false
    simp only [mmStep, mmUnmapPage]
    split <;> exact h
  | allocPage => rfl

/-- The two roots agree from the first switch on. -/
theorem root_run (hp : p.cr3 ≠ p.mm.currentDir) (ops : List PagingOp) :
    (run pagingStep p ops).cr3 = (run pagingStep p ops).mm.currentDir ↔
      ∃ dir, .switchDirectory dir ∈ ops := by
  induction ops using List.reverseRecOn with
  | nil => simpa using hp
  | append_singleton ops op ih =>
    rw [run_snoc]
    cases op with
    | mm op =>
      dsimp only [pagingStep]
      rw [mmStep_currentDir, ih]
      simp
    | switchDirectory dir => exact iff_of_true rfl ⟨dir, by simp⟩

theorem Unswitched.run (hl : Layout pml4Table kd) (h : Unswitched pml4Table kd p)
    (ops : List PagingOp) (hops : ∀ dir, .switchDirectory dir ∉ ops) :
    Unswitched pml4Table kd (Machine.run pagingStep p ops) := by
  induction ops generalizing p with
  | nil => exact h
  | cons op ops ih =>
    cases op with
    | mm op =>
      refine ih (h.step hl op) fun dir hmem => hops dir (List.mem_cons_of_mem _ hmem)
    | switchDirectory dir => exact (hops dir List.mem_cons_self).elim

theorem root_start (hne : pml4Table ≠ kd) (s : MemoryManager) :
    (PagingState.start pml4Table kd s).cr3 ≠ (PagingState.start pml4Table kd s).mm.currentDir := by
  rw [start_eq]
  exact hne

/-- What the bootloader and the linker provide: the layout, and `.bss` as zeroes. -/
structure Booted (pml4Table kd : Word) (s : MemoryManager) : Prop where
  layout : Layout pml4Table kd
  pml4 : ∀ i : Index, entry s.mm.mem pml4Table i = 0#64
  pdpt : ∀ i : Index, entry s.mm.mem (pdptTable pml4Table) i = 0#64
  kernelDir : ∀ i : Index, entry s.mm.mem kd i = 0#64

/-- The tables that the kernel edits are in no run the active ones throughout: `paging_init` leaves
the bootloader's in place. The two agree from the first switch of directories on, and until then
the processor maps the first GiB to itself, whatever is mapped and unmapped. -/
theorem tables_never_active (hne : pml4Table ≠ kd) (s : MemoryManager) (ops : List PagingOp) :
    let start := PagingState.start pml4Table kd s
    ¬ Throughout pagingStep Active start ops ∧
    ((run pagingStep start ops).cr3 = (run pagingStep start ops).mm.currentDir ↔
      ∃ dir, .switchDirectory dir ∈ ops) ∧
    (Booted pml4Table kd s → (∀ dir, .switchDirectory dir ∉ ops) →
      ∀ virt, (run pagingStep start ops).translate virt =
        if virt.extractLsb' 30 18 = 0#18 then some (virt &&& 0x3FFFFFFF#64) else none) := by
  intro start
  have hroot : start.cr3 ≠ start.mm.currentDir := root_start hne s
  refine ⟨fun h => hroot (h [] List.nil_prefix).root, root_run hroot ops, fun hboot hops virt => ?_⟩
  have hstart : Unswitched pml4Table kd start :=
    unswitched_start hboot.layout hboot.pml4 hboot.pdpt hboot.kernelDir
  have hend := hstart.run hboot.layout ops hops
  rw [PagingState.translate, hend.cr3]
  exact mmuTranslate_boot hboot.layout.aligned hboot.layout.bound hend.mapped virt

/-- A page mapped at 1 GiB, in zeroed memory, is not there for the processor. -/
theorem tables_never_active_map :
    (run pagingStep (PagingState.start 0x110000#64 0x120000#64 MemoryManager.boot)
      [.mm (.mapPage 0x5000#64 0x40000000#64 0x3#64)]).translate 0x40000000#64 = none := by
  have hboot : Booted 0x110000#64 0x120000#64 MemoryManager.boot :=
    ⟨⟨by decide, by decide, Or.inl (by decide), Or.inr (by decide)⟩, fun _ => rfl, fun _ => rfl,
      fun _ => rfl⟩
  exact (tables_never_active (by decide) MemoryManager.boot _).2.2 hboot (by simp) 0x40000000#64

/-- Right after `paging_init` the two roots differ. -/
theorem tables_inactive_after_init :
    ¬ Throughout pagingStep Active
      (PagingState.start 0x110000#64 0x120000#64 MemoryManager.boot) [] := by
  intro h
  exact root_start (by decide) MemoryManager.boot (h [] List.nil_prefix).root

end FenwickOS.Mm
