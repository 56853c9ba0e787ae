import FenwickOS.Lib.Runs
import FenwickOS.Mm.PoolSafety
import FenwickOS.Mm.Start
import FenwickOS.Mm.Tables

/-! Which memory the page pool, the heap and the user program of kernel.c take. -/
namespace FenwickOS.Mm
open Machine

def heapRegion : Set Nat := Set.Ico heapStart.toNat (heapStart.toNat + heapSize.toNat)

/-- The range that `krnl_main` clears and fills. -/
def userImage : Set Nat := Set.Ico 0x400000 0x410000

def userStackPage : Set Nat := Set.Ico 0x4FF000 0x500000

def pageBytes (p : Word) : Set Nat := Set.Ico p.toNat (p.toNat + pageSize)

/-- No one else owns a byte of the page. -/
def Private (p : Word) : Prop :=
  Disjoint (pageBytes p) heapRegion ∧ Disjoint (pageBytes p) userImage ∧
    Disjoint (pageBytes p) userStackPage

/-- The loops of `krnl_main` that load the user program; `image` is what they leave in its range. -/
def loadUserProgram (image : Word → Word) (s : MmState) : MmState :=
  { s with mem := fun a => if 0x400000 ≤ a.toNat ∧ a.toNat < 0x410000 then image a else s.mem a }

inductive OwnerOp
  | mm (op : MmOp)
  | loadUserProgram (image : Word → Word)

def OwnerOp.step (s : MmState) : OwnerOp → MmState
  | .mm op => mmStep s op
  | .loadUserProgram image => Mm.loadUserProgram image s

/-- The pages that calls of `mm_alloc_page` have handed out on the way from `s` to `t`. -/
def handedOut (s t : Pool) : List Word :=
  ((List.finRange maxPages).filter fun i => s.pageBitmap.test i && !t.pageBitmap.test i).map pageAddr

structure OwnerRun where
  mm : MmState
  pages : List Word

def ownerStep (r : OwnerRun) (op : OwnerOp) : OwnerRun :=
  ⟨op.step r.mm, r.pages ++ handedOut r.mm.pool (op.step r.mm).pool⟩

def OwnerRun.start (kernelDir : Word) (s : MemoryManager) : OwnerRun := ⟨(mmStart kernelDir s).mm, []⟩

def OwnersDisjoint (r : OwnerRun) : Prop := ∀ p ∈ r.pages, Private p

/-- The call may take pages from the pool. -/
def OwnerOp.allocates : OwnerOp → Bool
  | .mm (.mapPage _ _ _) => true
  | .mm .allocPage => true
  | _ => false

/-- Nothing has been allocated, and the page tables are empty. -/
structure Untaken (kd : Word) (r : OwnerRun) : Prop where
  pool : r.mm.pool = mmInit
  root : r.mm.currentDir = kd
  empty : ∀ i : Index, entry r.mm.mem kd i = 0#64
  pages : r.pages = []

variable {kd p : Word} {s t : MmState} {r : OwnerRun} {i : Fin maxPages} {op : OwnerOp}

theorem mem_handedOut {s t : Pool} : pageAddr i ∈ handedOut s t ↔
    s.pageBitmap.test i = true ∧ t.pageBitmap.test i = false := by
  simp [handedOut, pageAddr_injective.eq_iff]

theorem handedOut_self (s : Pool) : handedOut s s = [] := by
  simp [handedOut]

/-- Of the pages of the pool, only those above the heap are no one else's. -/
theorem private_iff (hp : InPool p) : Private p ↔ 0x900000 ≤ p.toNat := by
  have hend : heapStart.toNat + heapSize.toNat = 0x900000 := rfl
  have hstart : heapStart.toNat = 0x100000 := rfl
  obtain ⟨-, hlo, hhi⟩ := hp
  constructor
  · rintro ⟨hheap, -⟩
    by_contra hlt
    have hpage : p.toNat ∈ pageBytes p := ⟨Nat.le_refl _, Nat.lt_add_of_pos_right (by decide)⟩
    exact Set.disjoint_left.mp hheap hpage ⟨by omega, by omega⟩
  · intro habove
    refine ⟨?_, ?_, ?_⟩ <;> refine Set.disjoint_left.mpr fun x hx hx' => ?_
    · have := hx.1.trans_lt hx'.2
      omega
    · have := hx.1.trans_lt hx'.2
      omega
    · have := hx.1.trans_lt hx'.2
      omega

/-! ### The first allocation -/

/-- The page at 2 MiB, the lowest of the pool. -/
def firstPage : Fin maxPages := ⟨512, by decide⟩

theorem not_private_firstPage : ¬ Private (pageAddr firstPage) := by
  have hnat : (pageAddr firstPage).toNat = 0x200000 := pageAddr_toNat firstPage
  rw [private_iff (inPool_pageAddr.mpr (Nat.le_refl _)), hnat]
  omega

theorem test_mmAllocPage_mmInit : (mmAllocPage mmInit).2.pageBitmap.test firstPage = false := by
  have hfree := (test_mmInit firstPage).mpr (Nat.le_refl _)
  rcases mmAllocPage_cases mmInit with ⟨i, hi, hlow, he⟩ | ⟨hnone, -⟩
  · have hlo := (test_mmInit i).mp hi
    have heq : i = firstPage := by
      rcases Nat.lt_or_eq_of_le hlo with hlt | heq
      · rw [hlow firstPage hlt] at hfree
        simp at hfree
      · exact Fin.ext heq.symm
    rw [he, heq, Bitmap.test_clear]
    simp
  · rw [hnone] at hfree
    simp at hfree

/-! ### Calls take pages and give none back -/

theorem test_nextTable {table idx : Word} {create : Bool} {c : Option Word}
    (he : nextTable table idx create s = (c, t)) (h : t.pool.pageBitmap.test i = true) :
    s.pool.pageBitmap.test i = true := by
  obtain rfl : (nextTable table idx create s).2 = t := congrArg Prod.snd he
  unfold nextTable at h
  split at h
  · exact h
  · split at h
    · dsimp only at h
      split at h
      · exact test_mmAllocPage h
      · exact test_mmAllocPage h
    · exact h

/-- The pages that are free after a walk were free after its first level. -/
theorem test_getPte {virt : Word} {create : Bool}
    (h : (getPte virt create s).2.pool.pageBitmap.test i = true) :
    (nextTable s.currentDir (pml4Idx virt) create s).2.pool.pageBitmap.test i = true := by
  unfold getPte at h
  split at h
  · rename_i t ht
    rwa [ht]
  · rename_i pdpt t ht
    rw [ht]
    split at h
    · rename_i u hu
      exact test_nextTable hu h
    · rename_i pd u hu
      split at h
      · rename_i w hw
        exact test_nextTable hu (test_nextTable hw h)
      · rename_i pt w hw
        exact test_nextTable hu (test_nextTable hw h)

theorem pool_mmMapPage (phys virt flags : Word) :
    (mmMapPage phys virt flags s).2.pool = (getPte virt true s).2.pool := by
  unfold mmMapPage
  dsimp only
  split <;> rfl

theorem next_empty {mem : Word → Word} {j : Index} (h : entry mem kd j = 0#64) :
    next mem kd j = none := by
  rw [next, h]
  rfl

theorem Untaken.test_mapPage (h : Untaken kd r) (phys virt flags : Word) :
    (mmMapPage phys virt flags r.mm).2.pool.pageBitmap.test firstPage = false := by
  by_contra htrue
  rw [Bool.not_eq_false, pool_mmMapPage] at htrue
  have hfirst := test_getPte htrue
  rw [h.root, pml4Idx, and_0x1FF] at hfirst
  have halloc := test_mmAllocPage_mmInit
  rw [← h.pool] at halloc
  rcases nextTable_true_cases r.mm kd (virt.extractLsb' 39 9) with ⟨c, hc, -⟩ | ⟨-, he, -⟩ |
      ⟨-, -, he⟩
  · rw [next_empty (h.empty _)] at hc
    cases hc
  · rw [he, halloc] at hfirst
    cases hfirst
  · rw [he] at hfirst
    exact absurd (hfirst.symm.trans halloc) (by simp)

/-! ### Runs -/

theorem untaken_start (s : MemoryManager) (hzero : ∀ i : Index, entry s.mm.mem kd i = 0#64) :
    Untaken kd (OwnerRun.start kd s) := by
  unfold OwnerRun.start
  generalize hmm : (mmStart kd s).mm = m
  rw [mm_mmStart] at hmm
  refine ⟨?_, ?_, fun i => ?_, rfl⟩ <;> dsimp only <;> rw [← hmm]
  exact hzero i

theorem Untaken.disjoint (h : Untaken kd r) : OwnersDisjoint r := by
  simp [OwnersDisjoint, h.pages]

theorem Untaken.step (hkd : OutsidePool kd) (h : Untaken kd r) (hquiet : op.allocates = false) :
    Untaken kd (ownerStep r op) := by
  cases op with
  | mm op =>
    cases op with
    | mapPage phys virt flags => cases hquiet
    | allocPage => cases hquiet
    | unmapPage virt =>
      have hsame : (mmUnmapPage virt r.mm).2 = r.mm := by
        have hwalk : Radix.walk (next r.mm.mem) r.mm.currentDir (path virt) = none := by
          rw [h.root, path, Radix.walk, next_empty (h.empty _)]
          rfl
        simp [mmUnmapPage, getPte_false, hwalk]
      have hstep : ownerStep r (.mm (.unmapPage virt)) = r := by
        simp [ownerStep, OwnerOp.step, mmStep, hsame, handedOut_self]
      rwa [hstep]
  | loadUserProgram image =>
    refine ⟨h.pool, h.root, fun i => ?_, ?_⟩
    · have hi := i.isLt
      have hkd' : kd.toNat + 4096 ≤ 2 ^ 64 := IsTable.bound hkd (Or.inl rfl)
      have hout : ¬ (0x400000 ≤ (entryAddr kd (i.setWidth 64)).toNat ∧
          (entryAddr kd (i.setWidth 64)).toNat < 0x410000) := by
        rw [entryAddr_toNat hkd']
        rcases hkd with hkd | ⟨hkd, -⟩ <;> omega
      have hentry := h.empty i
      simpa only [ownerStep, OwnerOp.step, Mm.loadUserProgram, entry, if_neg hout] using hentry
    · simp [ownerStep, OwnerOp.step, Mm.loadUserProgram, handedOut_self, h.pages]

/-- The first call that allocates takes a page of the heap. -/
theorem Untaken.allocates (h : Untaken kd r) (hop : op.allocates = true) :
    pageAddr firstPage ∈ (ownerStep r op).pages := by
  have hbefore : r.mm.pool.pageBitmap.test firstPage = true := by
    rw [h.pool]
    exact (test_mmInit firstPage).mpr (Nat.le_refl _)
  refine List.mem_append_right _ (mem_handedOut.mpr ⟨hbefore, ?_⟩)
  cases op with
  | mm op =>
    cases op with
    | mapPage phys virt flags => exact h.test_mapPage phys virt flags
    | allocPage =>
      change (mmAllocPage r.mm.pool).2.pageBitmap.test firstPage = false
      rw [h.pool]
      exact test_mmAllocPage_mmInit
    | unmapPage virt => cases hop
  | loadUserProgram image => cases hop

/-- The pages handed out stay clear of the heap and the user program exactly in the runs in which
none is handed out. -/
theorem owners_iff (hkd : OutsidePool kd) (s : MemoryManager)
    (hzero : ∀ i : Index, entry s.mm.mem kd i = 0#64) (ops : List OwnerOp) :
    Throughout ownerStep OwnersDisjoint (OwnerRun.start kd s) ops ↔
      ∀ op ∈ ops, op.allocates = false := by
  have hallowed : Allowed ownerStep (fun _ op => op.allocates = false) (OwnerRun.start kd s) ops ↔
      ∀ op ∈ ops, op.allocates = false := allowed_iff_forall
  rw [← hallowed]
  refine throughout_iff_allowed (Q := Untaken kd) (fun _ h => h.disjoint)
    (fun _ _ h hquiet => h.step hkd hquiet) (fun r op h hdisj => ?_) (untaken_start s hzero) ops
  by_contra hop
  rw [Bool.not_eq_false] at hop
  exact not_private_firstPage (hdisj _ (h.allocates hop))

/-- Loading the program before anything is allocated. -/
theorem owners_disjoint_load :
    Throughout ownerStep OwnersDisjoint (OwnerRun.start 0x180000#64 MemoryManager.boot)
      [.mm (.unmapPage 0x400000#64), .loadUserProgram fun _ => 0#64] :=
  (owners_iff (Or.inl (by decide)) MemoryManager.boot (fun _ => rfl) _).mpr (by decide)

/-- The first page handed out lies in the heap. -/
theorem owners_overlap_first_page :
    ¬ Throughout ownerStep OwnersDisjoint (OwnerRun.start 0x180000#64 MemoryManager.boot)
      [.mm .allocPage] := by
  intro h
  have hstart : Untaken 0x180000#64 (OwnerRun.start 0x180000#64 MemoryManager.boot) :=
    untaken_start _ fun _ => rfl
  have hpage : pageAddr firstPage ∈
      (ownerStep (OwnerRun.start 0x180000#64 MemoryManager.boot) (.mm .allocPage)).pages :=
    hstart.allocates rfl
  exact not_private_firstPage (h _ (List.prefix_refl _) _ hpage)

end FenwickOS.Mm
