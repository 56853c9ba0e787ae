import FenwickOS.Mm.Coherence

/-! The processor writes to the tables too: a walk marks the entries that it uses as accessed, and
a write marks the entry of its page as dirty. -/
namespace FenwickOS.Mm
open Machine

def accessedBit : Word := 0x20#64
def dirtyBit : Word := 0x40#64

/-- What is left of a word without these bits. -/
def unmarked (e : Word) : Word := e &&& ~~~(accessedBit ||| dirtyBit)

def SameMem (mem mem' : Word → Word) : Prop := ∀ a, unmarked (mem a) = unmarked (mem' a)

/-- The words that the walk for a page reads, those of absent entries apart. -/
def usedEntries (mem : Word → Word) (cr3 : Word) (k : BitVec 36) : List Word :=
  let virt := pageBase k
  let pml4e := entryAddr (physFrame cr3) (pml4Idx virt)
  if !isPresent (mem pml4e) then []
  else
    let pdpte := entryAddr (physFrame (mem pml4e)) (pdptIdx virt)
    if !isPresent (mem pdpte) then [pml4e]
    else if isHuge (mem pdpte) then [pml4e, pdpte]
    else
      let pde := entryAddr (physFrame (mem pdpte)) (pdIdx virt)
      if !isPresent (mem pde) then [pml4e, pdpte]
      else if isHuge (mem pde) then [pml4e, pdpte, pde]
      else
        let pte := entryAddr (physFrame (mem pde)) (ptIdx virt)
        if !isPresent (mem pte) then [pml4e, pdpte, pde] else [pml4e, pdpte, pde, pte]

def Paged.withMem (x : Paged) (mem : Word → Word) : Paged :=
  { x with run := { x.run with mm := { x.run.mm with mem := mem } } }

def Paged.mark (x : Paged) (a bits : Word) : Paged :=
  x.withMem (Function.update x.run.mm.mem a (x.run.mm.mem a ||| bits))

/-- A walk may be for any page, at any moment, and may come to nothing. -/
inductive MarkedStep (kd : Word) : Paged → Paged → Prop
  | paged {x y : Paged} (h : PagedStep kd x y) : MarkedStep kd x y
  | accessed {x : Paged} {a : Word} (k : BitVec 36)
      (ha : a ∈ usedEntries x.run.mm.mem x.cr3 k) : MarkedStep kd x (x.mark a accessedBit)
  | dirty {x : Paged} {a : Word} (k : BitVec 36) (hfound : (x.look k).isSome)
      (ha : (usedEntries x.run.mm.mem x.cr3 k).getLast? = some a) :
    MarkedStep kd x (x.mark a (accessedBit ||| dirtyBit))

def MarkedReachable (pml4Table kd : Word) (s : MemoryManager) (x : Paged) : Prop :=
  Relation.ReflTransGen (MarkedStep kd) (Paged.start pml4Table kd s) x

/-- Two states of paging.c whose memories differ in marks only. -/
structure Alike (s t : MmState) : Prop where
  pool : s.pool = t.pool
  root : s.currentDir = t.currentDir
  mem : SameMem s.mem t.mem

/-- A page that is free, or that a caller holds. -/
def Unlinked (x : Paged) (p : Fin maxPages) : Prop :=
  x.run.mm.pool.pageBitmap.test p = true ∨ pageAddr p ∈ x.run.held

/-- Memory with the marks of the processor, beside a run without them: all marks are in tables. -/
structure Marks (x : Paged) (mem : Word → Word) : Prop where
  same : SameMem mem x.run.mm.mem
  page : ∀ p, Unlinked x p → ∀ i, entry mem (pageAddr p) i = entry x.run.mm.mem (pageAddr p) i

variable {kd pml4Table a v virt : Word} {s t : MmState} {mem mem' mem₀ : Word → Word}
  {k : BitVec 36} {p : Fin maxPages} {x y z : Paged}

/-! ### Words up to their marks -/

theorem unmarked_and (h : ~~~(accessedBit ||| dirtyBit) &&& v = v) (e : Word) :
    unmarked e &&& v = e &&& v := by
  rw [unmarked, BitVec.and_assoc, h]

theorem unmarked_or (h : v &&& ~~~(accessedBit ||| dirtyBit) = 0#64) (e : Word) :
    unmarked (e ||| v) = unmarked e := by
  rw [unmarked, unmarked, BitVec.and_or_distrib_right, h, BitVec.or_zero]

theorem unmarked_getLsbD {n : Nat} (h : (accessedBit ||| dirtyBit).getLsbD n = false) (hn : n < 64)
    (e : Word) : (unmarked e).getLsbD n = e.getLsbD n := by
  rw [unmarked, BitVec.getLsbD_and, BitVec.getLsbD_not, h, decide_eq_true hn, Bool.not_false,
    Bool.and_true, Bool.and_true]

theorem isPresent_unmarked (e : Word) : isPresent (unmarked e) = isPresent e := by
  rw [isPresent, isPresent, unmarked_and (by decide)]

theorem isHuge_unmarked (e : Word) : isHuge (unmarked e) = isHuge e := by
  rw [isHuge, isHuge, unmarked_and (by decide)]

theorem frame_unmarked (e : Word) : frame (unmarked e) = frame e :=
  unmarked_and (by decide) e

theorem physFrame_unmarked (e : Word) : physFrame (unmarked e) = physFrame e :=
  unmarked_and (by decide) e

theorem isGlobalEntry_unmarked (e : Word) : isGlobalEntry (unmarked e) = isGlobalEntry e :=
  unmarked_getLsbD (by decide) (by decide) e

theorem rights_unmarked (l : List Word) : rights (l.map unmarked) = rights l := by
  have hbit (n : Nat) (h : (accessedBit ||| dirtyBit).getLsbD n = false) (hn : n < 64) :
      (fun e : Word => e.getLsbD n) ∘ unmarked = fun e => e.getLsbD n :=
    funext fun e => unmarked_getLsbD h hn e
  have hexecutable : (fun e : Word => !e.getLsbD 63) ∘ unmarked = fun e => !e.getLsbD 63 :=
    funext fun e => congrArg not (unmarked_getLsbD (by decide) (by decide) e)
  rw [rights, rights, List.all_map, List.all_map, List.all_map, hbit 1 (by decide) (by decide),
    hbit 2 (by decide) (by decide), hexecutable]

theorem mmuPage_unmarked (mem : Word → Word) (cr3 : Word) (k : BitVec 36) :
    mmuPage (fun a => unmarked (mem a)) cr3 k = mmuPage mem cr3 k := by
  have h2 (e₄ e₃ : Word) := rights_unmarked [e₄, e₃]
  have h3 (e₄ e₃ e₂ : Word) := rights_unmarked [e₄, e₃, e₂]
  have h4 (e₄ e₃ e₂ e₁ : Word) := rights_unmarked [e₄, e₃, e₂, e₁]
  have hpdpte (e : Word) : unmarked e &&& 0x000FFFFFC0000000#64 = e &&& 0x000FFFFFC0000000#64 :=
    unmarked_and (by decide) e
  have hpde (e : Word) : unmarked e &&& 0x000FFFFFFFE00000#64 = e &&& 0x000FFFFFFFE00000#64 :=
    unmarked_and (by decide) e
  simp only [List.map_cons, List.map_nil] at h2 h3 h4
  simp only [mmuPage, isPresent_unmarked, physFrame_unmarked, isHuge_unmarked,
    isGlobalEntry_unmarked, h2, h3, h4, hpdpte, hpde]

theorem usedEntries_unmarked (mem : Word → Word) (cr3 : Word) (k : BitVec 36) :
    usedEntries (fun a => unmarked (mem a)) cr3 k = usedEntries mem cr3 k := by
  simp only [usedEntries, isPresent_unmarked, physFrame_unmarked, isHuge_unmarked]

namespace SameMem

theorem mmuPage_eq (h : SameMem mem mem') (cr3 : Word) (k : BitVec 36) :
    mmuPage mem cr3 k = mmuPage mem' cr3 k := by
  rw [← mmuPage_unmarked mem, ← mmuPage_unmarked mem', funext h]

theorem usedEntries_eq (h : SameMem mem mem') (cr3 : Word) (k : BitVec 36) :
    usedEntries mem cr3 k = usedEntries mem' cr3 k := by
  rw [← usedEntries_unmarked mem, ← usedEntries_unmarked mem', funext h]

theorem isPresent_eq (h : SameMem mem mem') (a : Word) :
    isPresent (mem a) = isPresent (mem' a) := by
  rw [← isPresent_unmarked, h a, isPresent_unmarked]

theorem frame_eq (h : SameMem mem mem') (a : Word) : frame (mem a) = frame (mem' a) := by
  rw [← frame_unmarked, h a, frame_unmarked]

theorem next_eq (h : SameMem mem mem') : next mem = next mem' := by
  funext c i
  have hpresent := h.isPresent_eq (entryAddr c (i.setWidth 64))
  have hframe := h.frame_eq (entryAddr c (i.setWidth 64))
  unfold next entry
  rw [hpresent, hframe]

theorem update (h : SameMem mem mem') (a v : Word) :
    SameMem (Function.update mem a v) (Function.update mem' a v) := by
  intro b
  by_cases hb : b = a
  · rw [hb, Function.update_self, Function.update_self]
  · rw [Function.update_of_ne hb, Function.update_of_ne hb]
    exact h b

theorem zeroTable (h : SameMem mem mem') (c : Word) :
    SameMem (zeroTable mem c) (zeroTable mem' c) := by
  unfold Mm.zeroTable
  generalize List.range pagesPerTable = l
  induction l generalizing mem mem' with
  | nil => exact h
  | cons n l ih => exact ih (h.update _ _)

end SameMem

/-! ### The calls of paging.c -/

theorem Alike.nextTable (h : Alike s t) (c idx : Word) (create : Bool) :
    (nextTable c idx create s).1 = (nextTable c idx create t).1 ∧
      Alike (nextTable c idx create s).2 (nextTable c idx create t).2 := by
  unfold Mm.nextTable
  rw [h.mem.isPresent_eq]
  split
  · exact ⟨congrArg some (h.mem.frame_eq _), h⟩
  split
  · rw [h.pool]
    dsimp only
    split
    · exact ⟨rfl, rfl, h.root, h.mem⟩
    · have hmem := h.mem.zeroTable (mmAllocPage t.pool).1
      have hinstalled := hmem.update (entryAddr c idx) (tableEntry (mmAllocPage t.pool).1)
      exact ⟨congrArg some (hinstalled.frame_eq _), rfl, h.root, hinstalled⟩
  · exact ⟨rfl, h⟩

theorem Alike.nextTableStores (h : Alike s t) (c idx : Word) :
    nextTableStores c idx s = nextTableStores c idx t := by
  unfold Mm.nextTableStores
  rw [h.mem.isPresent_eq, h.pool]

theorem Alike.createStores (h : Alike s t) (c : Word) (is : List Index) :
    createStores c is s = createStores c is t := by
  induction is generalizing c s t with
  | nil => rfl
  | cons i is ih =>
    obtain ⟨hfound, hnext⟩ := h.nextTable c (i.setWidth 64) true
    rw [Mm.createStores, Mm.createStores, h.nextTableStores]
    generalize Mm.nextTable c (i.setWidth 64) true s = r at hfound hnext
    generalize Mm.nextTable c (i.setWidth 64) true t = r' at hfound hnext
    obtain ⟨found, s⟩ := r
    obtain ⟨found', t⟩ := r'
    obtain rfl : found = found' := hfound
    cases found with
    | none => rfl
    | some d => exact congrArg _ (ih hnext d)

theorem Alike.level {r r' : Option Word × MmState} (h : r.1 = r'.1 ∧ Alike r.2 r'.2)
    {f : Word → MmState → Word × MmState}
    (hf : ∀ c s t, Alike s t → (f c s).1 = (f c t).1 ∧ Alike (f c s).2 (f c t).2) :
    (match r with | (none, s) => (0#64, s) | (some c, s) => f c s).1 =
        (match r' with | (none, s) => (0#64, s) | (some c, s) => f c s).1 ∧
      Alike (match r with | (none, s) => (0#64, s) | (some c, s) => f c s).2
        (match r' with | (none, s) => (0#64, s) | (some c, s) => f c s).2 := by
  obtain ⟨found, s⟩ := r
  obtain ⟨found', t⟩ := r'
  obtain ⟨hfound, hs⟩ := h
  obtain rfl : found = found' := hfound
  cases found with
  | none => exact ⟨rfl, hs⟩
  | some c => exact hf c s t hs

theorem Alike.getPte (h : Alike s t) (virt : Word) (create : Bool) :
    (getPte virt create s).1 = (getPte virt create t).1 ∧
      Alike (getPte virt create s).2 (getPte virt create t).2 := by
  unfold Mm.getPte
  rw [h.root]
  refine Alike.level (h.nextTable t.currentDir (pml4Idx virt) create) fun pdpt s t h => ?_
  refine Alike.level (h.nextTable pdpt (pdptIdx virt) create) fun pd s t h => ?_
  exact Alike.level (h.nextTable pd (pdIdx virt) create) fun pt s t h => ⟨rfl, h⟩

theorem Alike.mmMapPage (h : Alike s t) (phys virt flags : Word) :
    Alike (mmMapPage phys virt flags s).2 (mmMapPage phys virt flags t).2 := by
  obtain ⟨hpte, hs⟩ := h.getPte virt true
  unfold Mm.mmMapPage
  dsimp only
  rw [hpte]
  split
  · exact hs
  · exact ⟨hs.pool, hs.root, hs.mem.update _ _⟩

theorem Alike.mmUnmapPage (h : Alike s t) (virt : Word) :
    Alike (mmUnmapPage virt s).2 (mmUnmapPage virt t).2 := by
  obtain ⟨hpte, hs⟩ := h.getPte virt false
  unfold Mm.mmUnmapPage
  dsimp only
  rw [hpte, hs.mem.isPresent_eq]
  split
  · exact hs
  · exact ⟨hs.pool, hs.root, hs.mem.update _ _⟩

theorem Alike.mmStep (h : Alike s t) (op : MmOp) : Alike (mmStep s op) (mmStep t op) := by
  cases op with
  | mapPage phys virt flags => exact h.mmMapPage phys virt flags
  | unmapPage virt => exact h.mmUnmapPage virt
  | allocPage => exact ⟨congrArg (fun pool => (mmAllocPage pool).2) h.pool, h.root, h.mem⟩

theorem Alike.mapSteps (h : Alike s t) (phys virt flags : Word) :
    mapSteps phys virt flags s = mapSteps phys virt flags t := by
  obtain ⟨hpte, -⟩ := h.getPte virt true
  unfold Mm.mapSteps mapTail
  dsimp only
  rw [h.root, h.createStores, hpte]

theorem Alike.unmapTail (h : Alike s t) (virt : Word) : unmapTail virt s = unmapTail virt t := by
  obtain ⟨hpte, hs⟩ := h.getPte virt false
  unfold Mm.unmapTail
  dsimp only
  rw [hpte, hs.mem.isPresent_eq]

/-! ### What the processor marks -/

/-- Through the kernel's directory a walk goes from table to table. -/
theorem usedEntries_tables (halign : kd.toNat % 4096 = 0) (hlow : kd.toNat < 2 ^ 52)
    (hs : Tables kd s) (ha : a ∈ usedEntries s.mem kd k) :
    OnPath kd (path (pageBase k)) s a := by
  unfold usedEntries at ha
  unfold path
  simp only [pml4Idx, pdptIdx, pdIdx, ptIdx, and_0x1FF, physFrame_of_aligned halign hlow] at ha
  generalize (pageBase k).extractLsb' 39 9 = i4 at ha ⊢
  generalize (pageBase k).extractLsb' 30 9 = i3 at ha ⊢
  generalize (pageBase k).extractLsb' 21 9 = i2 at ha ⊢
  generalize (pageBase k).extractLsb' 12 9 = i1 at ha
  have hword {q : List Index} {c : Word} (hq : q <+: [i4, i3, i2])
      (hw : Radix.walk (next s.mem) kd q = some c) (i : Index) :
      OnPath kd [i4, i3, i2] s (entryAddr c (i.setWidth 64)) := ⟨q, c, hq, hw, i, rfl⟩
  have h4 := hword List.nil_prefix rfl i4
  cases hs.levels i4 i3 i2 with
  | pml4 habsent =>
    unfold entry at habsent
    simp [habsent] at ha
  | pdpt p4 hentry habsent =>
    unfold entry at hentry habsent
    simp only [hentry, isPresent_tableEntry, physFrame_tableEntry, habsent, Bool.not_true,
      Bool.not_false, Bool.false_eq_true, if_true, if_false, List.mem_singleton] at ha
    exact ha ▸ h4
  | pd p4 p3 hentry hentry3 habsent =>
    have hwalk4 : Radix.walk (next s.mem) kd [i4] = some (pageAddr p4) := by
      simp [Radix.walk, next_of_tableEntry hentry]
    have h3 := hword (by simp) hwalk4 i3
    unfold entry at hentry hentry3 habsent
    simp only [hentry, hentry3, isPresent_tableEntry, physFrame_tableEntry, isHuge_tableEntry,
      habsent, Bool.not_true, Bool.not_false, Bool.false_eq_true, if_true, if_false, List.mem_cons,
      List.not_mem_nil, or_false] at ha
    rcases ha with rfl | rfl
    · exact h4
    · exact h3
  | pt p4 p3 p2 hentry hentry3 hentry2 =>
    have hnext := next_of_tableEntry hentry
    have hnext3 := next_of_tableEntry hentry3
    have hnext2 := next_of_tableEntry hentry2
    have hwalk4 : Radix.walk (next s.mem) kd [i4] = some (pageAddr p4) := by
      simp [Radix.walk, hnext]
    have hwalk3 : Radix.walk (next s.mem) kd [i4, i3] = some (pageAddr p3) := by
      simp [Radix.walk, hnext, hnext3]
    have hwalk2 : Radix.walk (next s.mem) kd [i4, i3, i2] = some (pageAddr p2) := by
      simp [Radix.walk, hnext, hnext3, hnext2]
    have h3 := hword (by simp) hwalk4 i3
    have h2 := hword (by simp) hwalk3 i2
    have h1 := hword (List.prefix_refl _) hwalk2 i1
    unfold entry at hentry hentry3 hentry2
    simp only [hentry, hentry3, hentry2, isPresent_tableEntry, physFrame_tableEntry,
      isHuge_tableEntry, Bool.not_true, Bool.false_eq_true, if_false] at ha
    have hmem : a ∈ [entryAddr kd (i4.setWidth 64), entryAddr (pageAddr p4) (i3.setWidth 64),
        entryAddr (pageAddr p3) (i2.setWidth 64), entryAddr (pageAddr p2) (i1.setWidth 64)] := by
      split at ha
      · exact List.mem_of_mem_take (i := 3) ha
      · exact ha
    simp only [List.mem_cons, List.not_mem_nil, or_false] at hmem
    rcases hmem with rfl | rfl | rfl | rfl
    · exact h4
    · exact h3
    · exact h2
    · exact h1

/-- Through the bootloader's tables a walk stays in them. -/
theorem usedEntries_boot (hl : Layout pml4Table kd) (h : BootMapped pml4Table mem)
    (ha : a ∈ usedEntries mem pml4Table k) : a.toNat < 0x200000 := by
  have haligned := hl.aligned
  have hboot := hl.boot
  have hpdpt := pdptTable_toNat hl.bound
  have hpd := pdTable_toNat hl.bound
  have hpml4e := h.pml4 ((pageBase k).extractLsb' 39 9)
  have hpdpte := h.pdpt ((pageBase k).extractLsb' 30 9)
  have hpde := h.pd ((pageBase k).extractLsb' 21 9)
  have hnone : isPresent 0#64 = false := rfl
  have hword {c : Word} (hc : c.toNat + 4096 ≤ 0x200000) (i : Index) :
      (entryAddr c (i.setWidth 64)).toNat < 0x200000 := by
    have hi := i.isLt
    rw [entryAddr_toNat (by omega)]
    omega
  have hword4 := hword (c := pml4Table) (by omega) ((pageBase k).extractLsb' 39 9)
  have hword3 := hword (c := pdptTable pml4Table) (by omega) ((pageBase k).extractLsb' 30 9)
  have hword2 := hword (c := pdTable pml4Table) (by omega) ((pageBase k).extractLsb' 21 9)
  unfold entry at hpml4e hpdpte hpde
  unfold usedEntries at ha
  simp only [pml4Idx, pdptIdx, pdIdx, ptIdx, and_0x1FF, physFrame_of_aligned haligned (by omega),
    hpml4e] at ha
  generalize (pageBase k).extractLsb' 39 9 = i4 at *
  generalize (pageBase k).extractLsb' 30 9 = i3 at *
  by_cases h4 : i4 = 0
  · obtain ⟨hpresent, -⟩ := table_flags (a := pdptTable pml4Table) (by omega)
    have hframe : physFrame (pdptTable pml4Table ||| 0b11#64) = pdptTable pml4Table :=
      physFrame_or (by omega) (by omega) (by decide)
    rw [if_pos h4] at ha
    simp only [hpresent, hframe, hpdpte, Bool.not_true, Bool.false_eq_true, if_false] at ha
    by_cases h3 : i3 = 0
    · obtain ⟨hpresent3, hhuge3⟩ := table_flags (a := pdTable pml4Table) (by omega)
      have hframe3 : physFrame (pdTable pml4Table ||| 0b11#64) = pdTable pml4Table :=
        physFrame_or (by omega) (by omega) (by decide)
      rw [if_pos h3] at ha
      simp only [hpresent3, hhuge3, hframe3, hpde, huge_flags, Bool.not_true, Bool.false_eq_true,
        if_false, if_true, List.mem_cons, List.not_mem_nil, or_false] at ha
      rcases ha with rfl | rfl | rfl
      · exact hword4
      · exact hword3
      · exact hword2
    · rw [if_neg h3] at ha
      simp only [hnone, Bool.not_false, if_true, List.mem_singleton] at ha
      exact ha ▸ hword4
  · rw [if_neg h4] at ha
    simp [hnone] at ha

theorem PageInvariant.unlinked {r : PageRun} (hkd : OutsidePool kd) (hr : PageInvariant kd r)
    (hp : r.mm.pool.pageBitmap.test p = true ∨ pageAddr p ∈ r.held) :
    512 ≤ p.val ∧ ¬ IsTablePage kd r.mm p := by
  rcases hp with hfree | hheld
  · refine ⟨hr.tables.reserved p hfree, fun htable => ?_⟩
    have hsame : Owner.pool = .tables := hr.owner_unique (p := p) hkd hfree htable
    cases hsame
  · exact hr.not_isTablePage hheld

/-- At any moment of a call, what is free or held is no table. -/
theorem Tracked.unlinked (hl : Layout pml4Table kd)
    (hzero : ∀ i : Index, entry mem₀ kd i = 0#64) (hx : Tracked pml4Table kd mem₀ x)
    (hp : Unlinked x p) : 512 ≤ p.val ∧ ¬ IsTablePage kd x.run.mm p := by
  rcases hx.moment with ⟨s, t, m, m', build, tail, virt, n, h⟩ | ⟨m, virt, h⟩
  · have hpages := (shared_reachable hl.kernelDir hzero h.plan.after).pages
    obtain ⟨u, hmem, -, hkeeps⟩ := h.plan.through n
    have hp' : t.pool.pageBitmap.test p = true ∨ pageAddr p ∈ x.run.held := by
      have hpool : x.run.mm.pool = t.pool := by rw [h.mm]
      rw [← hpool]
      exact hp
    obtain ⟨hlo, hno⟩ := hpages.unlinked hl.kernelDir hp'
    refine ⟨hlo, fun htable => hno ?_⟩
    obtain ⟨is, hlen, hw⟩ := htable
    have hu : u.mem = x.run.mm.mem := by rw [hmem, h.mm]
    rw [← hu] at hw
    exact ⟨is, hlen, hkeeps is _ hlen hw⟩
  · exact (shared_reachable hl.kernelDir hzero h.after).pages.unlinked hl.kernelDir hp

theorem Tracked.tables (hl : Layout pml4Table kd)
    (hzero : ∀ i : Index, entry mem₀ kd i = 0#64) (hx : Tracked pml4Table kd mem₀ x) :
    ∃ u, u.mem = x.run.mm.mem ∧ Tables kd u := by
  rcases hx.moment with ⟨s, t, m, m', build, tail, virt, n, h⟩ | ⟨m, virt, h⟩
  · obtain ⟨u, hmem, hext, -⟩ := h.plan.through n
    exact ⟨u, by rw [hmem, h.mm], hext.tables⟩
  · exact ⟨x.run.mm, rfl, (shared_reachable hl.kernelDir hzero h.after).pages.tables⟩

/-- The processor marks tables only. -/
theorem Tracked.used_ne (hl : Layout pml4Table kd) (hplaced : DirectoryPlaced kd)
    (hzero : ∀ i : Index, entry mem₀ kd i = 0#64) (hx : Tracked pml4Table kd mem₀ x)
    (ha : a ∈ usedEntries x.run.mm.mem x.cr3 k) (hp : Unlinked x p) (i : Index) :
    entryAddr (pageAddr p) (i.setWidth 64) ≠ a := by
  obtain ⟨hlo, hno⟩ := hx.unlinked hl hzero hp
  have haddr := pageAddr_toNat p
  have hlt := lt_maxPages p
  have hi := i.isLt
  rintro rfl
  rcases hx.cr3 with hcr3 | hcr3
  · rw [hcr3] at ha
    have hlow := usedEntries_boot hl hx.boot ha
    rw [entryAddr_toNat (by omega)] at hlow
    omega
  · rw [hcr3] at ha
    obtain ⟨u, hmem, htables⟩ := hx.tables hl hzero
    have hkd := hplaced.low
    rw [← hmem] at ha
    obtain ⟨q, c, hq, hw, j, hword⟩ := usedEntries_tables hplaced.aligned (by omega) htables ha
    have hlen : q.length ≤ 3 := hq.length_le
    have hc := htables.isTable hlen hw
    obtain ⟨hpage, -⟩ := entryAddr_inj hl.kernelDir (Or.inr ⟨p, hlo, rfl⟩) hc hword
    rw [hmem, ← hpage] at hw
    exact hno ⟨q, hlen, hw⟩

/-! ### The run without marks -/

theorem withMem_self (x : Paged) : x.withMem x.run.mm.mem = x := rfl

theorem Marks.alike (h : Marks x mem) : Alike (x.withMem mem).run.mm x.run.mm := ⟨rfl, rfl, h.same⟩

theorem Marks.look_eq (h : Marks x mem) : (x.withMem mem).look = x.look :=
  funext fun k => h.same.mmuPage_eq x.cr3 k

/-- A step that takes no page from the tables. -/
theorem Marks.of_unlinked (h : Marks x mem) (hmem : y.run.mm.mem = x.run.mm.mem)
    (hp : ∀ p, Unlinked y p → Unlinked x p) : Marks y mem where
  same := by
    rw [hmem]
    exact h.same
  page p hunlinked i := by
    rw [hmem]
    exact h.page p (hp p hunlinked) i

theorem Marks.update (h : Marks x mem) (hmem : y.run.mm.mem = Function.update x.run.mm.mem a v)
    (hp : ∀ p, Unlinked y p → Unlinked x p) : Marks y (Function.update mem a v) where
  same := by
    rw [hmem]
    exact h.same.update a v
  page p hunlinked i := by
    rw [hmem]
    unfold entry
    by_cases ha : entryAddr (pageAddr p) (i.setWidth 64) = a
    · rw [ha, Function.update_self, Function.update_self]
    · rw [Function.update_of_ne ha, Function.update_of_ne ha]
      exact h.page p (hp p hunlinked) i

theorem Marks.mark (hl : Layout pml4Table kd) (hplaced : DirectoryPlaced kd)
    (hzero : ∀ i : Index, entry mem₀ kd i = 0#64) (hx : Tracked pml4Table kd mem₀ x)
    (h : Marks x mem) (ha : a ∈ usedEntries x.run.mm.mem x.cr3 k)
    (hv : v &&& ~~~(accessedBit ||| dirtyBit) = 0#64) :
    Marks x (Function.update mem a (mem a ||| v)) where
  same b := by
    by_cases hb : b = a
    · rw [hb, Function.update_self, unmarked_or hv]
      exact h.same a
    · rw [Function.update_of_ne hb]
      exact h.same b
  page p hp i := by
    have hne := hx.used_ne hl hplaced hzero ha hp i
    unfold entry
    rw [Function.update_of_ne hne]
    exact h.page p hp i

theorem SelfMapped.unmarked {op : MmOp} (h : Marks x mem)
    (hself : SelfMapped kd (x.withMem mem) virt op) : SelfMapped kd x virt op := by
  intro is c his hw
  have hsame := (h.alike.mmStep op).mem.next_eq
  have hlook := h.look_eq
  rw [← hsame] at hw
  obtain ⟨hfresh, hmapped⟩ := hself is c his hw
  rw [hlook] at hmapped
  exact ⟨hfresh, hmapped⟩

/-- No call gives a page back to the pool. -/
theorem pool_mmStep (hkd : OutsidePool kd) (hs : Tables kd s) (op : MmOp)
    (hp : (mmStep s op).pool.pageBitmap.test p = true) : s.pool.pageBitmap.test p = true := by
  cases op with
  | mapPage phys virt flags =>
    rw [mmStep] at hp
    rcases mmMapPage_cases hkd hs phys virt flags with ⟨t, -, hg, -, he⟩ | ⟨pt, t, -, hg, -, -, he⟩
    · rw [he] at hp
      exact hg.pool p hp
    · rw [he] at hp
      exact hg.pool p hp
  | unmapPage virt =>
    rw [mmStep, pool_mmUnmapPage hs] at hp
    exact hp
  | allocPage => exact test_mmAllocPage hp

theorem unlinked_free {r : PageRun} {a : Word} {pool : Pool} (hr : PageInvariant kd r)
    (ha : a ∈ r.held) (hfree : mmFreePage a r.mm.pool = some pool)
    (hp : pool.pageBitmap.test p = true ∨ pageAddr p ∈ r.held.erase a) :
    r.mm.pool.pageBitmap.test p = true ∨ pageAddr p ∈ r.held := by
  obtain ⟨p', -, rfl, -, -⟩ := hr.held a ha
  rw [mmFreePage_pageAddr] at hfree
  obtain rfl := Option.some.inj hfree
  rcases hp with hp | hp
  · rw [Bitmap.test_set] at hp
    by_cases heq : p = p'
    · rw [heq]
      exact Or.inr ha
    · left
      simpa [heq] using hp
  · exact Or.inr (List.mem_of_mem_erase hp)

/-- A step beside marks is a step without them. -/
theorem Marks.step (hl : Layout pml4Table kd) (hplaced : DirectoryPlaced kd)
    (hzero : ∀ i : Index, entry mem₀ kd i = 0#64) (hx : Tracked pml4Table kd mem₀ x)
    (h : Marks x mem) (hstep : PagedStep kd (x.withMem mem) z) :
    ∃ y mem', z = y.withMem mem' ∧ PagedStep kd x y ∧ Marks y mem' := by
  cases hstep with
  | mapPage phys virt flags htodo hself =>
    refine ⟨_, mem, ?_, .mapPage phys virt flags htodo (hself.unmarked h), ?_⟩
    · have hpool := (h.alike.mmStep (.mapPage phys virt flags)).pool
      have htodo := h.alike.mapSteps phys virt flags
      rw [Paged.begin, htodo, hpool]
      rfl
    · obtain ⟨m, hreach, -, -⟩ := hx.idle hl hplaced hzero htodo
      have hs := (shared_reachable hl.kernelDir hzero hreach).pages.tables
      exact h.of_unlinked rfl fun p hp => hp.imp_left (pool_mmStep hl.kernelDir hs _)
  | unmapPage virt htodo hself =>
    refine ⟨_, mem, ?_, .unmapPage virt htodo (hself.unmarked h), ?_⟩
    · have hpool := (h.alike.mmStep (.unmapPage virt)).pool
      have htodo := h.alike.unmapTail virt
      rw [Paged.begin, htodo, hpool]
      rfl
    · obtain ⟨m, hreach, -, -⟩ := hx.idle hl hplaced hzero htodo
      have hs := (shared_reachable hl.kernelDir hzero hreach).pages.tables
      exact h.of_unlinked rfl fun p hp => hp.imp_left (pool_mmStep hl.kernelDir hs _)
  | store htodo => exact ⟨_, _, rfl, .store htodo, h.update rfl fun p hp => hp⟩
  | invlpg htodo =>
    refine ⟨_, mem, ?_, .invlpg htodo, h.of_unlinked ?_ fun p hp => ?_⟩
    · unfold Paged.invlpg
      split
      · rfl
      · rfl
    · rw [invlpg_run]
    · unfold Unlinked at hp
      rw [invlpg_run] at hp
      exact hp
  | alloc htodo hne =>
    refine ⟨_, mem, rfl, .alloc htodo hne, h.of_unlinked rfl fun p hp => ?_⟩
    rcases hp with hp | hp
    · exact Or.inl (test_mmAllocPage hp)
    · rcases List.mem_cons.mp hp with hp | hp
      · left
        rcases mmAllocPage_cases x.run.mm.pool with ⟨p', hp', -, he⟩ | ⟨-, he⟩
        · rw [he] at hp
          obtain rfl := pageAddr_injective hp
          exact hp'
        · exact absurd (congrArg Prod.fst he) hne
      · exact Or.inr hp
  | free htodo hp hfree =>
    obtain ⟨m, hreach, -, -⟩ := hx.idle hl hplaced hzero htodo
    have hr := (shared_reachable hl.kernelDir hzero hreach).pages
    exact ⟨_, mem, rfl, .free htodo hp hfree,
      h.of_unlinked rfl fun p' hp' => unlinked_free hr hp hfree hp'⟩
  | @use p htodo hp i v =>
    exact ⟨{ x with run := ⟨storeWord x.run.mm p i v, x.run.held⟩ }, _, rfl,
      PagedStep.use (x := x) htodo hp i v, h.update rfl fun p hp => hp⟩
  | switch htodo => exact ⟨_, mem, rfl, .switch htodo, h.of_unlinked rfl fun p hp => hp⟩
  | fill k =>
    refine ⟨_, mem, ?_, .fill k, h.of_unlinked rfl fun p hp => hp⟩
    rw [h.look_eq]
    rfl
  | evict keep => exact ⟨_, mem, rfl, .evict keep, h.of_unlinked rfl fun p hp => hp⟩

/-- Marks come and go beside a run that makes none. -/
theorem marks_reachable {s : MemoryManager} (hplaced : DirectoryPlaced kd)
    (hboot : Booted pml4Table kd s) (h : MarkedReachable pml4Table kd s x) :
    ∃ y mem, PagedReachable pml4Table kd s y ∧ x = y.withMem mem ∧ Marks y mem := by
  have hl := hboot.layout
  have hzero := startMem_zero hboot
  induction h with
  | refl => exact ⟨_, _, .refl, (withMem_self _).symm, fun _ => rfl, fun _ _ _ => rfl⟩
  | tail _ hstep ih =>
    obtain ⟨y, mem, hy, rfl, hmarks⟩ := ih
    have htracked := tracked_reachable hplaced hboot hy
    cases hstep with
    | paged hstep =>
      obtain ⟨z, mem', rfl, hstep', hmarks'⟩ := hmarks.step hl hplaced hzero htracked hstep
      exact ⟨z, mem', hy.tail hstep', rfl, hmarks'⟩
    | accessed k ha =>
      have ha' := (hmarks.same.usedEntries_eq y.cr3 k) ▸ ha
      exact ⟨y, _, hy, rfl, hmarks.mark hl hplaced hzero htracked ha' (by decide)⟩
    | dirty k hfound ha =>
      have ha' := (hmarks.same.usedEntries_eq y.cr3 k) ▸ List.mem_of_getLast? ha
      exact ⟨y, _, hy, rfl, hmarks.mark hl hplaced hzero htracked ha' (by decide)⟩

theorem mark_word (x : Paged) (a bits : Word) :
    (x.mark a bits).run.mm.mem a = x.run.mm.mem a ||| bits :=
  Function.update_self a _ _

theorem root_used (h : (x.look k).isSome) :
    entryAddr (physFrame x.cr3) (pml4Idx (pageBase k)) ∈ usedEntries x.run.mm.mem x.cr3 k := by
  unfold Paged.look mmuPage at h
  unfold usedEntries
  dsimp only at h ⊢
  split at h
  · cases h
  rename_i hpresent
  rw [if_neg hpresent]
  split
  · exact List.mem_cons_self
  split
  · exact List.mem_cons_self
  split
  · exact List.mem_cons_self
  split
  · exact List.mem_cons_self
  split
  · exact List.mem_cons_self
  · exact List.mem_cons_self

end FenwickOS.Mm
