import FenwickOS.Lib.Tlb
import FenwickOS.Mm.ActiveTables
import FenwickOS.Mm.Sharing

/-! The translations that the processor caches, beside the calls of kernel/mm/paging.c: the stores
of a call, its invlpg and the loads of the root register one by one, with the walks of the
processor at any moment between them. -/
namespace FenwickOS.Mm
open Machine

structure Translation where
  frame : Word
  rights : Rights
  isGlobal : Bool
  deriving DecidableEq

/-- Bit 8 of the entry that ends the walk. -/
def isGlobalEntry (e : Word) : Bool := e.getLsbD 8

def pageBase (k : BitVec 36) : Word := k.setWidth 64 <<< 12

/-- The walk of the processor for one page. Of a large page it takes 4 KiB. -/
def mmuPage (mem : Word → Word) (cr3 : Word) (k : BitVec 36) : Option Translation :=
  let virt := pageBase k
  let pml4e := mem (entryAddr (physFrame cr3) (pml4Idx virt))
  if !isPresent pml4e then none
  else
    let pdpte := mem (entryAddr (physFrame pml4e) (pdptIdx virt))
    if !isPresent pdpte then none
    else if isHuge pdpte then
      some ⟨pdpte &&& 0x000FFFFFC0000000#64 ||| virt &&& 0x3FFFFFFF#64, rights [pml4e, pdpte],
        isGlobalEntry pdpte⟩
    else
      let pde := mem (entryAddr (physFrame pdpte) (pdIdx virt))
      if !isPresent pde then none
      else if isHuge pde then
        some ⟨pde &&& 0x000FFFFFFFE00000#64 ||| virt &&& 0x1FFFFF#64, rights [pml4e, pdpte, pde],
          isGlobalEntry pde⟩
      else
        let pte := mem (entryAddr (physFrame pde) (ptIdx virt))
        if !isPresent pte then none
        else some ⟨physFrame pte, rights [pml4e, pdpte, pde, pte], isGlobalEntry pte⟩

def leafTranslation (e : Word) : Translation := ⟨physFrame e, rights [e], isGlobalEntry e⟩

/-- A store to memory, or `paging_invalidate`. -/
inductive Micro
  | store (a v : Word)
  | invlpg (virt : Word)

/-- The stores that clear a new table and enter it into its parent. -/
def installStores (table idx phys : Word) : List (Word × Word) :=
  (List.range pagesPerTable).map (fun i => (entryAddr phys (BitVec.ofNat 64 i), 0#64)) ++
    [(entryAddr table idx, tableEntry phys)]

/-- The stores of one level of `get_pte(virt, 1)`. -/
def nextTableStores (table idx : Word) (s : MmState) : List (Word × Word) :=
  if isPresent (s.mem (entryAddr table idx)) then []
  else
    let phys := (mmAllocPage s.pool).1
    if phys = 0#64 then [] else installStores table idx phys

def createStores : (table : Word) → List Index → MmState → List (Word × Word)
  | _, [], _ => []
  | table, i :: is, s =>
    nextTableStores table (i.setWidth 64) s ++
      match nextTable table (i.setWidth 64) true s with
      | (none, _) => []
      | (some c, s) => createStores c is s

def leafSteps (pte e virt : Word) : List Micro := [.store pte e, .invlpg virt]

def mapTail (phys virt flags : Word) (s : MmState) : List Micro :=
  let (pte, _) := getPte virt true s
  if pte = 0#64 then [] else leafSteps pte (leafEntry phys flags) virt

def unmapTail (virt : Word) (s : MmState) : List Micro :=
  let (pte, s) := getPte virt false s
  if pte = 0#64 ∨ !isPresent (s.mem pte) then [] else leafSteps pte 0#64 virt

def stores (l : List (Word × Word)) : List Micro := l.map fun x => .store x.1 x.2

def storeAll (mem : Word → Word) (l : List (Word × Word)) : Word → Word :=
  l.foldl (fun mem x => Function.update mem x.1 x.2) mem

/-- What the two calls do to memory, step by step. -/
def mapSteps (phys virt flags : Word) (s : MmState) : List Micro :=
  stores (createStores s.currentDir (path virt) s) ++ mapTail phys virt flags s

/-- paging.c and the processor. `todo` is what is left of the call under way; `missed` are the
addresses of calls whose invlpg the processor has ignored, until one for the same page counts. -/
structure Paged where
  run : PageRun
  cr3 : Word
  tlb : Tlb (BitVec 36) Translation
  todo : List Micro
  missed : List Word

def Paged.look (x : Paged) (k : BitVec 36) : Option Translation :=
  mmuPage x.run.mm.mem x.cr3 k

/-- The new state of paging.c, whose memory is still to be written. -/
def Paged.begin (x : Paged) (op : MmOp) (todo : List Micro) : Paged :=
  { x with
    run := { x.run with mm := { x.run.mm with pool := (mmStep x.run.mm op).pool } }
    todo := todo }

def Paged.store (x : Paged) (a v : Word) (todo : List Micro) : Paged :=
  { x with
    run := { x.run with mm := { x.run.mm with mem := Function.update x.run.mm.mem a v } }
    todo := todo }

/-- With an address that is not canonical invlpg does nothing. -/
def Paged.invlpg (x : Paged) (virt : Word) (todo : List Micro) : Paged :=
  if Canonical virt then
    { x with
      tlb := x.tlb.invalidate (key virt)
      todo := todo
      missed := x.missed.filter fun v => key v ≠ key virt }
  else { x with todo := todo, missed := virt :: x.missed }

/-- The bootloader sets CR4.PGE, so that a load of the root register drops all translations but
the global ones. -/
def Paged.switch (x : Paged) (dir : Word) : Paged :=
  let p := pagingSwitchDirectory dir ⟨x.run.mm, x.cr3⟩
  { x with
    run := ⟨p.mm, x.run.held⟩
    cr3 := p.cr3
    tlb := x.tlb.evict fun entry => entry.2.isGlobal }

/-- The page of an address whose invlpg has been ignored. -/
def Paged.stale (x : Paged) (k : BitVec 36) : Prop := ∃ v ∈ x.missed, key v = k

/-- paging.c takes physical addresses for virtual ones. The tables that a call walks have to be
mapped to themselves, as they are while the bootloader's tables are in use, and no invlpg for their
pages may have been ignored. -/
def SelfMapped (kd : Word) (x : Paged) (virt : Word) (op : MmOp) : Prop :=
  ∀ is c, is <+: path virt → Radix.walk (next (mmStep x.run.mm op).mem) kd is = some c →
    ¬ x.stale (key c) ∧
      (x.cr3 = kd → ∃ t, x.look (key c) = some t ∧ t.frame = c ∧ t.rights.writable = true)

inductive PagedStep (kd : Word) : Paged → Paged → Prop
  | mapPage {x : Paged} (phys virt flags : Word) (h : x.todo = [])
      (hself : SelfMapped kd x virt (.mapPage phys virt flags)) :
    PagedStep kd x (x.begin (.mapPage phys virt flags) (mapSteps phys virt flags x.run.mm))
  | unmapPage {x : Paged} (virt : Word) (h : x.todo = [])
      (hself : SelfMapped kd x virt (.unmapPage virt)) :
    PagedStep kd x (x.begin (.unmapPage virt) (unmapTail virt x.run.mm))
  | store {x : Paged} {a v : Word} {todo : List Micro} (h : x.todo = .store a v :: todo) :
    PagedStep kd x (x.store a v todo)
  | invlpg {x : Paged} {virt : Word} {todo : List Micro} (h : x.todo = .invlpg virt :: todo) :
    PagedStep kd x (x.invlpg virt todo)
  | alloc {x : Paged} (h : x.todo = []) (hne : (mmAllocPage x.run.mm.pool).1 ≠ 0#64) :
    PagedStep kd x { x with
      run := ⟨mmStep x.run.mm .allocPage, (mmAllocPage x.run.mm.pool).1 :: x.run.held⟩ }
  | free {x : Paged} {p : Word} {pool : Pool} (h : x.todo = []) (hp : p ∈ x.run.held)
      (hfree : mmFreePage p x.run.mm.pool = some pool) :
    PagedStep kd x { x with run := ⟨{ x.run.mm with pool := pool }, x.run.held.erase p⟩ }
  | use {x : Paged} {p : Fin maxPages} (h : x.todo = []) (hp : pageAddr p ∈ x.run.held)
      (i : Index) (v : Word) :
    PagedStep kd x { x with run := ⟨storeWord x.run.mm p i v, x.run.held⟩ }
  | switch {x : Paged} (h : x.todo = []) : PagedStep kd x (x.switch kd)
  | fill {x : Paged} (k : BitVec 36) :
    PagedStep kd x { x with tlb := x.tlb.fill x.look k }
  | evict {x : Paged} (keep : BitVec 36 × Translation → Bool) :
    PagedStep kd x { x with tlb := x.tlb.evict keep }

/-- After the bootloader and `mm_start`. The load of the root register in `start` has emptied the
cache; what has been taken in since can be taken in again. -/
def Paged.start (pml4Table kd : Word) (s : MemoryManager) : Paged :=
  let p := PagingState.start pml4Table kd s
  ⟨⟨p.mm, []⟩, p.cr3, [], [], []⟩

/-- What the bootloader's tables say about a page. -/
def bootTranslation (k : BitVec 36) : Option Translation :=
  if k.extractLsb' 18 18 = 0#18 then some ⟨pageBase k, ⟨true, false, true⟩, false⟩ else none

/-- What the processor finds: the map that the calls have made, once its root register holds the
kernel's directory. -/
def translations (kd cr3 : Word) (m : PageMap) (k : BitVec 36) : Option Translation :=
  if cr3 = kd then (m k).map leafTranslation else bootTranslation k

/-- Word `a` of a table of `t` on the way along `is`. -/
def OnPath (kd : Word) (is : List Index) (t : MmState) (a : Word) : Prop :=
  ∃ q c, q <+: is ∧ Radix.walk (next t.mem) kd q = some c ∧ ∃ i : Index,
    a = entryAddr c (i.setWidth 64)

/-- A call for `virt` from `s` to `t`: the stores of `build` change no translation, and what comes
after them changes at most one. -/
structure Plan (kd : Word) (mem : Word → Word) (held : List Word) (s t : MmState)
    (m m' : Contents) (build : List (Word × Word)) (tail : List Micro) (virt : Word) : Prop where
  before : UseReachable kd mem (⟨s, held⟩, m)
  after : UseReachable kd mem (⟨t, held⟩, m')
  through : ∀ n, ∃ u, u.mem = storeAll s.mem (build.take n) ∧ Extends kd s u ∧ Keeps kd u t
  words : ∀ x ∈ build, OnPath kd (path virt) t x.1
  tail : (tail = [] ∧ t.mem = storeAll s.mem build ∧ m'.map = m.map) ∨
    ∃ pte e, tail = leafSteps pte e virt ∧ OnPath kd (path virt) t pte ∧
      t.mem = Function.update (storeAll s.mem build) pte e ∧
      ∀ k, k ≠ key virt → m'.map k = m.map k

variable {kd pml4Table a c : Word} {s t u : MmState} {mem : Word → Word} {k : BitVec 36}
  {p : Fin maxPages} {i : Index} {q is w : List Index} {l l' : List (Word × Word)} {x y : Paged}
  {m m' : Contents} {held : List Word} {virt v : Word} {build : List (Word × Word)}
  {tail todo : List Micro} {n : Nat}

/-! ### The walk of the processor -/

theorem pageBase_toNat (k : BitVec 36) : (pageBase k).toNat = k.toNat * 4096 := by
  have hk := k.isLt
  rw [pageBase, BitVec.toNat_shiftLeft, BitVec.toNat_setWidth, Nat.shiftLeft_eq]
  omega

theorem key_pageBase (k : BitVec 36) : key (pageBase k) = k := by
  have hk := k.isLt
  apply BitVec.eq_of_toNat_eq
  rw [key, BitVec.extractLsb'_toNat, pageBase_toNat, Nat.shiftRight_eq_div_pow]
  omega

theorem physFrame_tableEntry (p : Fin maxPages) :
    physFrame (tableEntry (pageAddr p)) = pageAddr p := by
  have hp := lt_maxPages p
  have hflags : (pagePresent ||| pageWritable ||| pageUser).toNat < 4096 := by decide
  rw [tableEntry, BitVec.or_assoc, BitVec.or_assoc, ← BitVec.or_assoc pagePresent]
  refine physFrame_or ?_ ?_ hflags
  · rw [pageAddr_toNat]
    omega
  · rw [pageAddr_toNat]
    omega

theorem isHuge_tableEntry (p : Fin maxPages) : isHuge (tableEntry (pageAddr p)) = false := by
  have hbit : (pageAddr p).getLsbD 7 = false := by
    rw [BitVec.getLsbD, pageAddr_toNat, Nat.testBit_eq_decide_div_mod_eq, decide_eq_false_iff_not]
    omega
  rw [isHuge_eq_getLsbD, tableEntry, BitVec.getLsbD_or, BitVec.getLsbD_or, BitVec.getLsbD_or, hbit]
  rfl

theorem rights_cons_tableEntry (p : Fin maxPages) (entries : List Word) :
    rights (tableEntry (pageAddr p) :: entries) = rights entries := by
  have h := rights_tableEntry p
  simp only [rights, List.all_cons, List.all_nil, Bool.and_true, Rights.mk.injEq] at h ⊢
  obtain ⟨hwritable, huser, hexecutable⟩ := h
  simp only [hwritable, huser, hexecutable, Bool.true_and, and_self]

theorem next_of_absent (h : isPresent (entry mem c i) = false) : next mem c i = none := by
  rw [next, h]
  rfl

theorem next_of_tableEntry (h : entry mem c i = tableEntry (pageAddr p)) :
    next mem c i = some (pageAddr p) := by
  rw [next, h, isPresent_tableEntry, if_pos rfl, frame_tableEntry]

/-- Above the last level an entry is absent, or points to a table that `get_pte` made. -/
theorem Tables.level (hs : Tables kd s) (hl : is.length < 3)
    (hw : Radix.walk (next s.mem) kd is = some c) (i : Index) :
    isPresent (entry s.mem c i) = false ∨ ∃ p, entry s.mem c i = tableEntry (pageAddr p) := by
  cases hpres : isPresent (entry s.mem c i) with
  | false => exact Or.inl rfl
  | true => exact Or.inr (hs.made is c i hl hw hpres)

/-- How far a walk from the kernel's directory gets before it comes to the last level. -/
inductive Levels (mem : Word → Word) (kd : Word) (i4 i3 i2 : Index) : Prop
  | pml4 (habsent : isPresent (entry mem kd i4) = false)
  | pdpt (p4 : Fin maxPages) (hentry : entry mem kd i4 = tableEntry (pageAddr p4))
      (habsent : isPresent (entry mem (pageAddr p4) i3) = false)
  | pd (p4 p3 : Fin maxPages) (hentry : entry mem kd i4 = tableEntry (pageAddr p4))
      (hentry3 : entry mem (pageAddr p4) i3 = tableEntry (pageAddr p3))
      (habsent : isPresent (entry mem (pageAddr p3) i2) = false)
  | pt (p4 p3 p2 : Fin maxPages) (hentry : entry mem kd i4 = tableEntry (pageAddr p4))
      (hentry3 : entry mem (pageAddr p4) i3 = tableEntry (pageAddr p3))
      (hentry2 : entry mem (pageAddr p3) i2 = tableEntry (pageAddr p2))

theorem Tables.levels (hs : Tables kd s) (i4 i3 i2 : Index) : Levels s.mem kd i4 i3 i2 := by
  have hroot : Radix.walk (next s.mem) kd [] = some kd := rfl
  rcases hs.level (by simp) hroot i4 with habsent | ⟨p4, hentry⟩
  · exact .pml4 habsent
  have hwalk4 : Radix.walk (next s.mem) kd [i4] = some (pageAddr p4) := by
    simp [Radix.walk, next_of_tableEntry hentry]
  rcases hs.level (by simp) hwalk4 i3 with habsent | ⟨p3, hentry3⟩
  · exact .pdpt p4 hentry habsent
  have hwalk3 : Radix.walk (next s.mem) kd [i4, i3] = some (pageAddr p3) := by
    simp [Radix.walk, next_of_tableEntry hentry, next_of_tableEntry hentry3]
  rcases hs.level (by simp) hwalk3 i2 with habsent | ⟨p2, hentry2⟩
  · exact .pd p4 p3 hentry hentry3 habsent
  · exact .pt p4 p3 p2 hentry hentry3 hentry2

/-- Through the kernel's tables the processor finds the leaf that `get_pte` finds. -/
theorem mmuPage_tables (halign : kd.toNat % 4096 = 0) (hlow : kd.toNat < 2 ^ 52)
    (hs : Tables kd s) (k : BitVec 36) :
    mmuPage s.mem kd k =
      (Radix.find (next s.mem) (leaf s.mem) kd (path (pageBase k)) (lastIndex (pageBase k))).map
        leafTranslation := by
  unfold mmuPage path lastIndex
  simp only [pml4Idx, pdptIdx, pdIdx, ptIdx, and_0x1FF, physFrame_of_aligned halign hlow]
  generalize (pageBase k).extractLsb' 39 9 = i4
  generalize (pageBase k).extractLsb' 30 9 = i3
  generalize (pageBase k).extractLsb' 21 9 = i2
  generalize (pageBase k).extractLsb' 12 9 = i1
  cases hs.levels i4 i3 i2 with
  | pml4 habsent =>
    have hnext := next_of_absent habsent
    unfold entry at habsent
    simp [habsent, Radix.find, Radix.walk, hnext]
  | pdpt p4 hentry habsent =>
    have hnext := next_of_tableEntry hentry
    have hnext3 := next_of_absent habsent
    unfold entry at hentry habsent
    simp [hentry, isPresent_tableEntry, physFrame_tableEntry, habsent, Radix.find, Radix.walk,
      hnext, hnext3]
  | pd p4 p3 hentry hentry3 habsent =>
    have hnext := next_of_tableEntry hentry
    have hnext3 := next_of_tableEntry hentry3
    have hnext2 := next_of_absent habsent
    unfold entry at hentry hentry3 habsent
    simp [hentry, hentry3, isPresent_tableEntry, physFrame_tableEntry, isHuge_tableEntry, habsent,
      Radix.find, Radix.walk, hnext, hnext3, hnext2]
  | pt p4 p3 p2 hentry hentry3 hentry2 =>
    have hnext := next_of_tableEntry hentry
    have hnext3 := next_of_tableEntry hentry3
    have hnext2 := next_of_tableEntry hentry2
    unfold entry at hentry hentry3 hentry2
    simp only [hentry, hentry3, hentry2, isPresent_tableEntry, physFrame_tableEntry,
      isHuge_tableEntry, rights_cons_tableEntry, Bool.not_true, Bool.false_eq_true, if_false,
      Radix.find, Radix.walk, hnext, hnext3, hnext2, Option.bind_some, leaf, entry]
    by_cases hpres : isPresent (s.mem (entryAddr (pageAddr p2) (i1.setWidth 64))) = true
    · simp [hpres, leafTranslation]
    · simp [hpres]

theorem boot_rights (haligned : pml4Table.toNat % 4096 = 0)
    (hbound : pml4Table.toNat + 0x3000 ≤ 2 ^ 32) (i : Index) :
    rights [pdptTable pml4Table ||| 0b11#64, pdTable pml4Table ||| 0b11#64,
      BitVec.ofNat 64 (0x200000 * i.toNat) ||| 0b10000011#64] = ⟨true, false, true⟩ := by
  have hi := i.isLt
  have hpdpt := pdptTable_toNat hbound
  have hpd := pdTable_toNat hbound
  have hbit (a : Word) (ha : a.toNat % 4096 = 0) (hlt : a.toNat < 2 ^ 63) :
      a.getLsbD 2 = false ∧ a.getLsbD 63 = false := by
    rw [BitVec.getLsbD, BitVec.getLsbD, Nat.testBit_eq_decide_div_mod_eq, decide_eq_false_iff_not]
    exact ⟨by omega, Nat.testBit_lt_two_pow hlt⟩
  have hhuge : (BitVec.ofNat 64 (0x200000 * i.toNat)).toNat = 0x200000 * i.toNat := by
    rw [BitVec.toNat_ofNat]
    omega
  obtain ⟨huser, hhigh⟩ := hbit (pdptTable pml4Table) (by omega) (by omega)
  obtain ⟨huser3, hhigh3⟩ := hbit (pdTable pml4Table) (by omega) (by omega)
  obtain ⟨huser2, hhigh2⟩ := hbit (BitVec.ofNat 64 (0x200000 * i.toNat)) (by omega) (by omega)
  simp only [rights, List.all_cons, List.all_nil, BitVec.getLsbD_or, huser, huser3, huser2, hhigh,
    hhigh3, hhigh2, Bool.false_or, Bool.and_true]
  rw [Rights.mk.injEq]
  exact ⟨by simp, rfl, rfl⟩

theorem boot_notGlobal (i : Index) :
    isGlobalEntry (BitVec.ofNat 64 (0x200000 * i.toNat) ||| 0b10000011#64) = false := by
  have hi := i.isLt
  have hbit : (BitVec.ofNat 64 (0x200000 * i.toNat)).getLsbD 8 = false := by
    rw [BitVec.getLsbD, BitVec.toNat_ofNat, Nat.testBit_eq_decide_div_mod_eq,
      decide_eq_false_iff_not]
    omega
  rw [isGlobalEntry, BitVec.getLsbD_or, hbit]
  rfl

/-- Through the bootloader's tables each page of the first GiB is found at its own address. -/
theorem mmuPage_boot (haligned : pml4Table.toNat % 4096 = 0)
    (hbound : pml4Table.toNat + 0x3000 ≤ 2 ^ 32) (h : BootMapped pml4Table mem) (k : BitVec 36) :
    mmuPage mem pml4Table k = bootTranslation k := by
  have hpdpt := pdptTable_toNat hbound
  have hpd := pdTable_toNat hbound
  have hpml4e := h.pml4 ((pageBase k).extractLsb' 39 9)
  have hpdpte := h.pdpt ((pageBase k).extractLsb' 30 9)
  have hpde := h.pd ((pageBase k).extractLsb' 21 9)
  have hnone : isPresent 0#64 = false := rfl
  have hfirst : k.extractLsb' 18 18 = 0#18 ↔
      (pageBase k).extractLsb' 39 9 = 0 ∧ (pageBase k).extractLsb' 30 9 = 0 := by
    rw [← index_eq_zero, ← BitVec.toNat_inj, ← BitVec.toNat_inj, BitVec.extractLsb'_toNat,
      BitVec.extractLsb'_toNat, Nat.shiftRight_eq_div_pow, Nat.shiftRight_eq_div_pow,
      pageBase_toNat]
    have hk := k.isLt
    simp only [BitVec.toNat_ofNat]
    omega
  unfold entry at hpml4e hpdpte hpde
  unfold mmuPage bootTranslation
  simp only [pml4Idx, pdptIdx, pdIdx, and_0x1FF, hfirst, physFrame_of_aligned haligned
    (Nat.lt_of_le_of_lt (Nat.le_add_right _ 0x3000) (Nat.lt_of_le_of_lt hbound (by decide))),
    hpml4e]
  by_cases h4 : (pageBase k).extractLsb' 39 9 = 0
  · obtain ⟨hpresent, hhuge⟩ := table_flags (a := pdptTable pml4Table) (by omega)
    have hframe : physFrame (pdptTable pml4Table ||| 0b11#64) = pdptTable pml4Table :=
      physFrame_or (by omega) (by omega) (by decide)
    simp only [h4, if_true, hpresent, hframe, hpdpte, Bool.not_true, Bool.false_eq_true, if_false,
      true_and]
    by_cases h3 : (pageBase k).extractLsb' 30 9 = 0
    · obtain ⟨hpresent3, hhuge3⟩ := table_flags (a := pdTable pml4Table) (by omega)
      have hframe3 : physFrame (pdTable pml4Table ||| 0b11#64) = pdTable pml4Table :=
        physFrame_or (by omega) (by omega) (by decide)
      have hbase : pageBase k &&& 0x3FFFFFFF#64 = pageBase k := by
        have hlow := BitVec.toNat_inj.mpr (hfirst.mpr ⟨h4, h3⟩)
        have hmask := toNat_and_field (pageBase k) (k := 0) (n := 30) (by omega)
        rw [BitVec.extractLsb'_toNat, Nat.shiftRight_eq_div_pow, BitVec.toNat_ofNat] at hlow
        apply BitVec.eq_of_toNat_eq
        refine hmask.trans ?_
        have hk := k.isLt
        rw [pageBase_toNat]
        omega
      simp only [h3, if_true, hpresent3, hhuge3, hframe3, hpde, huge_flags, huge_address,
        boot_rights haligned hbound, boot_notGlobal, hbase, Bool.not_true, Bool.false_eq_true,
        if_false]
    · simp only [h3, if_false, hnone, Bool.not_false, if_true]
  · simp only [h4, if_false, hnone, Bool.not_false, if_true, false_and]

/-! ### The stores of a call -/

theorem storeAll_append (mem : Word → Word) (l l' : List (Word × Word)) :
    storeAll mem (l ++ l') = storeAll (storeAll mem l) l' :=
  List.foldl_append

theorem storeAll_other (h : ∀ x ∈ l, a ≠ x.1) (mem : Word → Word) : storeAll mem l a = mem a := by
  have hcell : ∀ x ∈ l, a ≠ Prod.fst x := h
  exact foldl_update_other Prod.snd hcell mem

theorem OnPath.keeps (hw : w.length ≤ 3) (h : OnPath kd w s a) (hkeeps : Keeps kd s t) :
    OnPath kd w t a := by
  obtain ⟨q, c, hq, hc, hword⟩ := h
  exact ⟨q, c, hq, hkeeps q c (Nat.le_trans hq.length_le hw) hc, hword⟩

/-- From `s` to `t` there are the stores `l`, on entries of tables along `w` only, and after each of
them memory holds tables with the leaves of `s`. -/
structure Built (kd : Word) (w : List Index) (s t : MmState) (l : List (Word × Word)) : Prop where
  mem : t.mem = storeAll s.mem l
  ext : Extends kd s t
  keeps : Keeps kd s t
  through : ∀ n, ∃ u, u.mem = storeAll s.mem (l.take n) ∧ Extends kd s u ∧ Keeps kd u t
  words : ∀ x ∈ l, OnPath kd w t x.1

theorem Built.refl (h : Tables kd s) : Built kd w s s [] where
  mem := rfl
  ext := Extends.refl h
  keeps := Keeps.refl s
  through n := ⟨s, by rw [List.take_nil]; rfl, Extends.refl h, Keeps.refl s⟩
  words x hx := by cases hx

theorem Built.trans (hw : w.length ≤ 3) (h : Built kd w s t l) (h' : Built kd w t u l') :
    Built kd w s u (l ++ l') where
  mem := by rw [storeAll_append, h'.mem, h.mem]
  ext := h.ext.trans h'.ext
  keeps := h.keeps.trans h'.keeps
  through n := by
    rcases Nat.le_total n l.length with hn | hn
    · obtain ⟨v, hmem, hext, hkeeps⟩ := h.through n
      rw [List.take_append_of_le_length hn]
      exact ⟨v, hmem, hext, hkeeps.trans h'.keeps⟩
    · obtain ⟨v, hmem, hext, hkeeps⟩ := h'.through (n - l.length)
      refine ⟨v, ?_, h.ext.trans hext, hkeeps⟩
      rw [List.take_append, List.take_of_length_le hn, storeAll_append, hmem, h.mem]
  words x hx := by
    rcases List.mem_append.mp hx with hx | hx
    · exact (h.words x hx).keeps hw h'.keeps
    · exact h'.words x hx

theorem not_offTables (hc : IsTable kd c) (i : Index) :
    ¬ OffTables kd (entryAddr c (i.setWidth 64)) := by
  intro h
  exact h c i hc rfl

theorem index_of_lt {n : Nat} (h : n < pagesPerTable) :
    (BitVec.ofNat 64 n) = ((BitVec.ofNat 9 n).setWidth 64) := by
  have hlt : n < 512 := h
  apply BitVec.eq_of_toNat_eq
  rw [BitVec.toNat_setWidth, BitVec.toNat_ofNat, BitVec.toNat_ofNat]
  omega

theorem mem_installStores (s : MmState) (table idx phys : Word) (pool : Pool) :
    (installTable s table idx phys pool).mem = storeAll s.mem (installStores table idx phys) := by
  have hzero : storeAll s.mem ((List.range pagesPerTable).map
      fun i => (entryAddr phys (BitVec.ofNat 64 i), 0#64)) = zeroTable s.mem phys :=
    List.foldl_map
  rw [installStores, storeAll_append, hzero]
  rfl

/-- The part of a new table that is clear holds no entry of a table. -/
theorem extends_clearing (hkd : OutsidePool kd) (hs : Tables kd s)
    (hp : s.pool.pageBitmap.test p = true)
    (hl : ∀ x ∈ l, ∃ i : Index, x.1 = entryAddr (pageAddr p) (i.setWidth 64)) :
    Extends kd s { s with mem := storeAll s.mem l } ∧
      ∀ is, is.length ≤ 3 →
        Radix.walk (next (storeAll s.mem l)) kd is = Radix.walk (next s.mem) kd is := by
  have hsame : ∀ is c j, is.length ≤ 3 → Radix.walk (next s.mem) kd is = some c →
      entry (storeAll s.mem l) c j = entry s.mem c j := by
    intro is c j hlen hw
    refine storeAll_other (fun x hx heq => ?_) s.mem
    obtain ⟨i, hi⟩ := hl x hx
    rw [hi] at heq
    obtain ⟨rfl, -⟩ :=
      entryAddr_inj hkd (hs.isTable hlen hw) (Or.inr ⟨p, hs.reserved p hp, rfl⟩) heq
    exact hs.fresh hkd hp hlen hw
  exact ⟨⟨Tables.of_entries hs hsame, fun is i hlen => find_of_entries hsame hlen⟩,
    fun is hlen => walk_of_entries hsame hlen⟩

theorem Built.install (hkd : OutsidePool kd) (hs : Tables kd s) (hq : q.length < 3)
    (hpath : q ++ [i] <+: w) (hw : Radix.walk (next s.mem) kd q = some c)
    (hn : next s.mem c i = none) (hp : s.pool.pageBitmap.test p = true) {pool : Pool}
    (hpool : ∀ p', pool.pageBitmap.test p' = (decide (p' ≠ p) && s.pool.pageBitmap.test p')) :
    Built kd w s (installTable s c (i.setWidth 64) (pageAddr p) pool)
      (installStores c (i.setWidth 64) (pageAddr p)) := by
  obtain ⟨hgrows, hwalk, -⟩ := Grows.install hkd hs hq hpath hw hn hp hpool
  have hcells : ∀ x ∈ (List.range pagesPerTable).map
      (fun i => (entryAddr (pageAddr p) (BitVec.ofNat 64 i), 0#64)),
      ∃ i : Index, x.1 = entryAddr (pageAddr p) (i.setWidth 64) := by
    intro x hx
    obtain ⟨n, hn, rfl⟩ := List.mem_map.mp hx
    exact ⟨_, congrArg (entryAddr (pageAddr p)) (index_of_lt (List.mem_range.mp hn))⟩
  have hmem := mem_installStores s c (i.setWidth 64) (pageAddr p) pool
  refine ⟨hmem, hgrows.ext, hgrows.kept, fun n => ?_, fun x hx => ?_⟩
  · rcases Nat.lt_or_ge pagesPerTable n with hlt | hle
    · refine ⟨_, ?_, hgrows.ext, Keeps.refl _⟩
      rw [hmem, List.take_of_length_le]
      simpa [installStores] using Nat.succ_le_of_lt hlt
    · obtain ⟨hext, hsame⟩ := extends_clearing hkd hs hp fun x hx =>
        hcells x (List.mem_of_mem_take (i := n) hx)
      refine ⟨_, ?_, hext, fun is d hl hd => hgrows.kept is d hl ?_⟩
      · rw [installStores, List.take_append_of_le_length (by simpa using hle)]
      · rw [← hsame is hl]
        exact hd
  · rcases List.mem_append.mp hx with hx | hx
    · exact ⟨q ++ [i], _, hpath, hwalk, hcells x hx⟩
    · have hkept := hgrows.kept q c (Nat.le_of_lt hq) hw
      exact ⟨q, c, (List.prefix_append q [i]).trans hpath, hkept, i,
        congrArg Prod.fst (List.mem_singleton.mp hx)⟩

theorem nextTableStores_present {d : Word} (h : next s.mem c i = some d) :
    nextTableStores c (i.setWidth 64) s = [] := by
  unfold next at h
  split at h
  · rename_i hpres
    exact if_pos hpres
  · cases h

theorem nextTableStores_absent (h : next s.mem c i = none) :
    nextTableStores c (i.setWidth 64) s =
      if (mmAllocPage s.pool).1 = 0#64 then []
      else installStores c (i.setWidth 64) (mmAllocPage s.pool).1 := by
  unfold next at h
  split at h
  · cases h
  · rename_i hpres
    exact if_neg hpres

theorem nextTableStores_install {pool : Pool} (hn : next s.mem c i = none)
    (he : nextTable c (i.setWidth 64) true s =
      (some (pageAddr p), installTable s c (i.setWidth 64) (pageAddr p) pool)) :
    nextTableStores c (i.setWidth 64) s = installStores c (i.setWidth 64) (pageAddr p) := by
  rw [nextTableStores_absent hn]
  rcases nextTable_true_cases s c i with ⟨d, hd, -⟩ | ⟨-, hfull, -⟩ | ⟨-, hne, hinstall⟩
  · rw [hn] at hd
    cases hd
  · rw [he] at hfull
    cases hfull
  · rcases mmAllocPage_cases s.pool with ⟨p', hp', -, halloc⟩ | ⟨-, halloc⟩
    · rw [he, halloc, frame_tableEntry] at hinstall
      have hpage : pageAddr p = pageAddr p' := Option.some.inj (congrArg Prod.fst hinstall)
      rw [if_neg hne, halloc, hpage]
    · rw [halloc] at hne
      exact absurd rfl hne

/-- The tables that a creating walk makes are made by its stores, one by one. -/
theorem createWalk_built (hkd : OutsidePool kd) (hs : Tables kd s) (hw : q ++ is = w)
    (hl : w.length ≤ 3) (hc : Radix.walk (next s.mem) kd q = some c) :
    Built kd w s (createWalk c is s).2 (createStores c is s) := by
  induction is generalizing q c s with
  | nil => exact Built.refl hs
  | cons i is ih =>
    have hq : q.length < 3 := by
      rw [← hw, List.length_append, List.length_cons] at hl
      omega
    have hpath : q ++ [i] <+: w := ⟨is, by rw [← hw, List.append_assoc, List.singleton_append]⟩
    have hrest : (q ++ [i]) ++ is = w := by rw [← hw, List.append_assoc, List.singleton_append]
    rw [createWalk, createStores]
    rcases nextTable_true_tables hs c i with ⟨d, hd, he⟩ | ⟨hn, hfull, he⟩ |
      ⟨hn, p, pool, hp, hpool, he⟩
    · have hwd : Radix.walk (next s.mem) kd (q ++ [i]) = some d := by
        rw [Radix.walk_snoc, hc]
        exact hd
      rw [he, nextTableStores_present hd]
      exact ih hs hrest hwd
    · have hz : (mmAllocPage s.pool).1 = 0#64 := by
        rcases mmAllocPage_cases s.pool with ⟨p, hp, -, -⟩ | ⟨-, halloc⟩
        · rw [hfull p] at hp
          cases hp
        · rw [halloc]
      rw [he, nextTableStores_absent hn, if_pos hz]
      exact Built.refl hs
    · obtain ⟨hgrown, hwalk, -⟩ := Grows.install hkd hs hq hpath hc hn hp hpool
      rw [he, nextTableStores_install hn he]
      exact (Built.install hkd hs hq hpath hc hn hp hpool).trans hl
        (ih hgrown.ext.tables hrest hwalk)

theorem OnPath.not_offTables (h : OnPath kd (path virt) t a) (ht : Tables kd t) :
    ¬ OffTables kd a := by
  obtain ⟨q, c, hq, hc, i, rfl⟩ := h
  have hlen : q.length ≤ 3 := hq.length_le
  exact not_offTables (ht.isTable hlen hc) i

/-! ### A call, step by step -/

theorem createStores_built (hkd : OutsidePool kd) (hs : Tables kd s) (virt : Word) :
    Built kd (path virt) s (createWalk s.currentDir (path virt) s).2
      (createStores s.currentDir (path virt) s) := by
  rw [hs.root]
  exact createWalk_built (q := []) hkd hs rfl (Nat.le_refl _) rfl

theorem onPath_leaf (hw : Radix.walk (next t.mem) kd (path virt) = some c) :
    OnPath kd (path virt) t (entryAddr c ((lastIndex virt).setWidth 64)) :=
  ⟨path virt, c, List.prefix_refl _, hw, lastIndex virt, rfl⟩

theorem plan_mapPage (hkd : OutsidePool kd) (hzero : ∀ i : Index, entry mem kd i = 0#64)
    (h : UseReachable kd mem (⟨s, held⟩, m)) (phys virt flags : Word) :
    Plan kd mem held s (mmStep s (.mapPage phys virt flags)) m
      { m with map := (refineStep (s, m.map) (.mapPage phys virt flags)).2 }
      (createStores s.currentDir (path virt) s) (mapTail phys virt flags s) virt := by
  have hs : Tables kd s := (shared_reachable hkd hzero h).pages.tables
  have hbuilt := createStores_built hkd hs virt
  have hwalked := getPte_walked hkd hs virt
  have hafter : UseReachable kd mem (⟨mmStep s (.mapPage phys virt flags), held⟩, _) :=
    h.tail (UseStep.mapPage phys virt flags)
  cases hpt : (createWalk s.currentDir (path virt) s).1 with
  | none =>
    have hget : getPte virt true s = (0#64, (createWalk s.currentDir (path virt) s).2) := by
      rw [getPte_true, hpt]
      rfl
    have hstep : mmStep s (.mapPage phys virt flags) =
        (createWalk s.currentDir (path virt) s).2 := by
      simp [mmStep, mmMapPage, hget]
    refine ⟨h, hafter, ?_, ?_, Or.inl ⟨?_, ?_, ?_⟩⟩
    · rw [hstep]
      exact hbuilt.through
    · rw [hstep]
      exact hbuilt.words
    · simp [mapTail, hget]
    · rw [hstep, ← hbuilt.mem]
    · simp [refineStep, succeeds, hget]
  | some pt =>
    have hwalk := hwalked.found pt hpt
    have hne := pte_ne_zero hwalked.grows.ext.tables hwalk (lastIndex virt)
    have hget : getPte virt true s = (entryAddr pt ((lastIndex virt).setWidth 64),
        (createWalk s.currentDir (path virt) s).2) := by
      rw [getPte_true, hpt]
      rfl
    have hstep : mmStep s (.mapPage phys virt flags) =
        { (createWalk s.currentDir (path virt) s).2 with
          mem := Function.update (createWalk s.currentDir (path virt) s).2.mem
            (entryAddr pt ((lastIndex virt).setWidth 64)) (leafEntry phys flags) } := by
      simp [mmStep, mmMapPage, hget, hne]
    have hkeeps : Keeps kd (createWalk s.currentDir (path virt) s).2
        (mmStep s (.mapPage phys virt flags)) := by
      rw [hstep]
      exact keeps_writeLeaf hkd hwalked.grows.ext.tables hwalk _
    have hlen : (path virt).length ≤ 3 := Nat.le_refl 3
    refine ⟨h, hafter, fun n => ?_, fun x hx => (hbuilt.words x hx).keeps hlen hkeeps,
      Or.inr ⟨entryAddr pt ((lastIndex virt).setWidth 64), leafEntry phys flags, ?_, ?_, ?_,
        fun k hk => ?_⟩⟩
    · obtain ⟨u, hmem, hext, hkept⟩ := hbuilt.through n
      exact ⟨u, hmem, hext, hkept.trans hkeeps⟩
    · simp [mapTail, hget, hne]
    · exact (onPath_leaf hwalk).keeps hlen hkeeps
    · rw [hstep, ← hbuilt.mem]
    · simp [refineStep, succeeds, hget, hne, PageMap.step, hk]

theorem unmapTail_eq (virt : Word) (s : MmState) :
    unmapTail virt s =
      if lookup s virt = none then [] else leafSteps (getPte virt false s).1 0#64 virt := by
  unfold unmapTail lookup
  rw [getPte_false]
  dsimp only
  split
  · rfl
  · rw [if_neg (by simp)]

theorem plan_unmapPage (hkd : OutsidePool kd) (hzero : ∀ i : Index, entry mem kd i = 0#64)
    (h : UseReachable kd mem (⟨s, held⟩, m)) (virt : Word) :
    Plan kd mem held s (mmStep s (.unmapPage virt)) m
      { m with map := (refineStep (s, m.map) (.unmapPage virt)).2 } [] (unmapTail virt s) virt := by
  have hshared := shared_reachable hkd hzero h
  have hs : Tables kd s := hshared.pages.tables
  have hkeeps : Keeps kd s (mmStep s (.unmapPage virt)) := keeps_mmUnmapPage hkd hs virt
  have hmap : lookup s virt = m.map (key virt) := hshared.lookup_eq virt
  refine ⟨h, h.tail (UseStep.unmapPage virt), fun n => ⟨s, by rw [List.take_nil]; rfl,
    Extends.refl hs, hkeeps⟩, fun x hx => absurd hx List.not_mem_nil, ?_⟩
  rw [unmapTail_eq]
  rcases mmUnmapPage_cases hs virt with ⟨hnone, he⟩ | ⟨pt, e, hsome, hwalk, he⟩
  · left
    refine ⟨if_pos hnone, ?_, ?_⟩
    · rw [mmStep, he]
      rfl
    · rw [hmap] at hnone
      change Function.update m.map (key virt) none = m.map
      rw [← hnone, Function.update_eq_self]
  · right
    have hget : (getPte virt false s).1 = entryAddr pt ((lastIndex virt).setWidth 64) := by
      rw [getPte_false, hs.root, hwalk]
      rfl
    rw [hsome, if_neg (by simp), hget]
    refine ⟨_, _, rfl, (onPath_leaf hwalk).keeps (Nat.le_refl 3) hkeeps, ?_, fun k hk => ?_⟩
    · rw [mmStep, he]
      rfl
    · exact Function.update_of_ne hk none m.map

theorem Plan.rest (hkd : OutsidePool kd) (hzero : ∀ i : Index, entry mem kd i = 0#64)
    (h : UseReachable kd mem (⟨s, held⟩, m)) : Plan kd mem held s s m m [] [] 0#64 := by
  have hstart := Built.refl (w := path 0#64) (shared_reachable hkd hzero h).pages.tables
  exact ⟨h, h, hstart.through, hstart.words, Or.inl ⟨rfl, rfl, rfl⟩⟩

end FenwickOS.Mm
