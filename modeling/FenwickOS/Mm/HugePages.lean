import FenwickOS.Mm.ActiveTables

/-! `get_pte`, map and unmap on page tables like the bootloader's, whose last level is a directory
of 2 MiB pages. -/
namespace FenwickOS.Mm
open Machine

/-- The tables that entry 0 of `dir` and entry 0 of the table below lead to. -/
def firstPdpt (mem : Word → Word) (dir : Word) : Word := frame (entry mem dir 0)
def firstPd (mem : Word → Word) (dir : Word) : Word := frame (entry mem (firstPdpt mem dir) 0)

/-- One table of each of the three levels, the last with 2 MiB pages only. -/
structure BootShape (dir : Word) (mem : Word → Word) : Prop where
  pml4 : ∀ i : Index, isPresent (entry mem dir i) = true ↔ i = 0
  pdpt : ∀ i : Index, isPresent (entry mem (firstPdpt mem dir) i) = true ↔ i = 0
  huge : ∀ i : Index, isPresent (entry mem (firstPd mem dir) i) = true →
    isHuge (entry mem (firstPd mem dir) i) = true

def TableWord (c a : Word) : Prop := ∃ j : Index, a = entryAddr c (j.setWidth 64)

instance (c a : Word) : Decidable (TableWord c a) := by
  unfold TableWord
  infer_instance

/-- The three tables of the bootloader. -/
def BootWord (s : MmState) (a : Word) : Prop :=
  TableWord s.currentDir a ∨ TableWord (firstPdpt s.mem s.currentDir) a ∨
    TableWord (firstPd s.mem s.currentDir) a

def NewPage (s t : MmState) (c : Word) : Prop :=
  ∃ p, c = pageAddr p ∧ s.pool.pageBitmap.test p = true ∧ t.pool.pageBitmap.test p = false

def NewWord (s t : MmState) (a : Word) : Prop := ∃ c, NewPage s t c ∧ TableWord c a

/-- The processor takes bits 21 to 51 of a huge entry for the address of its page. -/
def InHugePage (e a : Word) : Prop := a &&& 0x000FFFFFFFE00000#64 = e &&& 0x000FFFFFFFE00000#64

/-- Mapping and unmapping `virt` write to page tables only, and `get_pte` returns no address in a
2 MiB page, pages that the call itself turns into tables apart. -/
structure HugeKept (virt : Word) (s : MmState) : Prop where
  map : ∀ phys flags a, (mmMapPage phys virt flags s).2.mem a ≠ s.mem a →
    BootWord s a ∨ NewWord s (mmMapPage phys virt flags s).2 a
  unmap : ∀ a, (mmUnmapPage virt s).2.mem a ≠ s.mem a → BootWord s a
  pte : ∀ create, (getPte virt create s).1 = 0#64 ∨
    NewWord s (getPte virt create s).2 (getPte virt create s).1 ∨
    ∀ i, isPresent (entry s.mem (firstPd s.mem s.currentDir) i) = true →
      ¬ InHugePage (entry s.mem (firstPd s.mem s.currentDir) i) (getPte virt create s).1

/-- The entry of the directory that covers `virt`, when the walk gets there. -/
def hugeEntry (s : MmState) (virt : Word) : Option Word :=
  if virt.extractLsb' 39 9 = 0 ∧ virt.extractLsb' 30 9 = 0 then
    leaf s.mem (firstPd s.mem s.currentDir) (virt.extractLsb' 21 9)
  else none

/-- What the walk takes for the address of a page table entry when it meets a 2 MiB page. -/
def pteInHuge (e virt : Word) : Word := entryAddr (frame e) ((lastIndex virt).setWidth 64)

/-- What a creating walk from `s` on may have done so far: written the words `W` and those of pages
that left the pool, which point to nothing but such pages. -/
structure Confined (W : Word → Prop) (s t : MmState) : Prop where
  pool : ∀ p, t.pool.pageBitmap.test p = true → s.pool.pageBitmap.test p = true
  writes : ∀ a, t.mem a ≠ s.mem a → W a ∨ NewWord s t a

def Closed (s t : MmState) : Prop :=
  ∀ c j, NewPage s t c → isPresent (entry t.mem c j) = true → NewPage s t (frame (entry t.mem c j))

variable {W : Word → Prop} {s t u : MmState} {a c dir e virt : Word} {i : Index} {is : List Index}

theorem Confined.refl (W : Word → Prop) (s : MmState) : Confined W s s :=
  ⟨fun _ h => h, fun _ h => absurd rfl h⟩

theorem not_newPage_self : ¬ NewPage s s c := by
  rintro ⟨p, -, htrue, hfalse⟩
  rw [htrue] at hfalse
  cases hfalse

theorem closed_refl (s : MmState) : Closed s s := fun _ _ hnew => absurd hnew not_newPage_self

theorem NewPage.mono (h : NewPage s t c)
    (hpool : ∀ p, u.pool.pageBitmap.test p = true → t.pool.pageBitmap.test p = true) :
    NewPage s u c := by
  obtain ⟨p, rfl, htrue, hfalse⟩ := h
  exact ⟨p, rfl, htrue, taken_mono hpool hfalse⟩

/-- A word after `installTable`: the new entry, a cleared word of the new table, or as before. -/
theorem mem_installTable (s : MmState) (table phys a : Word) (i : Index) (pool : Pool) :
    (installTable s table (i.setWidth 64) phys pool).mem a =
      if a = entryAddr table (i.setWidth 64) then tableEntry phys
      else if TableWord phys a then 0#64 else s.mem a := by
  dsimp only [installTable]
  rw [Function.update_apply, zeroTable_apply]
  rfl

theorem Confined.install {p : Fin maxPages} {pool : Pool} (h : Confined W s t)
    (hW : W (entryAddr c (i.setWidth 64)) ∨ NewPage s t c)
    (hp : t.pool.pageBitmap.test p = true)
    (hpool : ∀ p', pool.pageBitmap.test p' = (decide (p' ≠ p) && t.pool.pageBitmap.test p')) :
    let u := installTable t c (i.setWidth 64) (pageAddr p) pool
    Confined W s u ∧ NewPage s u (pageAddr p) ∧ (Closed s t → Closed s u) := by
  intro u
  have hshrink (p' : Fin maxPages) (hp' : pool.pageBitmap.test p' = true) :
      t.pool.pageBitmap.test p' = true := by
    rw [hpool, Bool.and_eq_true] at hp'
    exact hp'.2
  have hnew : NewPage s u (pageAddr p) := ⟨p, rfl, h.pool p hp, (hpool p).trans (by simp)⟩
  refine ⟨⟨fun p' hp' => h.pool p' (hshrink p' hp'), ?_⟩, hnew, ?_⟩
  · intro a ha
    rw [mem_installTable] at ha
    split at ha
    · rename_i hentry
      rcases hW with hW | hc
      · exact Or.inl (hentry ▸ hW)
      · exact Or.inr ⟨c, hc.mono hshrink, i, hentry⟩
    split at ha
    · rename_i hword
      exact Or.inr ⟨_, hnew, hword⟩
    · rcases h.writes a ha with hW | ⟨d, hd, hword⟩
      · exact Or.inl hW
      · exact Or.inr ⟨d, hd.mono hshrink, hword⟩
  · rintro hclosed d j ⟨p', rfl, htrue, hfalse⟩ hpresent
    rw [entry, mem_installTable] at hpresent ⊢
    split at hpresent
    · rename_i hentry
      rw [if_pos hentry, frame_tableEntry]
      exact hnew
    rename_i hentry
    split at hpresent
    · -- a cleared word is not present
      cases hpresent
    · rename_i hword
      rw [if_neg hentry, if_neg hword]
      have hne : p' ≠ p := by
        rintro rfl
        exact hword ⟨j, rfl⟩
      have hold : NewPage s t (pageAddr p') := by
        refine ⟨p', rfl, htrue, ?_⟩
        have htest : pool.pageBitmap.test p' = false := hfalse
        simpa [hpool, hne] using htest
      exact (hclosed _ j hold hpresent).mono hshrink

theorem createWalk_new (h : Confined W s t) (hclosed : Closed s t) (hc : NewPage s t c)
    (is : List Index) :
    Confined W s (createWalk c is t).2 ∧
    ∀ d, (createWalk c is t).1 = some d → NewPage s (createWalk c is t).2 d := by
  induction is generalizing c t with
  | nil =>
    refine ⟨h, ?_⟩
    rintro d ⟨rfl⟩
    exact hc
  | cons i is ih =>
    rcases nextTable_true_pool t c i with ⟨d, hd, he⟩ | ⟨-, -, he⟩ |
      ⟨-, p, pool, hp, hpool, he⟩
    · have hpresent : isPresent (entry t.mem c i) = true ∧ frame (entry t.mem c i) = d := by
        unfold next at hd
        split at hd
        · exact ⟨‹_›, Option.some.inj hd⟩
        · cases hd
      obtain ⟨hpresent, rfl⟩ := hpresent
      rw [createWalk, he]
      exact ih h hclosed (hclosed c i hc hpresent)
    · rw [createWalk, he]
      refine ⟨⟨fun p hp => h.pool p (test_mmAllocPage hp), fun a ha => ?_⟩, fun d hd => by cases hd⟩
      rcases h.writes a ha with hW | ⟨d, hd, hword⟩
      · exact Or.inl hW
      · exact Or.inr ⟨d, hd.mono fun _ => test_mmAllocPage, hword⟩
    · obtain ⟨hinstall, hnew, hclosed'⟩ := h.install (i := i) (Or.inr hc) hp hpool
      rw [createWalk, he]
      exact ih hinstall (hclosed' hclosed) hnew

theorem createWalk_absent (hW : ∀ j : Index, W (entryAddr c (j.setWidth 64)))
    (hn : next s.mem c i = none) (is : List Index) :
    Confined W s (createWalk c (i :: is) s).2 ∧
    ∀ d, (createWalk c (i :: is) s).1 = some d → NewPage s (createWalk c (i :: is) s).2 d := by
  rcases nextTable_true_pool s c i with ⟨d, hd, -⟩ | ⟨-, -, he⟩ |
    ⟨-, p, pool, hp, hpool, he⟩
  · rw [hn] at hd
    cases hd
  · rw [createWalk, he]
    exact ⟨⟨fun _ => test_mmAllocPage, fun a ha => absurd rfl ha⟩, fun d hd => by cases hd⟩
  · obtain ⟨hinstall, hnew, hclosed⟩ := (Confined.refl W s).install (i := i) (Or.inl (hW i)) hp hpool
    rw [createWalk, he]
    exact createWalk_new hinstall (hclosed (closed_refl s)) hnew is

/-! ### The three levels of the bootloader -/

theorem next_of_first {mem : Word → Word} (h : ∀ i : Index, isPresent (entry mem c i) = true ↔ i = 0)
    (i : Index) : next mem c i = if i = 0 then some (frame (entry mem c 0)) else none := by
  unfold next
  by_cases hi : i = 0
  · rw [if_pos ((h i).mpr hi), if_pos hi, hi]
  · rw [if_neg (mt (h i).mp hi), if_neg hi]

theorem next_firstPdpt (h : BootShape s.currentDir s.mem) (i : Index) :
    next s.mem s.currentDir i = if i = 0 then some (firstPdpt s.mem s.currentDir) else none :=
  next_of_first h.pml4 i

theorem next_firstPd (h : BootShape s.currentDir s.mem) (i : Index) :
    next s.mem (firstPdpt s.mem s.currentDir) i =
      if i = 0 then some (firstPd s.mem s.currentDir) else none :=
  next_of_first h.pdpt i

theorem next_eq_leaf (mem : Word → Word) (c : Word) (i : Index) :
    next mem c i = (leaf mem c i).map frame := by
  unfold next leaf
  split <;> rfl

theorem bootWord_of (s : MmState) (hc : c = s.currentDir ∨ c = firstPdpt s.mem s.currentDir ∨
    c = firstPd s.mem s.currentDir) (j : Index) : BootWord s (entryAddr c (j.setWidth 64)) := by
  rcases hc with rfl | rfl | rfl
  · exact Or.inl ⟨j, rfl⟩
  · exact Or.inr (Or.inl ⟨j, rfl⟩)
  · exact Or.inr (Or.inr ⟨j, rfl⟩)

/-- Without creating, the walk ends above a 2 MiB page or takes it for a page table. -/
theorem getPte_false_boot (h : BootShape s.currentDir s.mem) (virt : Word) :
    getPte virt false s = (((hugeEntry s virt).map fun e => pteInHuge e virt).getD 0#64, s) := by
  rw [getPte_false]
  simp only [path, Radix.walk, next_firstPdpt h]
  unfold hugeEntry
  by_cases h4 : virt.extractLsb' 39 9 = 0
  · rw [if_pos h4, Option.bind_some, next_firstPd h]
    by_cases h3 : virt.extractLsb' 30 9 = 0
    · rw [if_pos h3, if_pos ⟨h4, h3⟩, Option.bind_some, next_eq_leaf]
      cases leaf s.mem (firstPd s.mem s.currentDir) (virt.extractLsb' 21 9) <;> rfl
    · rw [if_neg h3, if_neg fun hboth => h3 hboth.2]
      rfl
  · rw [if_neg h4, if_neg fun hboth => h4 hboth.1]
    rfl

theorem createWalk_boot (h : BootShape s.currentDir s.mem) (virt : Word) :
    (∃ e, hugeEntry s virt = some e ∧
      createWalk s.currentDir (path virt) s = (some (frame e), s)) ∨
    (hugeEntry s virt = none ∧
      Confined (BootWord s) s (createWalk s.currentDir (path virt) s).2 ∧
      ∀ d, (createWalk s.currentDir (path virt) s).1 = some d →
        NewPage s (createWalk s.currentDir (path virt) s).2 d) := by
  have hpml4 := next_firstPdpt h (virt.extractLsb' 39 9)
  have hpdpt := next_firstPd h (virt.extractLsb' 30 9)
  unfold hugeEntry path
  by_cases h4 : virt.extractLsb' 39 9 = 0
  · rw [if_pos h4] at hpml4
    rw [createWalk_of_next _ hpml4]
    by_cases h3 : virt.extractLsb' 30 9 = 0
    · rw [if_pos h3] at hpdpt
      rw [createWalk_of_next _ hpdpt, if_pos ⟨h4, h3⟩]
      cases hleaf : leaf s.mem (firstPd s.mem s.currentDir) (virt.extractLsb' 21 9) with
      | some e =>
        refine Or.inl ⟨e, rfl, ?_⟩
        rw [createWalk_of_next [] (by rw [next_eq_leaf, hleaf]; rfl)]
        rfl
      | none =>
        have hn : next s.mem (firstPd s.mem s.currentDir) (virt.extractLsb' 21 9) = none := by
          rw [next_eq_leaf, hleaf]
          rfl
        exact Or.inr ⟨rfl, createWalk_absent (bootWord_of s (Or.inr (Or.inr rfl))) hn []⟩
    · rw [if_neg h3] at hpdpt
      rw [if_neg fun hboth => h3 hboth.2]
      exact Or.inr ⟨rfl, createWalk_absent (bootWord_of s (Or.inr (Or.inl rfl))) hpdpt _⟩
  · rw [if_neg h4] at hpml4
    rw [if_neg fun hboth => h4 hboth.1]
    exact Or.inr ⟨rfl, createWalk_absent (bootWord_of s (Or.inl rfl)) hpml4 _⟩

theorem getPte_true_boot (h : BootShape s.currentDir s.mem) (virt : Word) :
    (∃ e, hugeEntry s virt = some e ∧ getPte virt true s = (pteInHuge e virt, s)) ∨
    (hugeEntry s virt = none ∧ Confined (BootWord s) s (getPte virt true s).2 ∧
      ((getPte virt true s).1 = 0#64 ∨
        NewWord s (getPte virt true s).2 (getPte virt true s).1)) := by
  rw [getPte_true]
  rcases createWalk_boot h virt with ⟨e, he, hwalk⟩ | ⟨hn, hconfined, hnew⟩
  · rw [hwalk]
    exact Or.inl ⟨e, he, rfl⟩
  · refine Or.inr ⟨hn, hconfined, ?_⟩
    cases hpt : (createWalk s.currentDir (path virt) s).1 with
    | none => exact Or.inl rfl
    | some pt => exact Or.inr ⟨pt, hnew pt hpt, lastIndex virt, rfl⟩

/-- The address that the walk makes of a 2 MiB page lies inside it. -/
theorem inHugePage_pteInHuge (e virt : Word) : InHugePage e (pteInHuge e virt) := by
  have hframe : (frame e).toNat = e.toNat / 2 ^ 12 % 2 ^ 52 * 2 ^ 12 :=
    toNat_and_field e (k := 12) (n := 52) (by omega)
  have hmask (v : Word) : (v &&& 0x000FFFFFFFE00000#64).toNat =
      v.toNat / 2 ^ 21 % 2 ^ 31 * 2 ^ 21 := toNat_and_field v (k := 21) (n := 31) (by omega)
  have hlt := e.isLt
  have hidx := (lastIndex virt).isLt
  apply BitVec.eq_of_toNat_eq
  rw [hmask, hmask, pteInHuge, entryAddr_toNat (by omega), hframe]
  omega

theorem leaf_eq_some_iff {mem : Word → Word} :
    leaf mem c i = some e ↔ isPresent (entry mem c i) = true ∧ entry mem c i = e := by
  unfold leaf
  split
  · rename_i hpresent
    rw [Option.some.injEq, and_iff_right hpresent]
  · rename_i hpresent
    exact iff_of_false (by simp) fun hboth => hpresent hboth.1

theorem not_hugeKept (h : BootShape s.currentDir s.mem) (he : hugeEntry s virt = some e)
    (hne : pteInHuge e virt ≠ 0#64) : ¬ HugeKept virt s := by
  intro hkept
  have hpte := hkept.pte false
  rw [getPte_false_boot h, he] at hpte
  rcases hpte with hzero | ⟨c, hnew, -⟩ | houtside
  · exact hne hzero
  · exact not_newPage_self hnew
  · unfold hugeEntry at he
    split at he
    · obtain ⟨hpresent, hentry⟩ := leaf_eq_some_iff.mp he
      refine houtside _ hpresent ?_
      rw [hentry]
      exact inHugePage_pteInHuge e virt
    · cases he

theorem hugeKept_of_null (h : ∀ create, getPte virt create s = (0#64, s)) : HugeKept virt s where
  map phys flags a ha := by
    rw [mmMapPage, h] at ha
    exact absurd rfl ha
  unmap a ha := by
    rw [mmUnmapPage, h] at ha
    exact absurd rfl ha
  pte create := Or.inl (by rw [h])

theorem hugeKept_of_none (h : BootShape s.currentDir s.mem) (hn : hugeEntry s virt = none) :
    HugeKept virt s := by
  have hfalse : getPte virt false s = (0#64, s) := by
    rw [getPte_false_boot h, hn]
    rfl
  rcases getPte_true_boot h virt with ⟨e, he, -⟩ | ⟨-, hconfined, hpte⟩
  · rw [hn] at he
    cases he
  refine ⟨fun phys flags a ha => ?_, fun a ha => ?_, fun create => ?_⟩
  · rcases hget : getPte virt true s with ⟨pte, t⟩
    rw [hget] at hconfined hpte
    rw [mmMapPage, hget] at ha ⊢
    dsimp only at ha hconfined hpte ⊢
    split at ha
    · rw [if_pos ‹_›]
      exact hconfined.writes a ha
    · rename_i hne
      rw [if_neg hne]
      dsimp only at ha
      by_cases hleaf : a = pte
      · rw [hleaf]
        exact Or.inr (hpte.resolve_left hne)
      · rw [Function.update_of_ne hleaf] at ha
        exact hconfined.writes a ha
  · rw [mmUnmapPage, hfalse] at ha
    exact absurd rfl ha
  · cases create with
    | false => exact Or.inl (by rw [hfalse])
    | true =>
      rcases hpte with hzero | hnew
      · exact Or.inl hzero
      · exact Or.inr (Or.inl hnew)

/-- On tables of the bootloader's shape mapping and unmapping keep out of the 2 MiB pages exactly
unless `virt` lies in one: then its frame is taken for a page table, except where that gives the
null address. -/
theorem hugeKept_iff {dir : Word} {p : PagingState} (h : BootShape dir p.mm.mem) (virt : Word) :
    let s := (pagingSwitchDirectory dir p).mm
    HugeKept virt s ↔ ∀ e, hugeEntry s virt = some e → pteInHuge e virt = 0#64 := by
  intro s
  have hs : BootShape s.currentDir s.mem := h
  cases he : hugeEntry s virt with
  | none => exact iff_of_true (hugeKept_of_none hs he) fun e he => by cases he
  | some e =>
    constructor
    · rintro hkept e' ⟨rfl⟩
      by_contra hne
      exact not_hugeKept hs he hne hkept
    · intro hall
      have hzero := hall e rfl
      refine hugeKept_of_null fun create => ?_
      cases create with
      | false =>
        rw [getPte_false_boot hs, he, Option.map_some, hzero]
        rfl
      | true =>
        rcases getPte_true_boot hs virt with ⟨e', he', hget⟩ | ⟨hn, -⟩
        · obtain rfl := Option.some.inj (he.symm.trans he')
          rw [hget, hzero]
        · rw [he] at hn
          cases hn

/-! ### The bootloader's own tables -/

theorem frame_or {f : Word} (ha : a.toNat % 4096 = 0) (hf : f.toNat < 4096) :
    frame (a ||| f) = a := by
  have hframe : (frame (a ||| f)).toNat = (a ||| f).toNat / 2 ^ 12 % 2 ^ 52 * 2 ^ 12 :=
    toNat_and_field (a ||| f) (k := 12) (n := 52) (by omega)
  have hlt := a.isLt
  apply BitVec.eq_of_toNat_eq
  rw [hframe, toNat_or_of_aligned (k := 12) ha hf]
  omega

theorem firstTables_of_mapped {pml4Table : Word} {mem : Word → Word}
    (haligned : pml4Table.toNat % 4096 = 0) (hbound : pml4Table.toNat + 0x3000 ≤ 2 ^ 32)
    (h : BootMapped pml4Table mem) :
    firstPdpt mem pml4Table = pdptTable pml4Table ∧ firstPd mem pml4Table = pdTable pml4Table := by
  have hpdpt := pdptTable_toNat hbound
  have hpd := pdTable_toNat hbound
  have hfirst : firstPdpt mem pml4Table = pdptTable pml4Table := by
    rw [firstPdpt, h.pml4, if_pos rfl]
    exact frame_or (by omega) (by decide)
  refine ⟨hfirst, ?_⟩
  rw [firstPd, hfirst, h.pdpt, if_pos rfl]
  exact frame_or (by omega) (by decide)

theorem isPresent_first (ha : a.toNat % 4096 = 0) (i : Index) :
    isPresent (if i = 0 then a ||| 0b11#64 else 0#64) = true ↔ i = 0 := by
  by_cases hi : i = 0
  · rw [if_pos hi]
    exact iff_of_true (table_flags ha).1 hi
  · rw [if_neg hi]
    exact iff_of_false (by decide) hi

/-- `setup_paging` builds tables of this shape. -/
theorem bootShape_of_mapped {pml4Table : Word} {mem : Word → Word}
    (haligned : pml4Table.toNat % 4096 = 0) (hbound : pml4Table.toNat + 0x3000 ≤ 2 ^ 32)
    (h : BootMapped pml4Table mem) : BootShape pml4Table mem := by
  have hpdpt := pdptTable_toNat hbound
  have hpd := pdTable_toNat hbound
  obtain ⟨hfirst, hsecond⟩ := firstTables_of_mapped haligned hbound h
  refine ⟨fun i => ?_, fun i => ?_, fun i _ => ?_⟩
  · rw [h.pml4]
    exact isPresent_first (by omega) i
  · rw [hfirst, h.pdpt]
    exact isPresent_first (by omega) i
  · rw [hsecond, h.pd]
    exact (huge_flags i).2

/-- Zeroed memory in which `setup_paging` has put its tables at 0x110000. -/
def PagingState.bootTables : PagingState := setupPaging 0x110000#64 ⟨MemoryManager.boot.mm, 0#64⟩

theorem bootMapped_bootTables : BootMapped 0x110000#64 PagingState.bootTables.mm.mem :=
  bootMapped_setupPaging (by decide) (fun _ => rfl) (fun _ => rfl)

theorem bootShape_bootTables : BootShape 0x110000#64 PagingState.bootTables.mm.mem :=
  bootShape_of_mapped (by decide) (by decide) bootMapped_bootTables

/-- 1 GiB lies behind the last 2 MiB page. -/
theorem hugeKept_first_unmapped :
    HugeKept 0x40000000#64 (pagingSwitchDirectory 0x110000#64 PagingState.bootTables).mm := by
  refine (hugeKept_iff bootShape_bootTables 0x40000000#64).mpr fun e he => ?_
  rw [hugeEntry, if_neg (by decide)] at he
  cases he

/-- Mapping 2 MiB writes a page table entry to the start of the second 2 MiB page. -/
theorem not_hugeKept_second :
    ¬ HugeKept 0x200000#64 (pagingSwitchDirectory 0x110000#64 PagingState.bootTables).mm := by
  have hmapped := bootMapped_bootTables
  have hshape := bootShape_bootTables
  have hsecond : firstPd PagingState.bootTables.mm.mem 0x110000#64 = pdTable 0x110000#64 :=
    (firstTables_of_mapped (by decide) (by decide) hmapped).2
  -- what holds of any tables of this shape keeps the loop of `setup_paging` out of the comparisons
  generalize PagingState.bootTables = p at hmapped hshape hsecond
  have he : hugeEntry (pagingSwitchDirectory 0x110000#64 p).mm 0x200000#64 =
      some (BitVec.ofNat 64 0x200000 ||| 0b10000011#64) := by
    rw [hugeEntry, if_pos (by decide), leaf_eq_some_iff]
    dsimp only [pagingSwitchDirectory]
    rw [hsecond, hmapped.pd]
    exact ⟨by decide, by decide⟩
  exact not_hugeKept (s := (pagingSwitchDirectory 0x110000#64 p).mm) hshape he (by decide)

end FenwickOS.Mm
