import FenwickOS.Mm.Paging

/-! The invariant of the page tables, and what creating a table and writing a leaf do to it. -/
namespace FenwickOS.Mm
open Machine

/-- The storage of `kernel_dir` lies outside the pages of the pool. -/
def OutsidePool (kd : Word) : Prop :=
  kd.toNat + 4096 ≤ 0x200000 ∨ (0x4000000 ≤ kd.toNat ∧ kd.toNat + 4096 ≤ 2 ^ 64)

/-- The addresses a table can have: the root, or a page that the pool gave out. -/
def IsTable (kd c : Word) : Prop := c = kd ∨ ∃ p : Fin maxPages, 512 ≤ p.val ∧ c = pageAddr p

/-- Every table is reached by one path, is a page the pool no longer offers, and above the last
level holds only entries that `get_pte` made. -/
structure Tables (kd : Word) (s : MmState) : Prop where
  root : s.currentDir = kd
  reserved : ∀ p, s.pool.pageBitmap.test p = true → 512 ≤ p.val
  distinct : Radix.PathsDistinct (next s.mem) kd 3
  taken : ∀ is c, is ≠ [] → is.length ≤ 3 → Radix.walk (next s.mem) kd is = some c →
    ∃ p : Fin maxPages, 512 ≤ p.val ∧ c = pageAddr p ∧ s.pool.pageBitmap.test p = false
  made : ∀ is c i, is.length < 3 → Radix.walk (next s.mem) kd is = some c →
    isPresent (entry s.mem c i) = true →
    ∃ p : Fin maxPages, entry s.mem c i = tableEntry (pageAddr p)

/-- The tables of `t` extend those of `s` and hold the same leaves. -/
structure Extends (kd : Word) (s t : MmState) : Prop where
  tables : Tables kd t
  find_eq : ∀ path i, path.length = 3 →
    Radix.find (next t.mem) (leaf t.mem) kd path i = Radix.find (next s.mem) (leaf s.mem) kd path i

variable {kd a c c' : Word} {s t u : MmState} {i j : Index} {p : Fin maxPages} {q is : List Index}
  {v virt phys flags : Word}

theorem Extends.refl (h : Tables kd s) : Extends kd s s := ⟨h, fun _ _ _ => rfl⟩

theorem Extends.trans (h : Extends kd s t) (h' : Extends kd t u) : Extends kd s u :=
  ⟨h'.tables, fun path i hl => (h'.find_eq path i hl).trans (h.find_eq path i hl)⟩

/-! ### Entries and addresses -/

theorem pageAddr_and_mask (p : Fin maxPages) : pageAddr p &&& 0xFFF#64 = 0#64 := by
  apply BitVec.eq_of_toNat_eq
  have hmask : (0xFFF#64 : Word).toNat = 2 ^ 12 - 1 := rfl
  have hmod : p.val * 4096 % 2 ^ 12 = 0 := by omega
  rw [BitVec.toNat_and, pageAddr_toNat, hmask, Nat.and_two_pow_sub_one_eq_mod, hmod]
  rfl

theorem frame_tableEntry (p : Fin maxPages) : frame (tableEntry (pageAddr p)) = pageAddr p := by
  have hflags : (pagePresent ||| pageWritable ||| pageUser) &&& ~~~0xFFF#64 = 0#64 := rfl
  rw [frame, tableEntry, BitVec.or_assoc, BitVec.or_assoc, ← BitVec.or_assoc pagePresent,
    BitVec.and_or_distrib_right, hflags, and_not_eq_self (pageAddr_and_mask p), BitVec.or_zero]

theorem isPresent_eq_getLsbD (e : Word) : isPresent e = e.getLsbD 0 := by
  have hone : pagePresent = BitVec.twoPow 64 0 := rfl
  rw [isPresent, hone, BitVec.and_twoPow]
  cases e.getLsbD 0 <;> rfl

theorem isPresent_tableEntry (x : Word) : isPresent (tableEntry x) = true := by
  simp [isPresent_eq_getLsbD, tableEntry, pagePresent]

theorem isPresent_leafEntry (phys flags : Word) : isPresent (leafEntry phys flags) = true := by
  simp [isPresent_eq_getLsbD, leafEntry, pagePresent]

theorem entryAddr_toNat (h : c.toNat + 4096 ≤ 2 ^ 64) (i : Index) :
    (entryAddr c (i.setWidth 64)).toNat = c.toNat + 8 * i.toNat := by
  have hi := i.isLt
  have hmod : i.toNat % 2 ^ 64 = i.toNat := Nat.mod_eq_of_lt (by omega)
  rw [entryAddr, BitVec.toNat_add, BitVec.toNat_mul, BitVec.toNat_setWidth, hmod]
  simp only [BitVec.toNat_ofNat]
  omega

theorem IsTable.bound (hkd : OutsidePool kd) (hc : IsTable kd c) : c.toNat + 4096 ≤ 2 ^ 64 := by
  rcases hc with rfl | ⟨p, hp, rfl⟩
  · unfold OutsidePool at hkd
    omega
  · have := lt_maxPages p
    rw [pageAddr_toNat]
    omega

theorem IsTable.root_ne (hkd : OutsidePool kd) (hp : 512 ≤ p.val) : pageAddr p ≠ kd := by
  rintro rfl
  have := lt_maxPages p
  simp only [OutsidePool, pageAddr_toNat] at hkd
  omega

theorem IsTable.apart (hkd : OutsidePool kd) (hc : IsTable kd c) (hc' : IsTable kd c') :
    c.toNat = c'.toNat ∨ c.toNat + 4096 ≤ c'.toNat ∨ c'.toNat + 4096 ≤ c.toNat := by
  have pages_apart (p : Fin maxPages) (hp : 512 ≤ p.val) :
      kd.toNat + 4096 ≤ p.val * 4096 ∨ p.val * 4096 + 4096 ≤ kd.toNat := by
    have := lt_maxPages p
    rcases hkd with h | ⟨h, -⟩ <;> omega
  rcases hc with rfl | ⟨p, hp, rfl⟩ <;> rcases hc' with rfl | ⟨p', hp', rfl⟩
  · exact Or.inl rfl
  · rw [pageAddr_toNat]
    exact Or.inr (pages_apart p' hp')
  · rw [pageAddr_toNat]
    exact Or.inr (pages_apart p hp).symm
  · rw [pageAddr_toNat, pageAddr_toNat]
    omega

/-- Different entries of tables never share a word. -/
theorem entryAddr_inj (hkd : OutsidePool kd) (hc : IsTable kd c) (hc' : IsTable kd c')
    (h : entryAddr c (i.setWidth 64) = entryAddr c' (j.setWidth 64)) : c = c' ∧ i = j := by
  have hnat := congrArg BitVec.toNat h
  rw [entryAddr_toNat (hc.bound hkd), entryAddr_toNat (hc'.bound hkd)] at hnat
  have hi := i.isLt
  have hj := j.isLt
  have hapart := hc.apart hkd hc'
  exact ⟨BitVec.eq_of_toNat_eq (by omega), BitVec.eq_of_toNat_eq (by omega)⟩

theorem Tables.isTable (hs : Tables kd s) (hl : is.length ≤ 3)
    (hw : Radix.walk (next s.mem) kd is = some c) : IsTable kd c := by
  by_cases hn : is = []
  · subst hn
    exact Or.inl (Option.some.inj hw).symm
  · obtain ⟨p, hp, rfl, _⟩ := hs.taken is c hn hl hw
    exact Or.inr ⟨p, hp, rfl⟩

theorem Tables.fresh (hkd : OutsidePool kd) (hs : Tables kd s)
    (hp : s.pool.pageBitmap.test p = true) (hl : is.length ≤ 3) :
    Radix.walk (next s.mem) kd is ≠ some (pageAddr p) := by
  intro hw
  by_cases hn : is = []
  · subst hn
    exact IsTable.root_ne hkd (hs.reserved p hp) (Option.some.inj hw).symm
  · obtain ⟨p', _, he, hfree⟩ := hs.taken is _ hn hl hw
    rw [pageAddr_injective he, hfree] at hp
    simp at hp

/-! ### Writing one entry -/

theorem entry_update (hkd : OutsidePool kd) (hc : IsTable kd c) (ha : IsTable kd a)
    (mem : Word → Word) (e : Word) :
    entry (Function.update mem (entryAddr a (i.setWidth 64)) e) c j =
      if c = a ∧ j = i then e else entry mem c j := by
  unfold entry
  rw [Function.update_apply]
  by_cases h : c = a ∧ j = i
  · obtain ⟨rfl, rfl⟩ := h
    simp
  · rw [if_neg h, if_neg fun he => h (entryAddr_inj hkd hc ha he)]

theorem entry_zeroTable (hkd : OutsidePool kd) (hc : IsTable kd c) (ha : IsTable kd a)
    (mem : Word → Word) : entry (zeroTable mem a) c j = if c = a then 0#64 else entry mem c j := by
  unfold entry
  rw [zeroTable_apply]
  by_cases h : c = a
  · subst h
    rw [if_pos rfl, if_pos ⟨j, rfl⟩]
  · rw [if_neg h, if_neg]
    rintro ⟨k, hk⟩
    exact h (entryAddr_inj hkd hc ha hk).1

/-- Entries after `installTable`: the new one, an empty table, and all others as before. -/
theorem entry_install (hkd : OutsidePool kd) (hc : IsTable kd c) (ha : IsTable kd a)
    (hp : 512 ≤ p.val) (pool : Pool) :
    entry (installTable s a (i.setWidth 64) (pageAddr p) pool).mem c j =
      if c = a ∧ j = i then tableEntry (pageAddr p)
      else if c = pageAddr p then 0#64 else entry s.mem c j := by
  rw [installTable, entry_update hkd hc ha, entry_zeroTable hkd hc (Or.inr ⟨p, hp, rfl⟩)]

theorem next_congr (h : entry (s.mem) c j = entry (t.mem) c j) :
    next s.mem c j = next t.mem c j := by
  rw [next, next, h]

theorem leaf_congr (h : entry (s.mem) c j = entry (t.mem) c j) :
    leaf s.mem c j = leaf t.mem c j := by
  rw [leaf, leaf, h]

/-! ### Creating tables -/

theorem Extends.shrink {pool : Pool} (hs : Tables kd s)
    (hpool : ∀ p, pool.pageBitmap.test p = true → s.pool.pageBitmap.test p = true) :
    Extends kd s { s with pool := pool } where
  tables :=
    { hs with
      reserved := fun p hp => hs.reserved p (hpool p hp)
      taken := fun is c hn hl hw => by
        obtain ⟨p, hlo, rfl, hfree⟩ := hs.taken is c hn hl hw
        exact ⟨p, hlo, rfl, taken_mono hpool hfree⟩ }
  find_eq := fun _ _ _ => rfl

theorem test_mmAllocPage {pool : Pool} (h : (mmAllocPage pool).2.pageBitmap.test p = true) :
    pool.pageBitmap.test p = true := by
  rcases mmAllocPage_cases pool with ⟨i, _, _, he⟩ | ⟨_, he⟩
  · rw [he, Bitmap.test_clear, Bool.and_eq_true] at h
    exact h.2
  · rwa [he] at h

/-- Installing a free page below a table hangs one empty table in the tree. -/
theorem linked_install (hkd : OutsidePool kd) (hs : Tables kd s) (hq : q.length < 3)
    (hw : Radix.walk (next s.mem) kd q = some a) (hn : next s.mem a i = none)
    (hp : s.pool.pageBitmap.test p = true) (pool : Pool) :
    Radix.Linked (next s.mem) (next (installTable s a (i.setWidth 64) (pageAddr p) pool).mem)
      kd 3 q a i (pageAddr p) := by
  have ha := hs.isTable (by omega) hw
  have hlo := hs.reserved p hp
  refine ⟨hw, hq, hn, ?_, fun j => ?_, fun js c j hl hc hne => ?_,
    fun js hl => hs.fresh hkd hp hl⟩
  · have hnew : entry (installTable s a (i.setWidth 64) (pageAddr p) pool).mem a i =
        tableEntry (pageAddr p) := by
      rw [entry_install hkd ha ha hlo, if_pos ⟨rfl, rfl⟩]
    rw [next, hnew, if_pos (isPresent_tableEntry _), frame_tableEntry]
  · have hpa : pageAddr p ≠ a := fun he => hs.fresh hkd hp (by omega) (he ▸ hw)
    have hzero : entry (installTable s a (i.setWidth 64) (pageAddr p) pool).mem (pageAddr p) j =
        0#64 := by
      rw [entry_install hkd (Or.inr ⟨p, hlo, rfl⟩) ha hlo, if_neg fun h => hpa h.1, if_pos rfl]
    rw [next, hzero]
    rfl
  · have hcp : c ≠ pageAddr p := fun he => hs.fresh hkd hp (by omega) (he ▸ hc)
    refine next_congr (t := s) ?_
    rw [entry_install hkd (hs.isTable (by omega) hc) ha hlo, if_neg (by tauto), if_neg hcp]

theorem extends_install (hkd : OutsidePool kd) (hs : Tables kd s) (hq : q.length < 3)
    (hw : Radix.walk (next s.mem) kd q = some a) (hn : next s.mem a i = none)
    (hp : s.pool.pageBitmap.test p = true) {pool : Pool}
    (hpool : ∀ p', pool.pageBitmap.test p' = (decide (p' ≠ p) && s.pool.pageBitmap.test p')) :
    Extends kd s (installTable s a (i.setWidth 64) (pageAddr p) pool) := by
  have ha := hs.isTable (by omega) hw
  have hlo := hs.reserved p hp
  have hlink := linked_install hkd hs hq hw hn hp pool
  refine ⟨⟨hs.root, fun p' hp' => ?_, hlink.pathsDistinct hs.distinct, fun is c hne hl hc => ?_,
    fun is c j hl hc hpres => ?_⟩, fun path j hl =>
      hlink.find_eq hs.distinct (fun js c j hl hc => ?_) (fun j => ?_) path hl j⟩
  · have := hpool p' ▸ hp'
    exact hs.reserved p' (Bool.and_eq_true _ _ ▸ this).2
  · rw [hlink.walk_eq hs.distinct is hl] at hc
    split at hc
    · obtain rfl := Option.some.inj hc
      exact ⟨p, hlo, rfl, by simp [installTable, hpool]⟩
    · obtain ⟨p', hlo', rfl, hfree⟩ := hs.taken is c hne hl hc
      exact ⟨p', hlo', rfl, by simp [installTable, hpool, hfree]⟩
  · rw [hlink.walk_eq hs.distinct is (by omega)] at hc
    split at hc
    · -- the fresh table has no present entry
      obtain rfl := Option.some.inj hc
      have hnone := hlink.empty j
      simp [next, hpres] at hnone
    · have hcp : c ≠ pageAddr p := fun he => hs.fresh hkd hp (by omega) (he ▸ hc)
      rw [entry_install hkd (hs.isTable (by omega) hc) ha hlo, if_neg hcp] at hpres ⊢
      split at hpres
      · exact ⟨p, by simp_all⟩
      · rename_i hne
        rw [if_neg hne]
        exact hs.made is c j hl hc hpres
  · have hca : c ≠ a := by
      rintro rfl
      obtain rfl := hs.distinct js q c (by omega) (by omega) hc hw
      omega
    have hcp : c ≠ pageAddr p := fun he => hs.fresh hkd hp (by omega) (he ▸ hc)
    refine leaf_congr (t := s) ?_
    rw [entry_install hkd (hs.isTable (by omega) hc) ha hlo, if_neg fun h => hca h.1, if_neg hcp]
  · have hnone := hlink.empty j
    unfold next at hnone
    unfold leaf
    split at hnone <;> simp_all

/-- One creating level, with what the pool does in it. -/
theorem nextTable_true_pool (s : MmState) (table : Word) (i : Index) :
    (∃ c, next s.mem table i = some c ∧ nextTable table (i.setWidth 64) true s = (some c, s)) ∨
    (next s.mem table i = none ∧ (mmAllocPage s.pool).1 = 0#64 ∧
      nextTable table (i.setWidth 64) true s = (none, { s with pool := (mmAllocPage s.pool).2 })) ∨
    (next s.mem table i = none ∧ ∃ p pool, s.pool.pageBitmap.test p = true ∧
      (∀ p', pool.pageBitmap.test p' = (decide (p' ≠ p) && s.pool.pageBitmap.test p')) ∧
      nextTable table (i.setWidth 64) true s =
        (some (pageAddr p), installTable s table (i.setWidth 64) (pageAddr p) pool)) := by
  rcases nextTable_true_cases s table i with hsome | ⟨hn, he, hz⟩ | ⟨hn, hz, he⟩
  · exact Or.inl hsome
  · exact Or.inr (Or.inl ⟨hn, hz, he⟩)
  · rcases mmAllocPage_cases s.pool with ⟨p, hp, -, halloc⟩ | ⟨-, halloc⟩
    · rw [halloc, frame_tableEntry] at he
      exact Or.inr (Or.inr ⟨hn, p, _, hp, fun _ => Bitmap.test_clear, he⟩)
    · rw [halloc] at hz
      exact absurd rfl hz

/-- The page table of an address is a pool page, so no entry of it lies at the null address. -/
theorem pte_ne_zero (hs : Tables kd s) (hw : Radix.walk (next s.mem) kd (path virt) = some a)
    (i : Index) : entryAddr a (i.setWidth 64) ≠ 0#64 := by
  obtain ⟨p, hp, rfl, _⟩ := hs.taken (path virt) a (by simp [path]) (by simp [path]) hw
  intro he
  have hlt := lt_maxPages p
  have hnat := congrArg BitVec.toNat he
  rw [entryAddr_toNat (by rw [pageAddr_toNat]; omega), pageAddr_toNat, BitVec.toNat_ofNat] at hnat
  omega

/-! ### Reading and writing leaves -/

theorem lookup_eq_find (hs : Tables kd s) (virt : Word) :
    lookup s virt =
      Radix.find (next s.mem) (leaf s.mem) kd (path virt) (lastIndex virt) := by
  unfold lookup Radix.find
  rw [getPte_false, hs.root]
  cases hw : Radix.walk (next s.mem) kd (path virt) with
  | none => rfl
  | some pt =>
    simp only [Option.map_some, Option.getD_some, Option.bind_some, pte_ne_zero hs hw, false_or]
    unfold leaf entry
    split <;> simp_all

/-- Writing one entry of a page table leaves the tables above it alone. -/
theorem entry_writeLeaf (hkd : OutsidePool kd) (hs : Tables kd s) (hq : q.length = 3)
    (hw : Radix.walk (next s.mem) kd q = some a) (hl : is.length < 3)
    (hc : Radix.walk (next s.mem) kd is = some c) (e : Word) :
    entry (Function.update s.mem (entryAddr a (i.setWidth 64)) e) c j = entry s.mem c j := by
  have hca : c ≠ a := by
    rintro rfl
    obtain rfl := hs.distinct is q c (by omega) (by omega) hc hw
    omega
  rw [entry_update hkd (hs.isTable (by omega) hc) (hs.isTable (by omega) hw), if_neg fun h => hca h.1]

theorem walk_writeLeaf (hkd : OutsidePool kd) (hs : Tables kd s) (hq : q.length = 3)
    (hw : Radix.walk (next s.mem) kd q = some a) (i : Index) (e : Word) (hl : is.length ≤ 3) :
    Radix.walk (next (Function.update s.mem (entryAddr a (i.setWidth 64)) e)) kd is =
      Radix.walk (next s.mem) kd is := by
  refine Radix.walk_congr (fun js c j hjs hc => ?_) is hl
  rw [next, next, entry_writeLeaf hkd hs hq hw hjs hc]

/-- Writing one entry of a page table changes exactly the leaf it holds. -/
theorem tables_writeLeaf (hkd : OutsidePool kd) (hs : Tables kd s) (hq : q.length = 3)
    (hw : Radix.walk (next s.mem) kd q = some a) (i : Index) (e : Word) :
    let t := { s with mem := Function.update s.mem (entryAddr a (i.setWidth 64)) e }
    Tables kd t ∧ ∀ is j, is.length = 3 → Radix.find (next t.mem) (leaf t.mem) kd is j =
      if is = q ∧ j = i then (if isPresent e then some e else none)
      else Radix.find (next s.mem) (leaf s.mem) kd is j := by
  intro t
  have ha := hs.isTable (by omega) hw
  have hwalk (is : List Index) (hl : is.length ≤ 3) :
      Radix.walk (next t.mem) kd is = Radix.walk (next s.mem) kd is :=
    walk_writeLeaf hkd hs hq hw i e hl
  refine ⟨⟨hs.root, hs.reserved, fun is js c hi hj => ?_, fun is c hn hl => ?_,
    fun is c j hl hc => ?_⟩, fun is j hl => Radix.find_set hs.distinct hw hq hwalk ?_
      (fun js c j hl hc hne => leaf_congr (s := t) (t := s) ?_) is hl j⟩
  · rw [hwalk is hi, hwalk js hj]
    exact hs.distinct is js c hi hj
  · rw [hwalk is hl]
    exact hs.taken is c hn hl
  · rw [hwalk is (by omega)] at hc
    rw [entry_writeLeaf hkd hs hq hw hl hc]
    exact hs.made is c j hl hc
  · have hentry : entry t.mem a i = e := by
      rw [entry_update hkd ha ha, if_pos ⟨rfl, rfl⟩]
    rw [leaf, hentry]
  · rw [entry_update hkd (hs.isTable (by omega) hc) ha, if_neg (by tauto)]

end FenwickOS.Mm
