import FenwickOS.Mm.Reports

/-! Who has each page over whole runs: the pool, a caller or the page tables. -/
namespace FenwickOS.Mm
open Machine

/-- `get_pte` has made `p` a table. -/
def IsTablePage (kd : Word) (s : MmState) (p : Fin maxPages) : Prop :=
  ∃ is, is.length ≤ 3 ∧ Radix.walk (next s.mem) kd is = some (pageAddr p)

inductive Owner
  | pool
  | caller
  | tables

def Owns (kd : Word) (r : PageRun) (p : Fin maxPages) : Owner → Prop
  | .pool => r.mm.pool.pageBitmap.test p = true
  | .caller => pageAddr p ∈ r.held
  | .tables => IsTablePage kd r.mm p

open Classical in
noncomputable def tableCount (kd : Word) (s : MmState) : Nat :=
  (Finset.univ.filter fun p : Fin maxPages => 512 ≤ p.val ∧ IsTablePage kd s p).card

/-- Every page of the pool has an owner. -/
def AllOwned (kd : Word) (r : PageRun) : Prop := ∀ p, 512 ≤ p.val → ∃ o, Owns kd r p o

/-- The tables of `s` are tables of `t`, at the same paths. -/
def Keeps (kd : Word) (s t : MmState) : Prop :=
  ∀ is c, is.length ≤ 3 → Radix.walk (next s.mem) kd is = some c →
    Radix.walk (next t.mem) kd is = some c

variable {kd c virt : Word} {s t u : MmState} {p : Fin maxPages} {r r' : PageRun}
  {mem : Word → Word} {q is : List Index} {o o' : Owner}

theorem Keeps.refl (s : MmState) : Keeps kd s s := fun _ _ _ hw => hw

theorem Keeps.trans (h : Keeps kd s t) (h' : Keeps kd t u) : Keeps kd s u :=
  fun is c hl hw => h' is c hl (h is c hl hw)

theorem Keeps.isTablePage (h : Keeps kd s t) (hp : IsTablePage kd s p) : IsTablePage kd t p := by
  obtain ⟨is, hl, hw⟩ := hp
  exact ⟨is, hl, h is _ hl hw⟩

/-- What callers hold is neither free nor a table, and what is free is no table. -/
theorem PageInvariant.owner_unique (hkd : OutsidePool kd) (hr : PageInvariant kd r)
    (h : Owns kd r p o) (h' : Owns kd r p o') : o = o' := by
  have hpool_caller (hp : Owns kd r p .pool) (hc : Owns kd r p .caller) : False := by
    obtain ⟨p', -, he, hfalse, -⟩ := hr.held _ hc
    rw [← pageAddr_injective he] at hfalse
    cases hp.symm.trans hfalse
  have hpool_tables (hp : Owns kd r p .pool) (ht : Owns kd r p .tables) : False := by
    obtain ⟨is, hl, hw⟩ := ht
    exact hr.tables.fresh hkd hp hl hw
  have hcaller_tables (hc : Owns kd r p .caller) (ht : Owns kd r p .tables) : False := by
    obtain ⟨p', -, he, -, hno⟩ := hr.held _ hc
    obtain ⟨is, hl, hw⟩ := ht
    exact hno is hl (he ▸ hw)
  cases o with
  | pool =>
    cases o' with
    | pool => rfl
    | caller => exact (hpool_caller h h').elim
    | tables => exact (hpool_tables h h').elim
  | caller =>
    cases o' with
    | pool => exact (hpool_caller h' h).elim
    | caller => rfl
    | tables => exact (hcaller_tables h h').elim
  | tables =>
    cases o' with
    | pool => exact (hpool_tables h' h).elim
    | caller => exact (hcaller_tables h' h).elim
    | tables => rfl

/-! ### Tables stay -/

theorem keeps_writeLeaf (hkd : OutsidePool kd) (hs : Tables kd s)
    (hw : Radix.walk (next s.mem) kd (path virt) = some c) (e : Word) :
    Keeps kd s { s with
      mem := Function.update s.mem (entryAddr c ((lastIndex virt).setWidth 64)) e } := by
  intro is d hl hd
  exact (walk_writeLeaf hkd hs rfl hw _ e hl).trans hd

theorem keeps_mmMapPage (hkd : OutsidePool kd) (hs : Tables kd s) (phys virt flags : Word) :
    Keeps kd s (mmMapPage phys virt flags s).2 := by
  rcases mmMapPage_cases hkd hs phys virt flags with ⟨t, -, hg, -, he⟩ | ⟨pt, t, -, hg, -, hw, he⟩
  · rw [he]
    exact hg.kept
  · have hwrite := keeps_writeLeaf hkd hg.ext.tables hw (leafEntry phys flags)
    rw [he]
    exact Keeps.trans hg.kept hwrite

theorem keeps_mmUnmapPage (hkd : OutsidePool kd) (hs : Tables kd s) (virt : Word) :
    Keeps kd s (mmUnmapPage virt s).2 := by
  rcases mmUnmapPage_cases hs virt with ⟨-, he⟩ | ⟨pt, e, -, hw, he⟩
  · rw [he]
    exact Keeps.refl s
  · rw [he]
    exact keeps_writeLeaf hkd hs hw 0#64

theorem keeps_step (hkd : OutsidePool kd) (hr : PageInvariant kd r) (h : PageStep r r') :
    Keeps kd r.mm r'.mm := by
  cases h with
  | mapPage phys virt flags => exact keeps_mmMapPage hkd hr.tables phys virt flags
  | unmapPage virt => exact keeps_mmUnmapPage hkd hr.tables virt
  | alloc hne => exact Keeps.refl r.mm
  | allocFail hz => exact Keeps.refl r.mm
  | free hp hfree => exact Keeps.refl r.mm

/-! ### Every page has an owner -/

theorem allOwned_init (hroot : r = ⟨⟨mmInit, mem, kd⟩, []⟩) : AllOwned kd r := by
  intro p hp
  subst hroot
  exact ⟨.pool, (test_mmInit p).mpr hp⟩

/-- Tables that stay, and a pool whose missing pages have become tables, leave no page over. -/
theorem AllOwned.call {mm' : MmState} (h : AllOwned kd r) (hkeeps : Keeps kd r.mm mm')
    (hpool : ∀ p, r.mm.pool.pageBitmap.test p = true → mm'.pool.pageBitmap.test p = false →
      IsTablePage kd mm' p) : AllOwned kd ⟨mm', r.held⟩ := by
  intro p hp
  obtain ⟨o, ho⟩ := h p hp
  cases o with
  | pool =>
    cases hfree : mm'.pool.pageBitmap.test p with
    | true => exact ⟨.pool, hfree⟩
    | false => exact ⟨.tables, hpool p ho hfree⟩
  | caller => exact ⟨.caller, ho⟩
  | tables => exact ⟨.tables, hkeeps.isTablePage ho⟩

theorem linked_mmMapPage (hkd : OutsidePool kd) (hs : Tables kd s) (phys virt flags : Word)
    (htrue : s.pool.pageBitmap.test p = true)
    (hfalse : (mmMapPage phys virt flags s).2.pool.pageBitmap.test p = false) :
    IsTablePage kd (mmMapPage phys virt flags s).2 p := by
  rcases mmMapPage_cases hkd hs phys virt flags with ⟨t, -, hg, -, he⟩ | ⟨pt, t, -, hg, -, hw, he⟩
  · rw [he] at hfalse ⊢
    obtain ⟨is, hl, -, his⟩ := hg.linked p htrue hfalse
    exact ⟨is, hl, his⟩
  · rw [he] at hfalse ⊢
    obtain ⟨is, hl, -, his⟩ := hg.linked p htrue hfalse
    exact ⟨is, hl, keeps_writeLeaf hkd hg.ext.tables hw _ is _ hl his⟩

theorem pool_mmUnmapPage (hs : Tables kd s) (virt : Word) :
    (mmUnmapPage virt s).2.pool = s.pool := by
  rcases mmUnmapPage_cases hs virt with ⟨-, he⟩ | ⟨pt, e, -, -, he⟩
  · rw [he]
  · rw [he]

theorem allOwned_step (hkd : OutsidePool kd) (hr : PageInvariant kd r) (ho : AllOwned kd r)
    (h : PageStep r r') : AllOwned kd r' := by
  have hkeeps := keeps_step hkd hr h
  cases h with
  | mapPage phys virt flags =>
    exact ho.call hkeeps fun p => linked_mmMapPage hkd hr.tables phys virt flags
  | unmapPage virt =>
    refine ho.call hkeeps fun p htrue hfalse => ?_
    have hpool : (mmStep r.mm (.unmapPage virt)).pool = r.mm.pool :=
      pool_mmUnmapPage hr.tables virt
    rw [hpool, htrue] at hfalse
    cases hfalse
  | alloc hne =>
    intro p hp
    obtain ⟨o, hown⟩ := ho p hp
    cases o with
    | pool =>
      rcases mmAllocPage_cases r.mm.pool with ⟨p', -, -, he⟩ | ⟨hnone, -⟩
      · by_cases heq : p = p'
        · refine ⟨.caller, ?_⟩
          have hhead : (mmAllocPage r.mm.pool).1 = pageAddr p := by rw [he, heq]
          exact hhead ▸ List.mem_cons_self
        · refine ⟨.pool, ?_⟩
          have hbit : (mmAllocPage r.mm.pool).2.pageBitmap.test p = true := by
            rw [he, Bitmap.test_clear, decide_eq_true heq]
            exact hown
          exact hbit
      · cases (hnone p).symm.trans hown
    | caller => exact ⟨.caller, List.mem_cons_of_mem _ hown⟩
    | tables => exact ⟨.tables, hown⟩
  | allocFail hz =>
    refine ho.call hkeeps fun p htrue hfalse => ?_
    rcases mmAllocPage_cases r.mm.pool with ⟨p', hp', -, he⟩ | ⟨hnone, -⟩
    · -- page 0 is not in circulation
      have hlo := hr.tables.reserved p' hp'
      rw [he, pageAddr_eq_zero] at hz
      omega
    · cases (hnone p).symm.trans htrue
  | @free a pool ha hfree =>
    obtain ⟨p', -, rfl, -, -⟩ := hr.held a ha
    rw [mmFreePage_pageAddr] at hfree
    obtain rfl := Option.some.inj hfree
    intro p hp
    obtain ⟨o, hown⟩ := ho p hp
    by_cases heq : p = p'
    · subst heq
      exact ⟨.pool, Bitmap.test_set.trans (by simp)⟩
    · cases o with
      | pool =>
        refine ⟨.pool, Bitmap.test_set.trans ?_⟩
        rw [hown, Bool.or_true]
      | caller =>
        have hne : pageAddr p ≠ pageAddr p' := fun he => heq (pageAddr_injective he)
        exact ⟨.caller, (List.mem_erase_of_ne hne).mpr hown⟩
      | tables => exact ⟨.tables, hown⟩

theorem allOwned_reachable (hkd : OutsidePool kd) (hzero : ∀ i : Index, entry mem kd i = 0#64)
    (h : PageReachable kd mem r) : AllOwned kd r := by
  induction h with
  | refl => exact allOwned_init rfl
  | tail hrun hstep ih =>
    exact allOwned_step hkd (pageInvariant_reachable hkd hzero hrun) ih hstep

theorem keeps_run (hkd : OutsidePool kd) (hr : PageInvariant kd r)
    (h : Relation.ReflTransGen PageStep r r') : PageInvariant kd r' ∧ Keeps kd r.mm r'.mm := by
  induction h with
  | refl => exact ⟨hr, Keeps.refl r.mm⟩
  | tail _ hstep ih =>
    obtain ⟨hinv, hkeeps⟩ := ih
    exact ⟨pageInvariant_step hkd hstep hinv, hkeeps.trans (keeps_step hkd hinv hstep)⟩

/-! ### Counting -/

theorem card_held (hr : PageInvariant kd r) :
    (Finset.univ.filter fun p : Fin maxPages => pageAddr p ∈ r.held).card = r.held.length := by
  have himage : (Finset.univ.filter fun p : Fin maxPages => pageAddr p ∈ r.held).image pageAddr =
      r.held.toFinset := by
    ext a
    simp only [Finset.mem_image, Finset.mem_filter, Finset.mem_univ, true_and, List.mem_toFinset]
    constructor
    · rintro ⟨p, hp, rfl⟩
      exact hp
    · intro ha
      obtain ⟨p, -, rfl, -⟩ := hr.held a ha
      exact ⟨p, ha, rfl⟩
  rw [← List.toFinset_card_of_nodup hr.nodup, ← himage,
    Finset.card_image_of_injective _ pageAddr_injective]

open Classical in
/-- What is free, what callers hold and what the tables take is the whole pool. -/
theorem pages_conserved (hkd : OutsidePool kd) (hr : PageInvariant kd r) (ho : AllOwned kd r) :
    freeCount r.mm.pool + r.held.length + tableCount kd r.mm = 15872 := by
  have hall : (Finset.univ.filter fun p : Fin maxPages => 512 ≤ p.val).card = 15872 := by
    have hinit : (Finset.univ.filter fun p : Fin maxPages => 512 ≤ p.val) =
        Finset.univ.filter fun p : Fin maxPages => mmInit.pageBitmap.test p = true := by
      ext p
      simp [test_mmInit]
    rw [hinit]
    exact freeCount_mmInit
  have hunion : (Finset.univ.filter fun p : Fin maxPages => 512 ≤ p.val) =
      (Finset.univ.filter fun p : Fin maxPages => r.mm.pool.pageBitmap.test p = true) ∪
      (Finset.univ.filter fun p : Fin maxPages => pageAddr p ∈ r.held) ∪
      (Finset.univ.filter fun p : Fin maxPages => 512 ≤ p.val ∧ IsTablePage kd r.mm p) := by
    ext p
    simp only [Finset.mem_union, Finset.mem_filter, Finset.mem_univ, true_and]
    constructor
    · intro hp
      obtain ⟨o, hown⟩ := ho p hp
      cases o with
      | pool => exact Or.inl (Or.inl hown)
      | caller => exact Or.inl (Or.inr hown)
      | tables => exact Or.inr ⟨hp, hown⟩
    · rintro ((hfree | hheld) | htable)
      · exact hr.tables.reserved p hfree
      · obtain ⟨p', hlo, he, -⟩ := hr.held _ hheld
        rwa [pageAddr_injective he]
      · exact htable.1
  have hfree_held : Disjoint
      (Finset.univ.filter fun p : Fin maxPages => r.mm.pool.pageBitmap.test p = true)
      (Finset.univ.filter fun p : Fin maxPages => pageAddr p ∈ r.held) := by
    rw [Finset.disjoint_filter]
    intro p _ hfree hheld
    have hsame : Owner.pool = .caller := hr.owner_unique (p := p) hkd hfree hheld
    cases hsame
  have htables : Disjoint
      ((Finset.univ.filter fun p : Fin maxPages => r.mm.pool.pageBitmap.test p = true) ∪
        (Finset.univ.filter fun p : Fin maxPages => pageAddr p ∈ r.held))
      (Finset.univ.filter fun p : Fin maxPages => 512 ≤ p.val ∧ IsTablePage kd r.mm p) := by
    rw [Finset.disjoint_union_left, Finset.disjoint_filter, Finset.disjoint_filter]
    constructor
    · intro p _ hfree htable
      have hsame : Owner.pool = .tables := hr.owner_unique (p := p) hkd hfree htable.2
      cases hsame
    · intro p _ hheld htable
      have hsame : Owner.caller = .tables := hr.owner_unique (p := p) hkd hheld htable.2
      cases hsame
  rw [hunion, Finset.card_union_of_disjoint htables, Finset.card_union_of_disjoint hfree_held,
    card_held hr] at hall
  exact hall

/-- A creating walk takes the pages that it lacks, or all that there are. -/
theorem createWalk_freeCount (hkd : OutsidePool kd) (hs : Tables kd s)
    (hw : Radix.walk (next s.mem) kd q = some c) (hl : q.length + is.length ≤ 3) :
    freeCount (createWalk c is s).2.pool =
      freeCount s.pool - Radix.missing (next s.mem) c is := by
  induction is generalizing q c s with
  | nil => rw [createWalk, Radix.missing, Nat.sub_zero]
  | cons i is ih =>
    have hlen : (q ++ [i]).length + is.length ≤ 3 := by
      rw [List.length_append, List.length_singleton]
      rw [List.length_cons] at hl
      omega
    have hq : q.length < 3 := by
      rw [List.length_cons] at hl
      omega
    rcases nextTable_true_tables hs c i with ⟨d, hd, he⟩ | ⟨hn, hfull, he⟩ |
      ⟨hn, p, pool, hp, hpool, he⟩
    · have hwd : Radix.walk (next s.mem) kd (q ++ [i]) = some d := by
        rw [Radix.walk_snoc, hw]
        exact hd
      rw [createWalk, he, Radix.missing, hd]
      exact ih hs hwd hlen
    · rw [createWalk, he, freeCount_eq_zero.mpr hfull, Nat.zero_sub]
    · obtain ⟨hgrown, hwalk, hempty⟩ :=
        Grows.install hkd hs hq (List.prefix_append (q ++ [i]) is) hw hn hp hpool
      have hcount : freeCount s.pool = freeCount pool + 1 := freeCount_take hp hpool
      have hrest := ih hgrown.ext.tables hwalk hlen
      rw [Radix.missing_of_empty hempty] at hrest
      have hinstalled : freeCount (installTable s c (i.setWidth 64) (pageAddr p) pool).pool =
          freeCount pool := rfl
      rw [createWalk, he, Radix.missing, hn]
      dsimp only
      rw [hrest, hinstalled, hcount]
      omega

theorem mmMapPage_freeCount (hkd : OutsidePool kd) (hs : Tables kd s) (phys virt flags : Word) :
    freeCount (mmMapPage phys virt flags s).2.pool =
      freeCount s.pool - Radix.missing (next s.mem) kd (path virt) := by
  have hroot : Radix.walk (next s.mem) kd [] = some kd := rfl
  have hlen : ([] : List (BitVec 9)).length + (path virt).length ≤ 3 := Nat.le_refl 3
  have hwalk := createWalk_freeCount hkd hs hroot hlen
  have hpool : (mmMapPage phys virt flags s).2.pool =
      (createWalk s.currentDir (path virt) s).2.pool := by
    rw [mmMapPage, getPte_true]
    dsimp only
    split
    · rfl
    · rfl
  rw [hpool, hs.root]
  exact hwalk

/-- In every run each page of the pool has exactly one owner, the tables never shrink or move, and
a call of `mm_map_page` takes exactly the tables that its address lacks. -/
theorem pages_accounted (hkd : OutsidePool kd) (hzero : ∀ i : Index, entry mem kd i = 0#64)
    (h : PageReachable kd mem r) :
    (∀ p, 512 ≤ p.val → ∃! o, Owns kd r p o) ∧
    freeCount r.mm.pool + r.held.length + tableCount kd r.mm = 15872 ∧
    (∀ phys virt flags, tableCount kd (mmMapPage phys virt flags r.mm).2 =
      tableCount kd r.mm +
        min (Radix.missing (next r.mm.mem) kd (path virt)) (freeCount r.mm.pool)) ∧
    ∀ r', Relation.ReflTransGen PageStep r r' → Keeps kd r.mm r'.mm := by
  have hr := pageInvariant_reachable hkd hzero h
  have ho := allOwned_reachable hkd hzero h
  refine ⟨fun p hp => ?_, pages_conserved hkd hr ho, fun phys virt flags => ?_,
    fun r' hrun => (keeps_run hkd hr hrun).2⟩
  · obtain ⟨o, hown⟩ := ho p hp
    exact ⟨o, hown, fun o' hown' => hr.owner_unique hkd hown' hown⟩
  · let t := (mmMapPage phys virt flags r.mm).2
    have hstep : PageStep r ⟨t, r.held⟩ := PageStep.mapPage phys virt flags
    have hbefore := pages_conserved hkd hr ho
    have hafter := pages_conserved hkd (pageInvariant_step hkd hstep hr)
      (allOwned_step hkd hr ho hstep)
    have hcost : freeCount t.pool =
        freeCount r.mm.pool - Radix.missing (next r.mm.mem) kd (path virt) :=
      mmMapPage_freeCount hkd hr.tables phys virt flags
    dsimp only [t] at hafter hcost
    omega

theorem exists_alloc_free (hr : PageInvariant kd r) (hheld : r.held = [])
    (hfree : 0 < freeCount r.mm.pool) : ∃ r₁ r₂ q,
    (PageStep r r₁ ∧ r₁.held = [q] ∧ r₁.mm.mem = r.mm.mem) ∧
    PageStep r₁ r₂ ∧ r₂.held = [] ∧ r₂.mm.mem = r.mm.mem := by
  rcases mmAllocPage_cases r.mm.pool with ⟨i, hi, -, he⟩ | ⟨hnone, -⟩
  · have hpage : (mmAllocPage r.mm.pool).1 = pageAddr i := by rw [he]
    have hne : (mmAllocPage r.mm.pool).1 ≠ 0#64 := by
      have hlo := hr.tables.reserved i hi
      rw [hpage, Ne, pageAddr_eq_zero]
      omega
    have hgiven := mmFreePage_pageAddr (mmAllocPage r.mm.pool).2 i
    rw [← hpage] at hgiven
    have halloc := PageStep.alloc hne
    have hback := PageStep.free
      (r := ⟨mmStep r.mm .allocPage, (mmAllocPage r.mm.pool).1 :: r.held⟩) List.mem_cons_self hgiven
    refine ⟨_, _, (mmAllocPage r.mm.pool).1, ⟨halloc, by rw [hheld], rfl⟩, hback, ?_, rfl⟩
    rw [List.erase_cons_head, hheld]
  · rw [freeCount_eq_zero.mpr hnone] at hfree
    omega

theorem tableCount_congr (h : s.mem = t.mem) : tableCount kd s = tableCount kd t := by
  unfold tableCount IsTablePage
  rw [h]

/-- The first mapping after `mm_start` takes three tables; then a page is taken and given back. -/
theorem pages_accounted_map_alloc_free : ∃ r r₁ r₂ r₃ q, r = PageRun.start ∧
    (PageStep r r₁ ∧ tableCount 0x100000#64 r₁.mm = 3 ∧ freeCount r₁.mm.pool = 15869) ∧
    (PageStep r₁ r₂ ∧ r₂.held = [q] ∧ freeCount r₂.mm.pool = 15868) ∧
    (PageStep r₂ r₃ ∧ r₃.held = [] ∧ freeCount r₃.mm.pool = 15869) ∧
    Keeps 0x100000#64 r₁.mm r₃.mm := by
  obtain ⟨r, hr⟩ : ∃ r, r = PageRun.start := ⟨_, rfl⟩
  have hrun : PageReachable 0x100000#64 (fun _ => 0#64) r := by
    rw [hr]
    exact Relation.ReflTransGen.refl
  have hfree : freeCount r.mm.pool = 15872 := by
    rw [hr]
    exact freeCount_mmInit
  have hmissing : Radix.missing (next r.mm.mem) 0x100000#64 (path 0x400000#64) = 3 := by
    rw [hr]
    exact missing_start _
  have hheld : r.held = [] := by
    rw [hr]
    rfl
  obtain ⟨-, hsum, hcost, -⟩ := pages_accounted outsidePool_start (fun _ => rfl) hrun
  obtain ⟨r₁, hmap, hmm₁, hheld₁⟩ : ∃ r₁, PageStep r r₁ ∧
      r₁.mm = (mmMapPage 0x5000#64 0x400000#64 0x6#64 r.mm).2 ∧ r₁.held = r.held :=
    ⟨_, PageStep.mapPage 0x5000#64 0x400000#64 0x6#64, rfl, rfl⟩
  have hrun₁ := hrun.tail hmap
  obtain ⟨-, hsum₁, -, hkeeps⟩ := pages_accounted outsidePool_start (fun _ => rfl) hrun₁
  have hthree : tableCount 0x100000#64 r₁.mm = 3 := by
    rw [hheld, List.length_nil] at hsum
    rw [hmm₁, hcost, hmissing]
    omega
  rw [hheld₁, hheld, List.length_nil] at hsum₁
  have hinv₁ := pageInvariant_reachable outsidePool_start (fun _ => rfl) hrun₁
  obtain ⟨r₂, r₃, q, ⟨halloc, hheld₂, hmem₂⟩, hback, hheld₃, hmem₃⟩ :=
    exists_alloc_free hinv₁ (hheld₁.trans hheld) (by omega)
  have hrun₂ := hrun₁.tail halloc
  obtain ⟨-, hsum₂, -, -⟩ := pages_accounted outsidePool_start (fun _ => rfl) hrun₂
  obtain ⟨-, hsum₃, -, -⟩ := pages_accounted outsidePool_start (fun _ => rfl) (hrun₂.tail hback)
  rw [hheld₂, List.length_singleton, tableCount_congr hmem₂] at hsum₂
  rw [hheld₃, List.length_nil, tableCount_congr hmem₃] at hsum₃
  exact ⟨r, r₁, r₂, r₃, q, hr, ⟨hmap, hthree, by omega⟩, ⟨halloc, hheld₂, by omega⟩,
    ⟨hback, hheld₃, by omega⟩, hkeeps r₃ ((Relation.ReflTransGen.single halloc).tail hback)⟩

end FenwickOS.Mm
