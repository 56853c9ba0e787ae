import FenwickOS.Mm.Ownership

/-! Callers that write to the pages they hold while the tables change around them. -/
namespace FenwickOS.Mm
open Machine

/-- What the pages are for: the translations that callers made and the words they stored. -/
structure Contents where
  map : PageMap
  page : Fin maxPages → Index → Word

def Contents.store (m : Contents) (p : Fin maxPages) (i : Index) (v : Word) : Contents :=
  { m with page := Function.update m.page p (Function.update (m.page p) i v) }

def storeWord (s : MmState) (p : Fin maxPages) (i : Index) (v : Word) : MmState :=
  { s with mem := Function.update s.mem (entryAddr (pageAddr p) (i.setWidth 64)) v }

/-- The calls of paging.c, and the stores of callers, beside what they are for. -/
inductive UseStep : PageRun × Contents → PageRun × Contents → Prop
  | mapPage {r : PageRun} {m : Contents} (phys virt flags : Word) :
    UseStep (r, m) (⟨mmStep r.mm (.mapPage phys virt flags), r.held⟩,
      { m with map := (refineStep (r.mm, m.map) (.mapPage phys virt flags)).2 })
  | unmapPage {r : PageRun} {m : Contents} (virt : Word) :
    UseStep (r, m) (⟨mmStep r.mm (.unmapPage virt), r.held⟩,
      { m with map := (refineStep (r.mm, m.map) (.unmapPage virt)).2 })
  | alloc {r : PageRun} {m : Contents} (h : (mmAllocPage r.mm.pool).1 ≠ 0#64) :
    UseStep (r, m) (⟨mmStep r.mm .allocPage, (mmAllocPage r.mm.pool).1 :: r.held⟩, m)
  | allocFail {r : PageRun} {m : Contents} (h : (mmAllocPage r.mm.pool).1 = 0#64) :
    UseStep (r, m) (⟨mmStep r.mm .allocPage, r.held⟩, m)
  | free {r : PageRun} {m : Contents} {p : Word} {pool : Pool} (hp : p ∈ r.held)
      (h : mmFreePage p r.mm.pool = some pool) :
    UseStep (r, m) (⟨{ r.mm with pool := pool }, r.held.erase p⟩, m)
  | store {r : PageRun} {m : Contents} {p : Fin maxPages} (hp : pageAddr p ∈ r.held) (i : Index)
      (v : Word) : UseStep (r, m) (⟨storeWord r.mm p i v, r.held⟩, m.store p i v)

/-- Nothing is mapped, and `mem` is what the pages hold. -/
def Contents.start (mem : Word → Word) : Contents :=
  ⟨fun _ => none, fun p => entry mem (pageAddr p)⟩

def UseReachable (kd : Word) (mem : Word → Word) (x : PageRun × Contents) : Prop :=
  Relation.ReflTransGen UseStep (⟨⟨mmInit, mem, kd⟩, []⟩, Contents.start mem) x

/-- The tables hold the translations and the other pages hold the stores. -/
structure Shared (kd : Word) (x : PageRun × Contents) : Prop where
  pages : PageInvariant kd x.1
  map : Refines kd (x.1.mm, x.2.map)
  page : ∀ p, 512 ≤ p.val → ¬ IsTablePage kd x.1.mm p → ∀ i,
    entry x.1.mm.mem (pageAddr p) i = x.2.page p i

variable {kd c virt : Word} {s t : MmState} {p : Fin maxPages} {r : PageRun} {m : Contents}
  {x y : PageRun × Contents} {mem mem' : Word → Word} {q is : List Index} {i : Index}
  {held : List Word}

/-! ### Memory that holds the same tables -/

theorem walk_of_entries (h : ∀ is c j, is.length ≤ 3 → Radix.walk (next mem) kd is = some c →
      entry mem' c j = entry mem c j) (hl : is.length ≤ 3) :
    Radix.walk (next mem') kd is = Radix.walk (next mem) kd is := by
  refine Radix.walk_congr (fun js c j hjs hc => ?_) is hl
  rw [next, next, h js c j (Nat.le_of_lt hjs) hc]

theorem find_of_entries (h : ∀ is c j, is.length ≤ 3 → Radix.walk (next mem) kd is = some c →
      entry mem' c j = entry mem c j) (hl : is.length = 3) :
    Radix.find (next mem') (leaf mem') kd is i = Radix.find (next mem) (leaf mem) kd is i := by
  unfold Radix.find
  rw [walk_of_entries h (Nat.le_of_eq hl)]
  cases hw : Radix.walk (next mem) kd is with
  | none => rfl
  | some c =>
    have hentry := h is c i (Nat.le_of_eq hl) hw
    simp only [Option.bind_some, leaf, hentry]

theorem Tables.of_entries (hs : Tables kd s)
    (h : ∀ is c j, is.length ≤ 3 → Radix.walk (next s.mem) kd is = some c →
      entry mem' c j = entry s.mem c j) : Tables kd { s with mem := mem' } where
  root := hs.root
  reserved := hs.reserved
  distinct is js c hi hj hwi hwj := by
    have hwi : Radix.walk (next mem') kd is = some c := hwi
    have hwj : Radix.walk (next mem') kd js = some c := hwj
    rw [walk_of_entries h hi] at hwi
    rw [walk_of_entries h hj] at hwj
    exact hs.distinct is js c hi hj hwi hwj
  taken is c hn hl hw := by
    have hw : Radix.walk (next mem') kd is = some c := hw
    rw [walk_of_entries h hl] at hw
    exact hs.taken is c hn hl hw
  made is c i hl hw hp := by
    have hw : Radix.walk (next mem') kd is = some c := hw
    have hp : isPresent (entry mem' c i) = true := hp
    rw [walk_of_entries h (Nat.le_of_lt hl)] at hw
    have hentry := h is c i (Nat.le_of_lt hl) hw
    rw [hentry] at hp
    obtain ⟨p, hmade⟩ := hs.made is c i hl hw hp
    exact ⟨p, hentry.trans hmade⟩

/-! ### A store of a caller -/

/-- A page that is no table shares no word with one. -/
theorem entry_storeWord (hkd : OutsidePool kd) (hs : Tables kd s) (hlo : 512 ≤ p.val)
    (hno : ¬ IsTablePage kd s p) (v : Word) :
    ∀ is c j, is.length ≤ 3 → Radix.walk (next s.mem) kd is = some c →
      entry (storeWord s p i v).mem c j = entry s.mem c j := by
  intro is c j hl hw
  have hne : c ≠ pageAddr p := by
    rintro rfl
    exact hno ⟨is, hl, hw⟩
  rw [storeWord, entry_update hkd (hs.isTable hl hw) (Or.inr ⟨p, hlo, rfl⟩), if_neg fun h => hne h.1]

theorem PageInvariant.not_isTablePage (hr : PageInvariant kd r) (hp : pageAddr p ∈ r.held) :
    512 ≤ p.val ∧ ¬ IsTablePage kd r.mm p := by
  obtain ⟨p', hlo, he, -, hno⟩ := hr.held _ hp
  obtain rfl := pageAddr_injective he
  refine ⟨hlo, ?_⟩
  rintro ⟨is, hl, hw⟩
  exact hno is hl hw

theorem Shared.store (hkd : OutsidePool kd) (hx : Shared kd (r, m)) (hp : pageAddr p ∈ r.held)
    (i : Index) (v : Word) : Shared kd (⟨storeWord r.mm p i v, r.held⟩, m.store p i v) := by
  obtain ⟨hlo, hno⟩ := hx.pages.not_isTablePage hp
  have hsame := entry_storeWord (i := i) hkd hx.pages.tables hlo hno v
  have htables : Tables kd (storeWord r.mm p i v) := Tables.of_entries hx.pages.tables hsame
  have hwalk (is : List Index) (hl : is.length ≤ 3) :
      Radix.walk (next (storeWord r.mm p i v).mem) kd is = Radix.walk (next r.mm.mem) kd is :=
    walk_of_entries hsame hl
  refine ⟨⟨htables, hx.pages.nodup, fun a ha => ?_⟩, ⟨htables, fun w => ?_⟩,
    fun p' hlo' hno' j => ?_⟩
  · obtain ⟨p', hlo', he, hfalse, hfree⟩ := hx.pages.held a ha
    refine ⟨p', hlo', he, hfalse, fun is hl hw => ?_⟩
    dsimp only at hw
    rw [hwalk is hl] at hw
    exact hfree is hl hw
  · have hold := hx.map.agrees w
    exact (find_of_entries hsame rfl).trans hold
  · have hentry : entry (storeWord r.mm p i v).mem (pageAddr p') j =
        if pageAddr p' = pageAddr p ∧ j = i then v else entry r.mm.mem (pageAddr p') j := by
      rw [storeWord, entry_update hkd (Or.inr ⟨p', hlo', rfl⟩) (Or.inr ⟨p, hlo, rfl⟩)]
    have hold := hx.page p' hlo' fun htable => hno' (by
      obtain ⟨is, hl, hw⟩ := htable
      exact ⟨is, hl, (hwalk is hl).trans hw⟩)
    dsimp only at hold ⊢
    rw [hentry, hold, Contents.store]
    by_cases hpage : p' = p
    · subst hpage
      by_cases hword : j = i
      · subst hword
        simp
      · simp [hword]
    · have haddr : pageAddr p' ≠ pageAddr p := fun he => hpage (pageAddr_injective he)
      simp [hpage, haddr]

/-! ### A call of paging.c -/

/-- A creating walk writes to no page but those that are tables when it ends. -/
theorem entry_createWalk (hkd : OutsidePool kd) (hs : Tables kd s)
    (hw : Radix.walk (next s.mem) kd q = some c) (hl : q.length + is.length ≤ 3)
    (hlo : 512 ≤ p.val) (hno : ¬ IsTablePage kd (createWalk c is s).2 p) (j : Index) :
    entry (createWalk c is s).2.mem (pageAddr p) j = entry s.mem (pageAddr p) j := by
  induction is generalizing q c s with
  | nil => rfl
  | cons i is ih =>
    have hlen : (q ++ [i]).length + is.length ≤ 3 := by
      rw [List.length_append, List.length_singleton]
      rw [List.length_cons] at hl
      omega
    have hq : q.length < 3 := by
      rw [List.length_cons] at hl
      omega
    rcases nextTable_true_tables hs c i with ⟨d, hd, he⟩ | ⟨hn, hfull, he⟩ |
      ⟨hn, p', pool, hp, hpool, he⟩
    · have hwd : Radix.walk (next s.mem) kd (q ++ [i]) = some d := by
        rw [Radix.walk_snoc, hw]
        exact hd
      rw [createWalk, he] at hno ⊢
      exact ih hs hwd hlen hno
    · rw [createWalk, he]
    · obtain ⟨hgrown, hwalk, -⟩ :=
        Grows.install hkd hs hq (List.prefix_append (q ++ [i]) is) hw hn hp hpool
      have hrest := createWalk_walked hkd hgrown.ext.tables hwalk hlen
      rw [createWalk, he] at hno ⊢
      dsimp only at hno ⊢
      have hparent : pageAddr p ≠ c := by
        rintro rfl
        exact hno ⟨q, Nat.le_of_lt hq, hrest.grows.kept q _ (Nat.le_of_lt hq)
          (hgrown.kept q _ (Nat.le_of_lt hq) hw)⟩
      have hfresh : pageAddr p ≠ pageAddr p' := by
        intro heq
        have hshort : (q ++ [i]).length ≤ 3 := Nat.le_trans (Nat.le_add_right _ _) hlen
        have hkept := hrest.grows.kept _ _ hshort hwalk
        exact hno ⟨q ++ [i], hshort, hkept.trans (congrArg some heq.symm)⟩
      have hpage : IsTable kd (pageAddr p) := Or.inr ⟨p, hlo, rfl⟩
      have hinstall := entry_install (s := s) (j := j) (i := i) hkd hpage
        (hs.isTable (Nat.le_of_lt hq) hw) (hs.reserved p' hp) pool
      rw [if_neg fun h => hparent h.1, if_neg hfresh] at hinstall
      exact (ih hgrown.ext.tables hwalk hlen hno).trans hinstall

theorem entry_writeLeaf_page (hkd : OutsidePool kd) (hs : Tables kd s)
    (hw : Radix.walk (next s.mem) kd (path virt) = some c) (hlo : 512 ≤ p.val)
    (hno : ¬ IsTablePage kd s p) (e : Word) (j : Index) :
    entry (Function.update s.mem (entryAddr c ((lastIndex virt).setWidth 64)) e) (pageAddr p) j =
      entry s.mem (pageAddr p) j := by
  have hl : (path virt).length ≤ 3 := Nat.le_refl _
  have hne : pageAddr p ≠ c := by
    rintro rfl
    exact hno ⟨path virt, hl, hw⟩
  rw [entry_update hkd (Or.inr ⟨p, hlo, rfl⟩) (hs.isTable hl hw), if_neg fun h => hne h.1]

theorem entry_mmMapPage (hkd : OutsidePool kd) (hs : Tables kd s) (phys virt flags : Word)
    (hlo : 512 ≤ p.val) (hno : ¬ IsTablePage kd (mmMapPage phys virt flags s).2 p) (j : Index) :
    entry (mmMapPage phys virt flags s).2.mem (pageAddr p) j = entry s.mem (pageAddr p) j := by
  have hwalked := getPte_walked hkd hs virt
  have hkept (hsame : ¬ IsTablePage kd (createWalk s.currentDir (path virt) s).2 p) :
      entry (createWalk s.currentDir (path virt) s).2.mem (pageAddr p) j =
        entry s.mem (pageAddr p) j := by
    rw [hs.root] at hsame ⊢
    exact entry_createWalk (q := []) hkd hs rfl (Nat.le_refl _) hlo hsame j
  cases hpt : (createWalk s.currentDir (path virt) s).1 with
  | none =>
    have hmap : (mmMapPage phys virt flags s).2 = (createWalk s.currentDir (path virt) s).2 := by
      rw [mmMapPage, getPte_true, hpt]
      rfl
    rw [hmap] at hno ⊢
    exact hkept hno
  | some pt =>
    have hw := hwalked.found pt hpt
    have hne := pte_ne_zero hwalked.grows.ext.tables hw (lastIndex virt)
    have hmap : (mmMapPage phys virt flags s).2 =
        { (createWalk s.currentDir (path virt) s).2 with
          mem := Function.update (createWalk s.currentDir (path virt) s).2.mem
            (entryAddr pt ((lastIndex virt).setWidth 64)) (leafEntry phys flags) } := by
      rw [mmMapPage, getPte_true, hpt]
      exact congrArg Prod.snd (if_neg hne)
    have hkeeps := keeps_writeLeaf hkd hwalked.grows.ext.tables hw (leafEntry phys flags)
    rw [hmap] at hno ⊢
    have hno' : ¬ IsTablePage kd (createWalk s.currentDir (path virt) s).2 p :=
      fun h => hno (hkeeps.isTablePage h)
    exact (entry_writeLeaf_page hkd hwalked.grows.ext.tables hw hlo hno' _ j).trans (hkept hno')

theorem entry_mmUnmapPage (hkd : OutsidePool kd) (hs : Tables kd s) (virt : Word)
    (hlo : 512 ≤ p.val) (hno : ¬ IsTablePage kd s p) (j : Index) :
    entry (mmUnmapPage virt s).2.mem (pageAddr p) j = entry s.mem (pageAddr p) j := by
  rcases mmUnmapPage_cases hs virt with ⟨-, he⟩ | ⟨pt, e, -, hw, he⟩
  · rw [he]
  · rw [he]
    exact entry_writeLeaf_page hkd hs hw hlo hno 0#64 j

/-! ### Runs -/

theorem shared_start (hzero : ∀ i : Index, entry mem kd i = 0#64) :
    Shared kd (⟨⟨mmInit, mem, kd⟩, []⟩, Contents.start mem) :=
  ⟨pageInvariant_init hzero, refines_init hzero, fun _ _ _ _ => rfl⟩

theorem shared_step (hkd : OutsidePool kd) (hx : Shared kd x) (h : UseStep x y) : Shared kd y := by
  cases h with
  | @mapPage r m phys virt flags =>
    have hkeeps := keeps_mmMapPage hkd hx.pages.tables phys virt flags
    refine ⟨pageInvariant_step hkd (PageStep.mapPage phys virt flags) hx.pages,
      refines_step hkd (r.mm, m.map) (.mapPage phys virt flags) hx.map, fun p hlo hno i => ?_⟩
    have hold := hx.page p hlo fun htable => hno (hkeeps.isTablePage htable)
    exact (entry_mmMapPage hkd hx.pages.tables phys virt flags hlo hno i).trans (hold i)
  | @unmapPage r m virt =>
    have hkeeps := keeps_mmUnmapPage hkd hx.pages.tables virt
    refine ⟨pageInvariant_step hkd (PageStep.unmapPage virt) hx.pages,
      refines_step hkd (r.mm, m.map) (.unmapPage virt) hx.map, fun p hlo hno i => ?_⟩
    have hno' : ¬ IsTablePage kd r.mm p := fun htable => hno (hkeeps.isTablePage htable)
    exact (entry_mmUnmapPage hkd hx.pages.tables virt hlo hno' i).trans (hx.page p hlo hno' i)
  | @alloc r m hne =>
    exact ⟨pageInvariant_step hkd (PageStep.alloc hne) hx.pages,
      refines_step hkd (r.mm, m.map) .allocPage hx.map, hx.page⟩
  | @allocFail r m hz =>
    exact ⟨pageInvariant_step hkd (PageStep.allocFail hz) hx.pages,
      refines_step hkd (r.mm, m.map) .allocPage hx.map, hx.page⟩
  | free hp hfree =>
    have hpages := pageInvariant_step hkd (PageStep.free hp hfree) hx.pages
    exact ⟨hpages, ⟨hpages.tables, hx.map.agrees⟩, hx.page⟩
  | store hp i v => exact hx.store hkd hp i v

theorem shared_reachable (hkd : OutsidePool kd) (hzero : ∀ i : Index, entry mem kd i = 0#64)
    (h : UseReachable kd mem x) : Shared kd x := by
  induction h with
  | refl => exact shared_start hzero
  | tail _ hstep ih => exact shared_step hkd ih hstep

theorem Shared.lookup_eq (hx : Shared kd (r, m)) (v : Word) : lookup r.mm v = m.map (key v) := by
  rw [lookup_eq_find hx.pages.tables]
  exact hx.map.agrees v

theorem Shared.entry_held (hx : Shared kd (r, m)) (hp : pageAddr p ∈ r.held) (i : Index) :
    entry r.mm.mem (pageAddr p) i = m.page p i := by
  obtain ⟨hlo, hno⟩ := hx.pages.not_isTablePage hp
  exact hx.page p hlo hno i

/-- However callers store to the pages they hold, the walk reads the map that the calls built, and
the pages of callers read as they were stored, whatever has been mapped in between. -/
theorem contents_kept (hkd : OutsidePool kd) (hzero : ∀ i : Index, entry mem kd i = 0#64)
    (h : UseReachable kd mem (r, m)) :
    (∀ v, lookup r.mm v = m.map (key v)) ∧
    (∀ p, pageAddr p ∈ r.held → ∀ i, entry r.mm.mem (pageAddr p) i = m.page p i) ∧
    ∀ p, r.mm.pool.pageBitmap.test p = true → ∀ i,
      entry r.mm.mem (pageAddr p) i = m.page p i := by
  have hx := shared_reachable hkd hzero h
  refine ⟨hx.lookup_eq, fun p hp i => hx.entry_held hp i, fun p hp => ?_⟩
  refine hx.page p (hx.pages.tables.reserved p hp) ?_
  rintro ⟨is, hl, hw⟩
  exact hx.pages.tables.fresh hkd hp hl hw

/-- A page is taken, one of its words written, and 4 MiB mapped with three new tables. -/
theorem contents_kept_map : ∃ r m, UseReachable 0x100000#64 (fun _ => 0#64) (r, m) ∧
    ∃ p, pageAddr p ∈ r.held ∧ entry r.mm.mem (pageAddr p) 3#9 = 0x2A#64 ∧
      lookup r.mm 0x400123#64 = m.map (key 0x400123#64) := by
  rcases mmAllocPage_cases mmInit with ⟨p, hp, -, he⟩ | ⟨hnone, -⟩
  · have hlo := (test_mmInit p).mp hp
    have haddr : (mmAllocPage mmInit).1 = pageAddr p := by rw [he]
    have hne : (mmAllocPage mmInit).1 ≠ 0#64 := by
      rw [haddr, Ne, pageAddr_eq_zero]
      omega
    have halloc := UseStep.alloc (r := ⟨⟨mmInit, fun _ => 0#64, 0x100000#64⟩, []⟩)
      (m := Contents.start fun _ => 0#64) hne
    have hheld : pageAddr p ∈ [(mmAllocPage mmInit).1] := by
      rw [haddr]
      exact List.mem_singleton_self _
    have hstore := UseStep.store
      (r := ⟨mmStep ⟨mmInit, fun _ => 0#64, 0x100000#64⟩ .allocPage, [(mmAllocPage mmInit).1]⟩)
      (m := Contents.start fun _ => 0#64) hheld 3#9 0x2A#64
    have hrun := ((Relation.ReflTransGen.single halloc).tail hstore).tail
      (UseStep.mapPage 0x5000#64 0x400000#64 0x6#64)
    obtain ⟨hmap, hpage, -⟩ := contents_kept outsidePool_start (fun _ => rfl) hrun
    refine ⟨_, _, hrun, p, hheld, ?_, hmap _⟩
    rw [hpage p hheld]
    simp [Contents.store]
  · have hfree := (test_mmInit ⟨512, by decide⟩).mpr (Nat.le_refl _)
    cases (hnone _).symm.trans hfree

end FenwickOS.Mm
