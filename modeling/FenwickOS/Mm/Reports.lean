import FenwickOS.Mm.PageRuns

/-! What `mm_map_page` and `mm_unmap_page` report, and what a map that fails leaves behind. -/
namespace FenwickOS.Mm
open Machine

/-- The pool has too few pages for the tables that `virt` lacks. -/
def OutOfPages (s : MmState) (virt : Word) : Prop :=
  freeCount s.pool < Radix.missing (next s.mem) s.currentDir (path virt)

/-- The leaf of `virt` is the one that the call is to install. -/
def Installed (phys virt flags : Word) (s : MmState) : Prop :=
  lookup (mmMapPage phys virt flags s).2 virt = some (leafEntry phys flags)

/-- Null means that nothing was installed, or that nothing was there to be removed; a page that was
installed can be removed, and its frame is returned. -/
@[mk_iff]
structure Reports (phys virt flags : Word) (s : MmState) : Prop where
  map : (mmMapPage phys virt flags s).1 = 0#64 ↔ ¬ Installed phys virt flags s
  unmap : (mmUnmapPage virt s).1 = 0#64 ↔ lookup s virt = none
  unchanged : lookup s virt = none → (mmUnmapPage virt s).2 = s
  undo : Installed phys virt flags s →
    (mmUnmapPage virt (mmMapPage phys virt flags s).2).1 = frame phys ∧ frame phys ≠ 0#64

variable {kd c virt phys flags : Word} {mem : Word → Word} {s : MmState} {r : PageRun}
  {is : List Index}

/-! ### Failed maps -/

theorem createWalk_full (hs : Tables kd s) (hfull : ∀ p, s.pool.pageBitmap.test p = false)
    (c : Word) (is : List Index) : (createWalk c is s).2 = s := by
  induction is generalizing c with
  | nil => rfl
  | cons i is ih =>
    rcases nextTable_true_tables hs c i with ⟨d, -, he⟩ | ⟨-, -, he⟩ | ⟨-, p, -, hp, -⟩
    · rw [createWalk, he]
      exact ih d
    · rw [createWalk, he]
    · rw [hfull p] at hp
      cases hp

/-- A map for which the pool runs out leaves every translation as it was. It has taken all free
pages, if any, and hung them as empty tables below an absent entry on the path of its address; the
other entries of the tables are as before, and all is as before exactly if no page was free. -/
theorem failed_map_keeps (hkd : OutsidePool kd) (hzero : ∀ i : Index, entry mem kd i = 0#64)
    (h : PageReachable kd mem r) (phys virt flags : Word)
    (hnull : (getPte virt true r.mm).1 = 0#64) :
    let t := (mmMapPage phys virt flags r.mm).2
    (mmMapPage phys virt flags r.mm).1 = 0#64 ∧
    t.currentDir = r.mm.currentDir ∧
    (∀ v, lookup t v = lookup r.mm v) ∧
    (∀ is c i, is.length ≤ 3 → Radix.walk (next r.mm.mem) r.mm.currentDir is = some c →
      entry t.mem c i = entry r.mm.mem c i ∨
        (is ++ [i] <+: path virt ∧ isPresent (entry r.mm.mem c i) = false ∧
          ∃ p, r.mm.pool.pageBitmap.test p = true ∧ entry t.mem c i = tableEntry (pageAddr p))) ∧
    (∀ p, t.pool.pageBitmap.test p = false) ∧
    (∀ p, r.mm.pool.pageBitmap.test p = true → ∃ is, is <+: path virt ∧
      Radix.walk (next t.mem) t.currentDir is = some (pageAddr p)) ∧
    (t = r.mm ↔ ∀ p, r.mm.pool.pageBitmap.test p = false) := by
  have hs := (pageInvariant_reachable hkd hzero h).tables
  rcases mmMapPage_cases hkd hs phys virt flags with ⟨u, -, hg, hfull, he⟩ | ⟨pt, u, hne, -⟩
  · have hu : u = (getPte virt true r.mm).2 := by
      have hmap : mmMapPage phys virt flags r.mm = (0#64, (getPte virt true r.mm).2) := if_pos hnull
      exact congrArg Prod.snd (he.symm.trans hmap)
    intro t
    have ht : t = u := congrArg Prod.snd he
    rw [ht, hg.ext.tables.root, hs.root]
    refine ⟨congrArg Prod.fst he, rfl, fun v => ?_, hg.entries, hfull, fun p hp => ?_, ?_⟩
    · rw [lookup_eq_find hg.ext.tables, lookup_eq_find hs]
      exact hg.ext.find_eq _ _ rfl
    · obtain ⟨is, -, hpath, hw⟩ := hg.linked p hp (hfull p)
      exact ⟨is, hpath, hw⟩
    · constructor
      · intro hsame
        rwa [hsame] at hfull
      · intro hnone
        rw [hu, getPte_true]
        exact createWalk_full hs hnone _ _
  · exact absurd hnull hne

/-! ### Reports -/

theorem frame_leafEntry (phys flags : Word) : frame (leafEntry phys flags) = frame phys := by
  have hflags : flags &&& 0xFFF#64 &&& ~~~0xFFF#64 = 0#64 := by
    rw [BitVec.and_assoc]
    exact BitVec.and_zero
  have hpresent : pagePresent &&& ~~~0xFFF#64 = 0#64 := rfl
  rw [frame, leafEntry, BitVec.and_or_distrib_right, BitVec.and_or_distrib_right, hflags, hpresent,
    BitVec.or_zero, BitVec.or_zero, BitVec.and_assoc, BitVec.and_self]
  rfl

theorem lookup_of_outOfPages (hs : Tables kd s) (hout : OutOfPages s virt) :
    lookup s virt = none := by
  rw [lookup_eq_find hs, Radix.find]
  cases hw : Radix.walk (next s.mem) kd (path virt) with
  | none => rfl
  | some pt =>
    rw [OutOfPages, hs.root, Radix.missing_of_walk hw] at hout
    exact absurd hout (Nat.not_lt_zero _)

theorem mapped_iff (hkd : OutsidePool kd) (hs : Tables kd s) (phys virt flags : Word) :
    (OutOfPages s virt ∧ (mmMapPage phys virt flags s).1 = 0#64 ∧ ¬ Installed phys virt flags s) ∨
    (¬ OutOfPages s virt ∧ (mmMapPage phys virt flags s).1 = virt ∧ Installed phys virt flags s ∧
      Tables kd (mmMapPage phys virt flags s).2) := by
  have hout : OutOfPages s virt ↔ (getPte virt true s).1 = 0#64 := by
    rw [getPte_null_iff hkd hs, OutOfPages, hs.root]
  rcases mmMapPage_cases hkd hs phys virt flags with ⟨t, hnull, hg, -, he⟩ |
    ⟨pt, t, hne, hg, -, hw, he⟩
  · refine Or.inl ⟨hout.mpr hnull, congrArg Prod.fst he, ?_⟩
    have hnone := lookup_of_outOfPages hs (hout.mpr hnull)
    rw [lookup_eq_find hs] at hnone
    unfold Installed
    rw [he, lookup_eq_find hg.ext.tables, hg.ext.find_eq _ _ rfl, hnone]
    exact fun h => by cases h
  · obtain ⟨htables, hfind⟩ := tables_writeLeaf hkd hg.ext.tables rfl hw (lastIndex virt)
      (leafEntry phys flags)
    refine Or.inr ⟨mt hout.mp hne, congrArg Prod.fst he, ?_, ?_⟩
    · unfold Installed
      rw [he, lookup_eq_find htables, hfind _ _ rfl, if_pos ⟨rfl, rfl⟩,
        if_pos (isPresent_leafEntry phys flags)]
    · rw [he]
      exact htables

theorem unmapped_fst (hs : Tables kd s) (virt : Word) :
    (mmUnmapPage virt s).1 = ((lookup s virt).map frame).getD 0#64 := by
  rcases mmUnmapPage_cases hs virt with ⟨hnone, he⟩ | ⟨pt, e, hsome, -, he⟩
  · rw [he, hnone]
    rfl
  · rw [he, hsome]
    rfl

theorem map_report_iff (hkd : OutsidePool kd) (hs : Tables kd s) (phys virt flags : Word) :
    ((mmMapPage phys virt flags s).1 = 0#64 ↔ ¬ Installed phys virt flags s) ↔
      virt ≠ 0#64 ∨ OutOfPages s virt := by
  rcases mapped_iff hkd hs phys virt flags with ⟨hout, hnull, hnot⟩ | ⟨hroom, hvirt, hin, -⟩
  · exact iff_of_true (iff_of_true hnull hnot) (Or.inr hout)
  · rw [hvirt, or_iff_left hroom, iff_false_right (not_not.mpr hin)]

theorem unmap_report_iff (hs : Tables kd s) (virt : Word) :
    ((mmUnmapPage virt s).1 = 0#64 ↔ lookup s virt = none) ↔
      ∀ e, lookup s virt = some e → frame e ≠ 0#64 := by
  rw [unmapped_fst hs]
  cases lookup s virt with
  | none => exact iff_of_true (iff_of_true rfl rfl) fun e he => by cases he
  | some e => simp

theorem unmap_unchanged (hs : Tables kd s) (h : lookup s virt = none) :
    (mmUnmapPage virt s).2 = s := by
  rcases mmUnmapPage_cases hs virt with ⟨-, he⟩ | ⟨pt, e, hsome, -⟩
  · rw [he]
  · rw [h] at hsome
    cases hsome

theorem undo_report_iff (hkd : OutsidePool kd) (hs : Tables kd s) (phys virt flags : Word) :
    (Installed phys virt flags s →
      (mmUnmapPage virt (mmMapPage phys virt flags s).2).1 = frame phys ∧ frame phys ≠ 0#64) ↔
    frame phys ≠ 0#64 ∨ OutOfPages s virt := by
  rcases mapped_iff hkd hs phys virt flags with ⟨hout, -, hnot⟩ | ⟨hroom, -, hin, htables⟩
  · exact iff_of_true (fun h => absurd h hnot) (Or.inr hout)
  · have hframe : (mmUnmapPage virt (mmMapPage phys virt flags s).2).1 = frame phys := by
      rw [unmapped_fst htables, hin, Option.map_some, Option.getD_some, frame_leafEntry]
    rw [or_iff_left hroom, forall_prop_of_true hin, and_iff_right hframe]

theorem reports_of_tables (hkd : OutsidePool kd) (hs : Tables kd s) (phys virt flags : Word) :
    Reports phys virt flags s ↔
      (virt ≠ 0#64 ∨ OutOfPages s virt) ∧
      (∀ e, lookup s virt = some e → frame e ≠ 0#64) ∧
      (frame phys ≠ 0#64 ∨ OutOfPages s virt) := by
  rw [reports_iff, map_report_iff hkd hs, unmap_report_iff hs, undo_report_iff hkd hs]
  constructor
  · rintro ⟨hmap, hunmap, -, hundo⟩
    exact ⟨hmap, hunmap, hundo⟩
  · rintro ⟨hmap, hunmap, hundo⟩
    exact ⟨hmap, hunmap, unmap_unchanged hs, hundo⟩

/-- Null is ambiguous exactly for the address 0 and for leaves of the frame 0, unless the map fails
for lack of pages. -/
theorem reports_unambiguous_iff (hkd : OutsidePool kd) (hzero : ∀ i : Index, entry mem kd i = 0#64)
    (h : PageReachable kd mem r) (phys virt flags : Word) :
    Reports phys virt flags r.mm ↔
      (virt ≠ 0#64 ∨ OutOfPages r.mm virt) ∧
      (∀ e, lookup r.mm virt = some e → frame e ≠ 0#64) ∧
      (frame phys ≠ 0#64 ∨ OutOfPages r.mm virt) :=
  reports_of_tables hkd (pageInvariant_reachable hkd hzero h).tables phys virt flags

/-! ### From `mm_init` on -/

/-- The root table at 1 MiB, in zeroed memory. -/
def PageRun.start : PageRun := ⟨⟨mmInit, fun _ => 0#64, 0x100000#64⟩, []⟩

theorem outsidePool_start : OutsidePool 0x100000#64 := Or.inl (by decide)

theorem freeCount_mmInit : freeCount mmInit = 15872 := by
  have hcount {pool : Pool} (h : PoolInvariant ⟨pool, []⟩) : freeCount pool = 15872 := by
    have hall := freeCount_add_outstanding h
    rwa [List.length_nil, Nat.add_zero] at hall
  exact hcount poolInvariant_init

theorem next_zero (c : Word) (i : Index) : next (fun _ => 0#64) c i = none := by
  have habsent : ¬ isPresent 0#64 = true := by decide
  exact if_neg habsent

theorem tables_start : Tables 0x100000#64 PageRun.start.mm :=
  (pageInvariant_init fun _ => rfl).tables

theorem missing_start (virt : Word) :
    Radix.missing (next fun _ => 0#64) 0x100000#64 (path virt) = 3 :=
  Radix.missing_of_empty (next_zero _) _

theorem not_outOfPages_start (virt : Word) : ¬ OutOfPages PageRun.start.mm virt := by
  have hmissing := missing_start virt
  have hcount := freeCount_mmInit
  unfold OutOfPages PageRun.start
  dsimp only
  rw [hmissing, hcount]
  decide

theorem lookup_start (virt : Word) : lookup PageRun.start.mm virt = none := by
  have hnext (i : Index) : next PageRun.start.mm.mem 0x100000#64 i = none := next_zero _ i
  rw [lookup_eq_find tables_start, Radix.find, path, Radix.walk, hnext]
  rfl

/-- The first page of memory mapped at 4 MiB. -/
theorem reports_start : Reports 0x5000#64 0x400000#64 0x6#64 PageRun.start.mm := by
  have hstart : PageReachable 0x100000#64 (fun _ => 0#64) PageRun.start :=
    Relation.ReflTransGen.refl
  refine (reports_unambiguous_iff outsidePool_start (fun _ => rfl) hstart
    0x5000#64 0x400000#64 0x6#64).mpr ⟨Or.inl (by decide), fun e he => ?_, Or.inl (by decide)⟩
  rw [lookup_start] at he
  cases he

/-- Mapping the address 0 succeeds and returns null. -/
theorem not_reports_zero : ¬ Reports 0x5000#64 0#64 0x6#64 PageRun.start.mm := by
  rw [reports_of_tables outsidePool_start tables_start]
  rintro ⟨hvirt | hout, -⟩
  · exact hvirt rfl
  · exact not_outOfPages_start _ hout

/-- Allocations alone bring the pool down to any number of free pages. -/
theorem exists_freeCount (n : Nat) (hn : n ≤ 15872) :
    ∃ r, PageReachable 0x100000#64 (fun _ => 0#64) r ∧ freeCount r.mm.pool = 15872 - n ∧
      r.mm.mem = (fun _ => 0#64) ∧ r.mm.currentDir = 0x100000#64 := by
  induction n with
  | zero => exact ⟨PageRun.start, Relation.ReflTransGen.refl, freeCount_mmInit, rfl, rfl⟩
  | succ n ih =>
    obtain ⟨r, hr, hcount, hmem, hroot⟩ := ih (by omega)
    have hs := (pageInvariant_reachable outsidePool_start (fun _ => rfl) hr).tables
    rcases mmAllocPage_cases r.mm.pool with ⟨p, hp, -, he⟩ | ⟨hnone, -⟩
    · have hlo := hs.reserved p hp
      have hne : (mmAllocPage r.mm.pool).1 ≠ 0#64 := by
        rw [he, Ne, pageAddr_eq_zero]
        omega
      refine ⟨_, hr.tail (PageStep.alloc hne), ?_, hmem, hroot⟩
      have htake : freeCount r.mm.pool = freeCount (mmAllocPage r.mm.pool).2 + 1 := by
        rw [he]
        exact freeCount_take hp fun _ => Bitmap.test_clear
      dsimp only [mmStep]
      omega
    · rw [freeCount_eq_zero.mpr hnone] at hcount
      omega

/-- One page is left, and an address in empty tables needs three. -/
theorem exists_lastPage : ∃ r, PageReachable 0x100000#64 (fun _ => 0#64) r ∧
    freeCount r.mm.pool = 1 ∧ (getPte 0x400000#64 true r.mm).1 = 0#64 := by
  obtain ⟨r, hr, hcount, hmem, hroot⟩ := exists_freeCount 15871 (by decide)
  have hs := (pageInvariant_reachable outsidePool_start (fun _ => rfl) hr).tables
  refine ⟨r, hr, hcount, ?_⟩
  rw [getPte_null_iff outsidePool_start hs, hmem, missing_start, hcount]
  decide

/-- A map that finds the last page and fails for the next leaves every translation as it was. -/
theorem failed_map_keeps_lastPage : ∃ r, PageReachable 0x100000#64 (fun _ => 0#64) r ∧
    freeCount r.mm.pool = 1 ∧
    ∀ v, lookup (mmMapPage 0x5000#64 0x400000#64 0x6#64 r.mm).2 v = lookup r.mm v := by
  obtain ⟨r, hr, hcount, hnull⟩ := exists_lastPage
  exact ⟨r, hr, hcount, (failed_map_keeps outsidePool_start (fun _ => rfl) hr 0x5000#64 0x400000#64
    0x6#64 hnull).2.2.1⟩

/-- It has taken that page all the same. -/
theorem failed_map_takes_lastPage : ∃ r, PageReachable 0x100000#64 (fun _ => 0#64) r ∧
    (getPte 0x400000#64 true r.mm).1 = 0#64 ∧
    (mmMapPage 0x5000#64 0x400000#64 0x6#64 r.mm).2.pool.pageBitmap ≠ r.mm.pool.pageBitmap := by
  obtain ⟨r, hr, hcount, hnull⟩ := exists_lastPage
  have hs := (pageInvariant_reachable outsidePool_start (fun _ => rfl) hr).tables
  refine ⟨r, hr, hnull, fun hsame => ?_⟩
  rcases mmMapPage_cases outsidePool_start hs 0x5000#64 0x400000#64 0x6#64 with
    ⟨t, -, -, hfull, he⟩ | ⟨pt, t, hne, -⟩
  · have hnone : ∀ p, r.mm.pool.pageBitmap.test p = false := by
      rw [← hsame, he]
      exact hfull
    rw [freeCount_eq_zero.mpr hnone] at hcount
    cases hcount
  · exact absurd hnull hne

end FenwickOS.Mm
