import FenwickOS.Mm.PagingRefinement

/-! Runs of the calls of kernel/mm/paging.c whose callers give back only pages they hold. -/
namespace FenwickOS.Mm
open Machine

structure PageRun where
  mm : MmState
  held : List Word

/-- Callers map, unmap and allocate at will and give back only what they hold. -/
inductive PageStep : PageRun → PageRun → Prop
  | mapPage {r : PageRun} (phys virt flags : Word) :
    PageStep r ⟨mmStep r.mm (.mapPage phys virt flags), r.held⟩
  | unmapPage {r : PageRun} (virt : Word) : PageStep r ⟨mmStep r.mm (.unmapPage virt), r.held⟩
  | alloc {r : PageRun} (h : (mmAllocPage r.mm.pool).1 ≠ 0#64) :
    PageStep r ⟨mmStep r.mm .allocPage, (mmAllocPage r.mm.pool).1 :: r.held⟩
  | allocFail {r : PageRun} (h : (mmAllocPage r.mm.pool).1 = 0#64) :
    PageStep r ⟨mmStep r.mm .allocPage, r.held⟩
  | free {r : PageRun} {p : Word} {pool : Pool} (hp : p ∈ r.held)
      (h : mmFreePage p r.mm.pool = some pool) :
    PageStep r ⟨{ r.mm with pool := pool }, r.held.erase p⟩

/-- `mem` is memory in which `kernel_dir`, at the address `kd`, is still zero. -/
def PageReachable (kd : Word) (mem : Word → Word) (r : PageRun) : Prop :=
  Relation.ReflTransGen PageStep ⟨⟨mmInit, mem, kd⟩, []⟩ r

/-- What callers hold are pages that are neither free nor tables. -/
structure PageInvariant (kd : Word) (r : PageRun) : Prop where
  tables : Tables kd r.mm
  nodup : r.held.Nodup
  held : ∀ a ∈ r.held, ∃ p : Fin maxPages, 512 ≤ p.val ∧ a = pageAddr p ∧
    r.mm.pool.pageBitmap.test p = false ∧
    ∀ is, is.length ≤ 3 → Radix.walk (next r.mm.mem) kd is ≠ some (pageAddr p)

variable {kd c virt : Word} {s t : MmState} {p : Fin maxPages} {pool : Pool} {r r' : PageRun}
  {mem : Word → Word} {held : List Word} {w : List Index}

/-- New tables are pages of the pool, so they are no page that a caller holds. -/
theorem PageInvariant.grow (h : PageInvariant kd ⟨s, held⟩) (hg : Grows kd w s t) :
    PageInvariant kd ⟨t, held⟩ := by
  refine ⟨hg.ext.tables, h.nodup, fun a ha => ?_⟩
  obtain ⟨p, hlo, rfl, hfalse, hno⟩ := h.held a ha
  refine ⟨p, hlo, rfl, taken_mono hg.pool hfalse, fun is hl hw => ?_⟩
  cases hold : Radix.walk (next s.mem) kd is with
  | some c =>
    obtain rfl := Option.some.inj ((hg.kept is c hl hold).symm.trans hw)
    exact hno is hl hold
  | none =>
    obtain ⟨-, p', he, htrue⟩ := hg.new is _ hl hw hold
    rw [← pageAddr_injective he, hfalse] at htrue
    cases htrue

theorem PageInvariant.writeLeaf (hkd : OutsidePool kd) (h : PageInvariant kd ⟨s, held⟩)
    (hw : Radix.walk (next s.mem) kd (path virt) = some c) (e : Word) :
    PageInvariant kd ⟨{ s with
      mem := Function.update s.mem (entryAddr c ((lastIndex virt).setWidth 64)) e }, held⟩ := by
  refine ⟨(tables_writeLeaf hkd h.tables rfl hw _ e).1, h.nodup, fun a ha => ?_⟩
  obtain ⟨p, hlo, rfl, hfalse, hno⟩ := h.held a ha
  refine ⟨p, hlo, rfl, hfalse, fun is hl => ?_⟩
  rw [walk_writeLeaf hkd h.tables rfl hw _ e hl]
  exact hno is hl

theorem PageInvariant.shrink (h : PageInvariant kd ⟨s, held⟩)
    (hpool : ∀ p, pool.pageBitmap.test p = true → s.pool.pageBitmap.test p = true) :
    PageInvariant kd ⟨{ s with pool := pool }, held⟩ := by
  refine ⟨(Extends.shrink h.tables hpool).tables, h.nodup, fun a ha => ?_⟩
  obtain ⟨p, hlo, rfl, hfalse, hno⟩ := h.held a ha
  exact ⟨p, hlo, rfl, taken_mono hpool hfalse, hno⟩

theorem Tables.release (hs : Tables kd s) (hlo : 512 ≤ p.val)
    (hno : ∀ is, is.length ≤ 3 → Radix.walk (next s.mem) kd is ≠ some (pageAddr p))
    (hpool : ∀ p', pool.pageBitmap.test p' = (decide (p' = p) || s.pool.pageBitmap.test p')) :
    Tables kd { s with pool := pool } :=
  { hs with
    reserved := fun p' hp' => by
      have htest : pool.pageBitmap.test p' = true := hp'
      rw [hpool, Bool.or_eq_true, decide_eq_true_eq] at htest
      rcases htest with rfl | htest
      · exact hlo
      · exact hs.reserved p' htest
    taken := fun is c hn hl hw => by
      obtain ⟨p', hlo', rfl, hfalse⟩ := hs.taken is c hn hl hw
      have hne : p' ≠ p := by
        rintro rfl
        exact hno is hl hw
      exact ⟨p', hlo', rfl, (hpool p').trans (by simp [hne, hfalse])⟩ }

theorem pageInvariant_init (hzero : ∀ i : Index, entry mem kd i = 0#64) :
    PageInvariant kd ⟨⟨mmInit, mem, kd⟩, []⟩ :=
  ⟨(refines_init hzero).tables, List.nodup_nil, fun a ha => by cases ha⟩

theorem pageInvariant_step (hkd : OutsidePool kd) (h : PageStep r r') (hr : PageInvariant kd r) :
    PageInvariant kd r' := by
  cases h with
  | mapPage phys virt flags =>
    rw [mmStep]
    rcases mmMapPage_cases hkd hr.tables phys virt flags with ⟨t, -, hg, -, he⟩ |
      ⟨pt, t, -, hg, -, hw, he⟩
    · rw [he]
      exact hr.grow hg
    · rw [he]
      exact (hr.grow hg).writeLeaf hkd hw _
  | unmapPage virt =>
    rw [mmStep]
    rcases mmUnmapPage_cases hr.tables virt with ⟨-, he⟩ | ⟨pt, e, -, hw, he⟩
    · rw [he]
      exact hr
    · rw [he]
      exact PageInvariant.writeLeaf hkd hr hw _
  | alloc hne =>
    have hshrink := hr.shrink (s := r.mm) fun p => test_mmAllocPage (p := p)
    rw [mmStep]
    rcases mmAllocPage_cases r.mm.pool with ⟨p, hp, -, he⟩ | ⟨-, he⟩
    · have hfresh (is : List Index) (hl : is.length ≤ 3) :
          Radix.walk (next r.mm.mem) kd is ≠ some (pageAddr p) := hr.tables.fresh hkd hp hl
      rw [he] at hshrink ⊢
      have hout : pageAddr p ∉ r.held := by
        intro hmem
        obtain ⟨p', -, heq, hfalse, -⟩ := hr.held _ hmem
        rw [← pageAddr_injective heq, hp] at hfalse
        cases hfalse
      refine ⟨hshrink.tables, List.nodup_cons.mpr ⟨hout, hr.nodup⟩, fun a ha => ?_⟩
      rcases List.mem_cons.mp ha with rfl | ha
      · exact ⟨p, hr.tables.reserved p hp, rfl, Bitmap.test_clear.trans (by simp), hfresh⟩
      · exact hshrink.held a ha
    · rw [he] at hne
      exact absurd rfl hne
  | allocFail hz =>
    rw [mmStep]
    exact hr.shrink (s := r.mm) fun p => test_mmAllocPage (p := p)
  | @free a pool ha hfree =>
    obtain ⟨p, hlo, rfl, -, hno⟩ := hr.held a ha
    rw [mmFreePage_pageAddr] at hfree
    obtain rfl := Option.some.inj hfree
    refine ⟨hr.tables.release hlo hno fun p' => Bitmap.test_set, hr.nodup.erase _, fun b hb => ?_⟩
    obtain ⟨hne, hb⟩ := hr.nodup.mem_erase_iff.mp hb
    obtain ⟨p', hlo', rfl, hfalse, hno'⟩ := hr.held b hb
    have hne' : p' ≠ p := by
      rintro rfl
      exact hne rfl
    exact ⟨p', hlo', rfl, Bitmap.test_set.trans (by simp [hne', hfalse]), hno'⟩

theorem pageInvariant_reachable (hkd : OutsidePool kd) (hzero : ∀ i : Index, entry mem kd i = 0#64)
    (h : PageReachable kd mem r) : PageInvariant kd r := by
  induction h with
  | refl => exact pageInvariant_init hzero
  | tail _ hstep ih => exact pageInvariant_step hkd hstep ih

end FenwickOS.Mm
