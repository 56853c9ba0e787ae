import FenwickOS.Mm.Pool
import Mathlib.Logic.Relation
import Mathlib.Order.Interval.Finset.Fin

/-! Ownership of physical pages over whole runs of allocations and frees. -/
namespace FenwickOS.Mm
open Machine

/-- The pool, and the addresses handed out and not given back since. -/
structure PoolRun where
  pool : Pool
  outstanding : List Word

/-- Callers allocate at will and give back only what they hold. -/
inductive PoolStep : PoolRun → PoolRun → Prop
  | alloc {r : PoolRun} (h : (mmAllocPage r.pool).1 ≠ 0#64) :
    PoolStep r ⟨(mmAllocPage r.pool).2, (mmAllocPage r.pool).1 :: r.outstanding⟩
  | allocFail {r : PoolRun} (h : (mmAllocPage r.pool).1 = 0#64) :
    PoolStep r ⟨(mmAllocPage r.pool).2, r.outstanding⟩
  | free {r : PoolRun} {p : Word} {pool : Pool} (hp : p ∈ r.outstanding)
      (h : mmFreePage p r.pool = some pool) :
    PoolStep r ⟨pool, r.outstanding.erase p⟩

def PoolReachable (r : PoolRun) : Prop := Relation.ReflTransGen PoolStep ⟨mmInit, []⟩ r

/-- A page frame of the range that `mm_init` puts into circulation. -/
def InPool (p : Word) : Prop :=
  p.toNat % 4096 = 0 ∧ 0x200000 ≤ p.toNat ∧ p.toNat < 0x4000000

def freeCount (s : Pool) : Nat :=
  (Finset.univ.filter fun i : Fin maxPages => s.pageBitmap.test i = true).card

structure PoolInvariant (r : PoolRun) : Prop where
  nodup : r.outstanding.Nodup
  inPool : ∀ p ∈ r.outstanding, InPool p
  free_iff : ∀ i, r.pool.pageBitmap.test i = true ↔ 512 ≤ i.val ∧ pageAddr i ∉ r.outstanding

variable {r t : PoolRun} {p : Word} {i : Fin maxPages}

theorem inPool_pageAddr : InPool (pageAddr i) ↔ 512 ≤ i.val := by
  have := lt_maxPages i
  simp only [InPool, pageAddr_toNat]
  omega

theorem inPool_iff : InPool p ↔ ∃ i : Fin maxPages, 512 ≤ i.val ∧ p = pageAddr i := by
  constructor
  · rintro ⟨hmod, hlo, hhi⟩
    refine ⟨⟨p.toNat / 4096, by unfold maxPages; omega⟩, by dsimp only; omega, ?_⟩
    apply BitVec.eq_of_toNat_eq
    rw [pageAddr_toNat]
    dsimp only
    omega
  · rintro ⟨i, hi, rfl⟩
    exact inPool_pageAddr.mpr hi

theorem poolInvariant_init : PoolInvariant ⟨mmInit, []⟩ where
  nodup := List.nodup_nil
  inPool := by simp
  free_iff i := by simp [test_mmInit]

theorem poolInvariant_step (h : PoolStep r t) (hr : PoolInvariant r) : PoolInvariant t := by
  cases h with
  | alloc h =>
    rcases mmAllocPage_cases r.pool with ⟨i, hi, _, he⟩ | ⟨_, he⟩
    · obtain ⟨hlo, hfresh⟩ := (hr.free_iff i).mp hi
      rw [he]
      refine ⟨List.nodup_cons.mpr ⟨hfresh, hr.nodup⟩, ?_, fun j => ?_⟩
      · intro p hp
        rcases List.mem_cons.mp hp with rfl | hp
        · exact inPool_pageAddr.mpr hlo
        · exact hr.inPool p hp
      · rw [Bitmap.test_clear, Bool.and_eq_true, hr.free_iff]
        simp only [decide_eq_true_eq, List.mem_cons, pageAddr_injective.eq_iff, not_or]
        tauto
    · simp [he] at h
  | allocFail h =>
    rcases mmAllocPage_cases r.pool with ⟨i, hi, _, he⟩ | ⟨_, he⟩
    · have hlo := ((hr.free_iff i).mp hi).1
      rw [he, pageAddr_eq_zero] at h
      omega
    · rwa [he]
  | @free p pool hp h =>
    obtain ⟨i, hlo, rfl⟩ := inPool_iff.mp (hr.inPool p hp)
    rw [mmFreePage_pageAddr] at h
    obtain rfl := Option.some.inj h
    refine ⟨hr.nodup.erase _, fun q hq => hr.inPool q (List.mem_of_mem_erase hq), fun j => ?_⟩
    rw [Bitmap.test_set, Bool.or_eq_true, hr.free_iff, hr.nodup.mem_erase_iff]
    simp only [decide_eq_true_eq, ne_eq, pageAddr_injective.eq_iff]
    constructor
    · rintro (rfl | ⟨hj, hout⟩)
      · exact ⟨hlo, by simp⟩
      · exact ⟨hj, fun hm => hout hm.2⟩
    · rintro ⟨hj, hout⟩
      by_cases hji : j = i
      · exact Or.inl hji
      · exact Or.inr ⟨hj, fun hm => hout ⟨hji, hm⟩⟩

theorem poolInvariant_reachable (h : PoolReachable r) : PoolInvariant r := by
  induction h with
  | refl => exact poolInvariant_init
  | tail _ hstep ih => exact poolInvariant_step hstep ih

/-- Every page of the range is free or outstanding, never both: nothing is lost. -/
theorem freeCount_add_outstanding (hr : PoolInvariant r) :
    freeCount r.pool + r.outstanding.length = 15872 := by
  let free := Finset.univ.filter fun i : Fin maxPages => r.pool.pageBitmap.test i = true
  let range := Finset.Ici (⟨512, by decide⟩ : Fin maxPages)
  have hsplit : range.image pageAddr = free.image pageAddr ∪ r.outstanding.toFinset := by
    ext p
    simp only [range, free, Finset.mem_image, Finset.mem_union, Finset.mem_Ici, Fin.le_def,
      Finset.mem_filter, Finset.mem_univ, true_and, List.mem_toFinset, hr.free_iff]
    constructor
    · rintro ⟨i, hi, rfl⟩
      by_cases hout : pageAddr i ∈ r.outstanding
      · exact Or.inr hout
      · exact Or.inl ⟨i, ⟨hi, hout⟩, rfl⟩
    · rintro (⟨i, ⟨hi, _⟩, rfl⟩ | hout)
      · exact ⟨i, hi, rfl⟩
      · obtain ⟨i, hi, rfl⟩ := inPool_iff.mp (hr.inPool p hout)
        exact ⟨i, hi, rfl⟩
  have hdisj : Disjoint (free.image pageAddr) r.outstanding.toFinset := by
    rw [Finset.disjoint_left]
    intro p hp hout
    obtain ⟨i, hi, rfl⟩ := Finset.mem_image.mp hp
    exact ((hr.free_iff i).mp (Finset.mem_filter.mp hi).2).2 (List.mem_toFinset.mp hout)
  have hcard := congrArg Finset.card hsplit
  rw [Finset.card_union_of_disjoint hdisj, Finset.card_image_of_injective _ pageAddr_injective,
    Finset.card_image_of_injective _ pageAddr_injective, List.toFinset_card_of_nodup hr.nodup,
    Fin.card_Ici] at hcard
  exact hcard.symm

theorem mmAllocPage_eq_zero_iff (hr : PoolInvariant r) :
    (mmAllocPage r.pool).1 = 0#64 ↔ ∀ p, InPool p → p ∈ r.outstanding := by
  rcases mmAllocPage_cases r.pool with ⟨i, hi, _, he⟩ | ⟨hnone, he⟩
  · obtain ⟨hlo, hfresh⟩ := (hr.free_iff i).mp hi
    rw [he, pageAddr_eq_zero]
    constructor
    · omega
    · intro hall
      exact (hfresh (hall _ (inPool_pageAddr.mpr hlo))).elim
  · rw [he]
    refine ⟨fun _ p hp => ?_, fun _ => rfl⟩
    obtain ⟨i, hlo, rfl⟩ := inPool_iff.mp hp
    by_contra hout
    have := (hr.free_iff i).mpr ⟨hlo, hout⟩
    simp [hnone i] at this

theorem mmAllocPage_unchanged (hr : PoolInvariant r) (h : (mmAllocPage r.pool).1 = 0#64) :
    (mmAllocPage r.pool).2 = r.pool := by
  rcases mmAllocPage_cases r.pool with ⟨i, hi, _, he⟩ | ⟨_, he⟩
  · have hlo := ((hr.free_iff i).mp hi).1
    rw [he, pageAddr_eq_zero] at h
    omega
  · rw [he]

/-- The pool neither loses nor duplicates a page in any run whose frees give back held pages. -/
theorem pool_safety (h : PoolReachable r) :
    (r.outstanding.Nodup ∧ ∀ p ∈ r.outstanding, InPool p) ∧
    (∀ i, r.pool.pageBitmap.test i = true ↔
      InPool (pageAddr i) ∧ pageAddr i ∉ r.outstanding) ∧
    freeCount r.pool + r.outstanding.length = 15872 ∧
    (∀ p ∈ r.outstanding, ∃ pool, mmFreePage p r.pool = some pool) ∧
    ((mmAllocPage r.pool).1 = 0#64 ↔ ∀ p, InPool p → p ∈ r.outstanding) ∧
    ((mmAllocPage r.pool).1 = 0#64 → (mmAllocPage r.pool).2 = r.pool) := by
  have hr := poolInvariant_reachable h
  refine ⟨⟨hr.nodup, hr.inPool⟩, fun i => ?_, freeCount_add_outstanding hr, fun p hp => ?_,
    mmAllocPage_eq_zero_iff hr, mmAllocPage_unchanged hr⟩
  · rw [inPool_pageAddr]
    exact hr.free_iff i
  · obtain ⟨i, _, rfl⟩ := inPool_iff.mp (hr.inPool p hp)
    exact ⟨_, mmFreePage_pageAddr r.pool i⟩

theorem mmAllocPage_mmInit_ne_zero : (mmAllocPage mmInit).1 ≠ 0#64 := by
  rw [Ne, mmAllocPage_eq_zero_iff poolInvariant_init]
  intro hall
  have := hall 0x200000 ⟨rfl, by decide, by decide⟩
  simp at this

theorem exists_one_page_run : ∃ r p, PoolReachable r ∧ r.outstanding = [p] :=
  ⟨_, _, Relation.ReflTransGen.single (PoolStep.alloc mmAllocPage_mmInit_ne_zero), rfl⟩

theorem exists_freed_run : ∃ r s p q, PoolReachable r ∧ r.outstanding = [q, p] ∧
    PoolReachable s ∧ s.outstanding = [q, p].erase p := by
  obtain ⟨r, p, hr, hout⟩ := exists_one_page_run
  have hinv := poolInvariant_reachable hr
  have hne : (mmAllocPage r.pool).1 ≠ 0#64 := by
    intro hzero
    have hall := (mmAllocPage_eq_zero_iff hinv).mp hzero
    rw [hout] at hall
    have h0 := List.mem_singleton.mp (hall 0x200000#64 ⟨rfl, by decide, by decide⟩)
    have h1 := List.mem_singleton.mp (hall 0x201000#64 ⟨rfl, by decide, by decide⟩)
    exact absurd (h0.trans h1.symm) (by decide)
  have htaken := hr.tail (PoolStep.alloc hne)
  rw [hout] at htaken
  obtain ⟨i, -, rfl⟩ := inPool_iff.mp (hinv.inPool p (by simp [hout]))
  have hfree := mmFreePage_pageAddr (mmAllocPage r.pool).2 i
  have hmem : pageAddr i ∈ [(mmAllocPage r.pool).1, pageAddr i] := by simp
  exact ⟨_, _, _, _, htaken, rfl, htaken.tail (PoolStep.free hmem hfree), rfl⟩

/-- Two pages are taken, and one of them is given back. -/
theorem pool_safety_freed : ∃ r s p q, p ≠ q ∧ InPool p ∧ InPool q ∧
    PoolReachable r ∧ r.outstanding = [q, p] ∧ freeCount r.pool = 15870 ∧
    PoolReachable s ∧ s.outstanding = [q] ∧ freeCount s.pool = 15871 := by
  obtain ⟨r, s, p, q, hr, houtr, hs, houts⟩ := exists_freed_run
  obtain ⟨⟨hnodup, hin⟩, -, hcountr, -⟩ := pool_safety hr
  obtain ⟨-, -, hcounts, -⟩ := pool_safety hs
  rw [houtr] at hnodup hin hcountr
  have hne : p ≠ q := by
    rintro rfl
    simp at hnodup
  have hleft : s.outstanding = [q] := by
    rw [houts, List.erase_cons_tail (by simpa using hne.symm), List.erase_cons_head]
  rw [hleft, List.length_singleton] at hcounts
  simp only [List.length_cons, List.length_nil] at hcountr
  exact ⟨r, s, p, q, hne, hin p (by simp), hin q (by simp), hr, houtr, by omega, hs, hleft,
    by omega⟩

end FenwickOS.Mm
