import FenwickOS.Lib.Runs
import FenwickOS.Mm.Pool

/-! `mm_free_page` with arbitrary arguments, and which pages it lets into circulation. -/
namespace FenwickOS.Mm
open Machine

/-- `idx` of `mm_free_page`: the page number cut down to a signed int. -/
def freeIndex (phys : Word) : Int := ((phys / BitVec.ofNat 64 pageSize).setWidth 32).toInt

/-- What freeing `phys` is meant to do: beyond the last page nothing, else to mark its page free
and leave every other bit and record as it is. -/
structure FreesExactly (phys : Word) (s t : Pool) : Prop where
  beyond : maxPages ≤ phys.toNat / pageSize → t = s
  bit : ∀ i : Fin maxPages, i.val = phys.toNat / pageSize → t.pageBitmap.test i = true
  record : ∀ i : Fin maxPages, i.val = phys.toNat / pageSize →
    t.pages i = { s.pages i with present := 0#8 }
  otherBits : ∀ i : Fin maxPages, i.val ≠ phys.toNat / pageSize →
    t.pageBitmap.test i = s.pageBitmap.test i
  otherRecords : ∀ i : Fin maxPages, i.val ≠ phys.toNat / pageSize → t.pages i = s.pages i

/-- The call stays inside the two arrays and frees exactly its page. -/
def FreeExact (phys : Word) (s : Pool) : Prop :=
  ∃ t, mmFreePage phys s = some t ∧ FreesExactly phys s t

/-- The page has been freed already. -/
def Freed (s : Pool) (i : Fin maxPages) : Prop :=
  s.pageBitmap.test i = true ∧ (s.pages i).present = 0#8

variable {phys : Word} {s t : Pool} {i : Fin maxPages}

theorem freeIndex_eq (phys : Word) :
    freeIndex phys = if phys.toNat / pageSize % 2 ^ 32 < 2 ^ 31
      then ((phys.toNat / pageSize % 2 ^ 32 : Nat) : Int)
      else ((phys.toNat / pageSize % 2 ^ 32 : Nat) : Int) - (2 ^ 32 : Nat) := by
  have hsize : (BitVec.ofNat 64 pageSize).toNat = pageSize := rfl
  have hnat : ((phys / BitVec.ofNat 64 pageSize).setWidth 32).toNat =
      phys.toNat / pageSize % 2 ^ 32 := by
    rw [BitVec.toNat_setWidth, BitVec.toNat_udiv, hsize]
  rw [freeIndex, BitVec.toInt_eq_toNat_cond, hnat]
  split <;> split <;> omega

theorem freeIndex_of_lt (h : phys.toNat / pageSize < maxPages) :
    freeIndex phys = (phys.toNat / pageSize : Nat) := by
  have hmax : maxPages = 16384 := rfl
  have hmod : phys.toNat / pageSize % 2 ^ 32 = phys.toNat / pageSize := Nat.mod_eq_of_lt (by omega)
  rw [freeIndex_eq, hmod, if_pos (by omega)]

/-- What one free does: nothing, it marks the page with its index, or it leaves the arrays. -/
theorem mmFreePage_cases (phys : Word) (s : Pool) :
    (maxPages ≤ freeIndex phys ∧ mmFreePage phys s = some s) ∨
    (∃ i : Fin maxPages, freeIndex phys = i.val ∧ mmFreePage phys s =
      some { pages := s.setPresent i 0#8, pageBitmap := s.pageBitmap.set i }) ∨
    (freeIndex phys < 0 ∧ mmFreePage phys s = none) := by
  by_cases hbeyond : freeIndex phys ≥ maxPages
  · exact Or.inl ⟨hbeyond, if_pos hbeyond⟩
  by_cases hneg : freeIndex phys < 0
  · have hout : ¬ (0 ≤ freeIndex phys ∧ (freeIndex phys).toNat < maxPages) := by omega
    exact Or.inr (Or.inr ⟨hneg, (if_neg hbeyond).trans (dif_neg hout)⟩)
  · have hin : 0 ≤ freeIndex phys ∧ (freeIndex phys).toNat < maxPages := by omega
    have hval : freeIndex phys = ((freeIndex phys).toNat : Int) := (Int.toNat_of_nonneg hin.1).symm
    exact Or.inr (Or.inl ⟨⟨_, hin.2⟩, hval, (if_neg hbeyond).trans (dif_pos hin)⟩)

theorem freesExactly_mark (hi : i.val = phys.toNat / pageSize) :
    FreesExactly phys s { pages := s.setPresent i 0#8, pageBitmap := s.pageBitmap.set i } where
  beyond hbeyond := absurd hbeyond (by have := i.isLt; omega)
  bit j hj := by
    obtain rfl := Fin.ext (hj.trans hi.symm)
    simp [Bitmap.test_set]
  record j hj := by
    obtain rfl := Fin.ext (hj.trans hi.symm)
    exact Function.update_self _ _ _
  otherBits j hj := by
    have hne : j ≠ i := fun h => hj (h ▸ hi)
    simp [Bitmap.test_set, hne]
  otherRecords j hj := by
    have hne : j ≠ i := fun h => hj (h ▸ hi)
    exact Function.update_of_ne hne _ _

theorem freesExactly_same (h : maxPages ≤ phys.toNat / pageSize) : FreesExactly phys s s where
  beyond _ := rfl
  bit i hi := absurd i.isLt (by omega)
  record i hi := absurd i.isLt (by omega)
  otherBits _ _ := rfl
  otherRecords _ _ := rfl

theorem Freed.mark (h : Freed s i) :
    ({ pages := s.setPresent i 0#8, pageBitmap := s.pageBitmap.set i } : Pool) = s := by
  have hrecord : { s.pages i with present := 0#8 } = s.pages i := by
    rw [← h.2]
  rw [Pool.setPresent, hrecord, Function.update_eq_self, Bitmap.set_of_test h.1]

/-- A page number beyond the last page that comes out in range marks another page. -/
theorem freeExact_wrapped (hbeyond : maxPages ≤ phys.toNat / pageSize)
    (hi : freeIndex phys = i.val) : FreeExact phys s ↔ Freed s i := by
  have hmark : mmFreePage phys s =
      some { pages := s.setPresent i 0#8, pageBitmap := s.pageBitmap.set i } := by
    rcases mmFreePage_cases phys s with ⟨hge, -⟩ | ⟨j, hj, he⟩ | ⟨hneg, -⟩
    · have := i.isLt
      omega
    · obtain rfl : j = i := Fin.ext (by omega)
      exact he
    · omega
  constructor
  · rintro ⟨t, ht, hexact⟩
    obtain rfl := hexact.beyond hbeyond
    have hsame := Option.some.inj (ht.symm.trans hmark)
    constructor
    · rw [hsame]
      simp [Bitmap.test_set]
    · rw [hsame]
      simp [Pool.setPresent]
  · intro hfreed
    exact ⟨s, by rw [hmark, hfreed.mark], freesExactly_same hbeyond⟩

/-- Freeing is exact unless cutting the page number down moves it into the pool or below zero. -/
theorem freeExact_iff (phys : Word) (s : Pool) :
    FreeExact phys s ↔ phys.toNat / pageSize < maxPages ∨ maxPages ≤ freeIndex phys ∨
      ∃ i : Fin maxPages, freeIndex phys = i.val ∧ Freed s i := by
  by_cases hin : phys.toNat / pageSize < maxPages
  · have hval := freeIndex_of_lt hin
    generalize hpage : phys.toNat / pageSize = page at hin hval
    refine iff_of_true ?_ (Or.inl hin)
    rcases mmFreePage_cases phys s with ⟨hge, -⟩ | ⟨i, hi, he⟩ | ⟨hneg, -⟩
    · omega
    · exact ⟨_, he, freesExactly_mark (by omega)⟩
    · omega
  · have hbeyond := Nat.le_of_not_lt hin
    rw [or_iff_right hin]
    rcases mmFreePage_cases phys s with ⟨hge, he⟩ | ⟨i, hi, -⟩ | ⟨hneg, he⟩
    · exact iff_of_true ⟨s, he, freesExactly_same hbeyond⟩ (Or.inl hge)
    · rw [freeExact_wrapped hbeyond hi]
      constructor
      · intro hfreed
        exact Or.inr ⟨i, hi, hfreed⟩
      · rintro (hge | ⟨j, hj, hfreed⟩)
        · have := i.isLt
          omega
        · obtain rfl : j = i := Fin.ext (by omega)
          exact hfreed
    · refine iff_of_false ?_ ?_
      · rintro ⟨t, ht, -⟩
        rw [he] at ht
        cases ht
      · rintro (hge | ⟨j, hj, -⟩)
        · omega
        · omega

/-- Page number 2 ^ 32, cut down to 0: the first page of memory is put into circulation. -/
theorem freeExact_wrapped_to_zero : ¬ FreeExact 0x100000000000#64 mmInit := by
  have hzero : ¬ Freed mmInit 0 := by
    intro h
    have hlow := (test_mmInit 0).mp h.1
    exact absurd hlow (by decide)
  rwa [freeExact_wrapped (i := 0) (by decide) (by decide)]

/-! ### Runs -/

inductive PoolOp
  | alloc
  | free (phys : Word)

/-- `none` once an access has left the arrays: nothing is known from there on. -/
def poolStep : Option Pool → PoolOp → Option Pool
  | none, _ => none
  | some s, .alloc => some (mmAllocPage s).2
  | some s, .free phys => mmFreePage phys s

/-- The next allocation gives out no page of the reserved region, and 0 only when there is none. -/
def ReservedKept (r : Option Pool) : Prop :=
  ∃ s, r = some s ∧
    ((mmAllocPage s).1 ≠ 0#64 → 0x200000 ≤ (mmAllocPage s).1.toNat) ∧
    ((mmAllocPage s).1 = 0#64 → (∀ i, s.pageBitmap.test i = false) ∧
      (mmAllocPage s).2.pageBitmap = s.pageBitmap)

/-- The free keeps away from the pages that `mm_init` reserves. -/
def PoolOp.aboveReserved : PoolOp → Prop
  | .alloc => True
  | .free phys => 512 ≤ freeIndex phys

/-- Only pages from 2 MiB up are free. -/
def ReservedTaken (r : Option Pool) : Prop :=
  ∃ s, r = some s ∧ ∀ i : Fin maxPages, s.pageBitmap.test i = true → 512 ≤ i.val

theorem ReservedTaken.kept {r : Option Pool} (h : ReservedTaken r) : ReservedKept r := by
  obtain ⟨s, rfl, hfree⟩ := h
  rcases mmAllocPage_cases s with ⟨i, hi, -, he⟩ | ⟨hnone, he⟩
  · have hlo := hfree i hi
    refine ⟨s, rfl, fun _ => ?_, fun hz => ?_⟩
    · rw [he, pageAddr_toNat]
      omega
    · rw [he, pageAddr_eq_zero] at hz
      omega
  · refine ⟨s, rfl, fun hne => ?_, fun _ => ⟨hnone, ?_⟩⟩
    · rw [he] at hne
      exact absurd rfl hne
    · rw [he]

theorem ReservedTaken.step {r : Option Pool} (h : ReservedTaken r) {op : PoolOp}
    (hop : op.aboveReserved) : ReservedTaken (poolStep r op) := by
  obtain ⟨s, rfl, hfree⟩ := h
  cases op with
  | alloc =>
    refine ⟨_, rfl, fun i hi => hfree i ?_⟩
    rcases mmAllocPage_cases s with ⟨j, -, -, he⟩ | ⟨-, he⟩
    · rw [he, Bitmap.test_clear, Bool.and_eq_true] at hi
      exact hi.2
    · rwa [he] at hi
  | free phys =>
    have hlo : 512 ≤ freeIndex phys := hop
    rcases mmFreePage_cases phys s with ⟨-, he⟩ | ⟨i, hi, he⟩ | ⟨hneg, -⟩
    · exact ⟨s, he, hfree⟩
    · refine ⟨_, he, fun j hj => ?_⟩
      rw [Bitmap.test_set, Bool.or_eq_true, decide_eq_true_eq] at hj
      rcases hj with rfl | hj
      · omega
      · exact hfree j hj
    · omega

/-- A reserved page that is free is the next one to be given out. -/
theorem not_kept_of_test (hi : s.pageBitmap.test i = true) (hlow : i.val < 512) :
    ¬ ReservedKept (some s) := by
  rintro ⟨s', hs', hne, hzero⟩
  obtain rfl := Option.some.inj hs'
  rcases mmAllocPage_cases s with ⟨j, -, hfirst, he⟩ | ⟨hnone, -⟩
  · have hj : j ≤ i := by
      by_contra hlt
      rw [hfirst i (Fin.not_le.mp hlt)] at hi
      cases hi
    by_cases hz : (mmAllocPage s).1 = 0#64
    · rw [(hzero hz).1 i] at hi
      cases hi
    · have haddr := hne hz
      rw [he, pageAddr_toNat] at haddr
      have hval := Fin.le_def.mp hj
      omega
  · rw [hnone] at hi
    cases hi

theorem ReservedKept.aboveReserved {r : Option Pool} (h : ReservedTaken r) {op : PoolOp}
    (hkept : ReservedKept (poolStep r op)) : op.aboveReserved := by
  obtain ⟨s, rfl, -⟩ := h
  cases op with
  | alloc => trivial
  | free phys =>
    rw [poolStep] at hkept
    change 512 ≤ freeIndex phys
    rcases mmFreePage_cases phys s with ⟨hge, -⟩ | ⟨i, hi, he⟩ | ⟨-, he⟩
    · have hmax : maxPages = 16384 := rfl
      omega
    · by_contra hlow
      rw [he] at hkept
      exact not_kept_of_test (i := i) (by simp [Bitmap.test_set]) (by omega) hkept
    · rw [he] at hkept
      obtain ⟨t, ht, -⟩ := hkept
      cases ht

theorem reservedTaken_init : ReservedTaken (some mmInit) :=
  ⟨_, rfl, fun i hi => (test_mmInit i).mp hi⟩

/-- The reserved pages stay out of circulation exactly in the runs that free none of them. -/
theorem reserved_kept_iff (ops : List PoolOp) :
    Throughout poolStep ReservedKept (some mmInit) ops ↔ ∀ op ∈ ops, op.aboveReserved := by
  have hallowed : Allowed poolStep (fun _ op => op.aboveReserved) (some mmInit) ops ↔
      ∀ op ∈ ops, op.aboveReserved := allowed_iff_forall
  rw [← hallowed]
  exact throughout_iff_allowed (fun _ h => h.kept) (fun _ _ h hop => h.step hop)
    (fun _ _ h hkept => hkept.aboveReserved h) reservedTaken_init ops

/-- After `mm_free_page(0x1000)` the page at 4 KiB is the next one given out. -/
theorem reserved_not_kept :
    ¬ Throughout poolStep ReservedKept (some mmInit) [.free 0x1000#64] := by
  intro h
  have hkept : ReservedKept (poolStep (some mmInit) (.free 0x1000#64)) := h _ (List.prefix_refl _)
  have hlow : 512 ≤ freeIndex 0x1000#64 := hkept.aboveReserved reservedTaken_init
  exact absurd hlow (by decide)

end FenwickOS.Mm
