import FenwickOS.Lib.FirstLeast
import FenwickOS.Mm.HeapBlocks

/-! What `heap_find_best_fit` of kernel/mm/paging.c finds in any list of blocks. -/
namespace FenwickOS.Mm
open Machine

/-- The `next` pointers lead from `cur` through these blocks and end with a null pointer. -/
def Linked (m : Word → Byte) : (cur : Word) → List Word → Prop
  | cur, [] => cur = 0#64
  | cur, b :: bs => cur = b ∧ b ≠ 0#64 ∧ Linked m (HeapBlock.next m b) bs

/-- A free block that a request fits in. -/
def Suits (m : Word → Byte) (size b : Word) : Prop :=
  HeapBlock.isFree m b ≠ 0#8 ∧ size ≤ HeapBlock.size m b

instance (m : Word → Byte) (size b : Word) : Decidable (Suits m size b) := by
  unfold Suits
  infer_instance

/-- The loop of `heap_find_best_fit` without its `break`. -/
def fullScanFrom (m : Word → Byte) (size : Word) : (rounds : Nat) → (best cur : Word) → Option Word
  | 0, _, _ => none
  | rounds + 1, best, cur =>
    if cur = 0#64 then some best
    else if HeapBlock.isFree m cur ≠ 0#8 ∧ size ≤ HeapBlock.size m cur ∧
        (best = 0#64 ∨ HeapBlock.size m cur < HeapBlock.size m best) then
      fullScanFrom m size rounds cur (HeapBlock.next m cur)
    else fullScanFrom m size rounds best (HeapBlock.next m cur)

def blockSize (m : Word → Byte) (b : Word) : Nat := (HeapBlock.size m b).toNat

/-- Of the blocks `bs`, `best` is the first of the smallest that suit; it is null if none does. -/
def BestOf (m : Word → Byte) (size : Word) (bs : List Word) (best : Word) : Prop :=
  (best = 0#64 ∧ ∀ b ∈ bs, ¬ Suits m size b) ∨
  (best ≠ 0#64 ∧ FirstLeast (Suits m size) (blockSize m) bs best)

variable {m : Word → Byte} {size cur best b c : Word} {bs bs' seen : List Word} {rounds : Nat}
  {s : BlockHeap}

theorem Linked.unique (h : Linked m cur bs) (h' : Linked m cur bs') : bs = bs' := by
  induction bs generalizing cur bs' with
  | nil =>
    cases bs' with
    | nil => rfl
    | cons b' bs' => exact absurd (h'.1.symm.trans h) h'.2.1
  | cons b bs ih =>
    obtain ⟨rfl, hne, hnext⟩ := h
    cases bs' with
    | nil => exact absurd h' hne
    | cons b' bs' =>
      obtain ⟨rfl, -, hnext'⟩ := h'
      rw [ih hnext hnext']

theorem bestOf_nil : BestOf m size [] 0#64 := Or.inl ⟨rfl, by simp⟩

theorem BestOf.unique (hb : BestOf m size bs b) (hc : BestOf m size bs c) : b = c := by
  rcases hb with ⟨rfl, hnone⟩ | ⟨-, hb⟩
  · rcases hc with ⟨rfl, -⟩ | ⟨-, hc⟩
    · rfl
    · exact absurd hc.holds (hnone c hc.mem)
  · rcases hc with ⟨rfl, hnone⟩ | ⟨-, hc⟩
    · exact absurd hb.holds (hnone b hb.mem)
    · exact hb.unique hc

theorem BestOf.take (h : BestOf m size seen best) (hcur : cur ≠ 0#64) (hsuits : Suits m size cur)
    (hbetter : best = 0#64 ∨ HeapBlock.size m cur < HeapBlock.size m best) :
    BestOf m size (seen ++ [cur]) cur := by
  refine Or.inr ⟨hcur, ?_⟩
  rcases h with ⟨-, hnone⟩ | ⟨hne, hleast⟩
  · exact .first hnone hsuits
  · exact hleast.replace hsuits (BitVec.lt_def.mp (hbetter.resolve_left hne))

theorem BestOf.skip (h : BestOf m size seen best)
    (hworse : ¬ (Suits m size cur ∧
      (best = 0#64 ∨ HeapBlock.size m cur < HeapBlock.size m best))) :
    BestOf m size (seen ++ [cur]) best := by
  rcases h with ⟨rfl, hnone⟩ | ⟨hne, hleast⟩
  · refine Or.inl ⟨rfl, fun b hb hsuits => ?_⟩
    rcases List.mem_append.mp hb with hb | hb
    · exact hnone b hb hsuits
    · obtain rfl := List.mem_singleton.mp hb
      exact hworse ⟨hsuits, Or.inl rfl⟩
  · refine Or.inr ⟨hne, hleast.append fun b hb hsuits => ?_⟩
    obtain rfl := List.mem_singleton.mp hb
    have hnlt : ¬ HeapBlock.size m b < HeapBlock.size m best :=
      fun hlt => hworse ⟨hsuits, Or.inr hlt⟩
    exact Nat.le_of_not_lt fun hlt => hnlt (BitVec.lt_def.mpr hlt)

/-- No block beats an exact match, so the loop may stop at one. -/
theorem BestOf.exact (h : BestOf m size seen best) (hbest : best ≠ 0#64)
    (hexact : HeapBlock.size m best = size) (rest : List Word) :
    BestOf m size (seen ++ rest) best := by
  rcases h with ⟨hnull, -⟩ | ⟨hne, hleast⟩
  · exact absurd hnull hbest
  · refine Or.inr ⟨hne, hleast.append fun b _ hsuits => ?_⟩
    rw [blockSize, hexact]
    exact BitVec.le_def.mp hsuits.2

/-- The search ends within as many rounds as there are blocks and one more. -/
theorem bestFitFrom_isSome (h : Linked m cur bs) (hrounds : bs.length < rounds)
    (size best : Word) : ∃ b, bestFitFrom m size rounds best cur = some b := by
  induction rounds generalizing best cur bs with
  | zero => omega
  | succ rounds ih =>
    cases bs with
    | nil => exact ⟨best, if_pos h⟩
    | cons c bs =>
      obtain ⟨rfl, hne, hnext⟩ := h
      rw [List.length_cons] at hrounds
      rw [bestFitFrom, if_neg hne]
      split
      · split
        · exact ⟨cur, rfl⟩
        · exact ih hnext (by omega) _
      · exact ih hnext (by omega) _

theorem bestFitFrom_bestOf (h : Linked m cur bs) (hseen : BestOf m size seen best)
    (hfit : bestFitFrom m size rounds best cur = some b) : BestOf m size (seen ++ bs) b := by
  induction rounds generalizing seen best cur bs with
  | zero => cases hfit
  | succ rounds ih =>
    cases bs with
    | nil =>
      have hend : cur = 0#64 := h
      rw [bestFitFrom, if_pos hend] at hfit
      rwa [List.append_nil, ← Option.some.inj hfit]
    | cons c bs =>
      obtain ⟨rfl, hne, hnext⟩ := h
      rw [bestFitFrom, if_neg hne] at hfit
      rw [List.append_cons]
      split at hfit
      · rename_i hbetter
        have htaken := hseen.take hne ⟨hbetter.1, hbetter.2.1⟩ hbetter.2.2
        split at hfit
        · rename_i hexact
          rw [← Option.some.inj hfit]
          exact htaken.exact hne hexact bs
        · exact ih hnext htaken hfit
      · rename_i hworse
        exact ih hnext (hseen.skip fun h => hworse ⟨h.1.1, h.1.2, h.2⟩) hfit

theorem fullScanFrom_bestOf (h : Linked m cur bs) (hseen : BestOf m size seen best)
    (hrounds : bs.length < rounds) :
    ∃ b, fullScanFrom m size rounds best cur = some b ∧ BestOf m size (seen ++ bs) b := by
  induction rounds generalizing seen best cur bs with
  | zero => omega
  | succ rounds ih =>
    cases bs with
    | nil => exact ⟨best, if_pos h, by rwa [List.append_nil]⟩
    | cons c bs =>
      obtain ⟨rfl, hne, hnext⟩ := h
      rw [List.length_cons] at hrounds
      rw [fullScanFrom, if_neg hne, List.append_cons]
      split
      · rename_i hbetter
        exact ih hnext (hseen.take hne ⟨hbetter.1, hbetter.2.1⟩ hbetter.2.2) (by omega)
      · rename_i hworse
        exact ih hnext (hseen.skip fun h => hworse ⟨h.1.1, h.1.2, h.2⟩) (by omega)

/-- On any list the search returns null exactly if nothing suits, and otherwise the first of the
smallest blocks that do; stopping at an exact match makes no difference. -/
theorem heapFindBestFit_firstLeast (h : Linked s.mem s.heapHead bs) (size : Word)
    (hrounds : bs.length < rounds) :
    ∃ b, heapFindBestFit rounds size s = some b ∧
      (b = 0#64 ↔ ∀ c ∈ bs, ¬ Suits s.mem size c) ∧
      (b ≠ 0#64 → FirstLeast (Suits s.mem size) (blockSize s.mem) bs b) ∧
      fullScanFrom s.mem size rounds 0#64 s.heapHead = some b := by
  obtain ⟨b, hfit⟩ := bestFitFrom_isSome h hrounds size 0#64
  have hb : BestOf s.mem size bs b := bestFitFrom_bestOf h bestOf_nil hfit
  obtain ⟨c, hscan, hc⟩ := fullScanFrom_bestOf h bestOf_nil hrounds
  obtain rfl := hb.unique hc
  refine ⟨b, hfit, ?_, ?_, hscan⟩
  · rcases hb with ⟨rfl, hnone⟩ | ⟨hne, hleast⟩
    · exact iff_of_true rfl hnone
    · exact iff_of_false hne fun hnone => hnone b hleast.mem hleast.holds
  · intro hne
    exact (hb.resolve_left fun hnull => hne hnull.1).2

/-- Blocks of 0x100, 0x60, 0x60, 0x60, 0x50, 0x50 bytes and the rest; the second one is in use. -/
def mixedHeap : BlockHeap :=
  let s := heapInit ⟨0#64, 0#64, 0#64, 0#64, fun _ => 0#8⟩
  let s := heapSplitBlock 0x100000#64 0x100#64 s
  let s := heapSplitBlock 0x100128#64 0x60#64 s
  let s := heapSplitBlock 0x1001B0#64 0x60#64 s
  let s := heapSplitBlock 0x100238#64 0x60#64 s
  let s := heapSplitBlock 0x1002C0#64 0x50#64 s
  let s := heapSplitBlock 0x100338#64 0x50#64 s
  { s with mem := HeapBlock.setIsFree s.mem 0x100128#64 0#8 }

/-- A request for 0x58 bytes gets the first of two free blocks of 0x60, and one for 0x50 bytes the
first exact match, with another one and the rest of the heap behind it. -/
theorem heapFindBestFit_firstLeast_mixed :
    let bs := [0x100000#64, 0x100128#64, 0x1001B0#64, 0x100238#64, 0x1002C0#64, 0x100338#64,
      0x1003B0#64]
    (heapFindBestFit 8 0x58#64 mixedHeap = some 0x1001B0#64 ∧
      FirstLeast (Suits mixedHeap.mem 0x58#64) (blockSize mixedHeap.mem) bs 0x1001B0#64) ∧
    (heapFindBestFit 8 0x50#64 mixedHeap = some 0x1002C0#64 ∧
      FirstLeast (Suits mixedHeap.mem 0x50#64) (blockSize mixedHeap.mem) bs 0x1002C0#64 ∧
      fullScanFrom mixedHeap.mem 0x50#64 8 0#64 mixedHeap.heapHead = some 0x1002C0#64) := by
  intro bs
  have hlist : Linked mixedHeap.mem mixedHeap.heapHead bs := by
    have hlast : HeapBlock.next mixedHeap.mem 0x1003B0#64 = 0#64 := by decide +kernel
    refine ⟨?_, ?_, ?_, ?_, ?_, ?_, ?_, ?_, ?_, ?_, ?_, ?_, ?_, ?_, hlast⟩ <;> decide +kernel
  have hrounds : bs.length < 8 := by decide
  refine ⟨?_, ?_⟩
  · obtain ⟨b, hfit, -, hleast, -⟩ := heapFindBestFit_firstLeast hlist 0x58#64 hrounds
    have hfound : heapFindBestFit 8 0x58#64 mixedHeap = some 0x1001B0#64 := by decide +kernel
    obtain rfl : b = 0x1001B0#64 := Option.some.inj (hfit.symm.trans hfound)
    exact ⟨hfound, hleast (by decide)⟩
  · obtain ⟨b, hfit, -, hleast, hscan⟩ := heapFindBestFit_firstLeast hlist 0x50#64 hrounds
    have hfound : heapFindBestFit 8 0x50#64 mixedHeap = some 0x1002C0#64 := by decide +kernel
    obtain rfl : b = 0x1002C0#64 := Option.some.inj (hfit.symm.trans hfound)
    exact ⟨hfound, hleast (by decide), hscan⟩

end FenwickOS.Mm
