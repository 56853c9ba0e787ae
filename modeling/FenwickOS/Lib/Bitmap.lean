import FenwickOS.Lib.Words
import Mathlib.Data.Fin.Basic

/-! Bit sets stored eight to a byte. -/
namespace Machine

/-- A bit set of `8 * n` positions; position `i` is bit `i % 8` of byte `i / 8`. -/
abbrev Bitmap (n : Nat) := Fin n → Byte

namespace Bitmap

variable {n : Nat} {b : Bitmap n} {i j : Fin (8 * n)}

def slot (i : Fin (8 * n)) : Fin n := ⟨i.val / 8, by omega⟩

def mask (i : Fin (8 * n)) : Byte := 1#8 <<< (i.val % 8)

def test (b : Bitmap n) (i : Fin (8 * n)) : Bool := b (slot i) &&& mask i != 0#8

def set (b : Bitmap n) (i : Fin (8 * n)) : Bitmap n :=
  Function.update b (slot i) (b (slot i) ||| mask i)

def clear (b : Bitmap n) (i : Fin (8 * n)) : Bitmap n :=
  Function.update b (slot i) (b (slot i) &&& ~~~ mask i)

/-- Scan upwards from position `i`, with `k` positions left, to the first set bit. -/
def scan (b : Bitmap n) : (k i : Nat) → i + k = 8 * n → Option (Fin (8 * n))
  | 0, _, _ => none
  | k + 1, i, h =>
    if b.test ⟨i, by omega⟩ then some ⟨i, by omega⟩ else scan b k (i + 1) (by omega)

def first (b : Bitmap n) : Option (Fin (8 * n)) := b.scan (8 * n) 0 (by omega)

theorem scan_some {k i : Nat} {h : i + k = 8 * n} {j : Fin (8 * n)} (hs : b.scan k i h = some j) :
    b.test j = true ∧ ∀ l : Fin (8 * n), i ≤ l.val → l < j → b.test l = false := by
  induction k generalizing i with
  | zero => simp [scan] at hs
  | succ k ih =>
    simp only [scan] at hs
    split at hs
    · rename_i ht
      obtain rfl := Option.some.inj hs
      exact ⟨ht, fun l hl hlt => absurd hlt (by simpa [Fin.lt_def] using hl)⟩
    · rename_i ht
      refine ⟨(ih hs).1, fun l hl hlt => ?_⟩
      rcases Nat.eq_or_lt_of_le hl with he | hl
      · subst he
        simpa using ht
      · exact (ih hs).2 l hl hlt

theorem scan_none {k i : Nat} {h : i + k = 8 * n} (hs : b.scan k i h = none)
    (l : Fin (8 * n)) (hl : i ≤ l.val) : b.test l = false := by
  induction k generalizing i with
  | zero => omega
  | succ k ih =>
    simp only [scan] at hs
    split at hs
    · simp at hs
    · rename_i ht
      rcases Nat.eq_or_lt_of_le hl with he | hl
      · subst he
        simpa using ht
      · exact ih hs hl

/-- What the scan finds: the lowest set position, or that there is none. -/
theorem first_cases (b : Bitmap n) :
    (∃ i, b.first = some i ∧ b.test i = true ∧ ∀ j < i, b.test j = false) ∨
    (b.first = none ∧ ∀ i, b.test i = false) := by
  cases hf : b.first with
  | some i =>
    obtain ⟨hi, hlow⟩ := scan_some hf
    exact Or.inl ⟨i, rfl, hi, fun j hj => hlow j (Nat.zero_le _) hj⟩
  | none => exact Or.inr ⟨rfl, fun i => scan_none hf i (Nat.zero_le _)⟩

theorem getLsbD_mask (i : Fin (8 * n)) (k : Nat) :
    (mask i).getLsbD k = decide (k = i.val % 8) := by
  have hlt : i.val % 8 < 8 := by omega
  by_cases hk : k = i.val % 8
  · subst hk
    simp [mask, hlt]
  · by_cases hle : k < i.val % 8
    · simp [mask, hle, hk]
    · simp [mask, hk, show k - i.val % 8 ≠ 0 by omega]

theorem getElem_mask (i : Fin (8 * n)) (k : Nat) (hk : k < 8) :
    (mask i)[k] = decide (k = i.val % 8) := by
  rw [BitVec.getElem_eq_testBit_toNat, BitVec.testBit_toNat, getLsbD_mask]

theorem test_eq_getLsbD (b : Bitmap n) (i : Fin (8 * n)) :
    b.test i = (b (slot i)).getLsbD (i.val % 8) := by
  have hlt : i.val % 8 < 8 := by omega
  cases hb : (b (slot i)).getLsbD (i.val % 8) with
  | true =>
    have hne : b (slot i) &&& mask i ≠ 0#8 := by
      intro h
      have := congrArg (fun v => BitVec.getLsbD v (i.val % 8)) h
      simp [getLsbD_mask, hb] at this
    simpa [test] using hne
  | false =>
    have hz : b (slot i) &&& mask i = 0#8 := by
      apply BitVec.eq_of_getLsbD_eq
      intro k _
      by_cases hk : k = i.val % 8 <;> simp_all [getElem_mask]
    simp [test, hz]

theorem eq_of_slot_of_mod (hs : slot i = slot j) (hm : i.val % 8 = j.val % 8) : i = j := by
  have := congrArg Fin.val hs
  simp only [slot] at this
  exact Fin.ext (by omega)

theorem test_set : (b.set i).test j = (decide (j = i) || b.test j) := by
  simp only [test_eq_getLsbD, set, Function.update_apply]
  by_cases hs : slot j = slot i
  · by_cases hm : j.val % 8 = i.val % 8
    · obtain rfl := eq_of_slot_of_mod hs hm
      simp [getLsbD_mask]
    · have hne : j ≠ i := fun h => hm (by rw [h])
      simp [hs, hm, hne, getLsbD_mask]
  · have hne : j ≠ i := fun h => hs (by rw [h])
    simp [hs, hne]

theorem test_clear : (b.clear i).test j = (decide (j ≠ i) && b.test j) := by
  have hlt : j.val % 8 < 8 := by omega
  simp only [test_eq_getLsbD, clear, Function.update_apply]
  by_cases hs : slot j = slot i
  · by_cases hm : j.val % 8 = i.val % 8
    · obtain rfl := eq_of_slot_of_mod hs hm
      simp [getElem_mask, hlt]
    · have hne : j ≠ i := fun h => hm (by rw [h])
      simp [hs, hm, hne, getElem_mask, hlt]
  · have hne : j ≠ i := fun h => hs (by rw [h])
    simp [hs, hne]

theorem set_of_test (h : b.test i = true) : b.set i = b := by
  rw [test_eq_getLsbD] at h
  refine Function.update_eq_iff.mpr ⟨?_, fun _ _ => rfl⟩
  apply BitVec.eq_of_getLsbD_eq
  intro k _
  rw [BitVec.getLsbD_or, getLsbD_mask]
  by_cases hk : k = i.val % 8
  · subst hk
    simp [h]
  · simp [hk]

@[simp] theorem test_empty : test (fun _ : Fin n => 0#8) i = false := by
  simp [test_eq_getLsbD]

end Bitmap
end Machine
