import Mathlib.Algebra.GroupWithZero.Nat
import Mathlib.Algebra.Group.Fin.Basic
import Mathlib.Data.Fin.Basic

/-! Ring buffers that keep one cell free, as first-in first-out queues. -/
namespace Machine

structure Ring (α : Type*) (n : Nat) where
  cells : Fin n → α
  start : Fin n
  stop : Fin n

namespace Ring

variable {α : Type*} {n : Nat} [NeZero n] {r r' : Ring α n} {c : α}

/-- Add `c` at the end, or drop it when no second cell is free. -/
def push (r : Ring α n) (c : α) : Ring α n :=
  if r.stop + 1 = r.start then r
  else { r with cells := Function.update r.cells r.stop c, stop := r.stop + 1 }

def pop (r : Ring α n) : Option (α × Ring α n) :=
  if r.start = r.stop then none else some (r.cells r.start, { r with start := r.start + 1 })

def clear (r : Ring α n) : Ring α n := { r with start := 0, stop := 0 }

def contents (r : Ring α n) : List α :=
  (List.range (r.stop - r.start).val).map fun k => r.cells (r.start + Fin.ofNat n k)

theorem length_contents (r : Ring α n) : r.contents.length = (r.stop - r.start).val := by
  simp [contents]

theorem length_contents_lt (r : Ring α n) : r.contents.length < n := by
  rw [length_contents]
  exact Fin.isLt _

theorem contents_eq_nil : r.contents = [] ↔ r.start = r.stop := by
  rw [← List.length_eq_zero_iff, length_contents, Fin.val_eq_zero_iff, sub_eq_zero, eq_comm]

@[simp] theorem contents_clear (r : Ring α n) : r.clear.contents = [] :=
  contents_eq_nil.mpr rfl

theorem val_add_one {k : Fin n} (h : k + 1 ≠ 0) : (k + 1).val = k.val + 1 := by
  have hk := k.isLt
  have hval : (k + 1).val = (k.val + 1) % n := by
    rw [Fin.val_add]
    simp
  by_cases hlast : k.val + 1 = n
  · rw [hlast, Nat.mod_self] at hval
    exact (h (Fin.ext (by simpa using hval))).elim
  · rw [hval, Nat.mod_eq_of_lt (by omega)]

theorem add_ofNat_inj {i : Fin n} {j k : Nat} (hj : j < n) (hk : k < n)
    (h : i + Fin.ofNat n j = i + Fin.ofNat n k) : j = k := by
  have := congrArg Fin.val (add_left_cancel h)
  rwa [Fin.val_ofNat, Fin.val_ofNat, Nat.mod_eq_of_lt hj, Nat.mod_eq_of_lt hk] at this

theorem start_add_length (r : Ring α n) :
    r.start + Fin.ofNat n (r.stop - r.start).val = r.stop := by
  rw [Fin.ofNat_val_eq_self, add_sub_cancel]

/-- A full buffer drops the element, any other appends it. -/
theorem contents_push : (r.push c).contents =
    if r.stop + 1 = r.start then r.contents else r.contents ++ [c] := by
  unfold push
  split
  · rfl
  · rename_i hfull
    have hlen : (r.stop + 1 - r.start).val = (r.stop - r.start).val + 1 := by
      rw [add_sub_right_comm]
      refine val_add_one fun hz => hfull ?_
      rwa [← add_sub_right_comm, sub_eq_zero] at hz
    simp only [contents, hlen, List.range_succ, List.map_append, List.map_cons, List.map_nil,
      start_add_length, Function.update_self]
    congr 1
    refine List.map_congr_left fun k hk => Function.update_of_ne ?_ _ _
    have hlt := List.mem_range.mp hk
    have hbound := (r.stop - r.start).isLt
    intro he
    rw [← start_add_length r] at he
    have := add_ofNat_inj (by omega) hbound he
    omega

theorem pop_eq_none : r.pop = none ↔ r.contents = [] := by
  rw [contents_eq_nil]
  unfold pop
  split <;> simp_all

/-- The first element leaves, the others stay in order. -/
theorem contents_pop (h : r.pop = some (c, r')) : r.contents = c :: r'.contents := by
  unfold pop at h
  split at h
  · simp at h
  · rename_i hne
    obtain ⟨rfl, rfl⟩ := Prod.mk.inj (Option.some.inj h)
    have hlen : (r.stop - r.start).val = (r.stop - (r.start + 1)).val + 1 := by
      have hsplit : r.stop - r.start = r.stop - (r.start + 1) + 1 := by
        rw [← sub_sub, sub_add_cancel]
      rw [hsplit]
      refine val_add_one fun hz => hne ?_
      rw [← hsplit, sub_eq_zero] at hz
      exact hz.symm
    have hcell (k : Nat) :
        r.start + Fin.ofNat n (k + 1) = r.start + 1 + Fin.ofNat n k := by
      have hsucc : Fin.ofNat n (k + 1) = 1 + Fin.ofNat n k := by
        apply Fin.ext
        simp [Fin.val_add, Nat.add_comm]
      rw [hsucc, add_assoc]
    simp only [contents, hlen, List.range_succ_eq_map, List.map_cons, List.map_map]
    congr 1
    · congr 1
      simp
    · refine List.map_congr_left fun k _ => ?_
      simp only [Function.comp_apply, Nat.succ_eq_add_one, hcell]

end Ring
end Machine
