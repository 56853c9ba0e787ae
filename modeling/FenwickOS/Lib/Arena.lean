import Mathlib.Algebra.GroupWithZero.Nat
import Mathlib.Order.CompletePartialOrder
import Mathlib.Order.Interval.Set.LinearOrder
import Mathlib.Order.Interval.Set.Disjoint

/-! Arenas that only grow: each block starts at or above the cursor and moves it to its end. -/
namespace Machine

section Cursor

variable {α : Type*} [LinearOrder α] {lo hi : α}

/-- The blocks `[b.1, b.2)` cut so far from the range `[lo, hi)`, the latest first. -/
structure Arena (lo hi : α) where
  cursor : α
  blocks : List (α × α)
  lo_le : lo ≤ cursor
  le_hi : cursor ≤ hi
  inside : ∀ b ∈ blocks, lo ≤ b.1 ∧ b.2 ≤ cursor
  disjoint : blocks.Pairwise fun b c => Disjoint (Set.Ico b.1 b.2) (Set.Ico c.1 c.2)

namespace Arena

def empty (h : lo ≤ hi) : Arena lo hi where
  cursor := lo
  blocks := []
  lo_le := le_refl lo
  le_hi := h
  inside := by simp
  disjoint := List.Pairwise.nil

def push (A : Arena lo hi) (p q : α) (hp : A.cursor ≤ p) (hpq : p ≤ q) (hq : q ≤ hi) :
    Arena lo hi where
  cursor := q
  blocks := (p, q) :: A.blocks
  lo_le := A.lo_le.trans (hp.trans hpq)
  le_hi := hq
  inside := by
    intro b hb
    rcases List.mem_cons.mp hb with rfl | hb
    · exact ⟨A.lo_le.trans hp, le_refl q⟩
    · exact ⟨(A.inside b hb).1, (A.inside b hb).2.trans (hp.trans hpq)⟩
  disjoint := by
    refine List.pairwise_cons.mpr ⟨fun b hb => ?_, A.disjoint⟩
    refine Set.disjoint_left.mpr fun x hx hx' => ?_
    exact absurd (hx'.2.trans_le ((A.inside b hb).2.trans hp)) (not_lt.mpr hx.1)

end Arena
end Cursor

def alignUp (c a : Nat) : Nat := c + (a - c % a) % a

variable {a c : Nat}

theorem le_alignUp : c ≤ alignUp c a := Nat.le_add_right _ _

theorem alignUp_lt (ha : 0 < a) : alignUp c a < c + a :=
  Nat.add_lt_add_left (Nat.mod_lt _ ha) c

theorem dvd_alignUp (ha : 0 < a) : a ∣ alignUp c a := by
  have hlt := Nat.mod_lt c ha
  have hdiv := Nat.div_add_mod c a
  unfold alignUp
  by_cases hz : c % a = 0
  · rw [hz, Nat.sub_zero, Nat.mod_self]
    exact Nat.dvd_of_mod_eq_zero hz
  · rw [Nat.mod_eq_of_lt (by omega)]
    refine ⟨c / a + 1, ?_⟩
    rw [Nat.mul_add, Nat.mul_one]
    omega

theorem alignUp_le {p : Nat} (ha : 0 < a) (hdvd : a ∣ p) (hp : c ≤ p) : alignUp c a ≤ p :=
  Nat.le_of_lt_add_of_dvd ((alignUp_lt ha).trans_le (Nat.add_le_add_right hp a)) (dvd_alignUp ha)
    hdvd

end Machine
