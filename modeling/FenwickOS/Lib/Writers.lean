import Mathlib.Data.Set.Basic

/-! Two writers on shared cells: whether one has written over a cell of the other. -/
namespace Machine

inductive Writer
  | first
  | second
  deriving DecidableEq

def Writer.other : Writer → Writer
  | .first => .second
  | .second => .first

/-- Who wrote each cell last, and whether a cell has passed from one writer to the other. -/
structure Shared (A : Type*) where
  owner : A → Option Writer
  lost : Bool

namespace Shared

variable {A : Type*} {s : Shared A} {p : Writer} {cells : List A} {a : A}
  {written written' : Writer → Set A}

def untouched : Shared A := ⟨fun _ => none, false⟩

def write [DecidableEq A] (p : Writer) (cells : List A) (s : Shared A) : Shared A where
  owner a := if a ∈ cells then some p else s.owner a
  lost := s.lost || cells.any fun a => s.owner a == some p.other

/-- What either writer has written so far. -/
structure Accounts (s : Shared A) (written : Writer → Set A) : Prop where
  free : ∀ a, s.owner a = none → ∀ p, a ∉ written p
  owned : ∀ a p, s.owner a = some p → a ∈ written p
  lost : s.lost = true ↔ ∃ a, a ∈ written .first ∧ a ∈ written .second

theorem accounts_untouched : Accounts (untouched : Shared A) fun _ => ∅ where
  free _ _ _ h := h
  owned _ _ h := by cases h
  lost := by simp [untouched]

theorem eq_or_other (p q : Writer) : q = p ∨ q = p.other := by cases p <;> cases q <;> decide

theorem Accounts.lost_iff (h : Accounts s written) (p : Writer) :
    s.lost = true ↔ ∃ a, a ∈ written p ∧ a ∈ written p.other := by
  rw [h.lost]
  cases p with
  | first => rfl
  | second => simp only [Writer.other, and_comm]

/-- A cell is lost exactly if both writers come to it. -/
theorem Accounts.write [DecidableEq A] (h : Accounts s written)
    (hp : ∀ a, a ∈ written' p ↔ a ∈ written p ∨ a ∈ cells)
    (hother : written' p.other = written p.other) : Accounts (s.write p cells) written' where
  free a hnone q := by
    unfold Shared.write at hnone
    dsimp only at hnone
    split at hnone
    · cases hnone
    · rename_i hcells
      rcases eq_or_other p q with rfl | rfl
      · rw [hp]
        exact not_or.mpr ⟨h.free a hnone _, hcells⟩
      · rw [hother]
        exact h.free a hnone _
  owned a q howner := by
    unfold Shared.write at howner
    dsimp only at howner
    split at howner
    · rename_i hcells
      cases howner
      exact (hp a).mpr (Or.inr hcells)
    · have hmem := h.owned a q howner
      rcases eq_or_other p q with rfl | rfl
      · exact (hp a).mpr (Or.inl hmem)
      · rwa [hother]
  lost := by
    have hnew : (s.write p cells).lost = true ↔ ∃ a, a ∈ written' p ∧ a ∈ written' p.other := by
      rw [hother, Shared.write, Bool.or_eq_true, h.lost_iff p, List.any_eq_true]
      simp only [hp, beq_iff_eq]
      constructor
      · rintro (⟨a, hmine, hyours⟩ | ⟨a, hcells, howner⟩)
        · exact ⟨a, Or.inl hmine, hyours⟩
        · exact ⟨a, Or.inr hcells, h.owned a _ howner⟩
      · rintro ⟨a, hmine | hcells, hyours⟩
        · exact Or.inl ⟨a, hmine, hyours⟩
        · cases howner : s.owner a with
          | none => exact (h.free a howner _ hyours).elim
          | some q =>
            rcases eq_or_other p q with rfl | rfl
            · exact Or.inl ⟨a, h.owned a _ howner, hyours⟩
            · exact Or.inr ⟨a, hcells, howner⟩
    rw [hnew]
    cases p with
    | first => rfl
    | second => simp only [Writer.other, and_comm]

end Shared
end Machine
