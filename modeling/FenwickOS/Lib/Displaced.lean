import Mathlib.Data.Int.Init
import Mathlib.Tactic.TypeStar

/-! The same marks in two windows, lower in one of them by an amount that grows with the row. -/
namespace Machine

variable {ι γ : Type*} {row row' : ι → Int} {label : ι → γ} {height : Int}

/-- The marks that a window shows at a row, which it does from row 0 on. -/
def Shown (row : ι → Int) (label : ι → γ) (r : Int) (g : γ) : Prop :=
  0 ≤ r ∧ ∃ i, row i = r ∧ label i = g

/-- Two windows that no mark is below show the same exactly if every mark that is in one of them is
in the same row of both. -/
theorem shown_iff (hmono : ∀ i j, row i ≤ row j → row' i - row i ≤ row' j - row j)
    (hrow : ∀ i, row i < height) (hrow' : ∀ i, row' i < height) :
    (∀ r g, Shown row label r g ↔ Shown row' label r g) ↔
      ∀ i, 0 ≤ row i ∨ 0 ≤ row' i → row i = row' i := by
  constructor
  · intro h
    -- a mark that is lower in the second window has one below it that is lower there too
    have hdown : ∀ n : Nat, ∀ i, height - row' i ≤ n → 0 ≤ row' i → ¬ row i < row' i := by
      intro n
      induction n with
      | zero =>
        intro i hn _ _
        have := hrow' i
        omega
      | succ n ih =>
        intro i hn hin hlt
        obtain ⟨-, j, hj, -⟩ := (h (row' i) (label i)).mpr ⟨hin, i, rfl, rfl⟩
        have hgrow := hmono i j (by omega)
        exact ih j (by omega) (by omega) (by omega)
    -- and so does one that is higher there
    have hup : ∀ n : Nat, ∀ i, height - row i ≤ n → 0 ≤ row i → ¬ row' i < row i := by
      intro n
      induction n with
      | zero =>
        intro i hn _ _
        have := hrow i
        omega
      | succ n ih =>
        intro i hn hin hlt
        obtain ⟨-, j, hj, -⟩ := (h (row i) (label i)).mp ⟨hin, i, rfl, rfl⟩
        by_cases hle : row j ≤ row i
        · have hgrow := hmono j i hle
          omega
        · exact ih j (by omega) (by omega) (by omega)
    intro i hin
    rcases Int.lt_trichotomy (row i) (row' i) with hlt | heq | hlt
    · exact absurd hlt (hdown _ i (Int.self_le_toNat _) (by omega))
    · exact heq
    · exact absurd hlt (hup _ i (Int.self_le_toNat _) (by omega))
  · intro h r g
    constructor
    · rintro ⟨hr, i, hi, hg⟩
      exact ⟨hr, i, (h i (Or.inl (by omega))).symm.trans hi, hg⟩
    · rintro ⟨hr, i, hi, hg⟩
      exact ⟨hr, i, (h i (Or.inr (by omega))).trans hi, hg⟩

end Machine
