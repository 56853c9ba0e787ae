import Mathlib.Tactic.TypeStar

/-! A cache of translations. The processor may take a translation in and drop one at any moment;
what it holds stays as it is until it is told to forget it. -/
namespace Machine

abbrev Tlb (κ τ : Type*) := List (κ × τ)

namespace Tlb

variable {κ τ : Type*} {tlb : Tlb κ τ} {look look' : κ → Option τ} {stale stale' : κ → Prop}

/-- A walk for `k`. A page without a translation is not cached. -/
def fill (look : κ → Option τ) (k : κ) (tlb : Tlb κ τ) : Tlb κ τ :=
  match look k with
  | some t => (k, t) :: tlb
  | none => tlb

def evict (keep : κ × τ → Bool) (tlb : Tlb κ τ) : Tlb κ τ := tlb.filter keep

def invalidate [DecidableEq κ] (k : κ) (tlb : Tlb κ τ) : Tlb κ τ := tlb.filter fun x => x.1 ≠ k

/-- What is held for a page that is not stale is what a walk finds. -/
def Coherent (stale : κ → Prop) (look : κ → Option τ) (tlb : Tlb κ τ) : Prop :=
  ∀ k t, (k, t) ∈ tlb → stale k ∨ look k = some t

theorem coherent_nil : Coherent stale look [] := by
  intro k t h
  cases h

theorem Coherent.fill (h : Coherent stale look tlb) (k : κ) :
    Coherent stale look (fill look k tlb) := by
  cases hk : look k with
  | none =>
    rw [Tlb.fill, hk]
    exact h
  | some t =>
    rw [Tlb.fill, hk]
    intro k' t' hmem
    rcases List.mem_cons.mp hmem with heq | hmem
    · cases heq
      exact Or.inr hk
    · exact h k' t' hmem

theorem Coherent.evict (h : Coherent stale look tlb) (keep : κ × τ → Bool) :
    Coherent stale look (evict keep tlb) := by
  intro k t hmem
  exact h k t (List.mem_filter.mp hmem).1

theorem Coherent.invalidate [DecidableEq κ] (h : Coherent stale look tlb) (k : κ) :
    Coherent (fun j => stale j ∧ j ≠ k) look (invalidate k tlb) := by
  intro j t hmem
  obtain ⟨hmem, hne⟩ := List.mem_filter.mp hmem
  rcases h j t hmem with hstale | hlook
  · exact Or.inl ⟨hstale, of_decide_eq_true hne⟩
  · exact Or.inr hlook

/-- Tables that change make stale at most the pages whose translation is another one. -/
theorem Coherent.change (h : Coherent stale look tlb) (hstale : ∀ k, stale k → stale' k)
    (hlook : ∀ k, ¬ stale' k → look' k = look k) : Coherent stale' look' tlb := by
  intro k t hmem
  by_cases hk : stale' k
  · exact Or.inl hk
  · rcases h k t hmem with hold | hold
    · exact Or.inl (hstale k hold)
    · exact Or.inr ((hlook k hk).trans hold)

theorem Coherent.mono (h : Coherent stale look tlb) (hstale : ∀ k, stale k → stale' k) :
    Coherent stale' look tlb :=
  h.change hstale fun _ _ => rfl

end Tlb

end Machine
