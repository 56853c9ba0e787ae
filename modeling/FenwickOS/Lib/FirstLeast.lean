import Mathlib.Order.Lattice

/-! The first element of a list that is least among those with a property, as a search that goes
through the list finds it. -/
namespace Machine

variable {α β : Type*} [LinearOrder β] {p : α → Prop} {f : α → β} {l rest : List α} {a b c : α}

/-- `a` has the property; nothing with it is smaller, and what comes before `a` is larger. -/
structure FirstLeast (p : α → Prop) (f : α → β) (l : List α) (a : α) : Prop where
  holds : p a
  split : ∃ before after, l = before ++ a :: after ∧ (∀ c ∈ before, p c → f a < f c) ∧
    ∀ c ∈ after, p c → f a ≤ f c

namespace FirstLeast

theorem mem (h : FirstLeast p f l a) : a ∈ l := by
  obtain ⟨before, after, rfl, -, -⟩ := h.split
  exact List.mem_append_right _ List.mem_cons_self

theorem le (h : FirstLeast p f l a) (hmem : c ∈ l) (hc : p c) : f a ≤ f c := by
  obtain ⟨before, after, rfl, hbefore, hafter⟩ := h.split
  rcases List.mem_append.mp hmem with hmem | hmem
  · exact le_of_lt (hbefore c hmem hc)
  · rcases List.mem_cons.mp hmem with rfl | hmem
    · exact le_refl _
    · exact hafter c hmem hc

theorem first (hnone : ∀ c ∈ l, ¬ p c) (ha : p a) : FirstLeast p f (l ++ [a]) a :=
  ⟨ha, l, [], rfl, fun c hmem hc => absurd hc (hnone c hmem), by simp⟩

theorem replace (h : FirstLeast p f l a) (hb : p b) (hlt : f b < f a) :
    FirstLeast p f (l ++ [b]) b :=
  ⟨hb, l, [], rfl, fun _ hmem hc => lt_of_lt_of_le hlt (h.le hmem hc), by simp⟩

theorem append (h : FirstLeast p f l a) (hrest : ∀ c ∈ rest, p c → f a ≤ f c) :
    FirstLeast p f (l ++ rest) a := by
  obtain ⟨before, after, rfl, hbefore, hafter⟩ := h.split
  refine ⟨h.holds, before, after ++ rest, by simp, hbefore, fun c hmem hc => ?_⟩
  rcases List.mem_append.mp hmem with hmem | hmem
  · exact hafter c hmem hc
  · exact hrest c hmem hc

theorem unique (ha : FirstLeast p f l a) (hb : FirstLeast p f l b) : a = b := by
  have hle : f a ≤ f b := ha.le hb.mem hb.holds
  have hge : f b ≤ f a := hb.le ha.mem ha.holds
  obtain ⟨before, after, hl, hbefore, -⟩ := ha.split
  obtain ⟨before', after', hl', hbefore', -⟩ := hb.split
  rw [hl] at hl'
  rcases List.append_eq_append_iff.mp hl' with ⟨between, hsplit, hrest⟩ | ⟨between, hsplit, hrest⟩
  · cases between with
    | nil => exact (List.cons.inj hrest).1
    | cons c between =>
      obtain rfl : a = c := (List.cons.inj hrest).1
      have hmem : a ∈ before' := hsplit ▸ List.mem_append_right _ List.mem_cons_self
      exact absurd hle (not_le_of_gt (hbefore' a hmem ha.holds))
  · cases between with
    | nil => exact (List.cons.inj hrest).1.symm
    | cons c between =>
      obtain rfl : b = c := (List.cons.inj hrest).1
      have hmem : b ∈ before := hsplit ▸ List.mem_append_right _ List.mem_cons_self
      exact absurd hge (not_le_of_gt (hbefore b hmem hb.holds))

end FirstLeast
end Machine
