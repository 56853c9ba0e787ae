import Mathlib.Data.Fin.Basic
import Mathlib.Data.Fintype.Card
import Mathlib.Data.List.FinRange
import Mathlib.Logic.Function.Basic

/-! Fixed tables of slots that are searched from slot 0 up and filled from the bottom. -/
namespace Machine

variable {α β : Type*} {n : Nat} {entry : α → β → β} {xs : List α} {x : α} {table : Fin n → β}
  {taken : β → Bool} {q : Fin n → Bool} {i : Fin n} {b : β}

/-- The searches `for (i = 0; i < n; i++)` that stop at the first hit. -/
def firstSlot (q : Fin n → Bool) : Option (Fin n) := (List.finRange n).find? q

/-- The table after `xs` has been stored in its lowest slots; `entry` makes the new entry of a slot
from the old one. -/
def filled (entry : α → β → β) (xs : List α) (table : Fin n → β) (i : Fin n) : β :=
  match xs[i.val]? with
  | some x => entry x (table i)
  | none => table i

theorem firstSlot_eq (hi : q i = true) (hlow : ∀ j < i, q j = false) : firstSlot q = some i := by
  rw [firstSlot, List.find?_eq_some_iff_getElem]
  refine ⟨hi, i.val, by simp, by simp, fun j hj => ?_⟩
  rw [List.getElem_finRange, Fin.cast_mk, hlow ⟨j, by omega⟩ hj]
  rfl

theorem firstSlot_eq_some_iff :
    firstSlot q = some i ↔ q i = true ∧ ∀ j < i, q j = false := by
  constructor
  · intro h
    obtain ⟨hi, k, hk, hki, hlow⟩ := List.find?_eq_some_iff_getElem.mp h
    rw [List.getElem_finRange] at hki
    subst hki
    refine ⟨hi, fun j hj => ?_⟩
    simpa using hlow j.val hj
  · rintro ⟨hi, hlow⟩
    exact firstSlot_eq hi hlow

theorem firstSlot_eq_none_iff : firstSlot q = none ↔ ∀ i, q i = false := by
  simp [firstSlot]

/-- The search for a free slot returns the lowest one, or all slots are taken. -/
theorem firstSlot_free (used : Fin n → Bool) :
    (∃ i, used i = false ∧ (∀ j < i, used j = true) ∧ firstSlot (fun i => !used i) = some i) ∨
      ((∀ i, used i = true) ∧ firstSlot (fun i => !used i) = none) := by
  cases hslot : firstSlot fun i => !used i with
  | none =>
    refine Or.inr ⟨fun i => ?_, rfl⟩
    simpa using firstSlot_eq_none_iff.mp hslot i
  | some i =>
    obtain ⟨hfree, hlow⟩ := firstSlot_eq_some_iff.mp hslot
    exact Or.inl ⟨i, by simpa using hfree, fun j hj => by simpa using hlow j hj, rfl⟩

/-- A search after slot `i` has changed, above all slots that the search could find before. -/
theorem firstSlot_add {q' : Fin n → Bool} (hsame : ∀ j, j ≠ i → q' j = q j)
    (hbelow : ∀ j, q j = true → j < i) :
    firstSlot q' = (firstSlot q).or (if q' i then some i else none) := by
  cases hq : firstSlot q with
  | some j =>
    obtain ⟨hj, hlow⟩ := firstSlot_eq_some_iff.mp hq
    have hlt := hbelow j hj
    refine firstSlot_eq ((hsame j (ne_of_lt hlt)).trans hj) fun k hk => ?_
    exact (hsame k (ne_of_lt (lt_trans hk hlt))).trans (hlow k hk)
  | none =>
    have hnone := firstSlot_eq_none_iff.mp hq
    rw [Option.none_or]
    split
    · rename_i hi
      exact firstSlot_eq hi fun k hk => (hsame k (ne_of_lt hk)).trans (hnone k)
    · rename_i hi
      refine firstSlot_eq_none_iff.mpr fun k => ?_
      by_cases hk : k = i
      · subst hk
        simpa using hi
      · exact (hsame k hk).trans (hnone k)

theorem lowest_unique {used : Fin n → Bool} {j : Fin n} (hi : used i = false)
    (hlow : ∀ k < i, used k = true) (hj : used j = false) (hlow' : ∀ k < j, used k = true) :
    j = i := by
  rcases lt_trichotomy j i with hlt | heq | hgt
  · exact absurd (hlow j hlt) (by simp [hj])
  · exact heq
  · exact absurd (hlow' i hgt) (by simp [hi])

@[simp] theorem filled_nil : filled entry [] table = table := by
  funext i
  simp [filled]

theorem filled_of_lt (h : i.val < xs.length) :
    filled entry xs table i = entry xs[i.val] (table i) := by
  simp [filled, h]

theorem filled_of_le (h : xs.length ≤ i.val) : filled entry xs table i = table i := by
  simp [filled, h]

/-- What holds of every new entry and of every old one holds of the whole table. -/
theorem filled_forall {P : β → Prop} (hentry : ∀ x ∈ xs, ∀ b, P (entry x b))
    (htable : ∀ i, P (table i)) (i : Fin n) : P (filled entry xs table i) := by
  rcases Nat.lt_or_ge i.val xs.length with hlt | hge
  · rw [filled_of_lt hlt]
    exact hentry _ (List.getElem_mem _) _
  · rw [filled_of_le hge]
    exact htable i

theorem update_filled (h : xs.length < n) :
    Function.update (filled entry xs table) ⟨xs.length, h⟩ (entry x (table ⟨xs.length, h⟩)) =
      filled entry (xs ++ [x]) table := by
  funext i
  by_cases hi : i = ⟨xs.length, h⟩
  · subst hi
    simp [filled]
  · have hne : i.val ≠ xs.length := fun he => hi (Fin.ext he)
    rw [Function.update_of_ne hi]
    rcases Nat.lt_or_ge i.val xs.length with hlt | hge
    · rw [filled_of_lt hlt, filled_of_lt (by simp; omega), List.getElem_append_left]
    · rw [filled_of_le hge, filled_of_le (by simp; omega)]

/-- The next slot is the first free one. -/
theorem firstSlot_filled (hentry : ∀ x ∈ xs, ∀ b, taken (entry x b) = true)
    (htable : ∀ i, taken (table i) = false) (h : xs.length < n) :
    (firstSlot fun i => !taken (filled entry xs table i)) = some ⟨xs.length, h⟩ := by
  refine firstSlot_eq ?_ fun j hj => ?_
  · rw [filled_of_le (Nat.le_refl _), htable]
    rfl
  · rw [filled_of_lt hj, hentry _ (List.getElem_mem _)]
    rfl

/-! ### How many slots are taken -/

def takenSlots (taken : β → Bool) (table : Fin n → β) : Finset (Fin n) :=
  Finset.univ.filter fun i => taken (table i)

theorem mem_takenSlots : i ∈ takenSlots taken table ↔ taken (table i) = true := by
  simp [takenSlots]

theorem takenSlots_eq_empty (h : ∀ i, taken (table i) = false) : takenSlots taken table = ∅ := by
  ext i
  simp [mem_takenSlots, h i]

theorem card_takenSlots_le : (takenSlots taken table).card ≤ n := by
  simpa using Finset.card_le_univ (takenSlots taken table)

theorem card_takenSlots_eq_iff :
    (takenSlots taken table).card = n ↔ ∀ i, taken (table i) = true := by
  have h := Finset.card_eq_iff_eq_univ (takenSlots taken table)
  rw [Fintype.card_fin] at h
  rw [h, Finset.eq_univ_iff_forall]
  exact forall_congr' fun i => mem_takenSlots

theorem takenSlots_take (h : taken b = true) :
    takenSlots taken (Function.update table i b) = insert i (takenSlots taken table) := by
  ext j
  rw [mem_takenSlots, Finset.mem_insert, mem_takenSlots]
  by_cases hj : j = i
  · subst hj
    simp [h]
  · simp [hj]

theorem takenSlots_free (h : taken b = false) :
    takenSlots taken (Function.update table i b) = (takenSlots taken table).erase i := by
  ext j
  rw [mem_takenSlots, Finset.mem_erase, mem_takenSlots]
  by_cases hj : j = i
  · subst hj
    simp [h]
  · simp [hj]

theorem card_takenSlots_take (h : taken b = true) (hfree : taken (table i) = false) :
    (takenSlots taken (Function.update table i b)).card = (takenSlots taken table).card + 1 := by
  rw [takenSlots_take h, Finset.card_insert_of_notMem (by simp [mem_takenSlots, hfree])]

theorem card_takenSlots_free (h : taken b = false) (htaken : taken (table i) = true) :
    (takenSlots taken (Function.update table i b)).card + 1 = (takenSlots taken table).card := by
  rw [takenSlots_free h, Finset.card_erase_add_one (mem_takenSlots.mpr htaken)]

theorem takenSlots_free_of_free (h : taken b = false) (hfree : taken (table i) = false) :
    takenSlots taken (Function.update table i b) = takenSlots taken table := by
  rw [takenSlots_free h, Finset.erase_eq_of_notMem (by simp [mem_takenSlots, hfree])]

end Machine
