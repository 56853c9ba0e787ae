import FenwickOS.Lib.Words
import Mathlib.Data.List.TakeWhile

/-! The order of byte strings, as the difference of the first bytes in which they differ. -/
namespace Machine

variable {xs ys zs : List Byte} {x y : Byte} {n : Int}

/-- The difference of the first bytes in which the strings differ; the end of a string counts
as 0. -/
def firstDifference : List Byte → List Byte → Int
  | [], [] => 0
  | [], y :: _ => 0 - y.toNat
  | x :: _, [] => x.toNat
  | x :: xs, y :: ys => if x = y then firstDifference xs ys else x.toNat - y.toNat

structure OrdersAs (n : Int) (xs ys : List Byte) : Prop where
  less : n < 0 ↔ xs < ys
  equal : n = 0 ↔ xs = ys
  greater : 0 < n ↔ ys < xs

/-- No NUL can be mistaken for the end of a string: there is none, or the strings are of one
length. -/
def SameEnds (xs ys : List Byte) : Prop :=
  (0#8 ∉ xs ∧ 0#8 ∉ ys) ∨ xs.length = ys.length

theorem SameEnds.tail (h : SameEnds (x :: xs) (y :: ys)) : SameEnds xs ys := by
  rcases h with ⟨hx, hy⟩ | hlen
  · exact Or.inl ⟨fun hm => hx (List.mem_cons_of_mem _ hm), fun hm => hy (List.mem_cons_of_mem _ hm)⟩
  · exact Or.inr (Nat.succ.inj hlen)

theorem SameEnds.pos (h : SameEnds [] (y :: ys)) : 0 < y.toNat := by
  rcases h with ⟨-, hy⟩ | hlen
  · refine BitVec.toNat_pos_of_ne_zero fun hzero => hy ?_
    rw [hzero]
    exact List.mem_cons_self
  · cases hlen

theorem SameEnds.symm (h : SameEnds xs ys) : SameEnds ys xs := by
  rcases h with ⟨hx, hy⟩ | hlen
  · exact Or.inl ⟨hy, hx⟩
  · exact Or.inr hlen.symm

theorem firstDifference_comm (xs ys : List Byte) :
    firstDifference ys xs = -firstDifference xs ys := by
  fun_induction firstDifference xs ys with
  | case1 => rfl
  | case2 y ys =>
    rw [firstDifference]
    omega
  | case3 x xs =>
    rw [firstDifference]
    omega
  | case4 x xs ys ih => rw [firstDifference, if_pos rfl, ih]
  | case5 x xs y ys hne =>
    rw [firstDifference, if_neg (Ne.symm hne)]
    omega

theorem firstDifference_self (xs : List Byte) : firstDifference xs xs = 0 := by
  have h := firstDifference_comm xs xs
  omega

theorem firstDifference_neg_iff (h : SameEnds xs ys) : firstDifference xs ys < 0 ↔ xs < ys := by
  fun_induction firstDifference xs ys with
  | case1 => exact iff_of_false (Int.lt_irrefl 0) (List.not_lt_nil _)
  | case2 y ys =>
    have hpos := h.pos
    exact iff_of_true (by omega) (List.nil_lt_cons _ _)
  | case3 x xs => exact iff_of_false (by omega) (List.not_lt_nil _)
  | case4 x xs ys ih => rw [ih h.tail, List.cons_lt_cons_self]
  | case5 x xs y ys hne =>
    rw [List.cons_lt_cons_iff, or_iff_left fun he => hne he.1, BitVec.lt_def]
    omega

theorem firstDifference_eq_zero_iff (h : SameEnds xs ys) :
    firstDifference xs ys = 0 ↔ xs = ys := by
  constructor
  · intro hzero
    fun_induction firstDifference xs ys with
    | case1 => rfl
    | case2 y ys =>
      have hpos := h.pos
      omega
    | case3 x xs =>
      have hpos := h.symm.pos
      omega
    | case4 x xs ys ih => rw [ih h.tail hzero]
    | case5 x xs y ys hne => exact absurd (BitVec.eq_of_toNat_eq (by omega)) hne
  · rintro rfl
    exact firstDifference_self xs

theorem ordersAs_firstDifference (h : SameEnds xs ys) :
    OrdersAs (firstDifference xs ys) xs ys := by
  refine ⟨firstDifference_neg_iff h, firstDifference_eq_zero_iff h, ?_⟩
  rw [← firstDifference_neg_iff h.symm, firstDifference_comm xs ys]
  omega

theorem OrdersAs.le_iff (h : OrdersAs n xs ys) : n ≤ 0 ↔ xs ≤ ys := by
  rw [← Int.not_lt, h.greater]
  exact List.not_lt

/-! ### Strings that end at their first NUL -/

/-- The bytes before the first NUL. -/
def upToNul (xs : List Byte) : List Byte := xs.takeWhile (· != 0#8)

theorem upToNul_nul (xs : List Byte) : upToNul (0#8 :: xs) = [] := rfl

theorem upToNul_cons (h : x ≠ 0#8) (xs : List Byte) : upToNul (x :: xs) = x :: upToNul xs :=
  List.takeWhile_cons_of_pos (by simpa using h)

theorem upToNul_of_nul_free (h : 0#8 ∉ xs) : upToNul xs = xs := by
  refine List.takeWhile_eq_self_iff.mpr fun x hx => ?_
  simpa using fun hzero : x = 0#8 => h (hzero ▸ hx)

theorem upToNul_append (h : 0#8 ∉ xs) (ys : List Byte) : upToNul (xs ++ 0#8 :: ys) = xs := by
  have hpos : ∀ x ∈ xs, (x != 0#8) = true := by
    intro x hx
    simpa using fun hzero : x = 0#8 => h (hzero ▸ hx)
  have hrest : List.takeWhile (· != 0#8) (0#8 :: ys) = [] := rfl
  rw [upToNul, List.takeWhile_append_of_pos hpos, hrest, List.append_nil]

/-- One byte of a comparison that stops at a NUL. -/
theorem firstDifference_upToNul_cons (x y : Byte) (xs ys : List Byte) :
    firstDifference (upToNul (x :: xs)) (upToNul (y :: ys)) =
      if x = y then if x = 0#8 then 0 else firstDifference (upToNul xs) (upToNul ys)
      else x.toNat - y.toNat := by
  by_cases hxy : x = y
  · subst hxy
    rw [if_pos rfl]
    by_cases hx : x = 0#8
    · rw [if_pos hx, hx, upToNul_nul, upToNul_nul]
      rfl
    · rw [if_neg hx, upToNul_cons hx, upToNul_cons hx, firstDifference, if_pos rfl]
  · rw [if_neg hxy]
    by_cases hx : x = 0#8
    · subst hx
      rw [upToNul_nul, upToNul_cons (Ne.symm hxy), firstDifference]
      rfl
    · by_cases hy : y = 0#8
      · subst hy
        rw [upToNul_nul, upToNul_cons hx, firstDifference]
        exact (Int.sub_zero _).symm
      · rw [upToNul_cons hx, upToNul_cons hy, firstDifference, if_neg hxy]

/-- Where the strings first differ, no NUL stands before in both. -/
def DifferBeforeNul (xs ys : List Byte) : Prop :=
  ∀ p x y s t, xs = p ++ x :: s → ys = p ++ y :: t → x ≠ y → 0#8 ∉ p

theorem exists_first_difference (hlen : xs.length = ys.length) (hne : xs ≠ ys) :
    ∃ p x y s t, xs = p ++ x :: s ∧ ys = p ++ y :: t ∧ x ≠ y := by
  induction xs generalizing ys with
  | nil => exact absurd (List.length_eq_zero_iff.mp hlen.symm).symm hne
  | cons x xs ih =>
    cases ys with
    | nil => cases hlen
    | cons y ys =>
      by_cases hxy : x = y
      · subst hxy
        obtain ⟨p, x', y', s, t, rfl, rfl, hdiff⟩ := ih (Nat.succ.inj hlen) fun he => hne (he ▸ rfl)
        exact ⟨x :: p, x', y', s, t, rfl, rfl, hdiff⟩
      · exact ⟨[], x, y, xs, ys, rfl, rfl, hxy⟩

theorem firstDifference_upToNul (hlen : xs.length = ys.length) (h : DifferBeforeNul xs ys) :
    firstDifference (upToNul xs) (upToNul ys) = firstDifference xs ys := by
  induction xs generalizing ys with
  | nil =>
    obtain rfl := List.length_eq_zero_iff.mp hlen.symm
    rfl
  | cons x xs ih =>
    cases ys with
    | nil => cases hlen
    | cons y ys =>
      rw [firstDifference_upToNul_cons, firstDifference]
      by_cases hxy : x = y
      · subst hxy
        rw [if_pos rfl, if_pos rfl]
        by_cases hx : x = 0#8
        · subst hx
          have hsame : xs = ys := by
            by_contra hne
            obtain ⟨p, x, y, s, t, rfl, rfl, hdiff⟩ := exists_first_difference (Nat.succ.inj hlen) hne
            exact h (0#8 :: p) x y s t rfl rfl hdiff List.mem_cons_self
          rw [if_pos rfl, hsame, firstDifference_self]
        · rw [if_neg hx]
          refine ih (Nat.succ.inj hlen) fun p x' y' s t hxs hys hdiff hmem => ?_
          subst hxs hys
          exact h (x :: p) x' y' s t rfl rfl hdiff (List.mem_cons_of_mem _ hmem)
      · rw [if_neg hxy, if_neg hxy]

end Machine
