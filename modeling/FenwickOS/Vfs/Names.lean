import FenwickOS.Vfs.Vfs

/-! Names as the tables store and compare them. -/
namespace FenwickOS.Vfs
open Machine Drv

variable {name src : List Byte} {dst stored : Name} {k j : Nat}

/-- From position `j` on the two strings agree up to a common NUL. -/
def AgreeFrom (name : List Byte) (stored : Name) (j : Nat) : Prop :=
  ∃ stop : Fin drvNameMax, j ≤ stop.val ∧ charAt name stop.val = 0#8 ∧ stored stop = 0#8 ∧
    ∀ i : Fin drvNameMax, j ≤ i.val → i.val < stop.val →
      charAt name i.val ≠ 0#8 ∧ stored i = charAt name i.val

theorem agreeFrom_iff (hj : j < drvNameMax) : AgreeFrom name stored j ↔
    (charAt name j = 0#8 ∧ stored ⟨j, hj⟩ = 0#8) ∨
    ((charAt name j ≠ 0#8 ∧ stored ⟨j, hj⟩ = charAt name j) ∧ AgreeFrom name stored (j + 1)) := by
  constructor
  · rintro ⟨stop, hle, hname, hstored, hlow⟩
    rcases Nat.eq_or_lt_of_le hle with heq | hlt
    · subst heq
      exact Or.inl ⟨hname, hstored⟩
    · exact Or.inr ⟨hlow ⟨j, hj⟩ (Nat.le_refl j) hlt, stop, hlt, hname, hstored,
        fun i hi => hlow i (by omega)⟩
  · rintro (⟨hname, hstored⟩ | ⟨hsame, stop, hle, hname, hstored, hlow⟩)
    · exact ⟨⟨j, hj⟩, Nat.le_refl j, hname, hstored, fun i hi his => absurd his (by simpa using hi)⟩
    · refine ⟨stop, by omega, hname, hstored, fun i hi his => ?_⟩
      rcases Nat.eq_or_lt_of_le hi with heq | hlt
      · subst heq
        exact hsame
      · exact hlow i hlt his

theorem nameMatchesFrom_iff (h : j + k + 1 = drvNameMax) :
    nameMatchesFrom name stored k j h = true ↔ AgreeFrom name stored j := by
  rw [agreeFrom_iff (by omega)]
  induction k generalizing j with
  | zero =>
    have hend : ¬ AgreeFrom name stored (j + 1) := by
      rintro ⟨stop, hle, -⟩
      have := stop.isLt
      omega
    simp [nameMatchesFrom, hend]
  | succ k ih =>
    rw [nameMatchesFrom]
    split
    · rename_i hsame
      rw [ih, ← agreeFrom_iff (by omega)]
      simp [hsame]
    · rename_i hdiff
      simp [hdiff]

theorem charAt_of_lt (h : j < name.length) : charAt name j = name[j] := by
  simp [charAt, h]

theorem charAt_eq_zero (h : 0#8 ∉ name) : charAt name j = 0#8 ↔ name.length ≤ j := by
  rw [charAt, List.getD_eq_getElem?_getD]
  constructor
  · intro hzero
    by_contra hlt
    rw [List.getElem?_eq_getElem (by omega), Option.getD_some] at hzero
    exact h (hzero ▸ List.getElem_mem _)
  · intro hge
    rw [List.getElem?_eq_none hge, Option.getD_none]

def storedString (stored : Name) : List Byte := (List.ofFn stored).takeWhile (· != 0#8)

theorem storedString_eq {stop : Fin drvNameMax} (hstop : stored stop = 0#8)
    (hlow : ∀ i < stop, stored i ≠ 0#8) :
    storedString stored = (List.ofFn stored).take stop.val := by
  have hidx : (List.ofFn stored).findIdx (fun c => !(c != 0#8)) = stop.val := by
    refine (List.findIdx_eq (by rw [List.length_ofFn]; exact stop.isLt)).mpr ⟨?_, fun j hj => ?_⟩
    · rw [List.getElem_ofFn, hstop]
      decide
    · rw [List.getElem_ofFn]
      simpa using hlow ⟨j, by omega⟩ hj
  rw [storedString, List.takeWhile_eq_take_findIdx_not, hidx]

theorem exists_stop (h : ∃ j, stored j = 0#8) :
    ∃ stop : Fin drvNameMax, stored stop = 0#8 ∧ ∀ i < stop, stored i ≠ 0#8 := by
  cases hslot : firstSlot fun j => stored j == 0#8 with
  | none =>
    obtain ⟨j, hj⟩ := h
    simpa [hj] using firstSlot_eq_none_iff.mp hslot j
  | some stop =>
    obtain ⟨hstop, hlow⟩ := firstSlot_eq_some_iff.mp hslot
    exact ⟨stop, by simpa using hstop, fun i hi => by simpa using hlow i hi⟩

/-- A name is found under a stored one exactly when it is the string stored. -/
theorem nameMatches_iff (hnul : ∃ j, stored j = 0#8) (hname : 0#8 ∉ name) :
    nameMatches name stored = true ↔ storedString stored = name := by
  rw [nameMatches, nameMatchesFrom_iff]
  constructor
  · rintro ⟨stop, -, hend, hstored, hlow⟩
    have hge : stop.val ≤ name.length := by
      by_contra hgt
      exact (hlow ⟨name.length, by omega⟩ (Nat.zero_le _) (by simpa using hgt)).1
        ((charAt_eq_zero hname).mpr (Nat.le_refl _))
    have hle : name.length ≤ stop.val := (charAt_eq_zero hname).mp hend
    have hstring : storedString stored = (List.ofFn stored).take stop.val := by
      refine storedString_eq hstored fun i hi => ?_
      obtain ⟨hne, heq⟩ := hlow i (Nat.zero_le _) hi
      rwa [heq]
    rw [hstring]
    refine List.ext_getElem (by simp; omega) fun i hi hi' => ?_
    have heq := (hlow ⟨i, by omega⟩ (Nat.zero_le _) (by simp only; omega)).2
    rw [List.getElem_take, List.getElem_ofFn, heq, charAt_of_lt hi']
  · intro hstring
    obtain ⟨stop, hstop, hlow⟩ := exists_stop hnul
    rw [storedString_eq hstop hlow] at hstring
    have hlength : name.length = stop.val := by
      rw [← hstring, List.length_take, List.length_ofFn, Nat.min_eq_left (Nat.le_of_lt stop.isLt)]
    refine ⟨stop, Nat.zero_le _, (charAt_eq_zero hname).mpr (by omega), hstop, fun i _ hi => ?_⟩
    have hchar : charAt name i.val = stored i := by
      rw [charAt_of_lt (by omega)]
      simp only [← hstring, List.getElem_take, List.getElem_ofFn]
    exact ⟨by rw [hchar]; exact hlow i hi, hchar.symm⟩

def storedStop (src : List Byte) : Fin drvNameMax :=
  ⟨min src.length (vfsNameMax - 1), Nat.lt_of_le_of_lt (Nat.min_le_right _ _) (by decide)⟩

theorem storeName_stop (dst : Name) (src : List Byte) :
    storeName dst src (storedStop src) = 0#8 := by
  simp [storeName, storedStop]

/-- What is stored of a string: its first 31 bytes. -/
theorem storedString_storeName (hsrc : 0#8 ∉ src) :
    storedString (storeName dst src) = src.take (vfsNameMax - 1) := by
  have hbefore (i : Fin drvNameMax) (hi : i.val < min src.length (vfsNameMax - 1)) :
      storeName dst src i = charAt src i.val := by
    rw [storeName, if_pos hi]
  have hlow : ∀ i < storedStop src, storeName dst src i ≠ 0#8 := by
    intro i hi
    have hlt : i.val < min src.length (vfsNameMax - 1) := hi
    rw [hbefore i hlt]
    intro hzero
    have := (charAt_eq_zero hsrc).mp hzero
    omega
  rw [storedString_eq (storeName_stop dst src) hlow]
  refine List.ext_getElem ?_ fun i hi hi' => ?_
  · rw [List.length_take, List.length_ofFn, List.length_take,
      Nat.min_eq_left (Nat.le_of_lt (storedStop src).isLt)]
    exact Nat.min_comm _ _
  · have hlt : i < min src.length (vfsNameMax - 1) := by
      rwa [List.length_take, Nat.min_comm] at hi'
    rw [List.getElem_take, List.getElem_ofFn, hbefore _ hlt, List.getElem_take]
    exact charAt_of_lt (Nat.lt_of_lt_of_le hlt (Nat.min_le_left _ _))

/-- A name that fits is found exactly under the string that was stored. -/
theorem nameMatches_storeName (hname : 0#8 ∉ name) (hsrc : 0#8 ∉ src)
    (hlen : src.length < vfsNameMax) :
    nameMatches name (storeName dst src) = true ↔ name = src := by
  rw [nameMatches_iff ⟨_, storeName_stop dst src⟩ hname, storedString_storeName hsrc,
    List.take_of_length_le (by omega), eq_comm]

end FenwickOS.Vfs
