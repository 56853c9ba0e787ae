import FenwickOS.Lib.CString

/-! The character searches of lib/libk/src/string.rs. -/
namespace FenwickOS.Libk
open Machine

/-- The loop of `kstrchr` from position `i` on. `none` is the null pointer. -/
def kstrchrFrom (m : Memory) (s : Word) (c : Byte) (i : Word) : Option Word :=
  if m.byte (s + i) = c then some s
  else if m.byte (s + i) = 0#8 then none
  else kstrchrFrom m s c (i + 1#64)
termination_by m.distance (s + i)
decreasing_by
  rw [← BitVec.add_assoc]
  exact Memory.distance_lt (by assumption)

def kstrchr (m : Memory) (s : Word) (c : Byte) : Option Word := kstrchrFrom m s c 0#64

/-- The loop of `kstrrchr` from position `i` on, with the value of `last`. -/
def kstrrchrFrom (m : Memory) (s : Word) (c : Byte) (i : Word) (last : Option Word) :
    Option Word :=
  let last := if m.byte (s + i) = c then some s else last
  if m.byte (s + i) = 0#8 then last else kstrrchrFrom m s c (i + 1#64) last
termination_by m.distance (s + i)
decreasing_by
  rw [← BitVec.add_assoc]
  exact Memory.distance_lt (by assumption)

def kstrrchr (m : Memory) (s : Word) (c : Byte) : Option Word := kstrrchrFrom m s c 0#64 none

variable {m : Memory} {s i : Word} {c : Byte} {k : Nat}

/-- Position `k` of the string, its NUL included, holds `c`. -/
def Occurs (m : Memory) (s : Word) (c : Byte) (k : Nat) : Prop :=
  k ≤ (cstring m s).length ∧ m.byte (s + BitVec.ofNat 64 k) = c

instance : DecidablePred (Occurs m s c) := fun _ => inferInstanceAs (Decidable (_ ∧ _))

/-- `kstrchr` returns the first position of the character, and null exactly if there is none. -/
structure FindsFirst (m : Memory) (s : Word) (c : Byte) : Prop where
  found : ∀ k, Occurs m s c k → (∀ j < k, ¬ Occurs m s c j) →
    kstrchr m s c = some (s + BitVec.ofNat 64 k)
  null : kstrchr m s c = none ↔ c ≠ 0#8 ∧ c ∉ cstring m s

/-- `kstrrchr` returns the last one. -/
structure FindsLast (m : Memory) (s : Word) (c : Byte) : Prop where
  found : ∀ k, Occurs m s c k → (∀ j > k, ¬ Occurs m s c j) →
    kstrrchr m s c = some (s + BitVec.ofNat 64 k)
  null : kstrrchr m s c = none ↔ c ≠ 0#8 ∧ c ∉ cstring m s

/-! ### What the loops return -/

theorem kstrchrFrom_eq (m : Memory) (s : Word) (c : Byte) (i : Word) :
    kstrchrFrom m s c i = if c ∈ terminated m (s + i) then some s else none := by
  fun_induction kstrchrFrom m s c i with
  | case1 i hhit =>
    rw [if_pos]
    by_cases hnul : m.byte (s + i) = 0#8
    · rw [terminated_of_nul hnul, ← hhit, hnul]
      exact List.mem_singleton_self _
    · rw [terminated_cons hnul, hhit]
      exact List.mem_cons_self
  | case2 i hmiss hnul =>
    rw [if_neg]
    rw [terminated_of_nul hnul, List.mem_singleton]
    intro hzero
    exact hmiss (hnul.trans hzero.symm)
  | case3 i hmiss hnul ih =>
    rw [ih, terminated_cons hnul, BitVec.add_assoc]
    simp only [List.mem_cons, Ne.symm hmiss, false_or]

theorem kstrrchrFrom_eq (m : Memory) (s : Word) (c : Byte) (i : Word) (last : Option Word) :
    kstrrchrFrom m s c i last = if c ∈ terminated m (s + i) then some s else last := by
  fun_induction kstrrchrFrom m s c i last with
  | case1 i last last' hnul =>
    rw [terminated_of_nul hnul]
    simp only [last', hnul, List.mem_singleton, eq_comm, dite_eq_ite]
  | case2 i last last' hnul ih =>
    rw [ih, terminated_cons hnul, BitVec.add_assoc]
    by_cases hhit : m.byte (s + i) = c
    · simp [last', hhit]
    · simp [last', hhit, Ne.symm hhit]

theorem mem_terminated_iff : c ∈ terminated m s ↔ ∃ k, Occurs m s c k := by
  rw [List.mem_iff_getElem?]
  refine exists_congr fun k => ?_
  rw [getElem?_terminated, Occurs]
  split
  · rename_i hk
    simp [hk]
  · rename_i hk
    simp [hk]

/-- Both searches return the start of the string if the character occurs in it. -/
theorem kstrchr_eq (m : Memory) (s : Word) (c : Byte) :
    kstrchr m s c = if c ∈ terminated m s then some s else none := by
  rw [kstrchr, kstrchrFrom_eq, BitVec.add_zero]

theorem kstrrchr_eq (m : Memory) (s : Word) (c : Byte) :
    kstrrchr m s c = if c ∈ terminated m s then some s else none := by
  rw [kstrrchr, kstrrchrFrom_eq, BitVec.add_zero]

theorem search_eq_none_iff (m : Memory) (s : Word) (c : Byte) :
    (if c ∈ terminated m s then some s else none) = none ↔ c ≠ 0#8 ∧ c ∉ cstring m s := by
  rw [ite_eq_right_iff]
  simp only [reduceCtorEq, imp_false, terminated, List.mem_append, List.mem_singleton, not_or]
  exact and_comm

theorem offset_eq_zero (h : Occurs m s c k) (hsame : s = s + BitVec.ofNat 64 k) : k = 0 := by
  have hlt : k < 2 ^ 64 := Nat.lt_of_le_of_lt h.1 (length_cstring_lt m s)
  have hzero : BitVec.ofNat 64 k = 0#64 := BitVec.self_eq_add_right.mp hsame
  have hnat := congrArg BitVec.toNat hzero
  rwa [BitVec.toNat_ofNat, Nat.mod_eq_of_lt hlt] at hnat

/-! ### When they return positions -/

/-- `kstrchr` is right exactly if the character, where it occurs, occurs first at the start. -/
theorem findsFirst_iff (m : Memory) (s : Word) (c : Byte) :
    FindsFirst m s c ↔ ∀ k, Occurs m s c k → Occurs m s c 0 := by
  constructor
  · intro h k hk
    have hex : ∃ k, Occurs m s c k := ⟨k, hk⟩
    have hfirst := h.found (Nat.find hex) (Nat.find_spec hex) fun j hj => Nat.find_min hex hj
    rw [kstrchr_eq, if_pos (mem_terminated_iff.mpr hex)] at hfirst
    have hzero := offset_eq_zero (Nat.find_spec hex) (Option.some.inj hfirst)
    rw [← hzero]
    exact Nat.find_spec hex
  · intro h
    refine ⟨fun k hk hlow => ?_, ?_⟩
    · have hzero : k = 0 := by
        by_contra hne
        exact hlow 0 (Nat.pos_of_ne_zero hne) (h k hk)
      rw [kstrchr_eq, if_pos (mem_terminated_iff.mpr ⟨k, hk⟩), hzero, BitVec.add_zero]
    · rw [kstrchr_eq]
      exact search_eq_none_iff m s c

/-- `kstrrchr` is right exactly if the character occurs at most at the start. -/
theorem findsLast_iff (m : Memory) (s : Word) (c : Byte) :
    FindsLast m s c ↔ ∀ k, Occurs m s c k → k = 0 := by
  constructor
  · intro h k hk
    let last := Nat.findGreatest (Occurs m s c) (cstring m s).length
    have hlast : Occurs m s c last := Nat.findGreatest_spec hk.1 hk
    have hle : k ≤ last := Nat.le_findGreatest hk.1 hk
    have hfound := h.found last hlast fun j hj hocc =>
      absurd (Nat.le_findGreatest hocc.1 hocc) (not_le.mpr hj)
    rw [kstrrchr_eq, if_pos (mem_terminated_iff.mpr ⟨k, hk⟩)] at hfound
    have hzero := offset_eq_zero hlast (Option.some.inj hfound)
    omega
  · intro h
    refine ⟨fun k hk _ => ?_, ?_⟩
    · rw [kstrrchr_eq, if_pos (mem_terminated_iff.mpr ⟨k, hk⟩), h k hk, BitVec.add_zero]
    · rw [kstrrchr_eq]
      exact search_eq_none_iff m s c

/-- Both searches return positions exactly if the character occurs at most at the start. -/
theorem findsPositions_iff (m : Memory) (s : Word) (c : Byte) :
    (FindsFirst m s c ∧ FindsLast m s c) ↔ ∀ k, Occurs m s c k → k = 0 := by
  rw [findsFirst_iff, findsLast_iff]
  refine and_iff_right_of_imp fun h k hk => ?_
  have hzero := h k hk
  rwa [hzero] at hk

def stringAb : Memory where
  byte a := if a = 0x1000#64 then ascii 'a' else if a = 0x1001#64 then ascii 'b' else 0#8
  nul := ⟨0#64, by decide⟩

/-- The `b` of `ab` is reported at the start. -/
theorem not_findsPositions_second :
    ¬ (FindsFirst stringAb 0x1000#64 (ascii 'b') ∧ FindsLast stringAb 0x1000#64 (ascii 'b')) := by
  rintro ⟨-, hlast⟩
  have hstring : cstring stringAb 0x1000#64 = [ascii 'a', ascii 'b'] := by
    rw [cstring_cons (by decide), cstring_cons (by decide), cstring_of_nul (by decide)]
    decide
  have hsecond : Occurs stringAb 0x1000#64 (ascii 'b') 1 := by
    rw [Occurs, hstring]
    decide
  exact absurd ((findsLast_iff _ _ _).mp hlast 1 hsecond) (by decide)

end FenwickOS.Libk
