import FenwickOS.Lib.Words
import Mathlib.Data.Nat.Find

/-! NUL-terminated strings in byte-addressed memory. -/
namespace Machine

/-- Memory in which every string ends: reading on from any address meets a NUL. -/
structure Memory where
  byte : Word → Byte
  nul : ∃ z, byte z = 0#8

variable {m : Memory} {a : Word}

theorem Memory.exists_nul (m : Memory) (a : Word) :
    ∃ k : Nat, m.byte (a + BitVec.ofNat 64 k) = 0#8 := by
  obtain ⟨z, hz⟩ := m.nul
  exact ⟨(z - a).toNat, by rwa [add_ofNat_sub]⟩

def Memory.distance (m : Memory) (a : Word) : Nat := Nat.find (m.exists_nul a)

theorem Memory.distance_lt (h : m.byte a ≠ 0#8) : m.distance (a + 1#64) < m.distance a := by
  have hfind := Nat.find_spec (m.exists_nul a)
  unfold Memory.distance
  obtain ⟨k, hk⟩ : ∃ k, Nat.find (m.exists_nul a) = k + 1 := by
    cases hd : Nat.find (m.exists_nul a) with
    | zero =>
      rw [hd] at hfind
      simp [h] at hfind
    | succ k => exact ⟨k, rfl⟩
  rw [hk] at hfind ⊢
  refine Nat.lt_succ_of_le (Nat.find_min' _ ?_)
  rwa [add_one_add_ofNat]

def cstring (m : Memory) (a : Word) : List Byte :=
  if m.byte a = 0#8 then [] else m.byte a :: cstring m (a + 1#64)
termination_by m.distance a
decreasing_by exact Memory.distance_lt (by assumption)

theorem cstring_of_nul (h : m.byte a = 0#8) : cstring m a = [] := by
  rw [cstring, if_pos h]

theorem cstring_cons (h : m.byte a ≠ 0#8) :
    cstring m a = m.byte a :: cstring m (a + 1#64) := by
  rw [cstring, if_neg h]

/-- A string that stands in memory with its NUL is found there. -/
theorem cstring_eq_of_bytes {bytes : List Byte} (hnul : 0#8 ∉ bytes)
    (h : ∀ i ≤ bytes.length, m.byte (a + BitVec.ofNat 64 i) = bytes.getD i 0#8) :
    cstring m a = bytes := by
  have hfirst := h 0 (Nat.zero_le _)
  rw [BitVec.add_zero] at hfirst
  induction bytes generalizing a with
  | nil => exact cstring_of_nul hfirst
  | cons b bytes ih =>
    obtain ⟨hb, hbytes⟩ := not_or.mp (mt List.mem_cons.mpr hnul)
    have hbyte : m.byte a = b := hfirst
    have hne : m.byte a ≠ 0#8 := by
      rw [hbyte]
      exact Ne.symm hb
    have hrest : ∀ i ≤ bytes.length,
        m.byte (a + 1#64 + BitVec.ofNat 64 i) = bytes.getD i 0#8 := by
      intro i hi
      rw [add_one_add_ofNat]
      exact h (i + 1) (Nat.succ_le_succ hi)
    have hnext := hrest 0 (Nat.zero_le _)
    rw [BitVec.add_zero] at hnext
    rw [cstring_cons hne, hbyte, ih hbytes hrest hnext]

def terminated (m : Memory) (a : Word) : List Byte := cstring m a ++ [0#8]

theorem terminated_of_nul (h : m.byte a = 0#8) : terminated m a = [0#8] := by
  rw [terminated, cstring_of_nul h, List.nil_append]

theorem terminated_cons (h : m.byte a ≠ 0#8) :
    terminated m a = m.byte a :: terminated m (a + 1#64) := by
  rw [terminated, cstring_cons h, List.cons_append, terminated]

theorem getElem?_terminated (m : Memory) (a : Word) (i : Nat) :
    (terminated m a)[i]? =
      if i ≤ (cstring m a).length then some (m.byte (a + BitVec.ofNat 64 i)) else none := by
  fun_induction cstring m a generalizing i with
  | case1 a hnul =>
    rw [terminated_of_nul hnul]
    cases i with
    | zero => simp [hnul]
    | succ i => simp
  | case2 a hbyte ih =>
    rw [terminated_cons hbyte]
    cases i with
    | zero => simp
    | succ i =>
      rw [List.getElem?_cons_succ, ih, add_one_add_ofNat, List.length_cons]
      simp only [Nat.add_le_add_iff_right]

theorem nul_not_mem_cstring (m : Memory) (a : Word) : 0#8 ∉ cstring m a := by
  fun_induction cstring m a with
  | case1 a hnul => simp
  | case2 a hbyte ih =>
    rw [List.mem_cons, not_or]
    exact ⟨fun hzero => hbyte hzero.symm, ih⟩

theorem length_cstring_lt (m : Memory) (a : Word) : (cstring m a).length < 2 ^ 64 := by
  obtain ⟨z, hz⟩ := m.nul
  by_contra hge
  have hlt : (z - a).toNat < (cstring m a).length :=
    Nat.lt_of_lt_of_le (z - a).isLt (not_lt.mp hge)
  have hbyte := getElem?_terminated m a (z - a).toNat
  rw [if_pos (Nat.le_of_lt hlt), add_ofNat_sub, hz, terminated,
    List.getElem?_append_left hlt] at hbyte
  exact nul_not_mem_cstring m a (List.mem_of_getElem? hbyte)

end Machine
