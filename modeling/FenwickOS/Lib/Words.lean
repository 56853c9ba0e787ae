import Mathlib.Algebra.GroupWithZero.Nat
import Mathlib.Logic.Function.Basic

/-! Bytes and machine words, stores written one cell at a time, and port accesses. -/
namespace Machine

abbrev Byte := BitVec 8
abbrev Word := BitVec 64

def ascii (c : Char) : Byte := BitVec.ofNat 8 c.toNat

/-- Bits 48 to 63 repeat bit 47. -/
def Canonical (v : Word) : Prop := v = (v.setWidth 48).signExtend 64

instance (v : Word) : Decidable (Canonical v) := inferInstanceAs (Decidable (_ = _))

/-- An access to an I/O port, with the byte that went through it. -/
inductive IoEvent
  | outb (port : BitVec 16) (val : Byte)
  | inb (port : BitVec 16) (val : Byte)
  deriving DecidableEq

/-- A character table given by its designated entries; the others are zero. -/
def designated (entries : List (Nat × Char)) (i : Nat) : Byte :=
  ((entries.lookup i).map ascii).getD 0#8

/-! ### Addresses behind an address -/

theorem add_ofNat_add (a : Word) (n k : Nat) :
    a + BitVec.ofNat 64 n + BitVec.ofNat 64 k = a + BitVec.ofNat 64 (n + k) := by
  rw [BitVec.add_assoc, BitVec.ofNat_add]

theorem add_one_add_ofNat (a : Word) (n : Nat) :
    a + 1#64 + BitVec.ofNat 64 n = a + BitVec.ofNat 64 (n + 1) := by
  rw [Nat.add_comm]
  exact add_ofNat_add a 1 n

theorem add_ofNat_sub_toNat (a : Word) {i : Nat} (hi : i < 2 ^ 64) :
    (a + BitVec.ofNat 64 i - a).toNat = i := by
  rw [BitVec.add_comm, BitVec.add_sub_cancel, BitVec.toNat_ofNat, Nat.mod_eq_of_lt hi]

theorem add_ofNat_sub (a x : Word) : a + BitVec.ofNat 64 (x - a).toNat = x := by
  rw [BitVec.ofNat_toNat, BitVec.setWidth_eq, BitVec.add_comm, BitVec.sub_add_cancel]

/-! ### Bits -/

theorem and_not_eq_self {w : Nat} {x m : BitVec w} (h : x &&& m = 0#w) : x &&& ~~~m = x := by
  apply BitVec.eq_of_getLsbD_eq
  intro k hk
  have := congrArg (fun v => BitVec.getLsbD v k) h
  simpa [hk] using this

theorem foldl_update_apply {A I V : Type*} [DecidableEq A] (cell : I → A) (v : V) (cells : List I)
    (store : A → V) (a : A) :
    cells.foldl (fun store i => Function.update store (cell i) v) store a =
      if ∃ i ∈ cells, a = cell i then v else store a := by
  induction cells generalizing store with
  | nil => simp
  | cons i cells ih =>
    rw [List.foldl_cons, ih]
    by_cases hmem : ∃ j ∈ cells, a = cell j
    · simp [hmem]
    · by_cases hi : a = cell i <;> simp [hmem, hi]

theorem foldl_modify_other {A I V : Type*} [DecidableEq A] {cell : I → A} (f : I → V → V)
    {cells : List I} {a : A} (ha : ∀ i ∈ cells, a ≠ cell i) (store : A → V) :
    cells.foldl (fun store i => Function.update store (cell i) (f i (store (cell i)))) store a =
      store a := by
  induction cells generalizing store with
  | nil => rfl
  | cons j cells ih =>
    rw [List.foldl_cons, ih fun i hi => ha i (List.mem_cons_of_mem _ hi)]
    exact Function.update_of_ne (ha j List.mem_cons_self) _ _

/-- A loop that changes distinct cells changes each of them once. -/
theorem foldl_modify_cell {A I V : Type*} [DecidableEq A] {cell : I → A} (f : I → V → V)
    {cells : List I} (hcells : (cells.map cell).Nodup) {i : I} (hi : i ∈ cells) (store : A → V) :
    cells.foldl (fun store i => Function.update store (cell i) (f i (store (cell i)))) store
      (cell i) = f i (store (cell i)) := by
  induction cells generalizing store with
  | nil => simp at hi
  | cons j cells ih =>
    obtain ⟨hfirst, hrest⟩ := List.nodup_cons.mp hcells
    rw [List.foldl_cons]
    rcases List.mem_cons.mp hi with rfl | hi
    · rw [foldl_modify_other f, Function.update_self]
      intro k hk he
      exact hfirst (he ▸ List.mem_map_of_mem hk)
    · rw [ih hrest hi, Function.update_of_ne]
      intro he
      exact hfirst (he ▸ List.mem_map_of_mem hi)

theorem foldl_update_other {A I V : Type*} [DecidableEq A] {cell : I → A} (v : I → V)
    {cells : List I} {a : A} (ha : ∀ i ∈ cells, a ≠ cell i) (store : A → V) :
    cells.foldl (fun store i => Function.update store (cell i) (v i)) store a = store a :=
  foldl_modify_other (fun i _ => v i) ha store

theorem foldl_update_cell {A I V : Type*} [DecidableEq A] {cell : I → A} (v : I → V)
    {cells : List I} (hcells : (cells.map cell).Nodup) {i : I} (hi : i ∈ cells) (store : A → V) :
    cells.foldl (fun store i => Function.update store (cell i) (v i)) store (cell i) = v i :=
  foldl_modify_cell (fun i _ => v i) hcells hi store

/-- The field of `n` bits from bit `k` on, left in its place. -/
theorem toNat_and_field {w : Nat} (e : BitVec w) {k n : Nat} (h : k + n ≤ w) :
    (e &&& BitVec.ofNat w ((2 ^ n - 1) * 2 ^ k)).toNat = e.toNat / 2 ^ k % 2 ^ n * 2 ^ k := by
  have hpow : 2 ^ (k + n) ≤ 2 ^ w := Nat.pow_le_pow_right (by omega) h
  have hmask : (2 ^ n - 1) * 2 ^ k < 2 ^ w := by
    refine Nat.lt_of_lt_of_le ?_ hpow
    rw [Nat.pow_add, Nat.mul_comm]
    exact Nat.mul_lt_mul_of_pos_left (Nat.sub_lt (Nat.two_pow_pos n) (by omega)) (Nat.two_pow_pos k)
  rw [BitVec.toNat_and, BitVec.toNat_ofNat, Nat.mod_eq_of_lt hmask]
  apply Nat.eq_of_testBit_eq
  intro i
  rw [Nat.testBit_and, Nat.testBit_mul_two_pow, Nat.testBit_mul_two_pow,
    Nat.testBit_two_pow_sub_one, Nat.testBit_mod_two_pow, Nat.testBit_div_two_pow]
  by_cases hi : k ≤ i
  · simp [hi, Bool.and_comm]
  · simp [hi]

theorem toNat_or_of_aligned {w : Nat} {x f : BitVec w} {k : Nat} (hx : x.toNat % 2 ^ k = 0)
    (hf : f.toNat < 2 ^ k) : (x ||| f).toNat = x.toNat + f.toNat := by
  have hdiv : x.toNat = 2 ^ k * (x.toNat / 2 ^ k) := by
    have := Nat.div_add_mod x.toNat (2 ^ k)
    omega
  rw [BitVec.toNat_or, hdiv, ← Nat.two_pow_add_eq_or_of_lt hf]

end Machine
