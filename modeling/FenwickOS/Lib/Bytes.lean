import FenwickOS.Lib.Words

/-! Eight-byte words in byte-addressed memory, lowest byte first. -/
namespace Machine

def load64 (m : Word → Byte) (a : Word) : Word :=
  m (a + 7#64) ++ m (a + 6#64) ++ m (a + 5#64) ++ m (a + 4#64) ++ m (a + 3#64) ++ m (a + 2#64) ++
    m (a + 1#64) ++ m a

def store64 (m : Word → Byte) (a v : Word) : Word → Byte := fun x =>
  if (x - a).toNat < 8 then v.extractLsb' (8 * (x - a).toNat) 8 else m x

/-- A store of four bytes, lowest byte first. -/
def store32 (m : Word → Byte) (a : Word) (v : BitVec 32) : Word → Byte := fun x =>
  if (x - a).toNat < 4 then v.extractLsb' (8 * (x - a).toNat) 8 else m x

def store8 (m : Word → Byte) (a : Word) (v : Byte) : Word → Byte := Function.update m a v

/-- The eight-byte words of memory, at the addresses that are multiples of eight. -/
def HoldsWords (m : Word → Byte) (w : Word → Word) : Prop :=
  ∀ a : Word, a.toNat % 8 = 0 → load64 m a = w a

variable {m m' : Word → Byte} {a b v x : Word} {c : Byte}

theorem load64_congr (h : ∀ k : Nat, k < 8 →
    m' (b + BitVec.ofNat 64 k) = m (a + BitVec.ofNat 64 k)) : load64 m' b = load64 m a := by
  have h0 := h 0 (by omega)
  rw [BitVec.add_zero, BitVec.add_zero] at h0
  simp only [load64, h 7 (by omega), h 6 (by omega), h 5 (by omega), h 4 (by omega),
    h 3 (by omega), h 2 (by omega), h 1 (by omega), h0]

theorem store64_of_lt {k : Nat} (hk : k < 8) :
    store64 m a v (a + BitVec.ofNat 64 k) = v.extractLsb' (8 * k) 8 := by
  rw [store64, add_ofNat_sub_toNat a (by omega), if_pos hk]

theorem load64_store64 : load64 (store64 m a v) a = v := by
  have h0 := store64_of_lt (m := m) (a := a) (v := v) (k := 0) (by omega)
  rw [BitVec.add_zero] at h0
  simp only [load64, store64_of_lt (k := 7) (by omega), store64_of_lt (k := 6) (by omega),
    store64_of_lt (k := 5) (by omega), store64_of_lt (k := 4) (by omega),
    store64_of_lt (k := 3) (by omega), store64_of_lt (k := 2) (by omega),
    store64_of_lt (k := 1) (by omega), h0]
  iterate 7 rw [BitVec.extractLsb'_append_extractLsb'_eq_extractLsb' (by rfl)]
  exact BitVec.extractLsb'_eq_self

theorem store64_of_apart (ha : a.toNat + 8 ≤ 2 ^ 64) (h : x.toNat < a.toNat ∨ a.toNat + 8 ≤ x.toNat) :
    store64 m a v x = m x := by
  have hx := x.isLt
  have hsub : ¬ (x - a).toNat < 8 := by
    rw [BitVec.toNat_sub]
    omega
  rw [store64, if_neg hsub]

theorem load64_of_eq (hb : b.toNat + 8 ≤ 2 ^ 64)
    (h : ∀ x : Word, b.toNat ≤ x.toNat → x.toNat < b.toNat + 8 → m' x = m x) :
    load64 m' b = load64 m b := by
  refine load64_congr fun k hk => h _ ?_ ?_ <;>
  · rw [BitVec.toNat_add, BitVec.toNat_ofNat]
    omega

theorem load64_store64_of_apart (ha : a.toNat + 8 ≤ 2 ^ 64) (hb : b.toNat + 8 ≤ 2 ^ 64)
    (h : a.toNat + 8 ≤ b.toNat ∨ b.toNat + 8 ≤ a.toNat) :
    load64 (store64 m a v) b = load64 m b :=
  load64_of_eq hb fun _ hlo hhi => store64_of_apart ha (by omega)

theorem load64_store8_of_apart (hb : b.toNat + 8 ≤ 2 ^ 64)
    (h : a.toNat < b.toNat ∨ b.toNat + 8 ≤ a.toNat) :
    load64 (store8 m a c) b = load64 m b := by
  refine load64_of_eq hb fun x hlo hhi => Function.update_of_ne ?_ _ _
  rintro rfl
  omega

/-! ### Halves of words -/

theorem append_eq_zero {v w : Nat} {x : BitVec v} {y : BitVec w} :
    x ++ y = 0#(v + w) ↔ x = 0#v ∧ y = 0#w := by
  rw [← BitVec.toNat_inj, BitVec.toNat_append, BitVec.toNat_ofNat, Nat.zero_mod, Nat.or_eq_zero_iff,
    Nat.shiftLeft_eq_zero_iff, ← BitVec.toNat_inj, ← BitVec.toNat_inj]
  simp

/-- A word is zero exactly if its bytes are. -/
theorem load64_eq_zero_iff :
    load64 m a = 0#64 ↔ ∀ k : Nat, k < 8 → m (a + BitVec.ofNat 64 k) = 0#8 := by
  have h0 : a + BitVec.ofNat 64 0 = a := BitVec.add_zero a
  rw [load64]
  iterate 7 rw [append_eq_zero]
  constructor
  · rintro ⟨⟨⟨⟨⟨⟨⟨h7, h6⟩, h5⟩, h4⟩, h3⟩, h2⟩, h1⟩, h0'⟩ k hk
    obtain rfl | rfl | rfl | rfl | rfl | rfl | rfl | rfl :
      k = 0 ∨ k = 1 ∨ k = 2 ∨ k = 3 ∨ k = 4 ∨ k = 5 ∨ k = 6 ∨ k = 7 := by omega
    · rwa [h0]
    all_goals assumption
  · intro h
    have h0' := h 0 (by omega)
    rw [h0] at h0'
    exact ⟨⟨⟨⟨⟨⟨⟨h 7 (by omega), h 6 (by omega)⟩, h 5 (by omega)⟩, h 4 (by omega)⟩, h 3 (by omega)⟩,
      h 2 (by omega)⟩, h 1 (by omega)⟩, h0'⟩

theorem extractLsb'_setWidth (v : BitVec 32) {k : Nat} (hk : k + 8 ≤ 64) :
    (v.setWidth 64).extractLsb' k 8 = v.extractLsb' k 8 := by
  apply BitVec.eq_of_getLsbD_eq
  intro i hi
  have hlt : k + i < 64 := by omega
  simp [hlt]

theorem extractLsb'_of_le (v : BitVec 32) {k : Nat} (hk : 32 ≤ k) : v.extractLsb' k 8 = 0#8 := by
  apply BitVec.eq_of_getLsbD_eq
  intro i hi
  simp [BitVec.getLsbD_of_ge v (k + i) (by omega)]

/-- Where a word is zero, storing its lower half stores it whole. -/
theorem store32_eq_store64 (h : load64 m a = 0#64) (v : BitVec 32) :
    store32 m a v = store64 m a (v.setWidth 64) := by
  funext x
  rw [store32, store64]
  by_cases hlow : (x - a).toNat < 4
  · rw [if_pos hlow, if_pos (by omega), extractLsb'_setWidth v (by omega)]
  · rw [if_neg hlow]
    split
    · rename_i hhigh
      have hzero := load64_eq_zero_iff.mp h _ hhigh
      rw [add_ofNat_sub] at hzero
      rw [hzero, extractLsb'_setWidth v (by omega), extractLsb'_of_le v (by omega)]
    · rfl

theorem HoldsWords.store32 {w : Word → Word} (h : HoldsWords m w) (ha : a.toNat % 8 = 0)
    (hz : w a = 0#64) (v : BitVec 32) :
    HoldsWords (store32 m a v) (Function.update w a (v.setWidth 64)) := by
  intro b hb
  rw [store32_eq_store64 ((h a ha).trans hz)]
  by_cases hab : b = a
  · rw [hab, load64_store64, Function.update_self]
  · have hne : b.toNat ≠ a.toNat := fun he => hab (BitVec.eq_of_toNat_eq he)
    have hlta := a.isLt
    have hltb := b.isLt
    rw [load64_store64_of_apart (by omega) (by omega) (by omega), Function.update_of_ne hab, h b hb]

/-! ### Four bytes -/

def load32 (m : Word → Byte) (a : Word) : BitVec 32 :=
  m (a + 3#64) ++ m (a + 2#64) ++ m (a + 1#64) ++ m a

theorem load32_congr (h : ∀ k : Nat, k < 4 →
    m' (b + BitVec.ofNat 64 k) = m (a + BitVec.ofNat 64 k)) : load32 m' b = load32 m a := by
  have h0 := h 0 (by omega)
  rw [BitVec.add_zero, BitVec.add_zero] at h0
  simp only [load32, h 3 (by omega), h 2 (by omega), h 1 (by omega), h0]

theorem store32_of_lt (m : Word → Byte) (a : Word) (v : BitVec 32) {k : Nat} (hk : k < 4) :
    store32 m a v (a + BitVec.ofNat 64 k) = v.extractLsb' (8 * k) 8 := by
  rw [store32, add_ofNat_sub_toNat a (by omega), if_pos hk]

theorem load32_store32 (m : Word → Byte) (a : Word) (v : BitVec 32) :
    load32 (store32 m a v) a = v := by
  have h0 := store32_of_lt m a v (k := 0) (by omega)
  rw [BitVec.add_zero] at h0
  simp only [load32, store32_of_lt m a v (k := 3) (by omega),
    store32_of_lt m a v (k := 2) (by omega), store32_of_lt m a v (k := 1) (by omega), h0]
  iterate 3 rw [BitVec.extractLsb'_append_extractLsb'_eq_extractLsb' (by rfl)]
  exact BitVec.extractLsb'_eq_self

theorem store32_of_apart (m : Word → Byte) (v : BitVec 32) (ha : a.toNat + 4 ≤ 2 ^ 64)
    (h : x.toNat < a.toNat ∨ a.toNat + 4 ≤ x.toNat) : store32 m a v x = m x := by
  have hx := x.isLt
  have hsub : ¬ (x - a).toNat < 4 := by
    rw [BitVec.toNat_sub]
    omega
  rw [store32, if_neg hsub]

theorem load64_byte (m : Word → Byte) (a : Word) {k : Nat} (hk : k < 8) :
    (load64 m a).extractLsb' (8 * k) 8 = m (a + BitVec.ofNat 64 k) := by
  have hbyte (j : Nat) (hj : j < 8) :
      (load64 m a).getLsbD (8 * k + j) = (m (a + BitVec.ofNat 64 k)).getLsbD j := by
    obtain rfl | rfl | rfl | rfl | rfl | rfl | rfl | rfl :
      k = 0 ∨ k = 1 ∨ k = 2 ∨ k = 3 ∨ k = 4 ∨ k = 5 ∨ k = 6 ∨ k = 7 := by omega
    all_goals
      simp only [load64, BitVec.getLsbD_append, BitVec.add_zero]
      grind
  apply BitVec.eq_of_getLsbD_eq
  intro j hj
  simp only [BitVec.getLsbD_extractLsb', hj, decide_true, Bool.true_and]
  exact hbyte j hj

theorem HoldsWords.byte {w : Word → Word} (h : HoldsWords m w) (x : Word) :
    m x = (w (BitVec.ofNat 64 (x.toNat / 8 * 8))).extractLsb' (8 * (x.toNat % 8)) 8 := by
  have hx := x.isLt
  have haligned : (BitVec.ofNat 64 (x.toNat / 8 * 8) : Word).toNat = x.toNat / 8 * 8 := by
    rw [BitVec.toNat_ofNat]
    omega
  have haddr : (BitVec.ofNat 64 (x.toNat / 8 * 8) : Word) + BitVec.ofNat 64 (x.toNat % 8) = x := by
    apply BitVec.eq_of_toNat_eq
    rw [BitVec.toNat_add, haligned, BitVec.toNat_ofNat]
    omega
  rw [← h _ (by rw [haligned]; omega), load64_byte m _ (by omega), haddr]

end Machine
