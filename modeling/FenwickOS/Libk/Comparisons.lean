import FenwickOS.Lib.Buffers

/-! The comparison functions of lib/libk/src/string.rs. -/
namespace FenwickOS.Libk
open Machine

/-- The result of a comparison and the addresses read through its two pointers. -/
structure Compared where
  result : Int
  reads1 : List Word
  reads2 : List Word

def Compared.after (s1 s2 : Word) (c : Compared) : Compared :=
  { c with reads1 := s1 :: c.reads1, reads2 := s2 :: c.reads2 }

/-- The loop of `kmemcmp` with `rounds` left from position `i` on. -/
def kmemcmpFrom (mem : Word → Byte) (s1 s2 : Word) : (rounds : Nat) → (i : Word) → Compared
  | 0, _ => ⟨0, [], []⟩
  | rounds + 1, i =>
    if mem (s1 + i) ≠ mem (s2 + i) then
      ⟨(mem (s1 + i)).toNat - (mem (s2 + i)).toNat, [s1 + i], [s2 + i]⟩
    else (kmemcmpFrom mem s1 s2 rounds (i + 1#64)).after (s1 + i) (s2 + i)

def kmemcmp (mem : Word → Byte) (s1 s2 n : Word) : Compared := kmemcmpFrom mem s1 s2 n.toNat 0#64

def kstrcmp (m : Memory) (s1 s2 : Word) : Compared :=
  if m.byte s1 ≠ m.byte s2 then ⟨(m.byte s1).toNat - (m.byte s2).toNat, [s1], [s2]⟩
  else if m.byte s1 = 0#8 then ⟨0, [s1], [s2]⟩
  else (kstrcmp m (s1 + 1#64) (s2 + 1#64)).after s1 s2
termination_by m.distance s1
decreasing_by exact Memory.distance_lt (by assumption)

/-- The loop of `kstrncmp` with `rounds` left from position `i` on. -/
def kstrncmpFrom (mem : Word → Byte) (s1 s2 : Word) : (rounds : Nat) → (i : Word) → Compared
  | 0, _ => ⟨0, [], []⟩
  | rounds + 1, i =>
    if mem (s1 + i) ≠ mem (s2 + i) then
      ⟨(mem (s1 + i)).toNat - (mem (s2 + i)).toNat, [s1 + i], [s2 + i]⟩
    else if mem (s1 + i) = 0#8 then ⟨0, [s1 + i], [s2 + i]⟩
    else (kstrncmpFrom mem s1 s2 rounds (i + 1#64)).after (s1 + i) (s2 + i)

def kstrncmp (mem : Word → Byte) (s1 s2 n : Word) : Compared :=
  kstrncmpFrom mem s1 s2 n.toNat 0#64

variable {s1 s2 : Word}

/-! ### Results -/

theorem kmemcmpFrom_result (mem : Word → Byte) (s1 s2 : Word) (rounds : Nat) (i : Word) :
    (kmemcmpFrom mem s1 s2 rounds i).result =
      firstDifference (bytesAt mem (s1 + i) rounds) (bytesAt mem (s2 + i) rounds) := by
  induction rounds generalizing i with
  | zero => rfl
  | succ rounds ih =>
    rw [kmemcmpFrom, bytesAt_cons, bytesAt_cons, firstDifference]
    by_cases hbyte : mem (s1 + i) = mem (s2 + i)
    · rw [if_neg (not_not.mpr hbyte), if_pos hbyte, Compared.after]
      rw [ih, BitVec.add_assoc, BitVec.add_assoc]
    · rw [if_pos hbyte, if_neg hbyte]

theorem kmemcmp_result (mem : Word → Byte) (s1 s2 n : Word) :
    (kmemcmp mem s1 s2 n).result =
      firstDifference (bytesAt mem s1 n.toNat) (bytesAt mem s2 n.toNat) := by
  rw [kmemcmp, kmemcmpFrom_result, BitVec.add_zero, BitVec.add_zero]

theorem kstrncmpFrom_result (mem : Word → Byte) (s1 s2 : Word) (rounds : Nat) (i : Word) :
    (kstrncmpFrom mem s1 s2 rounds i).result =
      firstDifference (upToNul (bytesAt mem (s1 + i) rounds))
        (upToNul (bytesAt mem (s2 + i) rounds)) := by
  induction rounds generalizing i with
  | zero => rfl
  | succ rounds ih =>
    rw [kstrncmpFrom, bytesAt_cons, bytesAt_cons, firstDifference_upToNul_cons]
    by_cases hbyte : mem (s1 + i) = mem (s2 + i)
    · rw [if_neg (not_not.mpr hbyte), if_pos hbyte]
      split
      · rfl
      · rw [Compared.after]
        rw [ih, BitVec.add_assoc, BitVec.add_assoc]
    · rw [if_pos hbyte, if_neg hbyte]

theorem kstrncmp_result (mem : Word → Byte) (s1 s2 n : Word) :
    (kstrncmp mem s1 s2 n).result =
      firstDifference (upToNul (bytesAt mem s1 n.toNat)) (upToNul (bytesAt mem s2 n.toNat)) := by
  rw [kstrncmp, kstrncmpFrom_result, BitVec.add_zero, BitVec.add_zero]

theorem kstrcmp_result (m : Memory) (s1 s2 : Word) :
    (kstrcmp m s1 s2).result = firstDifference (cstring m s1) (cstring m s2) := by
  fun_induction kstrcmp m s1 s2 with
  | case1 s1 s2 hbyte =>
    rw [cstring_eq_upToNul m s1, cstring_eq_upToNul m s2, firstDifference_upToNul_cons,
      if_neg hbyte]
  | case2 s1 s2 hbyte hnul =>
    rw [cstring_eq_upToNul m s1, cstring_eq_upToNul m s2, firstDifference_upToNul_cons,
      if_pos (not_not.mp hbyte), if_pos hnul]
  | case3 s1 s2 hbyte hnul ih =>
    rw [cstring_eq_upToNul m s1, cstring_eq_upToNul m s2, firstDifference_upToNul_cons,
      if_pos (not_not.mp hbyte), if_neg hnul, upToNul_of_nul_free (nul_not_mem_cstring m _),
      upToNul_of_nul_free (nul_not_mem_cstring m _)]
    exact ih

/-! ### Reads -/

/-- Nothing is read but `k1` bytes from `s1` on and `k2` bytes from `s2` on. -/
structure ReadsWithin (c : Compared) (s1 : Word) (k1 : Nat) (s2 : Word) (k2 : Nat) : Prop where
  first : ∀ x ∈ c.reads1, x ∈ addressesAt s1 k1
  second : ∀ x ∈ c.reads2, x ∈ addressesAt s2 k2

theorem readsWithin_one (n : Int) (s1 : Word) (k1 : Nat) (s2 : Word) (k2 : Nat) :
    ReadsWithin ⟨n, [s1], [s2]⟩ s1 (k1 + 1) s2 (k2 + 1) := by
  have hself (s : Word) (k : Nat) : ∀ x ∈ [s], x ∈ addressesAt s (k + 1) := by
    intro x hx
    rw [List.mem_singleton.mp hx, addressesAt_cons]
    exact List.mem_cons_self
  exact ⟨hself s1 k1, hself s2 k2⟩

theorem ReadsWithin.after {c : Compared} {k1 k2 : Nat}
    (h : ReadsWithin c (s1 + 1#64) k1 (s2 + 1#64) k2) :
    ReadsWithin (c.after s1 s2) s1 (k1 + 1) s2 (k2 + 1) := by
  have hcons (s : Word) (k : Nat) (reads : List Word)
      (hreads : ∀ x ∈ reads, x ∈ addressesAt (s + 1#64) k) :
      ∀ x ∈ s :: reads, x ∈ addressesAt s (k + 1) := by
    intro x hx
    rw [addressesAt_cons]
    exact List.mem_cons.mpr ((List.mem_cons.mp hx).imp_right (hreads x))
  exact ⟨hcons s1 k1 _ h.first, hcons s2 k2 _ h.second⟩

theorem kmemcmpFrom_reads (mem : Word → Byte) (s1 s2 : Word) (rounds : Nat) (i : Word) :
    ReadsWithin (kmemcmpFrom mem s1 s2 rounds i) (s1 + i) rounds (s2 + i) rounds := by
  induction rounds generalizing i with
  | zero => exact ⟨by simp [kmemcmpFrom], by simp [kmemcmpFrom]⟩
  | succ rounds ih =>
    rw [kmemcmpFrom]
    split
    · exact readsWithin_one _ _ _ _ _
    · have hrest := ih (i + 1#64)
      rw [← BitVec.add_assoc, ← BitVec.add_assoc] at hrest
      exact hrest.after

theorem kstrcmp_reads (m : Memory) (s1 s2 : Word) :
    ReadsWithin (kstrcmp m s1 s2) s1 ((cstring m s1).length + 1) s2
      ((cstring m s2).length + 1) := by
  fun_induction kstrcmp m s1 s2 with
  | case1 s1 s2 hbyte => exact readsWithin_one _ _ _ _ _
  | case2 s1 s2 hbyte hnul => exact readsWithin_one _ _ _ _ _
  | case3 s1 s2 hbyte hnul ih =>
    have hnul2 : m.byte s2 ≠ 0#8 := not_not.mp hbyte ▸ hnul
    rw [cstring_cons hnul, cstring_cons hnul2, List.length_cons, List.length_cons]
    exact ih.after

theorem kstrncmpFrom_reads (m : Memory) (s1 s2 : Word) (rounds : Nat) (i : Word) :
    ReadsWithin (kstrncmpFrom m.byte s1 s2 rounds i)
      (s1 + i) (min rounds ((cstring m (s1 + i)).length + 1))
      (s2 + i) (min rounds ((cstring m (s2 + i)).length + 1)) := by
  induction rounds generalizing i with
  | zero => exact ⟨by simp [kstrncmpFrom], by simp [kstrncmpFrom]⟩
  | succ rounds ih =>
    rw [kstrncmpFrom, Nat.add_min_add_right, Nat.add_min_add_right]
    split
    · exact readsWithin_one _ _ _ _ _
    · rename_i hbyte
      split
      · exact readsWithin_one _ _ _ _ _
      · rename_i hnul
        have hnul2 : m.byte (s2 + i) ≠ 0#8 := not_not.mp hbyte ▸ hnul
        have hrest := ih (i + 1#64)
        rw [← BitVec.add_assoc, ← BitVec.add_assoc] at hrest
        rw [cstring_cons hnul, cstring_cons hnul2, List.length_cons, List.length_cons]
        exact hrest.after

/-! ### One order -/

/-- Strings compare in lexicographic order, as far as `kstrncmp` is told to look. -/
structure StringOrder (m : Memory) : Prop where
  strcmp_value : ∀ a b, (kstrcmp m a b).result = firstDifference (cstring m a) (cstring m b)
  strcmp_orders : ∀ a b, OrdersAs (kstrcmp m a b).result (cstring m a) (cstring m b)
  antisymmetric : ∀ a b, (kstrcmp m b a).result = -(kstrcmp m a b).result
  transitive : ∀ a b c, (kstrcmp m a b).result ≤ 0 → (kstrcmp m b c).result ≤ 0 →
    (kstrcmp m a c).result ≤ 0
  strncmp_value : ∀ a b (n : Word), (kstrncmp m.byte a b n).result =
    firstDifference ((cstring m a).take n.toNat) ((cstring m b).take n.toNat)
  prefixes : ∀ a b (n : Word) (m' : Memory) a' b', cstring m' a' = (cstring m a).take n.toNat →
    cstring m' b' = (cstring m b).take n.toNat →
    (kstrncmp m.byte a b n).result = (kstrcmp m' a' b').result
  strcmp_reads : ∀ a b, ReadsWithin (kstrcmp m a b) a ((cstring m a).length + 1) b
    ((cstring m b).length + 1)
  strncmp_reads : ∀ a b (n : Word), ReadsWithin (kstrncmp m.byte a b n)
    a (min n.toNat ((cstring m a).length + 1)) b (min n.toNat ((cstring m b).length + 1))

/-- Buffers compare in the same order, and as strings do unless a NUL in both hides where they
differ. -/
structure BufferOrder (mem : Word → Byte) : Prop where
  memcmp_orders : ∀ x y (n : Word),
    OrdersAs (kmemcmp mem x y n).result (bytesAt mem x n.toNat) (bytesAt mem y n.toNat)
  strncmp : ∀ x y (n : Word), DifferBeforeNul (bytesAt mem x n.toNat) (bytesAt mem y n.toNat) →
    (kmemcmp mem x y n).result = (kstrncmp mem x y n).result
  memcmp_reads : ∀ x y (n : Word), ReadsWithin (kmemcmp mem x y n) x n.toNat y n.toNat

theorem kstrcmp_orders (m : Memory) (a b : Word) :
    OrdersAs (kstrcmp m a b).result (cstring m a) (cstring m b) := by
  rw [kstrcmp_result]
  exact ordersAs_firstDifference (Or.inl ⟨nul_not_mem_cstring m a, nul_not_mem_cstring m b⟩)

theorem kstrncmp_strings (m : Memory) (a b n : Word) : (kstrncmp m.byte a b n).result =
    firstDifference ((cstring m a).take n.toNat) ((cstring m b).take n.toNat) := by
  rw [kstrncmp_result, upToNul_bytesAt, upToNul_bytesAt]

theorem stringOrder (m : Memory) : StringOrder m where
  strcmp_value := kstrcmp_result m
  strcmp_orders := kstrcmp_orders m
  antisymmetric a b := by rw [kstrcmp_result, kstrcmp_result, firstDifference_comm]
  transitive a b c hab hbc := by
    rw [(kstrcmp_orders m a b).le_iff] at hab
    rw [(kstrcmp_orders m b c).le_iff] at hbc
    rw [(kstrcmp_orders m a c).le_iff]
    exact List.le_trans hab hbc
  strncmp_value := kstrncmp_strings m
  prefixes a b n m' a' b' ha hb := by rw [kstrncmp_strings, kstrcmp_result, ha, hb]
  strcmp_reads := kstrcmp_reads m
  strncmp_reads a b n := by
    have hreads := kstrncmpFrom_reads m a b n.toNat 0#64
    rwa [BitVec.add_zero, BitVec.add_zero] at hreads

theorem bufferOrder (mem : Word → Byte) : BufferOrder mem where
  memcmp_orders x y n := by
    rw [kmemcmp_result]
    exact ordersAs_firstDifference (Or.inr (by rw [length_bytesAt, length_bytesAt]))
  strncmp x y n h := by
    rw [kmemcmp_result, kstrncmp_result, firstDifference_upToNul _ h]
    rw [length_bytesAt, length_bytesAt]
  memcmp_reads x y n := by
    have hreads := kmemcmpFrom_reads mem x y n.toNat 0#64
    rwa [BitVec.add_zero, BitVec.add_zero] at hreads

/-- The three functions compare by one order. -/
theorem comparisons_order (m : Memory) (mem : Word → Byte) : StringOrder m ∧ BufferOrder mem :=
  ⟨stringOrder m, bufferOrder mem⟩

end FenwickOS.Libk
