import FenwickOS.Lib.ByteOrder
import FenwickOS.Lib.CString

/-! Runs of bytes in memory: what stands there, what a string is, and writing them. -/
namespace Machine

variable {m : Memory} {mem mem' : Word → Byte} {a b x : Word} {xs ys : List Byte} {i k n : Nat}
  {c : Byte}

def addressesAt (a : Word) (n : Nat) : List Word :=
  (List.range n).map fun i => a + BitVec.ofNat 64 i

def bytesAt (mem : Word → Byte) (a : Word) (n : Nat) : List Byte := (addressesAt a n).map mem

def writeBytes (mem : Word → Byte) (a : Word) (xs : List Byte) (x : Word) : Byte :=
  (xs[(x - a).toNat]?).getD (mem x)

/-- The string at `a` is `xs`. -/
structure StringAt (mem : Word → Byte) (a : Word) (xs : List Byte) : Prop where
  bytes : bytesAt mem a (xs.length + 1) = xs ++ [0#8]
  nul_free : 0#8 ∉ xs

/-- None of the `n` bytes from `a` on is one of the `k` bytes from `b` on. -/
def Apart (a : Word) (n : Nat) (b : Word) (k : Nat) : Prop :=
  ∀ i < n, ∀ j < k, a + BitVec.ofNat 64 i ≠ b + BitVec.ofNat 64 j

theorem mem_addressesAt : x ∈ addressesAt a n ↔ ∃ i < n, a + BitVec.ofNat 64 i = x := by
  simp [addressesAt]

@[simp] theorem length_addressesAt : (addressesAt a n).length = n := by simp [addressesAt]

theorem addressesAt_append (a : Word) (n k : Nat) :
    addressesAt a (n + k) = addressesAt a n ++ addressesAt (a + BitVec.ofNat 64 n) k := by
  rw [addressesAt, List.range_add, List.map_append, List.map_map]
  refine congrArg (addressesAt a n ++ ·) (List.map_congr_left fun i _ => ?_)
  rw [Function.comp_apply, add_ofNat_add]

theorem addressesAt_snoc (a : Word) (n : Nat) :
    addressesAt a (n + 1) = addressesAt a n ++ [a + BitVec.ofNat 64 n] := by
  rw [addressesAt_append]
  simp [addressesAt]

theorem addressesAt_cons (a : Word) (n : Nat) :
    addressesAt a (n + 1) = a :: addressesAt (a + 1#64) n := by
  rw [Nat.add_comm, addressesAt_append]
  simp [addressesAt]

@[simp] theorem length_bytesAt : (bytesAt mem a n).length = n := by simp [bytesAt]

theorem bytesAt_cons (mem : Word → Byte) (a : Word) (n : Nat) :
    bytesAt mem a (n + 1) = mem a :: bytesAt mem (a + 1#64) n := by
  rw [bytesAt, addressesAt_cons, List.map_cons, bytesAt]

theorem getElem_bytesAt (h : i < (bytesAt mem a n).length) :
    (bytesAt mem a n)[i] = mem (a + BitVec.ofNat 64 i) := by
  simp [bytesAt, addressesAt]

theorem bytesAt_congr (h : ∀ i < n, mem' (a + BitVec.ofNat 64 i) = mem (a + BitVec.ofNat 64 i)) :
    bytesAt mem' a n = bytesAt mem a n := by
  refine List.map_congr_left fun x hx => ?_
  obtain ⟨i, hi, rfl⟩ := mem_addressesAt.mp hx
  exact h i hi

theorem bytesAt_append (mem : Word → Byte) (a : Word) (n k : Nat) :
    bytesAt mem a (n + k) = bytesAt mem a n ++ bytesAt mem (a + BitVec.ofNat 64 n) k := by
  rw [bytesAt, addressesAt_append, List.map_append]
  rfl

/-! ### Strings -/

theorem bytesAt_terminated (m : Memory) (a : Word) :
    bytesAt m.byte a ((cstring m a).length + 1) = terminated m a := by
  fun_induction cstring m a with
  | case1 a hnul =>
    rw [bytesAt_cons, terminated_of_nul hnul, hnul]
    rfl
  | case2 a hbyte ih => rw [List.length_cons, bytesAt_cons, ih, terminated_cons hbyte]

theorem bytesAt_cstring (m : Memory) (a : Word) :
    bytesAt m.byte a (cstring m a).length = cstring m a := by
  have hbytes := bytesAt_terminated m a
  rw [bytesAt_append] at hbytes
  exact (List.append_inj hbytes length_bytesAt).1

theorem cstring_eq_upToNul (m : Memory) (a : Word) :
    cstring m a = upToNul (m.byte a :: cstring m (a + 1#64)) := by
  by_cases hbyte : m.byte a = 0#8
  · rw [hbyte, upToNul_nul, cstring_of_nul hbyte]
  · rw [upToNul_cons hbyte, upToNul_of_nul_free (nul_not_mem_cstring m _), cstring_cons hbyte]

theorem upToNul_bytesAt (m : Memory) (a : Word) (n : Nat) :
    upToNul (bytesAt m.byte a n) = (cstring m a).take n := by
  induction n generalizing a with
  | zero => rfl
  | succ n ih =>
    rw [bytesAt_cons]
    by_cases hbyte : m.byte a = 0#8
    · rw [hbyte, upToNul_nul, cstring_of_nul hbyte, List.take_nil]
    · rw [upToNul_cons hbyte, ih, cstring_cons hbyte, List.take_succ_cons]

/-! ### Writing -/

@[simp] theorem writeBytes_nil (mem : Word → Byte) (a : Word) : writeBytes mem a [] = mem := by
  funext x
  simp [writeBytes]

theorem writeBytes_of_lt (hi : i < xs.length) (hlen : xs.length ≤ 2 ^ 64) :
    writeBytes mem a xs (a + BitVec.ofNat 64 i) = xs[i] := by
  rw [writeBytes, add_ofNat_sub_toNat a (Nat.lt_of_lt_of_le hi hlen), List.getElem?_eq_getElem hi,
    Option.getD_some]

theorem writeBytes_other (h : ∀ i < xs.length, x ≠ a + BitVec.ofNat 64 i) :
    writeBytes mem a xs x = mem x := by
  rw [writeBytes, List.getElem?_eq_none, Option.getD_none]
  by_contra hlt
  exact h _ (not_le.mp hlt) (add_ofNat_sub a x).symm

theorem writeBytes_snoc (hlen : xs.length < 2 ^ 64) :
    writeBytes mem a (xs ++ [c]) =
      Function.update (writeBytes mem a xs) (a + BitVec.ofNat 64 xs.length) c := by
  funext x
  by_cases hx : x = a + BitVec.ofNat 64 xs.length
  · subst hx
    rw [Function.update_self, writeBytes_of_lt (by simp) (by rw [List.length_append]; exact hlen),
      List.getElem_concat_length rfl]
  · have hidx : (x - a).toNat ≠ xs.length := by
      intro he
      rw [← he, add_ofNat_sub] at hx
      exact hx rfl
    rw [Function.update_of_ne hx, writeBytes, writeBytes]
    rcases Nat.lt_or_gt_of_ne hidx with hlt | hgt
    · rw [List.getElem?_append_left hlt]
    · rw [List.getElem?_eq_none (by rw [List.length_append]; exact hgt),
        List.getElem?_eq_none (Nat.le_of_lt hgt)]

theorem bytesAt_writeBytes (hlen : xs.length ≤ 2 ^ 64) :
    bytesAt (writeBytes mem a xs) a xs.length = xs := by
  refine List.ext_getElem length_bytesAt fun i hi hi' => ?_
  rw [getElem_bytesAt, writeBytes_of_lt hi' hlen]

theorem Apart.lt (h : Apart a n b k) (hn : 0 < n) : k < 2 ^ 64 := by
  by_contra hge
  refine h 0 hn (a - b).toNat (Nat.lt_of_lt_of_le (a - b).isLt (not_lt.mp hge)) ?_
  rw [add_ofNat_sub]
  exact BitVec.add_zero a

theorem Apart.behind {l : Nat} (h : Apart a n b (l + k)) (hn : n ≤ k) :
    ∀ i < n, ∀ j < i, a + BitVec.ofNat 64 i ≠ b + BitVec.ofNat 64 l + BitVec.ofNat 64 j := by
  intro i hi j hj
  rw [add_ofNat_add]
  exact h i hi (l + j) (by omega)

theorem stringAt_writeBytes (hxs : bytesAt mem a xs.length = xs) (hx : 0#8 ∉ xs) (hy : 0#8 ∉ ys)
    (hlen : xs.length + ys.length < 2 ^ 64) :
    StringAt (writeBytes mem (a + BitVec.ofNat 64 xs.length) (ys ++ [0#8])) a (xs ++ ys) := by
  have hsize : (ys ++ [0#8]).length = ys.length + 1 := by simp
  refine ⟨?_, ?_⟩
  · have hfirst : bytesAt (writeBytes mem (a + BitVec.ofNat 64 xs.length) (ys ++ [0#8])) a
        xs.length = bytesAt mem a xs.length := by
      refine bytesAt_congr fun i hi => writeBytes_other fun j hj he => ?_
      rw [add_ofNat_add] at he
      have hnat := congrArg (fun x => (x - a).toNat) he
      rw [add_ofNat_sub_toNat a (by omega), add_ofNat_sub_toNat a (by omega)] at hnat
      omega
    have hnew : bytesAt (writeBytes mem (a + BitVec.ofNat 64 xs.length) (ys ++ [0#8]))
        (a + BitVec.ofNat 64 xs.length) (ys ++ [0#8]).length = ys ++ [0#8] :=
      bytesAt_writeBytes (by omega)
    rw [hsize] at hnew
    rw [List.length_append, Nat.add_assoc, bytesAt_append, hfirst, hxs, hnew, List.append_assoc]
  · rw [List.mem_append]
    exact not_or.mpr ⟨hx, hy⟩

theorem StringAt.byte_eq (h : StringAt mem a xs) (hi : i ≤ xs.length) :
    mem (a + BitVec.ofNat 64 i) = (xs ++ [0#8]).getD i 0#8 := by
  have hlen : i < (bytesAt mem a (xs.length + 1)).length := by
    rw [length_bytesAt]
    omega
  rw [← getElem_bytesAt hlen, List.getD_eq_getElem?_getD, ← h.bytes, List.getElem?_eq_getElem hlen,
    Option.getD_some]

def StringAt.memory (h : StringAt mem a xs) : Memory where
  byte := mem
  nul := by
    have hlast : (0#8 : Byte) ∈ bytesAt mem a (xs.length + 1) := by
      rw [h.bytes]
      exact List.mem_append_right _ (List.mem_singleton_self _)
    obtain ⟨x, -, hx⟩ := List.mem_map.mp hlast
    exact ⟨x, hx⟩

/-- What stands in memory as a string is read as that string. -/
theorem StringAt.cstring_eq (h : StringAt m.byte a xs) : cstring m a = xs := by
  refine cstring_eq_of_bytes h.nul_free fun i hi => ?_
  rw [h.byte_eq hi]
  rcases Nat.lt_or_eq_of_le hi with hlt | rfl
  · simp [List.getElem?_append_left hlt]
  · simp

theorem stringAt_iff_behind (hxs : bytesAt mem a xs.length = xs) (hnul : 0#8 ∉ xs) :
    StringAt mem a ys ↔ ∃ zs, ys = xs ++ zs ∧ StringAt mem (a + BitVec.ofNat 64 xs.length) zs := by
  constructor
  · intro h
    have hlen : xs.length ≤ ys.length := by
      by_contra hshort
      have hlast : mem (a + BitVec.ofNat 64 ys.length) = 0#8 := by
        rw [h.byte_eq (Nat.le_refl _)]
        simp
      have hmem : mem (a + BitVec.ofNat 64 ys.length) ∈ bytesAt mem a xs.length :=
        List.mem_map_of_mem (mem_addressesAt.mpr ⟨ys.length, by omega, rfl⟩)
      rw [hxs, hlast] at hmem
      exact hnul hmem
    have hbytes := h.bytes
    have hsplit : ys.length + 1 = xs.length + (ys.length - xs.length + 1) := by omega
    have htake : ys.take xs.length = xs := by
      have hfirst := congrArg (List.take xs.length) hbytes
      rw [hsplit, bytesAt_append, hxs, List.take_left, List.take_append_of_le_length hlen] at hfirst
      exact hfirst.symm
    have hys : ys = xs ++ ys.drop xs.length := by
      have happend := List.take_append_drop xs.length ys
      rw [htake] at happend
      exact happend.symm
    refine ⟨ys.drop xs.length, hys, ?_, fun hmem => h.nul_free (List.mem_of_mem_drop hmem)⟩
    rw [List.length_drop]
    rw [hsplit, bytesAt_append, hxs] at hbytes
    have hrest : xs ++ (ys.drop xs.length ++ [0#8]) = ys ++ [0#8] := by
      rw [← List.append_assoc, ← hys]
    rw [← hrest] at hbytes
    exact List.append_cancel_left hbytes
  · rintro ⟨zs, rfl, h⟩
    refine ⟨?_, ?_⟩
    · rw [List.length_append, Nat.add_assoc, bytesAt_append, hxs, h.bytes, List.append_assoc]
    · rw [List.mem_append]
      exact not_or.mpr ⟨hnul, h.nul_free⟩

end Machine
