import FenwickOS.Libk.Comparisons
import FenwickOS.Libk.Copies

/-! `kstrncpy`, `kmemcpy` and `kmemset` of lib/libk/src/string.rs, and what the functions that
compare and measure say of the copies that this file makes. -/
namespace FenwickOS.Libk
open Machine

def kstrncpyFrom (dest src n : Word) : (rounds : Nat) → (i : Word) → Copying → Option Copying
  | 0, _, _ => none
  | rounds + 1, i, s =>
    if i ≥ n then some s
    else
      let (c, s) := s.copyByte (dest + i) (src + i)
      if c = 0#8 then some s else kstrncpyFrom dest src n rounds (i + 1#64) s

def kstrncpy (rounds : Nat) (dest src n : Word) (m : Memory) : Option (Word × Copying) :=
  (kstrncpyFrom dest src n rounds 0#64 (.start m)).map (dest, ·)

instance (a b : Word) (n k : Nat) : Decidable (Apart a n b k) := by
  unfold Apart
  infer_instance

/-- `copy_nonoverlapping` is undefined, here `none`, where the two places overlap. -/
def kmemcpy (dest src n : Word) (mem : Word → Byte) : Option (Word × (Word → Byte)) :=
  if Apart src n.toNat dest n.toNat then
    some (dest, writeBytes mem dest (bytesAt mem src n.toNat))
  else none

def kmemset (dest : Word) (val : Byte) (n : Word) (mem : Word → Byte) : Word × (Word → Byte) :=
  (dest, writeBytes mem dest (List.replicate n.toNat val))

variable {m : Memory} {dest src n : Word} {i k : Nat} {mem : Word → Byte}

/-- How far `kstrncpy` goes. -/
def copyLength (m : Memory) (src n : Word) : Nat := min n.toNat ((cstring m src).length + 1)

/-! ### The loop of `kstrncpy` -/

theorem kstrncpyFrom_copied {rounds : Nat} (hi : i ≤ min n.toNat (cstring m src).length)
    (hrounds : min n.toNat (cstring m src).length < i + rounds)
    (hread : ∀ i < copyLength m src n, ∀ j < i,
      src + BitVec.ofNat 64 i ≠ dest + BitVec.ofNat 64 j) :
    kstrncpyFrom dest src n rounds (BitVec.ofNat 64 i) (copied m dest src i) =
      some (copied m dest src (copyLength m src n)) := by
  have hroom := length_cstring_lt m src
  unfold copyLength at hread ⊢
  induction rounds generalizing i with
  | zero => omega
  | succ rounds ih =>
    have hnat : (BitVec.ofNat 64 i).toNat = i := by
      rw [BitVec.toNat_ofNat]
      omega
    rw [kstrncpyFrom]
    by_cases hlimit : i = n.toNat
    · have hle : BitVec.ofNat 64 i ≥ n := by
        rw [ge_iff_le, BitVec.le_def]
        omega
      rw [if_pos hle, Nat.min_eq_left (by omega), hlimit]
    · have hlt : ¬ BitVec.ofNat 64 i ≥ n := by
        rw [ge_iff_le, BitVec.le_def]
        omega
      have hterm : i < (terminated m src).length := by
        rw [length_terminated]
        omega
      rw [if_neg hlt, copyByte_copied hterm (hread i (by omega))]
      dsimp only
      by_cases hend : i = (cstring m src).length
      · rw [if_pos ((getElem_terminated_eq_zero hterm).mpr hend), hend, Nat.min_eq_right (by omega)]
      · rw [if_neg (hend ∘ (getElem_terminated_eq_zero hterm).mp)]
        have hrest := ih (i := i + 1) (by omega) (by omega)
        rwa [BitVec.ofNat_add] at hrest

theorem kstrncpy_eq {rounds : Nat} (hrounds : min n.toNat (cstring m src).length < rounds)
    (hread : ∀ i < copyLength m src n, ∀ j < i,
      src + BitVec.ofNat 64 i ≠ dest + BitVec.ofNat 64 j) :
    kstrncpy rounds dest src n m = some (dest, copied m dest src (copyLength m src n)) := by
  rw [kstrncpy, ← copied_zero m dest src,
    kstrncpyFrom_copied (i := 0) (Nat.zero_le _) (by omega) hread]
  rfl

/-! ### What the copies hold -/

theorem length_take_terminated (m : Memory) (src n : Word) :
    ((terminated m src).take (copyLength m src n)).length = copyLength m src n := by
  rw [List.length_take, length_terminated]
  unfold copyLength
  omega

theorem copyLength_le (m : Memory) (src n : Word) : copyLength m src n ≤ 2 ^ 64 := by
  have hroom := length_cstring_lt m src
  unfold copyLength
  omega

theorem bytesAt_copied (m : Memory) (dest src n : Word) :
    bytesAt (copied m dest src (copyLength m src n)).mem dest (copyLength m src n) =
      (terminated m src).take (copyLength m src n) := by
  have hwritten := @bytesAt_writeBytes m.byte dest ((terminated m src).take (copyLength m src n))
    (by rw [length_take_terminated]; exact copyLength_le m src n)
  rwa [length_take_terminated] at hwritten

theorem copied_frame (m : Memory) (dest src n : Word) :
    ∀ x ∉ addressesAt dest (copyLength m src n),
      (copied m dest src (copyLength m src n)).mem x = m.byte x := by
  intro x hx
  refine writeBytes_other fun i hi he => hx (mem_addressesAt.mpr ⟨i, ?_, he.symm⟩)
  rwa [length_take_terminated] at hi

theorem bytesAt_source (h : Apart src (copyLength m src n) dest (copyLength m src n)) :
    bytesAt (copied m dest src (copyLength m src n)).mem src (copyLength m src n) =
      (terminated m src).take (copyLength m src n) := by
  have hsame : bytesAt (copied m dest src (copyLength m src n)).mem src (copyLength m src n) =
      bytesAt m.byte src (copyLength m src n) := by
    refine bytesAt_congr fun i hi => copied_frame m dest src n _ fun hmem => ?_
    obtain ⟨j, hj, he⟩ := mem_addressesAt.mp hmem
    exact h i hi j hj he.symm
  have hsplit : (cstring m src).length + 1 =
      copyLength m src n + ((cstring m src).length + 1 - copyLength m src n) := by
    unfold copyLength
    omega
  have hall := bytesAt_terminated m src
  rw [hsplit, bytesAt_append] at hall
  rw [hsame, ← hall, List.take_append_of_le_length (by rw [length_bytesAt]),
    List.take_of_length_le (by rw [length_bytesAt])]

theorem upToNul_copied {a : Word} (h : bytesAt mem a (copyLength m src n) =
    (terminated m src).take (copyLength m src n)) :
    upToNul (bytesAt mem a n.toNat) = (cstring m src).take n.toNat := by
  unfold copyLength at h
  rcases Nat.lt_or_ge (cstring m src).length n.toNat with hend | hcut
  · have hsplit : n.toNat = (cstring m src).length + 1 + (n.toNat - ((cstring m src).length + 1)) := by
      omega
    have hwhole : bytesAt mem a ((cstring m src).length + 1) = cstring m src ++ [0#8] := by
      rw [Nat.min_eq_right (by omega), ← length_terminated, List.take_length] at h
      rw [← length_terminated]
      exact h
    rw [List.take_of_length_le (Nat.le_of_lt hend), hsplit, bytesAt_append, hwhole,
      List.append_assoc]
    exact upToNul_append (nul_not_mem_cstring m src) _
  · rw [Nat.min_eq_left (by omega)] at h
    rw [h, terminated, List.take_append_of_le_length hcut]
    exact upToNul_of_nul_free fun hmem => nul_not_mem_cstring m src (List.mem_of_mem_take hmem)

theorem stringAt_kept (h : ∀ i ≤ (cstring m src).length,
    mem (src + BitVec.ofNat 64 i) = m.byte (src + BitVec.ofNat 64 i)) :
    StringAt mem src (cstring m src) := by
  refine ⟨?_, nul_not_mem_cstring m src⟩
  rw [@bytesAt_congr m.byte _ _ _ fun i hi => h i (Nat.le_of_lt_succ hi), bytesAt_terminated,
    terminated]

/-! ### Copies and comparisons -/

/-- What `kstrncpy` leaves: as many bytes of the string as the limit allows, with its NUL only if
that is among them. Cut off, the copy goes on into what stood behind it. -/
structure Truncates (m : Memory) (dest src n : Word) (r : Word × Copying) : Prop where
  returns : r.1 = dest
  reads : r.2.reads = addressesAt src (copyLength m src n)
  writes : r.2.writes = addressesAt dest (copyLength m src n)
  frame : ∀ x ∉ addressesAt dest (copyLength m src n), r.2.mem x = m.byte x
  compares : (kstrncmp r.2.mem dest src n).result = 0
  whole : (cstring m src).length < n.toNat → StringAt r.2.mem dest (cstring m src)
  cut : n.toNat ≤ (cstring m src).length → ∀ xs, StringAt r.2.mem dest xs ↔
    ∃ ys, xs = (cstring m src).take n.toNat ++ ys ∧ StringAt r.2.mem (dest + n) ys

/-- Where the bytes touched do not overlap, a copy compares equal to what it was made from, and
strings have the lengths that they should have. -/
structure CopyRoundTrips (m : Memory) (dest src : Word) : Prop where
  strcpy : Apart src ((cstring m src).length + 1) dest ((cstring m src).length + 1) →
    ∃ m' : Memory, (∀ rounds > (cstring m src).length,
      (kstrcpy rounds dest src m).map (fun r => r.2.mem) = some m'.byte) ∧
      (kstrcmp m' dest src).result = 0 ∧ kstrlen m' dest = kstrlen m src
  strcat : Apart src ((cstring m src).length + 1) dest
      ((cstring m dest).length + (cstring m src).length + 1) →
    ∃ m' : Memory, (∀ rounds > (cstring m src).length,
      (kstrcat rounds dest src m).map (fun r => r.2.mem) = some m'.byte) ∧
      (kstrcmp m' (dest + kstrlen m dest) src).result = 0 ∧
      kstrlen m' dest = kstrlen m dest + kstrlen m src
  strncpy : ∀ n, Apart src (copyLength m src n) dest (copyLength m src n) →
    ∃ r, (∀ rounds > min n.toNat (cstring m src).length,
      kstrncpy rounds dest src n m = some r) ∧ Truncates m dest src n r
  memcpy : ∀ n, Apart src n.toNat dest n.toNat →
    ∃ mem, kmemcpy dest src n m.byte = some (dest, mem) ∧ (kmemcmp mem dest src n).result = 0
  cleared : ∀ n, n ≠ 0#64 → Apart src ((cstring m src).length + 1) dest n.toNat →
    ∃ m' : Memory, kmemset dest 0#8 n m.byte = (dest, m'.byte) ∧
      ∃ r, (∀ rounds > (cstring m src).length, kstrncpy rounds dest src (n - 1#64) m' = some r) ∧
        StringAt r.2.mem dest ((cstring m src).take (n.toNat - 1))

theorem truncates (h : Apart src (copyLength m src n) dest (copyLength m src n)) :
    Truncates m dest src n (dest, copied m dest src (copyLength m src n)) where
  returns := rfl
  reads := rfl
  writes := rfl
  frame := copied_frame m dest src n
  compares := by
    rw [kstrncmp_result, upToNul_copied (bytesAt_copied m dest src n),
      upToNul_copied (bytesAt_source h), firstDifference_self]
  whole hend := by
    have hbytes := bytesAt_copied m dest src n
    have hlen : copyLength m src n = (terminated m src).length := by
      rw [length_terminated]
      exact Nat.min_eq_right hend
    refine ⟨?_, nul_not_mem_cstring m src⟩
    rw [hlen, List.take_length] at hbytes
    rw [hlen, ← length_terminated]
    exact hbytes
  cut hcut xs := by
    have hlen : copyLength m src n = n.toNat := Nat.min_eq_left (by omega)
    have htake : ((cstring m src).take n.toNat).length = n.toNat := by
      rw [List.length_take, Nat.min_eq_left hcut]
    have hbytes := bytesAt_copied m dest src n
    have hfirst : (terminated m src).take n.toNat = (cstring m src).take n.toNat :=
      List.take_append_of_le_length hcut
    rw [hlen, hfirst] at hbytes
    have hbehind := @stringAt_iff_behind _ _ _ xs (by rw [htake]; exact hbytes)
      fun hmem => nul_not_mem_cstring m src (List.mem_of_mem_take hmem)
    rw [htake, BitVec.ofNat_toNat, BitVec.setWidth_eq] at hbehind
    rw [hlen]
    exact hbehind

theorem strncpy_round_trip (h : Apart src (copyLength m src n) dest (copyLength m src n)) :
    ∃ r, (∀ rounds > min n.toNat (cstring m src).length,
      kstrncpy rounds dest src n m = some r) ∧ Truncates m dest src n r :=
  ⟨_, fun _ hrounds => kstrncpy_eq hrounds fun i hi j hj => h i hi j (by omega), truncates h⟩

theorem strcpy_round_trip (h : Apart src ((cstring m src).length + 1) dest
    ((cstring m src).length + 1)) :
    ∃ m' : Memory, (∀ rounds > (cstring m src).length,
      (kstrcpy rounds dest src m).map (fun r => r.2.mem) = some m'.byte) ∧
      (kstrcmp m' dest src).result = 0 ∧ kstrlen m' dest = kstrlen m src := by
  obtain ⟨r, hr, hcontract⟩ := kstrcpy_contract h
  have hstring := hcontract.string
  rw [List.nil_append] at hstring
  have hsrc : StringAt r.2.mem src (cstring m src) := by
    refine stringAt_kept fun i hi => hcontract.frame _ fun hmem => ?_
    obtain ⟨j, hj, he⟩ := mem_addressesAt.mp hmem
    rw [List.length_nil, BitVec.add_zero] at he
    exact h i (by omega) j hj he.symm
  refine ⟨hstring.memory, fun rounds hrounds => ?_, ?_, ?_⟩
  · rw [hr rounds hrounds]
    rfl
  · have hdest' : cstring hstring.memory dest = cstring m src := StringAt.cstring_eq hstring
    have hsrc' : cstring hstring.memory src = cstring m src := StringAt.cstring_eq hsrc
    rw [kstrcmp_result, hdest', hsrc', firstDifference_self]
  · have hdest' : cstring hstring.memory dest = cstring m src := StringAt.cstring_eq hstring
    rw [kstrlen_eq, kstrlen_eq, hdest']

theorem strcat_round_trip (h : Apart src ((cstring m src).length + 1) dest
    ((cstring m dest).length + (cstring m src).length + 1)) :
    ∃ m' : Memory, (∀ rounds > (cstring m src).length,
      (kstrcat rounds dest src m).map (fun r => r.2.mem) = some m'.byte) ∧
      (kstrcmp m' (dest + kstrlen m dest) src).result = 0 ∧
      kstrlen m' dest = kstrlen m dest + kstrlen m src := by
  obtain ⟨r, hr, hcontract⟩ := kstrcat_contract h
  have hstring := hcontract.string
  have hsrc : StringAt r.2.mem src (cstring m src) := by
    refine stringAt_kept fun i hi => hcontract.frame _ fun hmem => ?_
    obtain ⟨j, hj, he⟩ := mem_addressesAt.mp hmem
    rw [add_ofNat_add] at he
    exact h i (by omega) _ (by omega) he.symm
  have hfirst : bytesAt r.2.mem dest (cstring m dest).length = cstring m dest := by
    have hsplit : (cstring m dest ++ cstring m src).length + 1 =
        (cstring m dest).length + ((cstring m src).length + 1) := by
      rw [List.length_append, Nat.add_assoc]
    have hbytes := hstring.bytes
    rw [hsplit, bytesAt_append, List.append_assoc] at hbytes
    exact (List.append_inj hbytes length_bytesAt).1
  have htail : StringAt r.2.mem (dest + kstrlen m dest) (cstring m src) := by
    obtain ⟨ys, hys, htail⟩ := (stringAt_iff_behind hfirst (nul_not_mem_cstring m dest)).mp hstring
    rw [kstrlen_eq, List.append_cancel_left hys]
    exact htail
  have hdest' : cstring hstring.memory dest = cstring m dest ++ cstring m src :=
    StringAt.cstring_eq hstring
  have htail' : cstring hstring.memory (dest + kstrlen m dest) = cstring m src :=
    StringAt.cstring_eq htail
  have hsrc' : cstring hstring.memory src = cstring m src := StringAt.cstring_eq hsrc
  refine ⟨hstring.memory, fun rounds hrounds => ?_, ?_, ?_⟩
  · rw [hr rounds hrounds]
    rfl
  · rw [kstrcmp_result, htail', hsrc', firstDifference_self]
  · rw [kstrlen_eq, kstrlen_eq, kstrlen_eq, hdest', List.length_append, BitVec.ofNat_add]

theorem memcpy_round_trip (h : Apart src n.toNat dest n.toNat) :
    ∃ mem, kmemcpy dest src n m.byte = some (dest, mem) ∧ (kmemcmp mem dest src n).result = 0 := by
  refine ⟨_, if_pos h, ?_⟩
  have hlen : (bytesAt m.byte src n.toNat).length = n.toNat := length_bytesAt
  have hdest := @bytesAt_writeBytes m.byte dest (bytesAt m.byte src n.toNat)
    (by rw [hlen]; exact Nat.le_of_lt n.isLt)
  rw [hlen] at hdest
  have hsrc : bytesAt (writeBytes m.byte dest (bytesAt m.byte src n.toNat)) src n.toNat =
      bytesAt m.byte src n.toNat := by
    refine bytesAt_congr fun i hi => writeBytes_other fun j hj => h i hi j ?_
    rwa [hlen] at hj
  rw [kmemcmp_result, hdest, hsrc, firstDifference_self]

/-- A buffer that has been cleared holds a string after `kstrncpy` with one byte less. -/
theorem cleared_round_trip (hn : n ≠ 0#64)
    (h : Apart src ((cstring m src).length + 1) dest n.toNat) :
    ∃ m' : Memory, kmemset dest 0#8 n m.byte = (dest, m'.byte) ∧
      ∃ r, (∀ rounds > (cstring m src).length, kstrncpy rounds dest src (n - 1#64) m' = some r) ∧
        StringAt r.2.mem dest ((cstring m src).take (n.toNat - 1)) := by
  have hpos : 0 < n.toNat := BitVec.toNat_pos_of_ne_zero hn
  have hlt := n.isLt
  have hpred : (n - 1#64).toNat = n.toNat - 1 := by
    rw [BitVec.toNat_sub]
    change (2 ^ 64 - 1 + n.toNat) % 2 ^ 64 = _
    omega
  have hzeros (i : Nat) (hi : i < n.toNat) :
      writeBytes m.byte dest (List.replicate n.toNat 0#8) (dest + BitVec.ofNat 64 i) = 0#8 := by
    rw [writeBytes_of_lt (by rwa [List.length_replicate]) (by rw [List.length_replicate]; omega),
      List.getElem_replicate]
  have hkept (i : Nat) (hi : i ≤ (cstring m src).length) :
      writeBytes m.byte dest (List.replicate n.toNat 0#8) (src + BitVec.ofNat 64 i) =
        m.byte (src + BitVec.ofNat 64 i) := by
    refine writeBytes_other fun j hj => h i (by omega) j ?_
    rwa [List.length_replicate] at hj
  let m' : Memory := ⟨writeBytes m.byte dest (List.replicate n.toNat 0#8), ⟨_, hzeros 0 hpos⟩⟩
  have hsrc : cstring m' src = cstring m src := StringAt.cstring_eq (stringAt_kept hkept)
  have hlimit : copyLength m' src (n - 1#64) = min (n.toNat - 1) ((cstring m src).length + 1) := by
    unfold copyLength
    rw [hsrc, hpred]
  obtain ⟨r, hr, htruncates⟩ := @strncpy_round_trip m' dest src (n - 1#64) (by
    rw [hlimit]
    exact fun i hi j hj => h i (by omega) j (by omega))
  refine ⟨m', rfl, r, fun rounds hrounds => hr rounds (by rw [hsrc]; omega), ?_⟩
  rcases Nat.lt_or_ge (cstring m src).length (n.toNat - 1) with hend | hcut
  · rw [List.take_of_length_le (Nat.le_of_lt hend), ← hsrc]
    exact htruncates.whole (by rw [hsrc, hpred]; exact hend)
  · rw [htruncates.cut (by rw [hsrc, hpred]; exact hcut), hsrc, hpred]
    -- the byte behind the cut is one of those cleared
    have hlast : r.2.mem (dest + (n - 1#64)) = 0#8 := by
      have haddr : dest + (n - 1#64) = dest + BitVec.ofNat 64 (n.toNat - 1) := by
        rw [← hpred, BitVec.ofNat_toNat, BitVec.setWidth_eq]
      rw [haddr, htruncates.frame]
      · exact hzeros _ (by omega)
      · intro hmem
        obtain ⟨j, hj, he⟩ := mem_addressesAt.mp hmem
        rw [hlimit] at hj
        have hnat := congrArg (fun x => (x - dest).toNat) he
        rw [add_ofNat_sub_toNat dest (by omega), add_ofNat_sub_toNat dest (by omega)] at hnat
        omega
    refine ⟨[], (List.append_nil _).symm, ?_, List.not_mem_nil⟩
    rw [List.length_nil, Nat.zero_add, bytesAt_cons, hlast]
    rfl

/-- Copying and comparing go together. -/
theorem copy_round_trips (m : Memory) (dest src : Word) : CopyRoundTrips m dest src where
  strcpy := strcpy_round_trip
  strcat := strcat_round_trip
  strncpy _ := strncpy_round_trip
  memcpy _ := memcpy_round_trip
  cleared _ := cleared_round_trip

/-- `ab` over and behind `xyz`, and its first byte alone in a cleared buffer of two. -/
theorem copy_round_trips_twoStrings :
    (∃ m : Memory, (kstrcpy 3 0x2000#64 0x1000#64 twoStrings).map (fun r => r.2.mem) = some m.byte ∧
      (kstrcmp m 0x2000#64 0x1000#64).result = 0 ∧
      kstrlen m 0x2000#64 = kstrlen twoStrings 0x1000#64) ∧
    (∃ m : Memory, (kstrcat 3 0x2000#64 0x1000#64 twoStrings).map (fun r => r.2.mem) = some m.byte ∧
      kstrlen m 0x2000#64 = kstrlen twoStrings 0x2000#64 + kstrlen twoStrings 0x1000#64) ∧
    (∃ mem, kmemcpy 0x2000#64 0x1000#64 3#64 twoStrings.byte = some (0x2000#64, mem) ∧
      (kmemcmp mem 0x2000#64 0x1000#64 3#64).result = 0) ∧
    ∃ m : Memory, kmemset 0x2000#64 0#8 2#64 twoStrings.byte = (0x2000#64, m.byte) ∧
      ∃ r, kstrncpy 3 0x2000#64 0x1000#64 1#64 m = some r ∧
        StringAt r.2.mem 0x2000#64 [ascii 'a'] := by
  have h := copy_round_trips twoStrings 0x2000#64 0x1000#64
  obtain ⟨hsrc, hdest⟩ := cstring_twoStrings
  have hcpy := h.strcpy
  have hcat := h.strcat
  have hcleared := h.cleared 2#64 (by decide)
  rw [hsrc] at hcpy hcleared
  rw [hsrc, hdest] at hcat
  obtain ⟨m₁, hm₁, hcmp, hlen⟩ := hcpy (by decide)
  obtain ⟨m₂, hm₂, -, hsum⟩ := hcat (by decide)
  obtain ⟨m₃, hm₃, r, hr, hstring⟩ := hcleared (by decide)
  exact ⟨⟨m₁, hm₁ 3 (by decide), hcmp, hlen⟩, ⟨m₂, hm₂ 3 (by decide), hsum⟩,
    h.memcpy 3#64 (by decide), m₃, hm₃, r, hr 3 (by decide), hstring⟩

end FenwickOS.Libk
