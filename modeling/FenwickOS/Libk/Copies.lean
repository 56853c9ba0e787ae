import FenwickOS.Lib.Buffers

/-! The copying functions of lib/libk/src/string.rs. A loop that has not ended after `rounds`
rounds gives `none`. -/
namespace FenwickOS.Libk
open Machine

/-- Memory, and the addresses that a loop has read through `src` and written so far. -/
structure Copying where
  mem : Word → Byte
  reads : List Word
  writes : List Word

def Copying.start (m : Memory) : Copying := ⟨m.byte, [], []⟩

def Copying.read (src : Word) (s : Copying) : Byte × Copying :=
  (s.mem src, { s with reads := s.reads ++ [src] })

def Copying.write (dest : Word) (c : Byte) (s : Copying) : Copying :=
  { s with mem := Function.update s.mem dest c, writes := s.writes ++ [dest] }

/-- `let c = *src; *dest = c;` -/
def Copying.copyByte (dest src : Word) (s : Copying) : Byte × Copying :=
  let (c, s) := s.read src
  (c, s.write dest c)

def kstrlenFrom (m : Memory) (s len : Word) : Word :=
  if m.byte (s + len) ≠ 0#8 then kstrlenFrom m s (len + 1#64) else len
termination_by m.distance (s + len)
decreasing_by
  rw [← BitVec.add_assoc]
  exact Memory.distance_lt (by assumption)

def kstrlen (m : Memory) (s : Word) : Word := kstrlenFrom m s 0#64

/-- The loop that `kstrcpy` and `kstrcat` share. -/
def copyFrom (dest src : Word) : (rounds : Nat) → (i : Word) → Copying → Option Copying
  | 0, _, _ => none
  | rounds + 1, i, s =>
    let (c, s) := s.copyByte (dest + i) (src + i)
    if c = 0#8 then some s else copyFrom dest src rounds (i + 1#64) s

def kstrcpy (rounds : Nat) (dest src : Word) (m : Memory) : Option (Word × Copying) :=
  (copyFrom dest src rounds 0#64 (.start m)).map (dest, ·)

def kstrcat (rounds : Nat) (dest src : Word) (m : Memory) : Option (Word × Copying) :=
  let destLen := kstrlen m dest
  (copyFrom (dest + destLen) src rounds 0#64 (.start m)).map (dest, ·)

/-- The loop of `kstrncat`. -/
def kstrncatFrom (dest destLen src n : Word) :
    (rounds : Nat) → (i : Word) → Copying → Option Copying
  | 0, _, _ => none
  | rounds + 1, i, s =>
    if i ≥ n then some (s.write (dest + (destLen + n)) 0#8)
    else
      let (c, s) := s.copyByte (dest + (destLen + i)) (src + i)
      if c = 0#8 then some s else kstrncatFrom dest destLen src n rounds (i + 1#64) s

def kstrncat (rounds : Nat) (dest src n : Word) (m : Memory) : Option (Word × Copying) :=
  let destLen := kstrlen m dest
  (kstrncatFrom dest destLen src n rounds 0#64 (.start m)).map (dest, ·)

variable {m : Memory} {dest target src : Word} {i n : Nat}

theorem kstrlenFrom_eq (m : Memory) (s len : Word) :
    kstrlenFrom m s len = len + BitVec.ofNat 64 (cstring m (s + len)).length := by
  fun_induction kstrlenFrom m s len with
  | case1 len hbyte ih =>
    rw [ih, cstring_cons hbyte, List.length_cons, add_one_add_ofNat, BitVec.add_assoc]
  | case2 len hnul =>
    rw [cstring_of_nul (not_not.mp hnul)]
    exact (BitVec.add_zero len).symm

theorem kstrlen_eq (m : Memory) (s : Word) :
    kstrlen m s = BitVec.ofNat 64 (cstring m s).length := by
  rw [kstrlen, kstrlenFrom_eq, BitVec.zero_add, BitVec.add_zero]

/-! ### One round -/

/-- The loops after they have copied the first `i` bytes from `src` to `target`. -/
def copied (m : Memory) (target src : Word) (i : Nat) : Copying where
  mem := writeBytes m.byte target ((terminated m src).take i)
  reads := addressesAt src i
  writes := addressesAt target i

theorem copied_zero (m : Memory) (target src : Word) : copied m target src 0 = .start m := by
  rw [copied, List.take_zero, writeBytes_nil]
  rfl

theorem length_terminated (m : Memory) (a : Word) :
    (terminated m a).length = (cstring m a).length + 1 := by
  simp [terminated]

theorem getElem_terminated (hi : i < (terminated m src).length) :
    (terminated m src)[i] = m.byte (src + BitVec.ofNat 64 i) := by
  have hbyte := getElem?_terminated m src i
  rw [length_terminated] at hi
  rw [if_pos (by omega)] at hbyte
  exact (List.getElem?_eq_some_iff.mp hbyte).2

theorem getElem_terminated_eq_zero (hi : i < (terminated m src).length) :
    (terminated m src)[i] = 0#8 ↔ i = (cstring m src).length := by
  constructor
  · intro hzero
    by_contra hne
    rw [length_terminated] at hi
    simp only [terminated] at hzero
    rw [List.getElem_append_left (by omega)] at hzero
    exact nul_not_mem_cstring m src (hzero ▸ List.getElem_mem _)
  · rintro rfl
    exact List.getElem_concat_length rfl _

/-- The byte read next is still what it was, and is written behind the others. -/
theorem copyByte_copied (hi : i < (terminated m src).length)
    (hread : ∀ j < i, src + BitVec.ofNat 64 i ≠ target + BitVec.ofNat 64 j) :
    (copied m target src i).copyByte (target + BitVec.ofNat 64 i) (src + BitVec.ofNat 64 i) =
      ((terminated m src)[i], copied m target src (i + 1)) := by
  have hroom := length_cstring_lt m src
  have hsize := length_terminated m src
  have hlen : ((terminated m src).take i).length = i := by
    rw [List.length_take, Nat.min_eq_left (Nat.le_of_lt hi)]
  have hsame : (copied m target src i).mem (src + BitVec.ofNat 64 i) = (terminated m src)[i] := by
    rw [getElem_terminated hi]
    refine writeBytes_other fun j hj => hread j ?_
    rwa [hlen] at hj
  have hmem : writeBytes m.byte target ((terminated m src).take i ++ [(terminated m src)[i]]) = _ :=
    writeBytes_snoc (by omega)
  rw [hlen] at hmem
  rw [Copying.copyByte, Copying.read, hsame]
  dsimp only [Copying.write, copied]
  rw [addressesAt_snoc, addressesAt_snoc, List.take_succ_eq_append_getElem hi, hmem]

/-! ### The loops -/

/-- The loops at their end: they have copied the first `n` bytes of the string, or all of it, and a
NUL. -/
def finished (m : Memory) (target src : Word) (n : Nat) : Copying where
  mem := writeBytes m.byte target ((cstring m src).take n ++ [0#8])
  reads := addressesAt src (min n ((cstring m src).length + 1))
  writes := addressesAt target (((cstring m src).take n).length + 1)

theorem copied_end (hn : (cstring m src).length < n) :
    copied m target src ((cstring m src).length + 1) = finished m target src n := by
  rw [copied, finished, List.take_of_length_le (Nat.le_of_lt hn), Nat.min_eq_right hn,
    ← length_terminated, List.take_length, terminated, List.length_append]
  rfl

theorem copied_limit (hn : n ≤ (cstring m src).length) :
    (copied m target src n).write (target + BitVec.ofNat 64 n) 0#8 = finished m target src n := by
  have hroom := length_cstring_lt m src
  have hlen : ((cstring m src).take n).length = n := by rw [List.length_take, Nat.min_eq_left hn]
  have hfirst : (terminated m src).take n = (cstring m src).take n :=
    List.take_append_of_le_length hn
  have hmem : writeBytes m.byte target ((cstring m src).take n ++ [0#8]) = _ :=
    writeBytes_snoc (by omega)
  rw [hlen] at hmem
  dsimp only [Copying.write, copied, finished]
  rw [hfirst, hmem, hlen, addressesAt_snoc target, Nat.min_eq_left (by omega)]

theorem copyFrom_copied {rounds : Nat} (hi : i ≤ (cstring m src).length)
    (hrounds : (cstring m src).length < i + rounds)
    (hread : ∀ i ≤ (cstring m src).length, ∀ j < i,
      src + BitVec.ofNat 64 i ≠ target + BitVec.ofNat 64 j) :
    copyFrom target src rounds (BitVec.ofNat 64 i) (copied m target src i) =
      some (copied m target src ((cstring m src).length + 1)) := by
  induction rounds generalizing i with
  | zero => omega
  | succ rounds ih =>
    have hlt : i < (terminated m src).length := by
      rw [length_terminated]
      omega
    rw [copyFrom, copyByte_copied hlt (hread i hi)]
    dsimp only
    by_cases hend : i = (cstring m src).length
    · rw [if_pos ((getElem_terminated_eq_zero hlt).mpr hend), hend]
    · rw [if_neg (hend ∘ (getElem_terminated_eq_zero hlt).mp)]
      have hrest := ih (i := i + 1) (by omega) (by omega)
      rwa [BitVec.ofNat_add] at hrest

theorem kstrncatFrom_copied {destLen limit : Word} {rounds : Nat}
    (hi : i ≤ min limit.toNat (cstring m src).length)
    (hrounds : min limit.toNat (cstring m src).length < i + rounds)
    (hread : ∀ i < min limit.toNat ((cstring m src).length + 1), ∀ j < i,
      src + BitVec.ofNat 64 i ≠ dest + destLen + BitVec.ofNat 64 j) :
    kstrncatFrom dest destLen src limit rounds (BitVec.ofNat 64 i)
        (copied m (dest + destLen) src i) =
      some (finished m (dest + destLen) src limit.toNat) := by
  have hroom := length_cstring_lt m src
  induction rounds generalizing i with
  | zero => omega
  | succ rounds ih =>
    have hnat : (BitVec.ofNat 64 i).toNat = i := by
      rw [BitVec.toNat_ofNat]
      omega
    rw [kstrncatFrom]
    by_cases hlimit : i = limit.toNat
    · have hle : BitVec.ofNat 64 i ≥ limit := by
        rw [ge_iff_le, BitVec.le_def]
        omega
      have hsame : limit = BitVec.ofNat 64 i := BitVec.eq_of_toNat_eq (by omega)
      rw [if_pos hle, ← BitVec.add_assoc, ← hlimit, hsame]
      exact congrArg some (copied_limit (by omega))
    · have hlt : ¬ BitVec.ofNat 64 i ≥ limit := by
        rw [ge_iff_le, BitVec.le_def]
        omega
      have hterm : i < (terminated m src).length := by
        rw [length_terminated]
        omega
      rw [if_neg hlt, ← BitVec.add_assoc, copyByte_copied hterm (hread i (by omega))]
      dsimp only
      by_cases hend : i = (cstring m src).length
      · rw [if_pos ((getElem_terminated_eq_zero hterm).mpr hend), hend,
          copied_end (n := limit.toNat) (by omega)]
      · rw [if_neg (hend ∘ (getElem_terminated_eq_zero hterm).mp)]
        have hrest := ih (i := i + 1) (by omega) (by omega)
        rwa [BitVec.ofNat_add] at hrest

/-! ### The contract -/

/-- `r` returns `dest`, where the string is now `old ++ new`; only the bytes of `new` and its NUL
have been written, and no other byte has changed. -/
structure Contract (m : Memory) (dest : Word) (old new : List Byte) (r : Word × Copying) : Prop where
  returns : r.1 = dest
  string : StringAt r.2.mem dest (old ++ new)
  writes : r.2.writes = addressesAt (dest + BitVec.ofNat 64 old.length) (new.length + 1)
  frame : ∀ x, x ∉ addressesAt (dest + BitVec.ofNat 64 old.length) (new.length + 1) →
    r.2.mem x = m.byte x

/-- Where the bytes touched do not overlap, the functions return after as many rounds as they copy
bytes and keep to the contract. -/
structure CopiesContract (m : Memory) (dest src : Word) : Prop where
  strcpy : Apart src ((cstring m src).length + 1) dest ((cstring m src).length + 1) →
    ∃ r, (∀ rounds > (cstring m src).length, kstrcpy rounds dest src m = some r) ∧
      Contract m dest [] (cstring m src) r
  strcat : Apart src ((cstring m src).length + 1) dest
      ((cstring m dest).length + (cstring m src).length + 1) →
    ∃ r, (∀ rounds > (cstring m src).length, kstrcat rounds dest src m = some r) ∧
      Contract m dest (cstring m dest) (cstring m src) r
  strncat : ∀ n : Word, Apart src (min n.toNat ((cstring m src).length + 1)) dest
      ((cstring m dest).length + min n.toNat (cstring m src).length + 1) →
    ∃ r, (∀ rounds > min n.toNat (cstring m src).length, kstrncat rounds dest src n m = some r) ∧
      Contract m dest (cstring m dest) ((cstring m src).take n.toNat) r ∧
      r.2.reads = addressesAt src (min n.toNat ((cstring m src).length + 1))

theorem contract_finished {old : List Byte} (hold : bytesAt m.byte dest old.length = old)
    (hnul : 0#8 ∉ old) (hroom : old.length + ((cstring m src).take n).length < 2 ^ 64) :
    Contract m dest old ((cstring m src).take n)
      (dest, finished m (dest + BitVec.ofNat 64 old.length) src n) where
  returns := rfl
  string := stringAt_writeBytes hold hnul
    (fun hmem => nul_not_mem_cstring m src (List.mem_of_mem_take hmem)) hroom
  writes := rfl
  frame x hx := by
    refine writeBytes_other fun i hi he => hx (mem_addressesAt.mpr ⟨i, ?_, he.symm⟩)
    simpa using hi

theorem take_whole (xs : List Byte) : xs.take (xs.length + 1) = xs :=
  List.take_of_length_le (Nat.le_succ _)

theorem contract_whole {old : List Byte} (hold : bytesAt m.byte dest old.length = old)
    (hnul : 0#8 ∉ old) (hroom : old.length + (cstring m src).length < 2 ^ 64) :
    Contract m dest old (cstring m src)
      (dest, finished m (dest + BitVec.ofNat 64 old.length) src ((cstring m src).length + 1)) := by
  rw [← take_whole (cstring m src)] at hroom
  have hcontract := contract_finished hold hnul hroom
  rwa [take_whole] at hcontract

theorem copyFrom_start {rounds : Nat} (hrounds : (cstring m src).length < rounds)
    (hread : ∀ i < (cstring m src).length + 1, ∀ j < i,
      src + BitVec.ofNat 64 i ≠ target + BitVec.ofNat 64 j) :
    copyFrom target src rounds 0#64 (.start m) =
      some (finished m target src ((cstring m src).length + 1)) := by
  rw [← copied_zero m target src, ← copied_end (Nat.lt_succ_self _)]
  exact copyFrom_copied (i := 0) (Nat.zero_le _) (by omega) fun i hi j hj => hread i (by omega) j hj

theorem kstrcpy_contract (h : Apart src ((cstring m src).length + 1) dest
    ((cstring m src).length + 1)) :
    ∃ r, (∀ rounds > (cstring m src).length, kstrcpy rounds dest src m = some r) ∧
      Contract m dest [] (cstring m src) r := by
  have hroom := length_cstring_lt m src
  refine ⟨_, fun rounds hrounds => ?_, contract_whole rfl List.not_mem_nil (by simpa using hroom)⟩
  rw [kstrcpy, copyFrom_start hrounds fun i hi j hj => h i hi j (by omega), List.length_nil,
    BitVec.add_zero]
  rfl

theorem kstrcat_contract (h : Apart src ((cstring m src).length + 1) dest
    ((cstring m dest).length + (cstring m src).length + 1)) :
    ∃ r, (∀ rounds > (cstring m src).length, kstrcat rounds dest src m = some r) ∧
      Contract m dest (cstring m dest) (cstring m src) r := by
  have hroom := h.lt (Nat.succ_pos _)
  refine ⟨_, fun rounds hrounds => ?_,
    contract_whole (bytesAt_cstring m dest) (nul_not_mem_cstring m dest) (by omega)⟩
  have hread := Apart.behind (l := (cstring m dest).length) h (Nat.le_refl _)
  rw [kstrcat, kstrlen_eq]
  rw [copyFrom_start hrounds hread]
  rfl

theorem kstrncat_contract {n : Word} (h : Apart src (min n.toNat ((cstring m src).length + 1)) dest
    ((cstring m dest).length + min n.toNat (cstring m src).length + 1)) :
    ∃ r, (∀ rounds > min n.toNat (cstring m src).length, kstrncat rounds dest src n m = some r) ∧
      Contract m dest (cstring m dest) ((cstring m src).take n.toNat) r ∧
      r.2.reads = addressesAt src (min n.toNat ((cstring m src).length + 1)) := by
  have hdest := length_cstring_lt m dest
  have hroom : (cstring m dest).length + ((cstring m src).take n.toNat).length < 2 ^ 64 := by
    rw [List.length_take]
    by_cases hzero : n.toNat = 0
    · omega
    · have hlt := h.lt (by omega)
      omega
  refine ⟨_, fun rounds hrounds => ?_,
    contract_finished (bytesAt_cstring m dest) (nul_not_mem_cstring m dest) hroom, rfl⟩
  have hbehind : min n.toNat ((cstring m src).length + 1) ≤
      min n.toNat (cstring m src).length + 1 := by omega
  have hread := Apart.behind (l := (cstring m dest).length) h hbehind
  rw [kstrncat, kstrlen_eq]
  rw [← copied_zero m (dest + BitVec.ofNat 64 (cstring m dest).length) src,
    kstrncatFrom_copied (i := 0) (Nat.zero_le _) (by omega) hread]
  rfl

/-- Copying and concatenating keep to the contract of C strings. -/
theorem copies_contract (m : Memory) (dest src : Word) : CopiesContract m dest src where
  strcpy := kstrcpy_contract
  strcat := kstrcat_contract
  strncat _ := kstrncat_contract

def twoStrings : Memory where
  byte x :=
    if x = 0x1000#64 then ascii 'a' else if x = 0x1001#64 then ascii 'b'
    else if x = 0x2000#64 then ascii 'x' else if x = 0x2001#64 then ascii 'y'
    else if x = 0x2002#64 then ascii 'z' else 0#8
  nul := ⟨0#64, by decide⟩

theorem cstring_twoStrings :
    cstring twoStrings 0x1000#64 = [ascii 'a', ascii 'b'] ∧
      cstring twoStrings 0x2000#64 = [ascii 'x', ascii 'y', ascii 'z'] :=
  ⟨cstring_eq_of_bytes (by decide) (by decide), cstring_eq_of_bytes (by decide) (by decide)⟩

/-- `ab` is copied over `xyz`, appended to it, and appended without its `b`. -/
theorem copies_contract_twoStrings :
    (∃ r, kstrcpy 3 0x2000#64 0x1000#64 twoStrings = some r ∧
      Contract twoStrings 0x2000#64 [] [ascii 'a', ascii 'b'] r) ∧
    (∃ r, kstrcat 3 0x2000#64 0x1000#64 twoStrings = some r ∧
      Contract twoStrings 0x2000#64 [ascii 'x', ascii 'y', ascii 'z'] [ascii 'a', ascii 'b'] r) ∧
    ∃ r, kstrncat 2 0x2000#64 0x1000#64 1#64 twoStrings = some r ∧
      Contract twoStrings 0x2000#64 [ascii 'x', ascii 'y', ascii 'z'] [ascii 'a'] r ∧
      r.2.reads = [0x1000#64] := by
  have h := copies_contract twoStrings 0x2000#64 0x1000#64
  obtain ⟨hsrc, hdest⟩ := cstring_twoStrings
  have hcpy := h.strcpy
  have hcat := h.strcat
  have hncat := h.strncat 1#64
  rw [hsrc] at hcpy
  rw [hsrc, hdest] at hcat hncat
  obtain ⟨r₁, hr₁, hcontract₁⟩ := hcpy (by unfold Apart; decide)
  obtain ⟨r₂, hr₂, hcontract₂⟩ := hcat (by unfold Apart; decide)
  obtain ⟨r₃, hr₃, hcontract₃, hreads⟩ := hncat (by unfold Apart; decide)
  exact ⟨⟨r₁, hr₁ 3 (by decide), hcontract₁⟩, ⟨r₂, hr₂ 3 (by decide), hcontract₂⟩,
    r₃, hr₃ 2 (by decide), hcontract₃, hreads⟩

end FenwickOS.Libk
