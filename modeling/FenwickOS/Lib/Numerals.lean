import FenwickOS.Lib.Words
import Mathlib.Data.Nat.Digits.Lemmas

/-! Numerals as byte strings: digits from `0` to `9` and on from `a`. -/
namespace Machine

variable {b d n width : Nat} {ds : List Nat}

def digitByte (d : Nat) : Byte :=
  if d < 10 then ascii '0' + BitVec.ofNat 8 d else ascii 'a' + BitVec.ofNat 8 (d - 10)

/-- The digits, least significant first, written the other way round. -/
def writeDigits (ds : List Nat) : List Byte := ds.reverse.map digitByte

/-- The numeral of `n` in base `b`: without leading zeros, `0` for zero. -/
def numeral (b n : Nat) : List Byte := if n = 0 then [ascii '0'] else writeDigits (Nat.digits b n)

def padded (b width n : Nat) : List Byte :=
  List.replicate (width - (Nat.digits b n).length) (ascii '0') ++ writeDigits (Nat.digits b n)

def digitValue (c : Byte) : Nat := if c.toNat < 58 then c.toNat - 48 else c.toNat - 87

/-- The number that a string of digits stands for. -/
def value (b : Nat) (s : List Byte) : Nat := s.foldl (fun n c => b * n + digitValue c) 0

theorem digitValue_digitByte (h : d < 36) : digitValue (digitByte d) = d := by
  have hall : ∀ d < 36, digitValue (digitByte d) = d := by decide
  exact hall d h

theorem digitByte_eq_zero (h : d < 36) (hd : digitByte d = ascii '0') : d = 0 := by
  have hall : ∀ d < 36, digitByte d = ascii '0' → d = 0 := by decide
  exact hall d h hd

theorem writeDigits_cons (d : Nat) (ds : List Nat) :
    writeDigits (d :: ds) = writeDigits ds ++ [digitByte d] := by
  simp [writeDigits]

theorem value_snoc (xs : List Byte) (c : Byte) :
    value b (xs ++ [c]) = b * value b xs + digitValue c := by
  simp [value]

theorem value_writeDigits (h : ∀ d ∈ ds, d < 36) : value b (writeDigits ds) = Nat.ofDigits b ds := by
  induction ds with
  | nil => rfl
  | cons d ds ih =>
    rw [writeDigits_cons, value_snoc, ih fun d hd => h d (List.mem_cons_of_mem _ hd),
      digitValue_digitByte (h d List.mem_cons_self), Nat.ofDigits_cons, Nat.add_comm]

theorem digits_lt (hb : 1 < b) (hb' : b ≤ 36) (n : Nat) : ∀ d ∈ Nat.digits b n, d < 36 :=
  fun _ hd => (Nat.digits_lt_base hb hd).trans_le hb'

/-! ### Numerals -/

theorem value_numeral (hb : 1 < b) (hb' : b ≤ 36) (n : Nat) : value b (numeral b n) = n := by
  rw [numeral]
  split
  · rename_i hn
    rw [hn]
    simp [value, digitValue, ascii]
  · rw [value_writeDigits (digits_lt hb hb' n), Nat.ofDigits_digits]

theorem head_numeral (hb : 1 < b) (hb' : b ≤ 36) (h : (numeral b n).head? = some (ascii '0')) :
    n = 0 := by
  by_contra hn
  have hne := Nat.digits_ne_nil_iff_ne_zero (b := b).mpr hn
  rw [numeral, if_neg hn, writeDigits, List.head?_map, List.head?_reverse,
    List.getLast?_eq_some_getLast hne, Option.map_some, Option.some.injEq] at h
  have hzero := digitByte_eq_zero (digits_lt hb hb' n _ (List.getLast_mem hne)) h
  exact Nat.getLast_digit_ne_zero b hn hzero

theorem writeDigits_digits (hb : 1 < b) (hn : n ≠ 0) :
    writeDigits (Nat.digits b n) = writeDigits (Nat.digits b (n / b)) ++ [digitByte (n % b)] := by
  rw [Nat.digits_def' hb (Nat.pos_of_ne_zero hn), writeDigits_cons]

/-! ### Padding -/

theorem padded_succ (hb : 1 < b) (width n : Nat) :
    padded b (width + 1) n = padded b width (n / b) ++ [digitByte (n % b)] := by
  by_cases hn : n = 0
  · subst hn
    simp [padded, writeDigits, List.replicate_succ', digitByte]
  · have hlength : (Nat.digits b n).length = (Nat.digits b (n / b)).length + 1 := by
      rw [Nat.digits_def' hb (Nat.pos_of_ne_zero hn), List.length_cons]
    rw [padded, padded, writeDigits_digits hb hn, hlength, Nat.add_sub_add_right, List.append_assoc]

/-- A padded numeral has the digits of the lowest places. -/
theorem padded_eq (hb : 1 < b) (h : n < b ^ width) :
    padded b width n =
      (List.range width).map fun j => digitByte (n / b ^ (width - 1 - j) % b) := by
  induction width generalizing n with
  | zero =>
    obtain rfl : n = 0 := by simpa using h
    simp [padded, writeDigits]
  | succ width ih =>
    rw [padded_succ hb, ih (Nat.div_lt_of_lt_mul (Nat.pow_succ' ▸ h)), List.range_succ,
      List.map_append, List.map_singleton]
    congr 1
    · refine List.map_congr_left fun j hj => ?_
      have hlt := List.mem_range.mp hj
      have hplace : width + 1 - 1 - j = (width - 1 - j) + 1 := by omega
      rw [hplace, Nat.pow_succ', Nat.div_div_eq_div_mul]
    · simp

theorem length_padded (hb : 1 < b) (h : n < b ^ width) : (padded b width n).length = width := by
  rw [padded_eq hb h, List.length_map, List.length_range]

theorem value_padded (hb : 1 < b) (hb' : b ≤ 36) (width n : Nat) :
    value b (padded b width n) = n := by
  have hzeros (k : Nat) : value b (List.replicate k (ascii '0')) = 0 := by
    induction k with
    | zero => rfl
    | succ k ih =>
      rw [List.replicate_succ', value_snoc, ih]
      simp [digitValue, ascii]
  have hvalue := value_writeDigits (b := b) (digits_lt hb hb' n)
  rw [Nat.ofDigits_digits] at hvalue
  rw [padded, value, List.foldl_append]
  change (writeDigits (Nat.digits b n)).foldl _ (value b _) = n
  rw [hzeros]
  exact hvalue

/-! ### Signed numerals -/

/-- The numeral of an integer, with a minus sign before the magnitude of a negative one. -/
def signedNumeral (b : Nat) (z : Int) : List Byte :=
  if z < 0 then ascii '-' :: numeral b z.natAbs else numeral b z.natAbs

/-- The integer that such a string stands for. -/
def signedValue (b : Nat) : List Byte → Int
  | [] => 0
  | c :: s => if c = ascii '-' then -(value b s : Int) else value b (c :: s)

theorem digitByte_ne_minus (h : d < 36) : digitByte d ≠ ascii '-' := by
  have hall : ∀ d < 36, digitByte d ≠ ascii '-' := by decide
  exact hall d h

theorem numeral_cons (hb : 1 < b) (hb' : b ≤ 36) (n : Nat) :
    ∃ c s, numeral b n = c :: s ∧ c ≠ ascii '-' := by
  rw [numeral]
  split
  · exact ⟨_, [], rfl, by decide⟩
  · rename_i hn
    have hne := Nat.digits_ne_nil_iff_ne_zero (b := b).mpr hn
    rw [writeDigits, ← List.dropLast_append_getLast hne, List.reverse_append]
    refine ⟨_, _, rfl, digitByte_ne_minus (digits_lt hb hb' n _ (List.getLast_mem hne))⟩

theorem signedValue_signedNumeral (hb : 1 < b) (hb' : b ≤ 36) (z : Int) :
    signedValue b (signedNumeral b z) = z := by
  rw [signedNumeral]
  split
  · rw [signedValue, if_pos rfl, value_numeral hb hb']
    omega
  · obtain ⟨c, s, he, hc⟩ := numeral_cons hb hb' z.natAbs
    rw [he, signedValue, if_neg hc, ← he, value_numeral hb hb']
    omega

/-- The unsigned numeral of a number is no signed numeral of a negative one. -/
theorem numeral_ne_signedNumeral (hb : 1 < b) (hb' : b ≤ 36) (n : Nat) {z : Int} (hz : z < 0) :
    numeral b n ≠ signedNumeral b z := by
  obtain ⟨c, s, he, hc⟩ := numeral_cons hb hb' n
  rw [signedNumeral, if_pos hz, he]
  intro hsame
  exact hc (List.cons.inj hsame).1

end Machine
