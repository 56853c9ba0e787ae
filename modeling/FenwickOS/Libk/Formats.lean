import FenwickOS.Libk.Variadic

/-! What `kprintf_va` of lib/libk/src/stdio.rs prints for any format, and its numbers as numerals;
`print_hex64`. -/
namespace FenwickOS.Libk
open Machine

/-- The loop of `print_hex64` that fills a buffer from its start, with `slots` places left. `none`
is the bounds panic of `buf[i]`. -/
def fillForward (digit : Word → Byte) (next : Word → Word) : Nat → Word → List Byte →
    Option (List Byte)
  | 0, v, buf => if v = 0#64 then some buf else none
  | slots + 1, v, buf =>
    if v = 0#64 then some buf else fillForward digit next slots (next v) (buf ++ [digit v])

/-- The bytes that `print_hex64` passes to `kputc`, the last one stored first. -/
def printHex64 (val : Word) : Option (List Byte) :=
  if val = 0#64 then some [ascii '0']
  else
    (fillForward (fun v => hexDigit (nibble v)) (fun v => v >>> 4) 16 val []).map List.reverse

/-- What the format language prints for an argument under the letter `c`. -/
def meaning (m : Memory) (arg : Word) (c : Byte) : Option (List Byte) :=
  if c = ascii 's' then some (cstring m arg)
  else if c = ascii 'c' then some [arg.setWidth 8]
  else if c = ascii 'd' then some (numeral 10 arg.toNat)
  else if c = ascii 'x' ∨ c = ascii 'X' then
    some (ascii '0' :: ascii 'x' :: numeral 16 arg.toNat)
  else if c = ascii 'p' then some (ascii '0' :: ascii 'x' :: padded 16 16 arg.toNat)
  else none

/-- The output of a format whose next argument is the `k`-th. -/
def formatOut (m : Memory) (args : Nat → Word) : Nat → List Byte → List Byte
  | _, [] => []
  | _, [c] => if c = ascii '%' then [] else [c]
  | k, c :: d :: fmt =>
    if c = ascii '%' then
      match meaning m (args k) d with
      | some bytes => bytes ++ formatOut m args (k + 1) fmt
      | none =>
        if d = ascii '%' then ascii '%' :: formatOut m args k fmt
        else ascii '%' :: d :: formatOut m args k fmt
    else c :: formatOut m args k (d :: fmt)

variable {m : Memory} {args : Nat → Word} {k : Nat} {out : List Byte} {digit : Word → Byte}
  {next : Word → Word} {c : Byte}

/-! ### The digit loops -/

theorem fillForward_eq (slots : Nat) (v : Word) (buf : List Byte) :
    (fillForward digit next slots v buf).map List.reverse =
      fillDigits digit next slots v buf.reverse := by
  induction slots generalizing v buf with
  | zero =>
    unfold fillForward fillDigits
    split <;> rfl
  | succ slots ih =>
    unfold fillForward fillDigits
    split
    · rfl
    · rw [ih, List.reverse_append]
      rfl

theorem printHex64_eq (v : Word) : printHex64 v = hexDigits v := by
  unfold printHex64 hexDigits
  rw [fillForward_eq]
  rfl

/-- The digits that `%p` shifts down, from the highest. -/
theorem shifted_digits (v : Word) :
    ((List.range 16).map fun j => hexDigit (nibble (v >>> (60 - j * 4)))) =
      padded 16 16 v.toNat := by
  have hlt := v.isLt
  rw [padded_eq (by decide) (by omega)]
  refine List.map_congr_left fun j hj => ?_
  have hj := List.mem_range.mp hj
  have hpow : (16 : Nat) ^ (16 - 1 - j) = 2 ^ (60 - j * 4) := by
    rw [show (16 : Nat) = 2 ^ 4 from rfl, ← Nat.pow_mul]
    congr 1
    omega
  rw [hexDigit_nibble, BitVec.toNat_ushiftRight, Nat.shiftRight_eq_div_pow, hpow]

/-! ### The loop on a format -/

theorem emit_meaning (m : Memory) (arg : Word) (c : Byte) :
    (conv? c).map (fun conv => conv.emit m arg) = (meaning m arg c).map some := by
  unfold conv? meaning
  split
  · rfl
  · split
    · rfl
    · split
      · simp [Conv.emit, decDigits_eq]
      · split
        · simp [Conv.emit, hexDigits_eq]
        · split
          · simp [Conv.emit, shifted_digits]
          · rfl

theorem kprintfStep_meaning {bytes : List Byte} (h : meaning m (args k) c = some bytes) :
    kprintfStep m args ⟨true, k, out⟩ c = some ⟨false, k + 1, out ++ bytes⟩ := by
  have hemit := emit_meaning m (args k) c
  rw [h, Option.map_some] at hemit
  obtain ⟨conv, hconv, hbytes⟩ := Option.map_eq_some_iff.mp hemit
  simp [kprintfStep, hconv, hbytes]

theorem kprintfStep_other (h : meaning m (args k) c = none) :
    kprintfStep m args ⟨true, k, out⟩ c =
      some ⟨false, k, out ++ if c = ascii '%' then [ascii '%'] else [ascii '%', c]⟩ := by
  have hemit := emit_meaning m (args k) c
  rw [h, Option.map_none, Option.map_eq_none_iff] at hemit
  simp only [kprintfStep, hemit, if_true]
  split <;> rfl

theorem kprintfLoop_cons (s : Printf) (c : Byte) (cs : List Byte) :
    kprintfLoop m args s (c :: cs) =
      (kprintfStep m args s c).bind fun t => kprintfLoop m args t cs := rfl

/-- From between two specifications the loop prints the output of what is left. -/
theorem kprintfLoop_out (m : Memory) (args : Nat → Word) (k : Nat) (fmt out : List Byte) :
    (kprintfLoop m args ⟨false, k, out⟩ fmt).map Printf.out =
      some (out ++ formatOut m args k fmt) := by
  fun_induction formatOut m args k fmt generalizing out with
  | case1 k => simp [kprintfLoop]
  | case2 k =>
    rw [kprintfLoop_cons, kprintfStep_percent]
    simp [kprintfLoop]
  | case3 k c hc =>
    rw [kprintfLoop_text (by simpa using hc)]
    rfl
  | case4 k d fmt bytes h ih =>
    rw [kprintfLoop_cons, kprintfStep_percent, Option.bind_some, kprintfLoop_cons,
      kprintfStep_meaning h, Option.bind_some, ih, List.append_assoc]
  | case5 k fmt h ih =>
    rw [kprintfLoop_cons, kprintfStep_percent, Option.bind_some, kprintfLoop_cons,
      kprintfStep_other h, Option.bind_some, if_pos rfl, ih, List.append_assoc]
    rfl
  | case6 k d fmt h hd ih =>
    rw [kprintfLoop_cons, kprintfStep_percent, Option.bind_some, kprintfLoop_cons,
      kprintfStep_other h, Option.bind_some, if_neg hd, ih, List.append_assoc]
    rfl
  | case7 k c d fmt hc ih =>
    have hstep : kprintfStep m args ⟨false, k, out⟩ c = some ⟨false, k, out ++ [c]⟩ := by
      simp [kprintfStep, hc]
    rw [kprintfLoop_cons, hstep, Option.bind_some, ih, List.append_assoc]
    rfl

/-- The numbers that `kprintf_va` and `print_hex64` print: no digit buffer overflows, and what
comes out are the numerals of the value. -/
structure PrintsNumerals (v : Word) : Prop where
  decimal : decDigits v = some (numeral 10 v.toNat)
  hex : hexDigits v = some (numeral 16 v.toNat)
  hex64 : printHex64 v = some (numeral 16 v.toNat)
  parses : ∀ b ∈ [10, 16], value b (numeral b v.toNat) = v.toNat
  leading : ∀ b ∈ [10, 16], (numeral b v.toNat).head? = some (ascii '0') → v = 0#64
  pointer : (padded 16 16 v.toNat).length = 16 ∧ value 16 (padded 16 16 v.toNat) = v.toNat

theorem printsNumerals (v : Word) : PrintsNumerals v := by
  have hlt := v.isLt
  have hbase : ∀ b ∈ [10, 16], 1 < b ∧ b ≤ 36 := by decide
  refine ⟨decDigits_eq v, hexDigits_eq v, (printHex64_eq v).trans (hexDigits_eq v),
    fun b hb => value_numeral (hbase b hb).1 (hbase b hb).2 _, fun b hb h => ?_,
    length_padded (by decide) (by omega), value_padded (by decide) (by decide) _ _⟩
  exact BitVec.eq_of_toNat_eq (head_numeral (hbase b hb).1 (hbase b hb).2 h)

theorem kprintfVa_out (m : Memory) (fmt : Word) (args : Nat → Word) :
    kprintfVa m fmt args = some (formatOut m args 0 (cstring m fmt)) :=
  kprintfLoop_out m args 0 (cstring m fmt) []

/-- Every format is printed piece by piece, and every number as its numeral. -/
theorem kprintfVa_eq (m : Memory) (fmt : Word) (args : Nat → Word) :
    kprintfVa m fmt args = some (formatOut m args 0 (cstring m fmt)) ∧
      ∀ v, PrintsNumerals v :=
  ⟨kprintfVa_out m fmt args, printsNumerals⟩

/-! ### Signed decimals -/

/-- The format prints its first argument as a signed decimal. -/
def PrintsSigned (m : Memory) (fmt : Word) (args : Nat → Word) : Prop :=
  ∃ out, kprintfVa m fmt args = some out ∧ out = signedNumeral 10 (args 0).toInt ∧
    signedValue 10 out = (args 0).toInt

theorem kprintfVa_decimal {fmt : Word} (hfmt : cstring m fmt = [ascii '%', ascii 'd'])
    (args : Nat → Word) : kprintfVa m fmt args = some (numeral 10 (args 0).toNat) := by
  have hmeaning : meaning m (args 0) (ascii 'd') = some (numeral 10 (args 0).toNat) := rfl
  rw [kprintfVa_out, hfmt, formatOut, if_pos rfl, hmeaning]
  simp [formatOut]

/-- `%d` prints a signed decimal exactly of arguments that are not negative. -/
theorem printsSigned_iff {fmt : Word} (hfmt : cstring m fmt = [ascii '%', ascii 'd'])
    (args : Nat → Word) : PrintsSigned m fmt args ↔ 0 ≤ (args 0).toInt := by
  rw [PrintsSigned, kprintfVa_decimal hfmt]
  constructor
  · rintro ⟨out, hout, hsigned, -⟩
    obtain rfl := Option.some.inj hout
    by_contra hneg
    exact numeral_ne_signedNumeral (by decide) (by decide) _ (by omega) hsigned
  · intro hnonneg
    have habs : (args 0).toInt.natAbs = (args 0).toNat := by
      have hlt := (args 0).isLt
      rw [BitVec.toInt_eq_toNat_cond] at hnonneg ⊢
      split at hnonneg <;> omega
    have hsigned : numeral 10 (args 0).toNat = signedNumeral 10 (args 0).toInt := by
      rw [signedNumeral, if_neg (by omega), habs]
    refine ⟨_, rfl, hsigned, ?_⟩
    rw [hsigned]
    exact signedValue_signedNumeral (by decide) (by decide) _

/-- The number 5. -/
theorem printsSigned_five : PrintsSigned percentD 0x1000#64 fun _ => 5#64 :=
  (printsSigned_iff cstring_percentD _).mpr (by decide)

/-- The number -1 comes out as 2⁶⁴ - 1. -/
theorem not_printsSigned_minus_one : ¬ PrintsSigned percentD 0x1000#64 fun _ => -1#64 := by
  rintro ⟨out, hout, hsigned, -⟩
  rw [kprintfVa_decimal cstring_percentD] at hout
  obtain rfl := Option.some.inj hout
  exact numeral_ne_signedNumeral (by decide) (by decide) _ (by decide) hsigned

end FenwickOS.Libk
