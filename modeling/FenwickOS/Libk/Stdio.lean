import FenwickOS.Lib.CString
import FenwickOS.Lib.Numerals

/-! `kprintf_va` of lib/libk/src/stdio.rs: the bytes that it passes to `kputc`. -/
namespace FenwickOS.Libk
open Machine

def kputs (m : Memory) (s : Word) : List Byte := cstring m s

/-- The `while v > 0` loops that fill a buffer from its end, with `slots` places left. `none` is
the bounds panic of `buf[j]`. -/
def fillDigits (digit : Word → Byte) (next : Word → Word) : Nat → Word → List Byte →
    Option (List Byte)
  | 0, v, buf => if v = 0#64 then some buf else none
  | slots + 1, v, buf =>
    if v = 0#64 then some buf else fillDigits digit next slots (next v) (digit v :: buf)

def decDigit (v : Word) : Byte := ascii '0' + (v % 10#64).setWidth 8

def hexDigit (nibble : Byte) : Byte :=
  if nibble < 10#8 then ascii '0' + nibble else ascii 'a' + (nibble - 10#8)

def nibble (v : Word) : Byte := (v &&& 0xF#64).setWidth 8

def decDigits (v : Word) : Option (List Byte) :=
  if v = 0#64 then some [ascii '0'] else fillDigits decDigit (fun v => v / 10#64) 20 v []

def hexDigits (v : Word) : Option (List Byte) :=
  if v = 0#64 then some [ascii '0']
  else fillDigits (fun v => hexDigit (nibble v)) (fun v => v >>> 4) 16 v []

/-- The arms of `kprintf_va` that take an argument. -/
inductive Conv
  | s | c | d | x | p
  deriving DecidableEq

def Conv.emit (m : Memory) (arg : Word) : Conv → Option (List Byte)
  | .s => some (kputs m arg)
  | .c => some [arg.setWidth 8]
  | .d => decDigits arg
  | .x => (hexDigits arg).map fun digits => ascii '0' :: ascii 'x' :: digits
  | .p =>
    some (ascii '0' :: ascii 'x' ::
      (List.range 16).map fun j => hexDigit (nibble (arg >>> (60 - j * 4))))

def conv? (c : Byte) : Option Conv :=
  if c = ascii 's' then some .s
  else if c = ascii 'c' then some .c
  else if c = ascii 'd' then some .d
  else if c = ascii 'x' ∨ c = ascii 'X' then some .x
  else if c = ascii 'p' then some .p
  else none

/-- The locals of the loop and the bytes passed to `kputc` so far. -/
structure Printf where
  inFormat : Bool
  cursor : Nat
  out : List Byte
  deriving DecidableEq

/-- One round of the loop on the byte `c`; `args` is the array behind the pointer. -/
def kprintfStep (m : Memory) (args : Nat → Word) (s : Printf) (c : Byte) : Option Printf :=
  if s.inFormat then
    match conv? c with
    | some conv =>
      (conv.emit m (args s.cursor)).map fun bytes => ⟨false, s.cursor + 1, s.out ++ bytes⟩
    | none =>
      if c = ascii '%' then some ⟨false, s.cursor, s.out ++ [ascii '%']⟩
      else some ⟨false, s.cursor, s.out ++ [ascii '%', c]⟩
  else if c = ascii '%' then some { s with inFormat := true }
  else some { s with out := s.out ++ [c] }

def kprintfLoop (m : Memory) (args : Nat → Word) (s : Printf) (fmt : List Byte) : Option Printf :=
  fmt.foldlM (kprintfStep m args) s

def kprintfVa (m : Memory) (fmt : Word) (args : Nat → Word) : Option (List Byte) :=
  (kprintfLoop m args ⟨false, 0, []⟩ (cstring m fmt)).map Printf.out

variable {m : Memory} {digit : Word → Byte} {next : Word → Word} {v : Word} {buf bytes : List Byte}
  {slots b : Nat}

/-! ### The digit loops -/

theorem fillDigits_eq (hb : 1 < b) (hdigit : ∀ v : Word, digit v = digitByte (v.toNat % b))
    (hnext : ∀ v : Word, (next v).toNat = v.toNat / b) (hv : v.toNat < b ^ slots) :
    fillDigits digit next slots v buf = some (writeDigits (Nat.digits b v.toNat) ++ buf) := by
  induction slots generalizing v buf with
  | zero =>
    have hz : v = 0#64 := BitVec.eq_of_toNat_eq (by simpa using hv)
    subst hz
    simp [fillDigits, writeDigits]
  | succ slots ih =>
    unfold fillDigits
    split
    · rename_i hz
      subst hz
      simp [writeDigits]
    · rename_i hz
      have hne : v.toNat ≠ 0 := fun h => hz (BitVec.eq_of_toNat_eq h)
      rw [ih (by rw [hnext]; exact Nat.div_lt_of_lt_mul (Nat.pow_succ' ▸ hv)), hnext, hdigit,
        writeDigits_digits hb hne, List.append_assoc]
      rfl

theorem decDigit_eq (v : Word) : decDigit v = digitByte (v.toNat % 10) := by
  have hlt : v.toNat % 10 < 10 := Nat.mod_lt _ (by decide)
  rw [decDigit, digitByte, if_pos hlt]
  congr 1

theorem hexDigit_nibble (v : Word) : hexDigit (nibble v) = digitByte (v.toNat % 16) := by
  have hnibble : nibble v = BitVec.ofNat 8 (v.toNat % 16) := by
    apply BitVec.eq_of_toNat_eq
    rw [nibble, BitVec.toNat_setWidth, BitVec.toNat_and, BitVec.toNat_ofNat]
    exact congrArg (· % 2 ^ 8) (Nat.and_two_pow_sub_one_eq_mod v.toNat 4)
  have hall : ∀ d < 16, hexDigit (BitVec.ofNat 8 d) = digitByte d := by decide
  rw [hnibble]
  exact hall _ (Nat.mod_lt _ (by decide))

/-- With its branch for zero, a loop prints the numeral of the value. -/
theorem fillDigits_numeral (hb : 1 < b) (hdigit : ∀ v : Word, digit v = digitByte (v.toNat % b))
    (hnext : ∀ v : Word, (next v).toNat = v.toNat / b) (hv : v.toNat < b ^ slots) :
    (if v = 0#64 then some [ascii '0'] else fillDigits digit next slots v []) =
      some (numeral b v.toNat) := by
  have hzero : v = 0#64 ↔ v.toNat = 0 := BitVec.toNat_inj.symm
  rw [numeral]
  simp only [hzero]
  split
  · rfl
  · rw [fillDigits_eq hb hdigit hnext hv, List.append_nil]

theorem decDigits_eq (v : Word) : decDigits v = some (numeral 10 v.toNat) := by
  have hlt := v.isLt
  have hdiv (w : Word) : (w / 10#64).toNat = w.toNat / 10 := BitVec.toNat_udiv
  exact fillDigits_numeral (by decide) decDigit_eq hdiv (by omega)

theorem hexDigits_eq (v : Word) : hexDigits v = some (numeral 16 v.toNat) := by
  have hlt := v.isLt
  have hshift (w : Word) : (w >>> 4).toNat = w.toNat / 16 := by
    rw [BitVec.toNat_ushiftRight, Nat.shiftRight_eq_div_pow]
  exact fillDigits_numeral (by decide) hexDigit_nibble hshift (by omega)

/-- Neither digit buffer overflows, so no arm panics. -/
theorem emit_some (m : Memory) (arg : Word) (conv : Conv) :
    ∃ bytes, conv.emit m arg = some bytes := by
  cases conv with
  | s => exact ⟨_, rfl⟩
  | c => exact ⟨_, rfl⟩
  | d => exact ⟨_, decDigits_eq arg⟩
  | x => exact ⟨_, by rw [Conv.emit, hexDigits_eq]; rfl⟩
  | p => exact ⟨_, rfl⟩

end FenwickOS.Libk
