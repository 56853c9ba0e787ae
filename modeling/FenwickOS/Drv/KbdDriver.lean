import FenwickOS.Drv.Core
import FenwickOS.Lib.Ring

/-! The keyboard driver kernel/drv/drv_kbd.c. It keeps a ring buffer and key states of its own;
`kbd_handler_isr`, the only function that fills them, has no caller in the kernel. -/
namespace FenwickOS.Drv
open Machine

def bufferSize : Nat := 256

instance : NeZero bufferSize := ⟨by decide⟩

structure KbdDriver where
  kbdBuffer : Ring Byte bufferSize
  shift : Bool
  ctrl : Bool
  alt : Bool
  caps : Bool
  ext : Bool
  kbdState : Fin 128 → Bool

def bufPush (c : Byte) (s : KbdDriver) : KbdDriver :=
  if c = 0#8 then s else { s with kbdBuffer := s.kbdBuffer.push c }

def lower : Nat → Byte := designated
  [(0x02, '1'), (0x03, '2'), (0x04, '3'), (0x05, '4'), (0x06, '5'), (0x07, '6'), (0x08, '7'),
    (0x09, '8'), (0x0A, '9'), (0x0B, '0'), (0x0C, '-'), (0x0D, '='), (0x0E, '\x08'),
    (0x0F, '\x09'), (0x10, 'q'), (0x11, 'w'), (0x12, 'e'), (0x13, 'r'), (0x14, 't'), (0x15, 'y'),
    (0x16, 'u'), (0x17, 'i'), (0x18, 'o'), (0x19, 'p'), (0x1A, '['), (0x1B, ']'), (0x1C, '\x0a'),
    (0x1E, 'a'), (0x1F, 's'), (0x20, 'd'), (0x21, 'f'), (0x22, 'g'), (0x23, 'h'), (0x24, 'j'),
    (0x25, 'k'), (0x26, 'l'), (0x27, ';'), (0x28, '\x27'), (0x29, '\x60'), (0x2B, '\x5c'),
    (0x2C, 'z'), (0x2D, 'x'), (0x2E, 'c'), (0x2F, 'v'), (0x30, 'b'), (0x31, 'n'), (0x32, 'm'),
    (0x33, ','), (0x34, '.'), (0x35, '/'), (0x39, ' ')]

def upper : Nat → Byte := designated
  [(0x02, '!'), (0x03, '@'), (0x04, '#'), (0x05, '$'), (0x06, '%'), (0x07, '^'), (0x08, '&'),
    (0x09, '*'), (0x0A, '('), (0x0B, ')'), (0x0C, '_'), (0x0D, '+'), (0x0E, '\x08'),
    (0x0F, '\x09'), (0x10, 'Q'), (0x11, 'W'), (0x12, 'E'), (0x13, 'R'), (0x14, 'T'), (0x15, 'Y'),
    (0x16, 'U'), (0x17, 'I'), (0x18, 'O'), (0x19, 'P'), (0x1A, '\x7b'), (0x1B, '\x7d'),
    (0x1C, '\x0a'), (0x1E, 'A'), (0x1F, 'S'), (0x20, 'D'), (0x21, 'F'), (0x22, 'G'), (0x23, 'H'),
    (0x24, 'J'), (0x25, 'K'), (0x26, 'L'), (0x27, ':'), (0x28, '\x22'), (0x29, '~'), (0x2B, '|'),
    (0x2C, 'Z'), (0x2D, 'X'), (0x2E, 'C'), (0x2F, 'V'), (0x30, 'B'), (0x31, 'N'), (0x32, 'M'),
    (0x33, '<'), (0x34, '>'), (0x35, '?'), (0x39, ' ')]

def scancodeToAscii (sc : Byte) (shift caps : Bool) : Byte :=
  if sc.toNat ≥ 128 then 0#8
  else
    let c := if shift then upper sc.toNat else lower sc.toNat
    if caps then
      if c ≥ ascii 'a' ∧ c ≤ ascii 'z' then c - ascii 'a' + ascii 'A'
      else if c ≥ ascii 'A' ∧ c ≤ ascii 'Z' then c - ascii 'A' + ascii 'a'
      else c
    else c

/-- `status` and `sc` are the bytes on ports 0x64 and 0x60. -/
def kbdHandlerIsr (status sc : Byte) (s : KbdDriver) : KbdDriver :=
  if status &&& 0x01#8 = 0#8 then s
  else if sc = 0xE0#8 then { s with ext := true }
  else
    let released := sc &&& 0x80#8 != 0#8
    let code := sc &&& 0x7F#8
    let s := { s with ext := false }
    if h : code.toNat < 128 then
      let s := { s with kbdState := Function.update s.kbdState ⟨code.toNat, h⟩ (!released) }
      if code = 0x2A#8 ∨ code = 0x36#8 then { s with shift := !released }
      else if code = 0x1D#8 then { s with ctrl := !released }
      else if code = 0x38#8 then { s with alt := !released }
      else if code = 0x3A#8 ∧ !released then { s with caps := !s.caps }
      else if released then s
      else bufPush (scancodeToAscii code s.shift s.caps) s
    else s

def kbdDriverInit (s : KbdDriver) : Int × KbdDriver :=
  (0, { kbdBuffer := s.kbdBuffer.clear
        shift := false
        ctrl := false
        alt := false
        caps := false
        ext := false
        kbdState := fun _ => false })

/-- The loop of `kbd_driver_read`: at most `len` characters, each popped from a buffer that ends
before `rounds` run out. -/
def drain : (rounds : Nat) → (len : Nat) → KbdDriver → List Byte × KbdDriver
  | 0, _, s => ([], s)
  | _ + 1, 0, s => ([], s)
  | rounds + 1, len + 1, s =>
    match s.kbdBuffer.pop with
    | none => ([], s)
    | some (c, buffer) =>
      let (cs, s) := drain rounds len { s with kbdBuffer := buffer }
      (c :: cs, s)

def kbdDriverRead (buf len : Word) (s : KbdDriver) : Int × List Byte × KbdDriver :=
  if buf = 0#64 ∨ len = 0#64 then (-1, [], s)
  else
    let (cs, s) := drain bufferSize len.toNat s
    ((BitVec.ofNat 32 cs.length).toInt, cs, s)

/-- `none` is a read past the end of `kbd_state`: the index is any byte. -/
def kbdDriverIoctl (cmd : BitVec 32) (arg : Word) (s : KbdDriver) : Option (Int × KbdDriver) :=
  if cmd = 0#32 then some (s.shift.toInt, s)
  else if cmd = 1#32 then some (s.ctrl.toInt, s)
  else if cmd = 2#32 then some (s.alt.toInt, s)
  else if cmd = 3#32 then some (s.caps.toInt, s)
  else if cmd = 5#32 then some ((s.kbdBuffer.start != s.kbdBuffer.stop).toInt, s)
  else if cmd = 10#32 then
    if h : (arg.setWidth 8).toNat < 128 then some ((s.kbdState ⟨_, h⟩).toInt, s) else none
  else some (-1, s)

variable {s : KbdDriver} {rounds len : Nat}

theorem drain_empty (h : s.kbdBuffer.contents = []) : drain rounds len s = ([], s) := by
  have hpop := Ring.pop_eq_none.mpr h
  cases rounds with
  | zero => rfl
  | succ rounds =>
    cases len with
    | zero => rfl
    | succ len => simp [drain, hpop]

end FenwickOS.Drv
