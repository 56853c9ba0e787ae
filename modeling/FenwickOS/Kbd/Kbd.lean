import FenwickOS.Lib.Ring
import FenwickOS.Lib.Words

/-! The keyboard module kernel/kbd/kbd.c, which the interrupt handler feeds. -/
namespace FenwickOS.Kbd
open Machine

def kbdBufferSize : Nat := 256

instance : NeZero kbdBufferSize := ⟨by decide⟩

def kbdModShift : BitVec 32 := 1#32 <<< 0
def kbdModCtrl : BitVec 32 := 1#32 <<< 1
def kbdModAlt : BitVec 32 := 1#32 <<< 2
def kbdModCaps : BitVec 32 := 1#32 <<< 3

def kbdScancodeLower : Nat → Byte := designated
  [(0x01, '\x1b'), (0x02, '1'), (0x03, '2'), (0x04, '3'), (0x05, '4'), (0x06, '5'), (0x07, '6'),
    (0x08, '7'), (0x09, '8'), (0x0A, '9'), (0x0B, '0'), (0x0C, '-'), (0x0D, '='), (0x0E, '\x08'),
    (0x0F, '\x09'), (0x10, 'q'), (0x11, 'w'), (0x12, 'e'), (0x13, 'r'), (0x14, 't'), (0x15, 'y'),
    (0x16, 'u'), (0x17, 'i'), (0x18, 'o'), (0x19, 'p'), (0x1A, '['), (0x1B, ']'), (0x1C, '\x0a'),
    (0x1E, 'a'), (0x1F, 's'), (0x20, 'd'), (0x21, 'f'), (0x22, 'g'), (0x23, 'h'), (0x24, 'j'),
    (0x25, 'k'), (0x26, 'l'), (0x27, ';'), (0x28, '\x27'), (0x29, '\x60'), (0x2B, '\x5c'),
    (0x2C, 'z'), (0x2D, 'x'), (0x2E, 'c'), (0x2F, 'v'), (0x30, 'b'), (0x31, 'n'), (0x32, 'm'),
    (0x33, ','), (0x34, '.'), (0x35, '/'), (0x37, '*'), (0x39, ' '), (0x56, '|')]

def kbdScancodeUpper : Nat → Byte := designated
  [(0x01, '\x1b'), (0x02, '!'), (0x03, '@'), (0x04, '#'), (0x05, '$'), (0x06, '%'), (0x07, '^'),
    (0x08, '&'), (0x09, '*'), (0x0A, '('), (0x0B, ')'), (0x0C, '_'), (0x0D, '+'), (0x0E, '\x08'),
    (0x0F, '\x09'), (0x10, 'Q'), (0x11, 'W'), (0x12, 'E'), (0x13, 'R'), (0x14, 'T'), (0x15, 'Y'),
    (0x16, 'U'), (0x17, 'I'), (0x18, 'O'), (0x19, 'P'), (0x1A, '\x7b'), (0x1B, '\x7d'),
    (0x1C, '\x0a'), (0x1E, 'A'), (0x1F, 'S'), (0x20, 'D'), (0x21, 'F'), (0x22, 'G'), (0x23, 'H'),
    (0x24, 'J'), (0x25, 'K'), (0x26, 'L'), (0x27, ':'), (0x28, '\x22'), (0x29, '~'), (0x2B, '|'),
    (0x2C, 'Z'), (0x2D, 'X'), (0x2E, 'C'), (0x2F, 'V'), (0x30, 'B'), (0x31, 'N'), (0x32, 'M'),
    (0x33, '<'), (0x34, '>'), (0x35, '?'), (0x37, '*'), (0x39, ' ')]

/-- The statics of the module; `kbd_buffer` and its two indices are one ring. -/
structure KbdState where
  kbdBuffer : Ring Byte kbdBufferSize
  kbdModifiers : BitVec 32
  kbdPressed : Fin 128 → Bool
  kbdExtended : Bool

def kbdInit (s : KbdState) : KbdState where
  kbdBuffer := ⟨fun _ => 0#8, 0, 0⟩
  kbdModifiers := 0#32
  kbdPressed := Function.update s.kbdPressed 0x3A false
  kbdExtended := false

def kbdBufferPush (c : Byte) (s : KbdState) : KbdState :=
  if c = 0#8 then s else { s with kbdBuffer := s.kbdBuffer.push c }

def isShiftKey (code : Fin 128) : Prop := code = 0x2A ∨ code = 0x36

instance (code : Fin 128) : Decidable (isShiftKey code) := by
  unfold isShiftKey
  infer_instance

/-- Keys that change `kbd_modifiers` and give no character. -/
def isModifierKey (code : Fin 128) : Prop :=
  isShiftKey code ∨ code = 0x1D ∨ code = 0x38 ∨ code = 0x3A

instance (code : Fin 128) : Decidable (isModifierKey code) := by
  unfold isModifierKey
  infer_instance

/-- The character of a make code under the modifiers. -/
def kbdTranslate (code : Fin 128) (modifiers : BitVec 32) : Byte :=
  let shift := modifiers &&& kbdModShift != 0#32
  let caps := modifiers &&& kbdModCaps != 0#32
  let c := if shift then kbdScancodeUpper code.val else kbdScancodeLower code.val
  if c ≥ ascii 'a' ∧ c ≤ ascii 'z' then
    if caps then c - ascii 'a' + ascii 'A' else c
  else if c ≥ ascii 'A' ∧ c ≤ ascii 'Z' then
    if !shift && caps then c - ascii 'A' + ascii 'a' else c
  else c

def kbdRelease (code : Fin 128) (s : KbdState) : KbdState :=
  let s := { s with kbdPressed := Function.update s.kbdPressed code false }
  if isShiftKey code then { s with kbdModifiers := s.kbdModifiers &&& ~~~kbdModShift }
  else if code = 0x1D then { s with kbdModifiers := s.kbdModifiers &&& ~~~kbdModCtrl }
  else if code = 0x38 then { s with kbdModifiers := s.kbdModifiers &&& ~~~kbdModAlt }
  else s

def kbdPress (code : Fin 128) (s : KbdState) : KbdState :=
  let s := { s with kbdPressed := Function.update s.kbdPressed code true }
  if isShiftKey code then { s with kbdModifiers := s.kbdModifiers ||| kbdModShift }
  else if code = 0x1D then { s with kbdModifiers := s.kbdModifiers ||| kbdModCtrl }
  else if code = 0x38 then { s with kbdModifiers := s.kbdModifiers ||| kbdModAlt }
  else if code = 0x3A then { s with kbdModifiers := s.kbdModifiers ^^^ kbdModCaps }
  else kbdBufferPush (kbdTranslate code s.kbdModifiers) s

/-- `scancode` is the byte read from port 0x60. -/
def kbdHandler (scancode : Byte) (s : KbdState) : KbdState :=
  if scancode = 0xE0#8 then { s with kbdExtended := true }
  else
    let released := scancode &&& 0x80#8 != 0#8
    let code := scancode &&& 0x7F#8
    let s := { s with kbdExtended := false }
    if h : code.toNat < 128 then
      if released then kbdRelease ⟨code.toNat, h⟩ s else kbdPress ⟨code.toNat, h⟩ s
    else s

def kbdGetchar (s : KbdState) : Byte × KbdState :=
  match s.kbdBuffer.pop with
  | none => (0#8, s)
  | some (c, buffer) => (c, { s with kbdBuffer := buffer })

def kbdHasInput (s : KbdState) : Bool := s.kbdBuffer.start != s.kbdBuffer.stop

def KbdState.boot : KbdState := ⟨⟨fun _ => 0#8, 0, 0⟩, 0#32, fun _ => false, false⟩

variable {s : KbdState} {c scancode : Byte}

theorem kbdHasInput_iff : kbdHasInput s = true ↔ s.kbdBuffer.contents ≠ [] := by
  rw [Ne, Ring.contents_eq_nil, kbdHasInput, bne_iff_ne]

theorem contents_kbdBufferPush (c : Byte) (s : KbdState) :
    (kbdBufferPush c s).kbdBuffer.contents = s.kbdBuffer.contents ∨
    (kbdBufferPush c s).kbdBuffer.contents = s.kbdBuffer.contents ++ [c] := by
  unfold kbdBufferPush
  split
  · exact Or.inl rfl
  · rw [Ring.contents_push]
    split
    · exact Or.inl rfl
    · exact Or.inr rfl

theorem contents_kbdHandler (scancode : Byte) (s : KbdState) :
    ∃ cs, (kbdHandler scancode s).kbdBuffer.contents = s.kbdBuffer.contents ++ cs := by
  have same {t : KbdState} (h : t.kbdBuffer = s.kbdBuffer) :
      ∃ cs, t.kbdBuffer.contents = s.kbdBuffer.contents ++ cs :=
    ⟨[], by rw [h, List.append_nil]⟩
  unfold kbdHandler
  dsimp only
  split
  · exact same rfl
  · split
    · split
      · unfold kbdRelease
        dsimp only
        repeat' split
        all_goals exact same rfl
      · unfold kbdPress
        dsimp only
        repeat' split
        iterate 4 exact same rfl
        rcases contents_kbdBufferPush _ _ with h | h
        · exact ⟨[], h.trans (List.append_nil _).symm⟩
        · exact ⟨_, h⟩
    · exact same rfl

end FenwickOS.Kbd
