import FenwickOS.Kbd.Characters

/-! Text typed on a keyboard: the scancodes of its keystrokes, and what the decoders make of them. -/
namespace FenwickOS.Kbd
open Machine

local instance neZero_keys_typing : NeZero 128 := ⟨by decide⟩

/-- A key that is pressed and released, with left Shift held around it or not. -/
structure Keystroke where
  key : Fin 128
  shift : Bool

def makeCode (key : Fin 128) : Byte := BitVec.ofNat 8 key.val

def breakCode (key : Fin 128) : Byte := makeCode key ||| 0x80#8

def Keystroke.scancodes (k : Keystroke) : List Byte :=
  if k.shift then
    [makeCode 0x2A, makeCode k.key, breakCode k.key, breakCode 0x2A]
  else [makeCode k.key, breakCode k.key]

/-- No modifier, and not the key whose break code would be the prefix 0xE0. -/
def isCharKey (key : Fin 128) : Bool := !decide (isModifierKey key) && key != 0x60

/-- The rows of a US keyboard: the scancode of the first key, and what stands on the keys, without
and with Shift. -/
def usRows : List (Nat × List Char × List Char) :=
  [(0x02, ['1', '2', '3', '4', '5', '6', '7', '8', '9', '0', '-', '='],
      ['!', '@', '#', '$', '%', '^', '&', '*', '(', ')', '_', '+']),
    (0x0E, ['\x08', '\x09'], []),
    (0x10, ['q', 'w', 'e', 'r', 't', 'y', 'u', 'i', 'o', 'p', '[', ']'],
      ['Q', 'W', 'E', 'R', 'T', 'Y', 'U', 'I', 'O', 'P', '\x7b', '\x7d']),
    (0x1C, ['\x0a'], []),
    (0x1E, ['a', 's', 'd', 'f', 'g', 'h', 'j', 'k', 'l', ';', '\x27', '\x60'],
      ['A', 'S', 'D', 'F', 'G', 'H', 'J', 'K', 'L', ':', '\x22', '~']),
    (0x2B, ['\x5c', 'z', 'x', 'c', 'v', 'b', 'n', 'm', ',', '.', '/'],
      ['|', 'Z', 'X', 'C', 'V', 'B', 'N', 'M', '<', '>', '?']),
    (0x39, [' '], [])]

def usKeys : List (Byte × Keystroke) :=
  usRows.flatMap fun (first, plain, shifted) =>
    plain.mapIdx (fun i c => (ascii c, ⟨Fin.ofNat 128 (first + i), false⟩)) ++
      shifted.mapIdx (fun i c => (ascii c, ⟨Fin.ofNat 128 (first + i), true⟩))

/-- How `c` is typed on that keyboard. -/
def keystrokeFor (c : Byte) : Option Keystroke := usKeys.lookup c

def typing (text : List Byte) : List Byte :=
  text.flatMap fun c => ((keystrokeFor c).map Keystroke.scancodes).getD []

/-- The keystroke for `c` is one for which the table has this character; `caps` is whether Caps Lock
is on. -/
def typable (table : KeyTable) (caps : Bool) (c : Byte) : Bool :=
  match keystrokeFor c with
  | some k => isCharKey k.key && table k.key k.shift caps == c && c != 0#8
  | none => false

/-- Printable characters, backspace, tab and newline. -/
def isText (c : Byte) : Bool :=
  decide (0x20#8 ≤ c ∧ c < 0x7F#8) || c == 0x08#8 || c == 0x09#8 || c == 0x0A#8

variable {table : KeyTable} {f : Flags} {c : Byte} {key : Fin 128} {k : Keystroke}
  {text : List Byte} {caps : Bool} {s : KbdState}

/-! ### One keystroke -/

theorem keyCode_makeCode : ∀ key, keyCode (makeCode key) = key := by decide

theorem keyCode_breakCode : ∀ key, keyCode (breakCode key) = key := by decide

theorem released_makeCode : ∀ key, released (makeCode key) = false := by decide

theorem released_breakCode : ∀ key, released (breakCode key) = true := by decide

theorem makeCode_ne : ∀ key, makeCode key ≠ 0xE0#8 := by decide

theorem breakCode_ne : ∀ key, isCharKey key = true → breakCode key ≠ 0xE0#8 := by decide

theorem isCharKey_iff : isCharKey key = true ↔ ¬ isModifierKey key ∧ key ≠ 0x60 := by
  simp [isCharKey]

theorem key_charKey (h : isCharKey key = true) (f : Flags) (down : Bool) : f.key key down = f := by
  obtain ⟨hmodifier, -⟩ := isCharKey_iff.mp h
  simp only [isModifierKey, not_or] at hmodifier
  obtain ⟨hshift, hctrl, halt, hcaps⟩ := hmodifier
  simp [Flags.key, hshift, hctrl, halt, hcaps]

theorem scan_makeCode (h : isCharKey key = true) (f : Flags) : f.scan (makeCode key) = f := by
  rw [Flags.scan, if_neg (makeCode_ne key), keyCode_makeCode]
  exact key_charKey h f _

theorem scan_breakCode (h : isCharKey key = true) (f : Flags) : f.scan (breakCode key) = f := by
  rw [Flags.scan, if_neg (breakCode_ne key h), keyCode_breakCode]
  exact key_charKey h f _

theorem output_makeCode (h : isCharKey key = true) (hc : table key f.shift f.caps ≠ 0#8) :
    Flags.output table f (makeCode key) = [table key f.shift f.caps] := by
  have hdecode : f.decode table (makeCode key) = table key f.shift f.caps := by
    rw [Flags.decode, keyCode_makeCode, released_makeCode, if_neg]
    have := (isCharKey_iff.mp h).1
    have := makeCode_ne key
    tauto
  rw [Flags.output, hdecode, if_neg hc]

theorem output_of_silent {sc : Byte} (h : released sc = true ∨ isModifierKey (keyCode sc)) :
    Flags.output table f sc = [] := by
  have hdecode : f.decode table sc = 0#8 := if_pos (Or.inr h)
  rw [Flags.output, hdecode, if_pos rfl]

theorem scan_shift_make (f : Flags) : f.scan (makeCode 0x2A) = { f with shift := true } := rfl

theorem scan_shift_break (f : Flags) : f.scan (breakCode 0x2A) = { f with shift := false } := rfl

/-- A keystroke gives its one character, and Shift is up again afterwards. -/
theorem keystroke_scan (hf : f.shift = false) (hkey : isCharKey k.key = true)
    (hc : table k.key k.shift f.caps ≠ 0#8) :
    run Flags.scan f k.scancodes = f ∧
      outputs Flags.scan (Flags.output table) f k.scancodes = [table k.key k.shift f.caps] := by
  obtain ⟨key, shift⟩ := k
  cases shift with
  | false =>
    have hchar : Flags.output table f (makeCode key) = [table key false f.caps] := by
      rw [output_makeCode hkey (by rwa [hf]), hf]
    have hbreak : Flags.output table f (breakCode key) = [] :=
      output_of_silent (Or.inl (released_breakCode key))
    simp only [Keystroke.scancodes, Bool.false_eq_true, if_false, run_cons, run_nil, outputs,
      scan_makeCode hkey, scan_breakCode hkey, hchar, hbreak, List.append_nil, and_self]
  | true =>
    have hheld : ({ f with shift := true } : Flags).caps = f.caps := rfl
    have hchar : Flags.output table { f with shift := true } (makeCode key) =
        [table key true f.caps] := output_makeCode hkey hc
    have hbreak : Flags.output table { f with shift := true } (breakCode key) = [] :=
      output_of_silent (Or.inl (released_breakCode key))
    have hdown : Flags.output table f (makeCode 0x2A) = [] :=
      output_of_silent (Or.inr (by decide))
    have hup : Flags.output table { f with shift := true } (breakCode 0x2A) = [] :=
      output_of_silent (Or.inl (by decide))
    have hsame : ({ f with shift := false } : Flags) = f := by rw [← hf]
    simp only [Keystroke.scancodes, if_true, run_cons, run_nil, outputs, scan_shift_make,
      scan_shift_break, scan_makeCode hkey, scan_breakCode hkey, hchar, hbreak, hdown, hup, hsame,
      List.append_nil, List.nil_append, and_self]

theorem exists_keystroke (h : typable table caps c = true) : ∃ k, keystrokeFor c = some k ∧
    isCharKey k.key = true ∧ table k.key k.shift caps = c ∧ c ≠ 0#8 := by
  unfold typable at h
  cases hk : keystrokeFor c with
  | none =>
    rw [hk] at h
    cases h
  | some k =>
    rw [hk] at h
    simp only [Bool.and_eq_true, beq_iff_eq, bne_iff_ne] at h
    exact ⟨k, rfl, h.1.1, h.1.2, h.2⟩

/-! ### Text -/

/-- With Shift up, the decoder gives back the text that is typed, and its flags are as before. -/
theorem typing_scan (hf : f.shift = false) (htext : ∀ c ∈ text, typable table f.caps c = true) :
    run Flags.scan f (typing text) = f ∧
      outputs Flags.scan (Flags.output table) f (typing text) = text := by
  induction text with
  | nil => exact ⟨rfl, rfl⟩
  | cons c text ih =>
    obtain ⟨hrun, houtputs⟩ := ih fun c' hc' => htext c' (List.mem_cons_of_mem _ hc')
    obtain ⟨k, hk, hkey, hchar, hc⟩ := exists_keystroke (htext c List.mem_cons_self)
    have hne : table k.key k.shift f.caps ≠ 0#8 := by
      rw [hchar]
      exact hc
    obtain ⟨hrun', houtputs'⟩ := keystroke_scan hf hkey hne
    have htyping : typing (c :: text) = k.scancodes ++ typing text := by
      simp [typing, hk]
    rw [htyping, run_append, outputs_append, hrun', houtputs', hrun, houtputs, hchar]
    exact ⟨rfl, rfl⟩

/-- With Caps Lock off, kbd.c has all text where the keyboard has it. -/
theorem kbdTable_text : ∀ c, isText c = true → typable kbdTable false c = true := by
  decide +kernel

/-- Text typed after any events reaches the buffer of kbd.c, whatever its consumer does meanwhile:
behind what has been accepted before, what `kbd_getchar` has returned, is about to return and will
find is the text. -/
theorem kbd_typing (s : KbdState) (xs ys : List KbdEvent) (text : List Byte)
    (hroom : Allowed kbdStep KbdEvent.FindsRoom (.start s) (xs ++ ys))
    (hshift : (run kbdStep (.start s) xs).kbd.flags.shift = false)
    (htext : ∀ c ∈ text, typable kbdTable (run kbdStep (.start s) xs).kbd.flags.caps c = true)
    (hys : ys.filterMap KbdEvent.scancode = typing text) :
    let r := run kbdStep (.start s) (xs ++ ys)
    r.results.flatMap KbdResult.chars ++ r.pc.inHand ++ r.kbd.kbdBuffer.contents =
        outputs Flags.scan (Flags.output kbdTable) .none (xs.filterMap KbdEvent.scancode) ++ text ∧
      r.kbd.flags = (run kbdStep (.start s) xs).kbd.flags := by
  intro r
  have hflags := kbdFlags_run s xs
  obtain ⟨hrun, houtputs⟩ := typing_scan hshift htext
  constructor
  · rw [(kbdFifo_run s (xs ++ ys)).2, kbdOutputs_run s hroom, List.filterMap_append, outputs_append,
      ← hflags, hys, houtputs]
  · rw [kbdFlags_run, List.filterMap_append, run_append, ← hflags, hys, hrun]

end FenwickOS.Kbd
