import FenwickOS.Kbd.Interleaving
import FenwickOS.Kbd.Keys
import Mathlib.Algebra.Ring.Parity

/-! The characters of a stream of scancodes, as far as Shift and Caps Lock decide them. -/
namespace FenwickOS.Kbd
open Machine

/-- The character of each key under Shift and Caps Lock. -/
abbrev KeyTable := Fin 128 → (shift caps : Bool) → Byte

def kbdTable : KeyTable := fun code shift caps =>
  kbdTranslate code ((if shift then kbdModShift else 0#32) ||| (if caps then kbdModCaps else 0#32))

/-- The character of a scancode, 0 if none. -/
def Flags.decode (f : Flags) (table : KeyTable) (sc : Byte) : Byte :=
  if sc = 0xE0#8 ∨ released sc = true ∨ isModifierKey (keyCode sc) then 0#8
  else table (keyCode sc) f.shift f.caps

/-- What a decoder puts into a buffer that has room. -/
def Flags.output (table : KeyTable) (f : Flags) (sc : Byte) : List Byte :=
  if f.decode table sc = 0#8 then [] else [f.decode table sc]

def Flags.none : Flags := ⟨false, false, false, false⟩

def KbdEvent.scancode : KbdEvent → Option Byte
  | .irq scancode => some scancode
  | .consumer _ => none

/-- An interrupt does not find the buffer full. -/
def KbdEvent.FindsRoom (r : KbdRun) : KbdEvent → Prop
  | .irq _ => r.kbd.kbdBuffer.contents.length < 255
  | .consumer _ => True

def keyLetter (sc : Byte) : Byte := kbdScancodeLower sc.toNat

def isLetterKey (sc : Byte) : Prop := keyLetter sc ≥ ascii 'a' ∧ keyLetter sc ≤ ascii 'z'

instance (sc : Byte) : Decidable (isLetterKey sc) := by
  unfold isLetterKey
  infer_instance

def upperLetter (sc : Byte) : Byte := keyLetter sc - ascii 'a' + ascii 'A'

/-- The key `sc` gives its upper-case letter exactly if one of Shift and Caps Lock is on, where Caps
Lock has been toggled by each of its make codes. -/
@[mk_iff]
structure XorCase (f : Flags) (scancodes : List Byte) (sc c : Byte) : Prop where
  letter : c = upperLetter sc ↔ f.shift ≠ f.caps
  caps : f.caps = true ↔ Odd (scancodes.count 0x3A#8)

variable {f : Flags} {sc : Byte} {scs : List Byte} {r : KbdRun} {c : Byte}

theorem kbdTranslate_eq (code : Fin 128) (modifiers : BitVec 32) :
    kbdTranslate code modifiers =
      kbdTable code (hasModifier modifiers kbdModShift) (hasModifier modifiers kbdModCaps) := by
  have hshift (shift caps : Bool) : (((if shift then kbdModShift else 0#32) |||
      (if caps then kbdModCaps else 0#32)) &&& kbdModShift != 0#32) = shift := by
    revert shift caps
    decide
  have hcaps (shift caps : Bool) : (((if shift then kbdModShift else 0#32) |||
      (if caps then kbdModCaps else 0#32)) &&& kbdModCaps != 0#32) = caps := by
    revert shift caps
    decide
  unfold kbdTable kbdTranslate
  rw [hshift, hcaps]
  rfl

theorem kbdDecode_eq (sc : Byte) (s : KbdState) : kbdDecode sc s = s.flags.decode kbdTable sc := by
  unfold kbdDecode Flags.decode
  by_cases hbreak : sc = 0xE0#8 ∨ sc &&& 0x80#8 ≠ 0#8
  · rw [if_pos hbreak, if_pos]
    rcases hbreak with hextended | hreleased
    · exact Or.inl hextended
    · exact Or.inr (Or.inl (bne_iff_ne.mpr hreleased))
  · obtain ⟨hextended, hmake⟩ := not_or.mp hbreak
    have hmake : ¬ released sc = true := fun h => hmake (bne_iff_ne.mp h)
    rw [if_neg hbreak, dif_pos (code_lt sc), keyCode_eq]
    dsimp only
    by_cases hmodifier : isModifierKey (keyCode sc)
    · rw [if_pos hmodifier, if_pos (Or.inr (Or.inr hmodifier))]
    · rw [if_neg hmodifier, if_neg (by tauto), kbdTranslate_eq]
      rfl

/-! ### Runs -/

theorem accepts_of_room {buffer : Ring Byte 256} (h : buffer.contents.length < 255) (c : Byte) :
    accepts buffer c = if c = 0#8 then [] else [c] := by
  unfold accepts
  by_cases hc : c = 0#8
  · rw [if_pos (Or.inl hc), if_pos hc]
  · rw [if_neg (not_or.mpr ⟨hc, by omega⟩), if_neg hc]

theorem flags_consumerStep (call : KbdCall) (r : KbdRun) :
    (consumerStep call r).kbd.flags = r.kbd.flags := by
  unfold consumerStep
  cases r.pc with
  | idle =>
    cases call with
    | getchar =>
      dsimp only
      split <;> rfl
    | hasInput => rfl
  | load => rfl
  | advance c => rfl
  | ret c => rfl

theorem flags_kbdStep (r : KbdRun) (event : KbdEvent) :
    (∀ sc, event.scancode = some sc → (kbdStep r event).kbd.flags = r.kbd.flags.scan sc) ∧
    (event.scancode = none → (kbdStep r event).kbd.flags = r.kbd.flags) := by
  cases event with
  | irq sc =>
    refine ⟨?_, fun h => by cases h⟩
    rintro _ ⟨rfl⟩
    exact congrArg Keys.flags (kbdHandler_keys sc r.kbd)
  | consumer call => exact ⟨fun _ h => (by cases h), fun _ => flags_consumerStep call r⟩

theorem flags_start (s : KbdState) : (KbdRun.start s).kbd.flags = .none :=
  congrArg Keys.flags (kbdInit_keys s)

theorem kbdFlags_run (s : KbdState) (events : List KbdEvent) :
    (run kbdStep (.start s) events).kbd.flags =
      run Flags.scan .none (events.filterMap KbdEvent.scancode) := by
  rw [← flags_start s]
  exact run_filterMap (v := fun r : KbdRun => r.kbd.flags)
    (fun r event => (flags_kbdStep r event).1) (fun r event => (flags_kbdStep r event).2) _ _

theorem kbdOutputs_run (s : KbdState) {events : List KbdEvent}
    (h : Allowed kbdStep KbdEvent.FindsRoom (.start s) events) :
    outputs kbdStep kbdAccepts (.start s) events =
      outputs Flags.scan (Flags.output kbdTable) .none (events.filterMap KbdEvent.scancode) := by
  rw [← flags_start s]
  refine outputs_filterMap (v := fun r : KbdRun => r.kbd.flags)
    (fun r event => (flags_kbdStep r event).1) (fun r event => (flags_kbdStep r event).2) ?_ ?_ h
  · intro r event sc hroom hevent
    cases event with
    | irq _ =>
      cases hevent
      rw [kbdAccepts, accepts_of_room hroom, kbdDecode_eq]
      rfl
    | consumer call => cases hevent
  · intro r event hevent
    cases event with
    | irq _ => cases hevent
    | consumer call => rfl

theorem caps_scan (f : Flags) (sc : Byte) :
    (f.scan sc).caps = if sc = 0x3A#8 then !f.caps else f.caps := by
  have hcode : sc = 0x3A#8 ↔ sc ≠ 0xE0#8 ∧ keyCode sc = 0x3A ∧ (!released sc) = true := by
    revert sc
    decide
  by_cases hcaps : sc = 0x3A#8
  · obtain ⟨hextended, hkey, hmake⟩ := hcode.mp hcaps
    rw [if_pos hcaps, Flags.scan, if_neg hextended, Flags.key, hkey, hmake]
    rfl
  · rw [if_neg hcaps]
    unfold Flags.scan Flags.key
    split
    · rfl
    · rename_i hextended
      rw [if_neg fun h => hcaps (hcode.mpr ⟨hextended, h⟩)]
      repeat' split
      all_goals rfl

theorem caps_run (f : Flags) (scs : List Byte) :
    (run Flags.scan f scs).caps = (f.caps ^^ decide (Odd (scs.count 0x3A#8))) := by
  induction scs generalizing f with
  | nil => simp
  | cons sc scs ih =>
    rw [run_cons, ih, caps_scan, List.count_cons]
    by_cases hcaps : sc = 0x3A#8
    · simp [hcaps, Nat.odd_add_one, -Nat.not_odd_iff_even]
    · simp [hcaps]

/-! ### Letter keys -/

theorem letterKey_make : ∀ sc, isLetterKey sc →
    ¬ (sc = 0xE0#8 ∨ released sc = true ∨ isModifierKey (keyCode sc)) := by
  decide +kernel

theorem letter_ne : ∀ sc, isLetterKey sc →
    keyLetter sc ≠ upperLetter sc ∧ keyLetter sc ≠ 0#8 ∧ upperLetter sc ≠ 0#8 := by
  decide +kernel

theorem decode_letterKey (h : isLetterKey sc) (f : Flags) (table : KeyTable) :
    f.decode table sc = table (keyCode sc) f.shift f.caps := if_neg (letterKey_make sc h)

/-- kbd.c gives the upper-case letter also when Shift and Caps Lock are both on. -/
theorem kbdTable_letter : ∀ sc, isLetterKey sc → ∀ shift caps : Bool,
    kbdTable (keyCode sc) shift caps = if shift || caps then upperLetter sc else keyLetter sc := by
  decide +kernel

theorem kbdHandler_letter (h : isLetterKey sc) (s : KbdState) :
    (kbdHandler sc s).kbdBuffer = s.kbdBuffer.push (kbdDecode sc s) := by
  have hne := letter_ne sc h
  rw [kbdHandler_buffer, if_neg]
  rw [kbdDecode_eq, decode_letterKey h, kbdTable_letter sc h]
  split
  · exact hne.2.2
  · exact hne.2.1

theorem caps_run_none (scs : List Byte) :
    (run Flags.scan .none scs).caps = true ↔ Odd (scs.count 0x3A#8) := by
  rw [caps_run]
  simp [Flags.none]

theorem kbdDecode_upper_iff (h : isLetterKey sc) (s : KbdState) :
    (kbdDecode sc s = upperLetter sc ↔ s.flags.shift ≠ s.flags.caps) ↔
      ¬ (s.flags.shift = true ∧ s.flags.caps = true) := by
  have hne := (letter_ne sc h).1
  rw [kbdDecode_eq, decode_letterKey h, kbdTable_letter sc h]
  cases s.flags.shift <;> cases s.flags.caps <;> simp [hne]

/-- In kbd.c the case of a letter is right exactly unless Shift and Caps Lock are both on. -/
theorem kbdCase_iff (h : isLetterKey sc) (s : KbdState) (events : List KbdEvent) :
    let r := run kbdStep (.start s) events
    XorCase r.kbd.flags (events.filterMap KbdEvent.scancode) sc (kbdDecode sc r.kbd) ↔
      ¬ (r.kbd.flags.shift = true ∧ r.kbd.flags.caps = true) := by
  intro r
  have hcaps : r.kbd.flags.caps = true ↔
      Odd ((events.filterMap KbdEvent.scancode).count 0x3A#8) := by
    rw [kbdFlags_run]
    exact caps_run_none _
  rw [xorCase_iff, and_iff_left hcaps]
  exact kbdDecode_upper_iff h r.kbd

end FenwickOS.Kbd
