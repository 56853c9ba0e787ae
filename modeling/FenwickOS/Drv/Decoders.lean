import FenwickOS.Drv.KbdInterleaving
import FenwickOS.Drv.KbdKeys
import FenwickOS.Kbd.Characters

/-! The characters of kernel/drv/drv_kbd.c beside those of kernel/kbd/kbd.c. -/
namespace FenwickOS.Drv
open Machine Kbd

def isrTable : KeyTable := fun code shift caps =>
  scancodeToAscii (BitVec.ofNat 8 code.val) shift caps

/-- Without the data-ready bit the handler reads no scancode. -/
def DriverEvent.scancode : DriverEvent → Option Byte
  | .irq status sc => if status &&& 0x01#8 = 0#8 then none else some sc
  | .consumer _ => none

/-- An interrupt does not find the buffer full. -/
def DriverEvent.FindsRoom (r : DriverRun) : DriverEvent → Prop
  | .irq _ _ => r.kbd.kbdBuffer.contents.length < 255
  | .consumer _ => True

/-- The driver has no Escape, no keypad `*` and no key 0x56, and it undoes Shift by Caps Lock. -/
@[mk_iff]
structure Coincide (f : Flags) (sc : Byte) : Prop where
  escape : sc ≠ 0x01#8
  keypad : sc ≠ 0x37#8
  extra : sc = 0x56#8 → f.shift = true
  letter : isLetterKey sc → ¬ (f.shift = true ∧ f.caps = true)

variable {f : Flags} {sc status : Byte} {r : DriverRun} {d : KbdDriver} {s : KbdState}

theorem isrDecode_eq (hdata : status &&& 0x01#8 ≠ 0#8) (sc : Byte) (d : KbdDriver) :
    isrDecode status sc d = d.flags.decode isrTable sc := by
  have hcode : BitVec.ofNat 8 (keyCode sc).val = sc &&& 0x7F#8 :=
    ((code_eq_iff (keyCode sc) sc).mpr rfl).symm
  have hmodifier : (sc &&& 0x7F#8 = 0x2A#8 ∨ sc &&& 0x7F#8 = 0x36#8 ∨ sc &&& 0x7F#8 = 0x1D#8 ∨
      sc &&& 0x7F#8 = 0x38#8 ∨ sc &&& 0x7F#8 = 0x3A#8) ↔ isModifierKey (keyCode sc) := by
    revert sc
    decide
  have hreleased : sc &&& 0x80#8 ≠ 0#8 ↔ released sc = true := bne_iff_ne.symm
  unfold isrDecode Flags.decode isrTable
  dsimp only
  rw [hcode]
  by_cases hbreak : sc = 0xE0#8 ∨ released sc = true
  · rw [if_pos (by tauto), if_pos (by tauto)]
  · rw [if_neg (by tauto)]
    by_cases hkey : isModifierKey (keyCode sc)
    · rw [if_pos (hmodifier.mpr hkey), if_pos (by tauto)]
    · rw [if_neg (mt hmodifier.mp hkey), if_neg (by tauto)]
      rfl

theorem isrDecode_idle (hdata : status &&& 0x01#8 = 0#8) (sc : Byte) (d : KbdDriver) :
    isrDecode status sc d = 0#8 := if_pos (Or.inl hdata)

/-! ### Runs -/

theorem flags_driverConsumerStep (call : DriverCall) (r : DriverRun) :
    (driverConsumerStep call r).kbd.flags = r.kbd.flags := by
  unfold driverConsumerStep
  dsimp only
  cases r.pc with
  | idle =>
    cases call with
    | read buf len =>
      dsimp only
      split <;> rfl
    | ioctl => rfl
  | test len dst =>
    dsimp only
    split <;> rfl
  | store len dst => rfl
  | advance len dst c => rfl
  | ret len dst => rfl

theorem flags_driverStep (r : DriverRun) (event : DriverEvent) :
    (∀ sc, event.scancode = some sc → (driverStep r event).kbd.flags = r.kbd.flags.scan sc) ∧
    (event.scancode = none → (driverStep r event).kbd.flags = r.kbd.flags) := by
  cases event with
  | irq status sc =>
    dsimp only [DriverEvent.scancode, driverStep]
    split
    · rename_i hdata
      refine ⟨fun _ h => (by cases h), fun _ => ?_⟩
      rw [kbdHandlerIsr_idle hdata]
    · rename_i hdata
      refine ⟨?_, fun h => by cases h⟩
      rintro _ ⟨rfl⟩
      exact congrArg Keys.flags (kbdHandlerIsr_keys hdata sc r.kbd)
  | consumer call => exact ⟨fun _ h => (by cases h), fun _ => flags_driverConsumerStep call r⟩

theorem driverFlags_run (d : KbdDriver) (events : List DriverEvent) :
    (run driverStep (.start d) events).kbd.flags =
      run Flags.scan .none (events.filterMap DriverEvent.scancode) :=
  run_filterMap (v := fun r : DriverRun => r.kbd.flags)
    (fun r event => (flags_driverStep r event).1) (fun r event => (flags_driverStep r event).2) _ _

theorem driverOutputs_run (d : KbdDriver) {events : List DriverEvent}
    (h : Allowed driverStep DriverEvent.FindsRoom (.start d) events) :
    outputs driverStep driverAccepts (.start d) events =
      outputs Flags.scan (Flags.output isrTable) .none (events.filterMap DriverEvent.scancode) := by
  refine outputs_filterMap (v := fun r : DriverRun => r.kbd.flags)
    (fun r event => (flags_driverStep r event).1) (fun r event => (flags_driverStep r event).2)
    ?_ ?_ h
  · intro r event sc hroom hevent
    cases event with
    | irq status sc' =>
      dsimp only [DriverEvent.scancode] at hevent
      split at hevent
      · cases hevent
      · rename_i hdata
        cases hevent
        rw [driverAccepts, accepts_of_room hroom, isrDecode_eq hdata]
        rfl
    | consumer call => cases hevent
  · intro r event hevent
    cases event with
    | irq status sc' =>
      dsimp only [DriverEvent.scancode] at hevent
      split at hevent
      · rename_i hdata
        rw [driverAccepts, isrDecode_idle hdata]
        exact if_pos (Or.inl rfl)
      · cases hevent
    | consumer call => rfl

/-! ### The two tables -/

theorem decode_eq_iff (f : Flags) (sc : Byte) :
    f.decode kbdTable sc = f.decode isrTable sc ↔ Coincide f sc := by
  have htable : ∀ (sc : Byte) (shift caps : Bool),
      (Flags.decode ⟨shift, false, false, caps⟩ kbdTable sc =
        Flags.decode ⟨shift, false, false, caps⟩ isrTable sc ↔
      sc ≠ 0x01#8 ∧ sc ≠ 0x37#8 ∧ (sc = 0x56#8 → shift = true) ∧
        (isLetterKey sc → ¬ (shift = true ∧ caps = true))) := by
    decide +kernel
  rw [coincide_iff]
  exact htable sc f.shift f.caps

/-- Where the driver has a character, so has kbd.c. -/
theorem decode_ne_zero (f : Flags) (sc : Byte) :
    f.decode kbdTable sc = 0#8 → f.decode isrTable sc = 0#8 := by
  have htable : ∀ (sc : Byte) (shift caps : Bool),
      Flags.decode ⟨shift, false, false, caps⟩ kbdTable sc = 0#8 →
        Flags.decode ⟨shift, false, false, caps⟩ isrTable sc = 0#8 := by
    decide +kernel
  exact htable sc f.shift f.caps

theorem output_eq_iff (f : Flags) (sc : Byte) :
    f.output kbdTable sc = f.output isrTable sc ↔ Coincide f sc := by
  rw [← decode_eq_iff, Flags.output, Flags.output]
  constructor
  · intro h
    split at h
    · rename_i hkbd
      rw [hkbd, decode_ne_zero f sc hkbd]
    · split at h
      · cases h
      · exact List.singleton_inj.mp h
  · intro h
    rw [h]

theorem length_output_le (f : Flags) (sc : Byte) :
    (f.output isrTable sc).length ≤ (f.output kbdTable sc).length := by
  unfold Flags.output
  split
  · exact Nat.zero_le _
  · rename_i hisr
    rw [if_neg (mt (decode_ne_zero f sc) hisr)]
    exact Nat.le_refl _

/-- On the same scancodes the two decoders end with the same flags, and they put the same characters
into buffers that never fill up exactly if no key they treat differently is pressed. -/
theorem decoders_agree_iff (s : KbdState) (d : KbdDriver) (events : List KbdEvent)
    (events' : List DriverEvent)
    (hsame : events.filterMap KbdEvent.scancode = events'.filterMap DriverEvent.scancode)
    (hroom : Allowed kbdStep KbdEvent.FindsRoom (.start s) events)
    (hroom' : Allowed driverStep DriverEvent.FindsRoom (.start d) events') :
    (outputs kbdStep kbdAccepts (.start s) events =
        outputs driverStep driverAccepts (.start d) events' ∧
      (run kbdStep (.start s) events).kbd.flags = (run driverStep (.start d) events').kbd.flags) ↔
    Allowed Flags.scan Coincide .none (events.filterMap KbdEvent.scancode) := by
  have hflags : (run kbdStep (.start s) events).kbd.flags =
      (run driverStep (.start d) events').kbd.flags := by
    rw [kbdFlags_run, driverFlags_run, hsame]
  rw [and_iff_left hflags, kbdOutputs_run s hroom, driverOutputs_run d hroom', ← hsame,
    outputs_eq_iff length_output_le, Allowed.congr output_eq_iff]

theorem decoders_agree_typing :
    outputs kbdStep kbdAccepts (.start .boot) [.irq 0x2A#8, .irq 0x1E#8, .consumer .getchar] =
        outputs driverStep driverAccepts (.start .boot) [.irq 1#8 0x2A#8, .irq 1#8 0x1E#8] ∧
      (run kbdStep (.start .boot) [.irq 0x2A#8, .irq 0x1E#8, .consumer .getchar]).kbd.flags =
        (run driverStep (.start .boot) [.irq 1#8 0x2A#8, .irq 1#8 0x1E#8]).kbd.flags := by
  have hroom : (KbdRun.start .boot).kbd.kbdBuffer.contents.length < 255 := by decide
  have hroom' : (DriverRun.start .boot).kbd.kbdBuffer.contents.length < 255 := by decide
  refine (decoders_agree_iff .boot .boot [.irq 0x2A#8, .irq 0x1E#8, .consumer .getchar]
    [.irq 1#8 0x2A#8, .irq 1#8 0x1E#8] rfl ⟨hroom, hroom, trivial, trivial⟩
    ⟨hroom', hroom', trivial⟩).mpr ⟨?_, ?_, trivial⟩
  · exact (coincide_iff _ _).mpr (by decide)
  · exact (coincide_iff _ _).mpr (by decide)

/-- Escape is a character in kbd.c only. -/
theorem decoders_disagree_escape :
    Allowed kbdStep KbdEvent.FindsRoom (.start .boot) [.irq 0x01#8] ∧
    Allowed driverStep DriverEvent.FindsRoom (.start .boot) [.irq 1#8 0x01#8] ∧
    outputs kbdStep kbdAccepts (.start .boot) [.irq 0x01#8] ≠
      outputs driverStep driverAccepts (.start .boot) [.irq 1#8 0x01#8] := by
  have hroom : (KbdRun.start .boot).kbd.kbdBuffer.contents.length < 255 := by decide
  have hroom' : (DriverRun.start .boot).kbd.kbdBuffer.contents.length < 255 := by decide
  exact ⟨⟨hroom, trivial⟩, ⟨hroom', trivial⟩, by decide⟩

/-! ### Letter keys -/

theorem isrTable_letter : ∀ sc, isLetterKey sc → ∀ shift caps : Bool,
    isrTable (keyCode sc) shift caps = if shift != caps then upperLetter sc else keyLetter sc := by
  decide +kernel

theorem isrDecode_letter (h : isLetterKey sc) (hdata : status &&& 0x01#8 ≠ 0#8) (d : KbdDriver) :
    isrDecode status sc d =
      if d.flags.shift != d.flags.caps then upperLetter sc else keyLetter sc := by
  rw [isrDecode_eq hdata, decode_letterKey h, isrTable_letter sc h]

theorem kbdHandlerIsr_letter (h : isLetterKey sc) (hdata : status &&& 0x01#8 ≠ 0#8)
    (d : KbdDriver) :
    (kbdHandlerIsr status sc d).kbdBuffer = d.kbdBuffer.push (isrDecode status sc d) := by
  have hne := letter_ne sc h
  rw [kbdHandlerIsr_buffer, if_neg]
  rw [isrDecode_letter h hdata]
  split
  · exact hne.2.2
  · exact hne.2.1

theorem isrCase (h : isLetterKey sc) (hdata : status &&& 0x01#8 ≠ 0#8) (d : KbdDriver)
    (events : List DriverEvent) :
    let r := run driverStep (.start d) events
    XorCase r.kbd.flags (events.filterMap DriverEvent.scancode) sc (isrDecode status sc r.kbd) := by
  intro r
  have hne := (letter_ne sc h).1
  constructor
  · rw [isrDecode_letter h hdata]
    cases r.kbd.flags.shift <;> cases r.kbd.flags.caps <;> simp [hne]
  · rw [driverFlags_run]
    exact caps_run_none _

/-- After any run a letter key puts its letter into the buffer. The driver always chooses the case
by exclusive or, kbd.c exactly unless Shift and Caps Lock are both on. -/
theorem letter_case_iff (hletter : isLetterKey sc) (hdata : status &&& 0x01#8 ≠ 0#8) :
    (∀ (s : KbdState) (events : List KbdEvent),
      let kbd := (run kbdStep (.start s) events).kbd
      (kbdHandler sc kbd).kbdBuffer = kbd.kbdBuffer.push (kbdDecode sc kbd) ∧
      (XorCase kbd.flags (events.filterMap KbdEvent.scancode) sc (kbdDecode sc kbd) ↔
        ¬ (kbd.flags.shift = true ∧ kbd.flags.caps = true))) ∧
    (∀ (d : KbdDriver) (events : List DriverEvent),
      let kbd := (run driverStep (.start d) events).kbd
      (kbdHandlerIsr status sc kbd).kbdBuffer = kbd.kbdBuffer.push (isrDecode status sc kbd) ∧
      XorCase kbd.flags (events.filterMap DriverEvent.scancode) sc (isrDecode status sc kbd)) := by
  constructor
  · intro s events kbd
    exact ⟨kbdHandler_letter hletter kbd, kbdCase_iff hletter s events⟩
  · intro d events kbd
    exact ⟨kbdHandlerIsr_letter hletter hdata kbd, isrCase hletter hdata d events⟩

theorem letter_case_a :
    XorCase (run driverStep (.start .boot) [.irq 1#8 0x3A#8]).kbd.flags [0x3A#8] 0x1E#8
      (isrDecode 1#8 0x1E#8 (run driverStep (.start .boot) [.irq 1#8 0x3A#8]).kbd) :=
  have hletter : isLetterKey 0x1E#8 := by decide
  have hdata : 1#8 &&& 0x01#8 ≠ 0#8 := by decide
  ((letter_case_iff hletter hdata).2 .boot [.irq 1#8 0x3A#8]).2

/-- Caps Lock, Shift and the key `a` give `A` in kbd.c. -/
theorem letter_case_shift_caps :
    isLetterKey 0x1E#8 ∧
    ¬ XorCase (run kbdStep (.start .boot) [.irq 0x3A#8, .irq 0x2A#8]).kbd.flags [0x3A#8, 0x2A#8]
      0x1E#8 (kbdDecode 0x1E#8 (run kbdStep (.start .boot) [.irq 0x3A#8, .irq 0x2A#8]).kbd) := by
  refine ⟨by decide, ?_⟩
  intro h
  have hletter := h.letter
  revert hletter
  decide

end FenwickOS.Drv
