import FenwickOS.Drv.Decoders
import FenwickOS.Kbd.Extended

/-! Extended scancodes, Shift and Caps Lock in kernel/drv/drv_kbd.c and kernel/kbd/kbd.c. -/
namespace FenwickOS.Drv
open Machine Kbd

/-- What an interrupt finds on ports 0x64 and 0x60 when there is data to read. -/
structure DataByte where
  status : Byte
  sc : Byte
  ready : status &&& 0x01#8 ≠ 0#8

def isrDecoder : Decoder DataByte KbdDriver where
  scancode := DataByte.sc
  step := fun d a => kbdHandlerIsr a.status a.sc d
  flags := KbdDriver.flags
  decode := fun a d => isrDecode a.status a.sc d
  table := isrTable
  flags_step := fun d a => congrArg Keys.flags (kbdHandlerIsr_keys a.ready a.sc d)
  decode_eq := fun d a => isrDecode_eq a.ready a.sc d

def dataByte (sc : Byte) : DataByte := ⟨1#8, sc, by decide⟩

/-- In both decoders extended scancodes leave Shift, Caps Lock and the case of letters alone exactly
as long as no byte behind a prefix toggles Caps Lock or changes Shift. -/
theorem extended_undisturbed_iff (s : KbdState) (d : KbdDriver) :
    (∀ w, (∀ u, u <+: w → kbdDecoder.Undisturbed (kbdInit s) u) ↔
      ∀ v x y, v ++ [x, y] <+: w → x = 0xE0#8 →
        (run (fun s sc => kbdHandler sc s) (kbdInit s) v).flags.Harmless y) ∧
    (∀ w, (∀ u, u <+: w → isrDecoder.Undisturbed (kbdDriverInit d).2 u) ↔
      ∀ v x y, v ++ [x, y] <+: w → x.sc = 0xE0#8 →
        (run (fun d a => kbdHandlerIsr a.status a.sc d) (kbdDriverInit d).2 v).flags.Harmless
          y.sc) :=
  ⟨kbdDecoder.undisturbed_iff (kbdInit s), isrDecoder.undisturbed_iff (kbdDriverInit d).2⟩

/-- Shift is held and a navigation key sends its fake release of Shift. -/
theorem extended_disturbs :
    ¬ kbdDecoder.Undisturbed (kbdInit .boot) [0x2A#8, 0xE0#8, 0xAA#8] ∧
    ¬ isrDecoder.Undisturbed (kbdDriverInit .boot).2
      [dataByte 0x2A#8, dataByte 0xE0#8, dataByte 0xAA#8] := by
  constructor
  · intro h
    have hshift := h.flags.shift
    revert hshift
    decide
  · intro h
    have hshift := h.flags.shift
    revert hshift
    decide

end FenwickOS.Drv
