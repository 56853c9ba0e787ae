import FenwickOS.Drv.Decoders
import FenwickOS.Kbd.Typing

/-! Text typed into drv_kbd.c, and into both keyboard modules. -/
namespace FenwickOS.Drv
open Machine Kbd

/-- With Caps Lock off, drv_kbd.c has all text where the keyboard has it. -/
theorem isrTable_text : ∀ c, isText c = true → typable isrTable false c = true := by
  decide +kernel

/-- Text typed after any events reaches the buffer of drv_kbd.c, whatever its consumer does
meanwhile. -/
theorem driver_typing (d : KbdDriver) (xs ys : List DriverEvent) (text : List Byte)
    (hroom : Allowed driverStep DriverEvent.FindsRoom (.start d) (xs ++ ys))
    (hshift : (run driverStep (.start d) xs).kbd.flags.shift = false)
    (htext : ∀ c ∈ text, typable isrTable (run driverStep (.start d) xs).kbd.flags.caps c = true)
    (hys : ys.filterMap DriverEvent.scancode = typing text) :
    let r := run driverStep (.start d) (xs ++ ys)
    r.results.flatMap DriverResult.chars ++ r.pc.inHand ++ r.kbd.kbdBuffer.contents =
        outputs Flags.scan (Flags.output isrTable) .none (xs.filterMap DriverEvent.scancode) ++
          text ∧
      r.kbd.flags = (run driverStep (.start d) xs).kbd.flags := by
  intro r
  have hflags := driverFlags_run d xs
  obtain ⟨hrun, houtputs⟩ := typing_scan hshift htext
  constructor
  · rw [(driverFifo_run d (xs ++ ys)).2, driverOutputs_run d hroom, List.filterMap_append,
      outputs_append, ← hflags, hys, houtputs]
  · rw [driverFlags_run, List.filterMap_append, run_append, ← hflags, hys, hrun]

/-- Text typed with Caps Lock off, from the first scancode on: what the consumers of either module
have got, are getting and will find is the text, as long as their buffer is not full. -/
theorem typed_text_arrives (text : List Byte) (htext : ∀ c ∈ text, isText c = true) :
    (∀ (s : KbdState) (events : List KbdEvent),
      Allowed kbdStep KbdEvent.FindsRoom (.start s) events →
      events.filterMap KbdEvent.scancode = typing text →
      let r := run kbdStep (.start s) events
      r.results.flatMap KbdResult.chars ++ r.pc.inHand ++ r.kbd.kbdBuffer.contents = text ∧
        r.kbd.flags = .none) ∧
    (∀ (d : KbdDriver) (events : List DriverEvent),
      Allowed driverStep DriverEvent.FindsRoom (.start d) events →
      events.filterMap DriverEvent.scancode = typing text →
      let r := run driverStep (.start d) events
      r.results.flatMap DriverResult.chars ++ r.pc.inHand ++ r.kbd.kbdBuffer.contents = text ∧
        r.kbd.flags = .none) := by
  constructor
  · intro s events hroom hevents r
    have hflags : (run kbdStep (.start s) []).kbd.flags = .none := flags_start s
    obtain ⟨hreceived, hr⟩ := kbd_typing s [] events text hroom (by rw [hflags]; rfl)
      (by rw [hflags]; exact fun c hc => kbdTable_text c (htext c hc)) hevents
    exact ⟨hreceived, hr.trans hflags⟩
  · intro d events hroom hevents r
    have hflags : (run driverStep (.start d) []).kbd.flags = .none := rfl
    obtain ⟨hreceived, hr⟩ := driver_typing d [] events text hroom (by rw [hflags]; rfl)
      (by rw [hflags]; exact fun c hc => isrTable_text c (htext c hc)) hevents
    exact ⟨hreceived, hr.trans hflags⟩

/-- `Hi`, with the first character read while the second is typed. -/
theorem typed_text_arrives_hi :
    let getchar : KbdEvent := .consumer .getchar
    let r := run kbdStep (.start .boot) [.irq 0x2A#8, .irq 0x23#8, getchar, .irq 0xA3#8,
      .irq 0xAA#8, getchar, .irq 0x17#8, getchar, getchar, .irq 0x97#8]
    r.results.flatMap KbdResult.chars ++ r.pc.inHand ++ r.kbd.kbdBuffer.contents =
      [ascii 'H', ascii 'i'] := by
  intro getchar r
  have htext : ∀ c ∈ [ascii 'H', ascii 'i'], isText c = true := by decide
  have hroom : Allowed kbdStep KbdEvent.FindsRoom (.start .boot) [.irq 0x2A#8, .irq 0x23#8,
      getchar, .irq 0xA3#8, .irq 0xAA#8, getchar, .irq 0x17#8, getchar, getchar, .irq 0x97#8] := by
    refine ⟨?_, ?_, trivial, ?_, ?_, trivial, ?_, trivial, trivial, ?_, trivial⟩ <;>
      exact Nat.lt_of_lt_of_le (by decide : _ < 3) (by decide)
  exact ((typed_text_arrives _ htext).1 .boot _ hroom (by decide +kernel)).1

end FenwickOS.Drv
