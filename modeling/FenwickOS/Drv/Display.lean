import FenwickOS.Drv.Devices
import FenwickOS.Libk.Console

/-! The display driver kernel/drv/drv_vga.c store by store, and the terminal behind it. -/
namespace FenwickOS.Drv
open Machine

structure Display where
  video : TextBuffer
  vgaCursorX : Int
  vgaCursorY : Int
  vgaColor : Byte

namespace Display

def vgaPutcAt (c color : Byte) (x y : Int) (d : Display) : Display :=
  { d with video := (d.video.store (vgaIndex x y) c).store (vgaIndex x y + 1) color }

def vgaScroll (d : Display) : Display :=
  if d.vgaCursorY < vgaHeight then d
  else
    { d with
      video := d.video.scroll vgaWidth.toNat vgaHeight.toNat (ascii ' ') d.vgaColor
      vgaCursorY := vgaHeight - 1 }

def vgaNewline (d : Display) : Display :=
  vgaScroll { d with vgaCursorX := 0, vgaCursorY := d.vgaCursorY + 1 }

def vgaPutGlyph (c : Byte) (d : Display) : Display :=
  let d := vgaPutcAt c d.vgaColor d.vgaCursorX d.vgaCursorY d
  let d := { d with vgaCursorX := d.vgaCursorX + 1 }
  if d.vgaCursorX ≥ vgaWidth then vgaNewline d else d

def vgaPutc (c : Byte) (d : Display) : Display :=
  if c = 0x0A#8 then vgaNewline d
  else if c = 0x0D#8 then { d with vgaCursorX := 0 }
  else if c = 0x09#8 then
    Nat.repeat (vgaPutGlyph (ascii ' ')) (4 - d.vgaCursorX.tmod 4).toNat d
  else if c = 0x08#8 then
    if d.vgaCursorX > 0 then
      let d := { d with vgaCursorX := d.vgaCursorX - 1 }
      vgaPutcAt (ascii ' ') d.vgaColor d.vgaCursorX d.vgaCursorY d
    else d
  else vgaPutGlyph c d

def vgaDriverInit (d : Display) : Display where
  video := d.video.clear vgaWidth.toNat vgaHeight.toNat (ascii ' ') defaultColor
  vgaCursorX := 0
  vgaCursorY := 0
  vgaColor := defaultColor

def vgaDriverWrite (buf : Option (Nat → Byte)) (len : Word) (d : Display) : Display :=
  match buf with
  | none => d
  | some buf => (List.range len.toNat).foldl (fun d i => vgaPutc (buf i) d) d

/-- The driver's state, without the record of its stores. -/
def vga (d : Display) : Vga := ⟨d.video.bytes, d.vgaCursorX, d.vgaCursorY, d.vgaColor⟩

variable {m : TextBuffer} {d : Display} {t : Terminal Byte} {c : Byte}

/-! ### The loops as the driver's model has them -/

theorem vga_vgaScroll (d : Display) : (vgaScroll d).vga = Drv.vgaScroll d.vga := by
  by_cases hroom : d.vgaCursorY < vgaHeight
  · rw [vgaScroll, Drv.vgaScroll, if_pos hroom, if_pos (show d.vga.vgaCursorY < _ from hroom)]
  · rw [vgaScroll, Drv.vgaScroll, if_neg hroom, if_neg (show ¬ d.vga.vgaCursorY < _ from hroom)]
    have hbytes : (d.video.scroll vgaWidth.toNat vgaHeight.toNat (ascii ' ') d.vgaColor).bytes =
        _ := funext (TextBuffer.bytes_scroll (by decide) (by decide) d.video _ _)
    rw [vga]
    exact congrArg (fun bytes => Vga.mk bytes d.vgaCursorX (vgaHeight - 1) d.vgaColor) hbytes

theorem vga_vgaNewline (d : Display) : (vgaNewline d).vga = Drv.vgaNewline d.vga :=
  vga_vgaScroll _

theorem vga_vgaPutGlyph (c : Byte) (d : Display) :
    (vgaPutGlyph c d).vga = Drv.vgaPutGlyph c d.vga := by
  unfold vgaPutGlyph Drv.vgaPutGlyph
  dsimp only
  split
  · rename_i hfull
    exact (vga_vgaNewline _).trans (if_pos hfull).symm
  · rename_i hroom
    exact (if_neg hroom).symm

theorem vga_vgaPutc (c : Byte) (d : Display) : (vgaPutc c d).vga = Drv.vgaPutc c d.vga := by
  unfold vgaPutc Drv.vgaPutc
  dsimp only
  split
  · exact vga_vgaNewline d
  split
  · rfl
  split
  · exact Terminal.repeat_rel (R := fun d s => vga d = s)
      (fun d s h => h ▸ vga_vgaPutGlyph _ d) _ rfl
  split
  · split
    · rename_i hx
      exact (if_pos hx).symm
    · rename_i hx
      exact (if_neg hx).symm
  · exact vga_vgaPutGlyph c d

theorem vga_vgaDriverWrite (buf : Option (Nat → Byte)) (len : Word) (d : Display) :
    (vgaDriverWrite buf len d).vga = (Drv.vgaDriverWrite buf len d.vga).2 := by
  unfold vgaDriverWrite Drv.vgaDriverWrite
  cases buf with
  | none => rfl
  | some buf =>
    exact run_rel (R := fun d s => vga d = s) (fun d s i h => h ▸ vga_vgaPutc (buf i) d) rfl _

/-! ### The terminal behind the driver -/

/-- `vga_putc` on a terminal without end. -/
def terminalPutc (c : Byte) (t : Terminal Byte) : Terminal Byte :=
  t.feed (Terminal.glyphImmediate vgaWidth.toNat) (fun _ => true) c

/-- `vga_driver_write` on a terminal without end. -/
def terminalWrite (buf : Option (Nat → Byte)) (len : Word) (t : Terminal Byte) : Terminal Byte :=
  match buf with
  | none => t
  | some buf => (List.range len.toNat).foldl (fun t i => terminalPutc (buf i) t) t

/-- The driver shows the last rows of the terminal, and has stored only on the screen since its
memory was `m`. The cursor is on the screen between two characters. -/
structure DisplayShows (m : TextBuffer) (d : Display) (t : Terminal Byte) : Prop where
  x_nonneg : 0 ≤ d.vgaCursorX
  y_nonneg : 0 ≤ d.vgaCursorY
  x_lt : d.vgaCursorX < vgaWidth
  screen : t.Shows vgaWidth.toNat vgaHeight.toNat (ascii ' ') (d.video.char vgaWidth.toNat)
    d.vgaCursorX.toNat d.vgaCursorY.toNat
  within : m.Within 4000 d.video

theorem vgaIndex_eq {x y : Int} (hx : 0 ≤ x) (hy : 0 ≤ y) :
    vgaIndex x y = TextBuffer.index vgaWidth.toNat x.toNat y.toNat := by
  change (y * 80 + x) * 2 = ((y.toNat * 80 + x.toNat) * 2 : Nat)
  omega

theorem video_vgaPutcAt {x y : Int} (hx : 0 ≤ x) (hy : 0 ≤ y) (c color : Byte) (d : Display) :
    (vgaPutcAt c color x y d).video = d.video.putAt vgaWidth.toNat c color x.toNat y.toNat := by
  rw [vgaPutcAt, vgaIndex_eq hx hy]
  rfl

theorem DisplayShows.putAt (h : DisplayShows m d t) (c : Byte) :
    DisplayShows m (vgaPutcAt c d.vgaColor d.vgaCursorX d.vgaCursorY d) (t.put c) := by
  have hvideo := video_vgaPutcAt h.x_nonneg h.y_nonneg c d.vgaColor d
  have hx : d.vgaCursorX.toNat < vgaWidth.toNat := by
    have := h.x_lt
    have := h.x_nonneg
    omega
  refine ⟨h.x_nonneg, h.y_nonneg, h.x_lt, ?_, ?_⟩
  · rw [hvideo]
    exact h.screen.putAt hx c _
  · rw [hvideo]
    exact h.within.trans (TextBuffer.within_putAt hx h.screen.y_lt _ _ _)

theorem DisplayShows.moveTo (h : DisplayShows m d t) {x : Nat} (hx : x < vgaWidth.toNat) :
    DisplayShows m { d with vgaCursorX := x } { t with x := x } :=
  ⟨Int.natCast_nonneg x, h.y_nonneg, by dsimp only; omega, h.screen.moveTo x, h.within⟩

theorem vgaWidth_pos : 0 < vgaWidth := by decide

/-- The cursor may be in the column after the last when the line ends. -/
theorem displayShows_newline {x : Nat} (hy : 0 ≤ d.vgaCursorY)
    (hscreen : t.Shows vgaWidth.toNat vgaHeight.toNat (ascii ' ') (d.video.char vgaWidth.toNat) x
      d.vgaCursorY.toNat)
    (hwithin : m.Within 4000 d.video) : DisplayShows m (vgaNewline d) t.newline := by
  have hlast : d.vgaCursorY.toNat < 25 := hscreen.y_lt
  have hnext : (d.vgaCursorY + 1).toNat = d.vgaCursorY.toNat + 1 := Int.toNat_add_nat hy 1
  unfold vgaNewline vgaScroll
  dsimp only
  split
  · rename_i hroom
    have hroom : d.vgaCursorY + 1 < 25 := hroom
    refine ⟨Int.le_refl 0, Int.add_nonneg hy (by omega), vgaWidth_pos, ?_, hwithin⟩
    dsimp only
    rw [hnext]
    exact hscreen.nextLine (show d.vgaCursorY.toNat + 1 < 25 by omega)
  · rename_i hfull
    have hfull : ¬ d.vgaCursorY + 1 < 25 := hfull
    exact ⟨Int.le_refl 0, show (0 : Int) ≤ 24 by decide, vgaWidth_pos,
      hscreen.scroll (show d.vgaCursorY.toNat + 1 = 25 by omega) _,
      hwithin.trans (TextBuffer.within_scroll (by decide) _ _ _)⟩

theorem DisplayShows.newline (h : DisplayShows m d t) : DisplayShows m (vgaNewline d) t.newline :=
  displayShows_newline h.y_nonneg h.screen h.within

/-- The driver compares the next column as the terminal does. -/
theorem right_x_lt_iff {x : Int} (hx : 0 ≤ x) (ht : x.toNat = t.x) (c : Byte) :
    ((t.put c).right).x < vgaWidth.toNat ↔ ¬ x + 1 ≥ vgaWidth := by
  change t.x + 1 < 80 ↔ ¬ x + 1 ≥ 80
  omega

theorem DisplayShows.putGlyph (h : DisplayShows m d t) (c : Byte) :
    DisplayShows m (vgaPutGlyph c d) (t.glyphImmediate vgaWidth.toNat c) := by
  have hput := h.putAt c
  have hnext : (d.vgaCursorX + 1).toNat = d.vgaCursorX.toNat + 1 :=
    Int.toNat_add_nat h.x_nonneg 1
  have hline := right_x_lt_iff h.x_nonneg h.screen.x_eq c
  unfold vgaPutGlyph Terminal.glyphImmediate
  dsimp only
  split
  · rename_i hfull
    rw [if_neg fun hlt => hline.mp hlt hfull]
    exact displayShows_newline h.y_nonneg hput.screen.right hput.within
  · rename_i hroom
    rw [if_pos (hline.mpr hroom)]
    refine ⟨Int.add_nonneg h.x_nonneg (by omega), h.y_nonneg, Int.lt_of_not_ge hroom, ?_,
      hput.within⟩
    change Terminal.Shows _ _ _ _ (d.vgaCursorX + 1).toNat _ _
    rw [hnext]
    exact hput.screen.right

theorem DisplayShows.putc (h : DisplayShows m d t) (c : Byte) :
    DisplayShows m (vgaPutc c d) (terminalPutc c t) := by
  have hx := h.x_nonneg
  have hx' : d.vgaCursorX < 80 := h.x_lt
  unfold vgaPutc terminalPutc Terminal.feed
  split
  · exact h.newline
  split
  · exact h.moveTo (by decide)
  split
  · have htab : (4 - d.vgaCursorX.tmod 4).toNat = 4 - t.x % 4 := by
      rw [← h.screen.x_eq, Int.tmod_eq_emod_of_nonneg hx]
      omega
    rw [Terminal.tab, ← htab]
    exact Terminal.repeat_rel (fun _ _ h => h.putGlyph (ascii ' ')) _ h
  split
  · rw [Terminal.backspace, ← h.screen.x_eq]
    split
    · rename_i hpos
      have hleft : d.vgaCursorX - 1 = (d.vgaCursorX.toNat - 1 : Nat) := by omega
      rw [if_pos (by omega)]
      dsimp only
      rw [hleft]
      exact (h.moveTo (show d.vgaCursorX.toNat - 1 < 80 by omega)).putAt _
    · rw [if_neg (by omega)]
      exact h
  · exact h.putGlyph c

theorem DisplayShows.write (h : DisplayShows m d t) (buf : Option (Nat → Byte)) (len : Word) :
    DisplayShows m (vgaDriverWrite buf len d) (terminalWrite buf len t) := by
  cases buf with
  | none => exact h
  | some buf => exact run_rel (fun _ _ i h => h.putc (buf i)) h _

theorem displayShows_init (d : Display) : DisplayShows d.video (vgaDriverInit d) .empty :=
  ⟨Int.le_refl 0, Int.le_refl 0, vgaWidth_pos, Terminal.shows_clear (by decide) _ _ _,
    TextBuffer.within_clear _ _ _⟩

structure WriteCall where
  buf : Option (Nat → Byte)
  len : Word

def displayStep (d : Display) (call : WriteCall) : Display := vgaDriverWrite call.buf call.len d

def terminalStep (t : Terminal Byte) (call : WriteCall) : Terminal Byte :=
  terminalWrite call.buf call.len t

/-- Both consoles show the last rows of a terminal without end, and store on the screen only. -/
theorem consoles_show_terminal :
    (∀ (s : Libk.Console) (calls : List Libk.ConsoleCall),
      Libk.ConsoleShows s.video (run Libk.consoleStep (Libk.kclearScreen s) calls)
        (run Libk.terminalStep .empty calls)) ∧
    ∀ (d : Display) (calls : List WriteCall),
      DisplayShows d.video (run displayStep (vgaDriverInit d) calls)
        (run terminalStep .empty calls) := by
  refine ⟨Libk.consoleShows_run, ?_⟩
  intro d calls
  exact run_rel (fun _ _ call h => h.write call.buf call.len) (displayShows_init d) calls

/-! ### Plain text on the display -/

def writeTerminal (t : Terminal Byte) (c : Byte) : Terminal Byte := terminalPutc c t

/-- While nothing scrolls, the driver stores where the terminal gets its characters. -/
structure DisplayTraces (t₀ : Terminal Byte) (d : Display) (t : Terminal Byte) : Prop where
  x_nonneg : 0 ≤ d.vgaCursorX
  y_nonneg : 0 ≤ d.vgaCursorY
  x_lt : d.vgaCursorX < vgaWidth
  traces : Terminal.Traces vgaWidth.toNat vgaHeight.toNat t₀ d.video d.vgaCursorX.toNat
    d.vgaCursorY.toNat t

variable {t₀ : Terminal Byte}

theorem writeTerminal_newline (t : Terminal Byte) : writeTerminal t 0x0A#8 = t.newline := rfl

theorem writeTerminal_plain (hc : 0x20#8 ≤ c) (t : Terminal Byte) :
    writeTerminal t c = t.glyphImmediate vgaWidth.toNat c :=
  @Terminal.feed_plain c (fun _ => true) _ hc rfl t

theorem le_y_writeTerminal (t : Terminal Byte) (c : Byte) (hc : Terminal.Plain c) :
    t.y ≤ (writeTerminal t c).y := by
  rcases hc with rfl | ⟨hc, -⟩
  · exact Nat.le_succ _
  · rw [writeTerminal_plain hc]
    exact Terminal.le_y_glyphImmediate c t

/-- The cursor may be in the column after the last when the line ends. -/
theorem displayTraces_newline {x : Nat} (hy : 0 ≤ d.vgaCursorY)
    (h : Terminal.Traces vgaWidth.toNat vgaHeight.toNat t₀ d.video x d.vgaCursorY.toNat t)
    (hroom : t.newline.y < vgaHeight.toNat) : DisplayTraces t₀ (vgaNewline d) t.newline := by
  have hnext : (d.vgaCursorY + 1).toNat = d.vgaCursorY.toNat + 1 := Int.toNat_add_nat hy 1
  have hlast : d.vgaCursorY.toNat + 1 < 25 := by
    rw [h.y_eq]
    exact hroom
  have hscroll : d.vgaCursorY + 1 < vgaHeight := show d.vgaCursorY + 1 < 25 by omega
  unfold vgaNewline vgaScroll
  rw [if_pos hscroll]
  refine ⟨Int.le_refl 0, Int.add_nonneg hy (by omega), vgaWidth_pos, ?_⟩
  dsimp only
  rw [hnext]
  exact h.newline hlast

theorem DisplayTraces.putGlyph (h : DisplayTraces t₀ d t) (c : Byte)
    (hroom : (t.glyphImmediate vgaWidth.toNat c).y < vgaHeight.toNat) :
    DisplayTraces t₀ (vgaPutGlyph c d) (t.glyphImmediate vgaWidth.toNat c) := by
  have hput := h.traces.putAt c d.vgaColor
  rw [← video_vgaPutcAt h.x_nonneg h.y_nonneg] at hput
  have hnext : (d.vgaCursorX + 1).toNat = d.vgaCursorX.toNat + 1 :=
    Int.toNat_add_nat h.x_nonneg 1
  have hline := right_x_lt_iff h.x_nonneg h.traces.x_eq c
  unfold vgaPutGlyph
  unfold Terminal.glyphImmediate at hroom ⊢
  dsimp only at hroom ⊢
  split
  · rename_i hfull
    rw [if_neg fun hlt => hline.mp hlt hfull] at hroom ⊢
    exact displayTraces_newline h.y_nonneg hput.right hroom
  · rename_i hspace
    rw [if_pos (hline.mpr hspace)]
    refine ⟨Int.add_nonneg h.x_nonneg (by omega), h.y_nonneg, Int.lt_of_not_ge hspace, ?_⟩
    change Terminal.Traces _ _ _ _ (d.vgaCursorX + 1).toNat _ _
    rw [hnext]
    exact hput.right

theorem DisplayTraces.putc (h : DisplayTraces t₀ d t) (hc : Terminal.Plain c)
    (hroom : (writeTerminal t c).y < vgaHeight.toNat) :
    DisplayTraces t₀ (vgaPutc c d) (writeTerminal t c) := by
  rcases hc with rfl | ⟨hc, -⟩
  · exact displayTraces_newline h.y_nonneg h.traces hroom
  · obtain ⟨h1, h2, h3, h4⟩ := Terminal.ne_control hc
    rw [writeTerminal_plain hc] at hroom ⊢
    rw [vgaPutc, if_neg h1, if_neg h2, if_neg h3, if_neg h4]
    exact h.putGlyph c hroom

theorem DisplayTraces.text (h : DisplayTraces t₀ d t) {text : List Byte}
    (htext : ∀ c ∈ text, Terminal.Plain c)
    (hend : (text.foldl writeTerminal t).y < vgaHeight.toNat) :
    DisplayTraces t₀ (text.foldl (fun d c => vgaPutc c d) d) (text.foldl writeTerminal t) :=
  Terminal.foldl_text le_y_writeTerminal (fun _ _ _ hc h hroom => h.putc hc hroom) htext h hend

end Display
end FenwickOS.Drv
