import FenwickOS.Lib.Terminal
import FenwickOS.Lib.Runs

/-! The console of lib/libk/src/stdio.rs: `kputc` and what it draws on the screen. -/
namespace FenwickOS.Libk
open Machine

def vgaWidth : Nat := 80
def vgaHeight : Nat := 25

/-- The screen at 0xB8000, the statics of the module, and the bytes passed to `serial_putc`. -/
structure Console where
  video : TextBuffer
  cursorX : Nat
  cursorY : Nat
  currentColor : Byte
  serial : List Byte

def vgaPutcAt (c color : Byte) (x y : Nat) (s : Console) : Console :=
  { s with video := s.video.putAt vgaWidth c color x y }

def scrollIfNeeded (s : Console) : Console :=
  if s.cursorY ≥ vgaHeight then
    { s with
      video := s.video.scroll vgaWidth vgaHeight 0#8 s.currentColor
      cursorY := vgaHeight - 1 }
  else s

def newline (s : Console) : Console :=
  scrollIfNeeded { s with cursorX := 0, cursorY := s.cursorY + 1 }

/-- The last but one arm of `kputc`, which is also a round of its tab loop. -/
def putGlyph (c : Byte) (s : Console) : Console :=
  let s := if s.cursorX ≥ vgaWidth then newline s else s
  let s := vgaPutcAt c s.currentColor s.cursorX s.cursorY s
  { s with cursorX := s.cursorX + 1 }

def kputc (c : Byte) (s : Console) : Console :=
  let s := { s with serial := s.serial ++ [c] }
  if c = 0x0A#8 then newline s
  else if c = 0x0D#8 then { s with cursorX := 0 }
  else if c = 0x09#8 then Nat.repeat (putGlyph (ascii ' ')) (4 - s.cursorX % 4) s
  else if c = 0x08#8 then
    if s.cursorX > 0 then
      let s := { s with cursorX := s.cursorX - 1 }
      vgaPutcAt (ascii ' ') s.currentColor s.cursorX s.cursorY s
    else s
  else if c ≥ 0x20#8 then putGlyph c s
  else s

def ksetColor (color : Byte) (s : Console) : Console := { s with currentColor := color }

def kclearScreen (s : Console) : Console :=
  { s with
    video := s.video.clear vgaWidth vgaHeight 0#8 s.currentColor
    cursorX := 0
    cursorY := 0 }

/-! ### The terminal behind the console -/

inductive ConsoleCall
  | kputc (c : Byte)
  | ksetColor (color : Byte)

def consoleStep (s : Console) : ConsoleCall → Console
  | .kputc c => kputc c s
  | .ksetColor color => ksetColor color s

/-- `kputc` on a terminal without end. -/
def terminalKputc (c : Byte) (t : Terminal Byte) : Terminal Byte :=
  t.feed (Terminal.glyphDeferred vgaWidth) (fun c => c ≥ 0x20#8) c

def terminalStep (t : Terminal Byte) : ConsoleCall → Terminal Byte
  | .kputc c => terminalKputc c t
  | .ksetColor _ => t

/-- The console shows the last rows of the terminal, and has stored only on the screen since its
memory was `m`. The column after the last waits for the next character. -/
structure ConsoleShows (m : TextBuffer) (s : Console) (t : Terminal Byte) : Prop where
  screen : t.Shows vgaWidth vgaHeight 0#8 (s.video.char vgaWidth) s.cursorX s.cursorY
  x_le : s.cursorX ≤ vgaWidth
  within : m.Within 4000 s.video

variable {m : TextBuffer} {s : Console} {t : Terminal Byte} {c : Byte}

theorem ConsoleShows.putAt (h : ConsoleShows m s t) (hx : s.cursorX < vgaWidth) (c : Byte) :
    ConsoleShows m (vgaPutcAt c s.currentColor s.cursorX s.cursorY s) (t.put c) :=
  ⟨h.screen.putAt hx c _, h.x_le, h.within.trans (TextBuffer.within_putAt hx h.screen.y_lt _ _ _)⟩

theorem ConsoleShows.moveTo (h : ConsoleShows m s t) {x : Nat} (hx : x ≤ vgaWidth) :
    ConsoleShows m { s with cursorX := x } { t with x := x } :=
  ⟨h.screen.moveTo x, hx, h.within⟩

theorem ConsoleShows.newline (h : ConsoleShows m s t) :
    ConsoleShows m (newline s) t.newline := by
  have hy : s.cursorY < vgaHeight := h.screen.y_lt
  unfold Libk.newline scrollIfNeeded
  dsimp only
  split
  · rename_i hscroll
    exact ⟨h.screen.scroll (by omega) _, Nat.zero_le _,
      h.within.trans (TextBuffer.within_scroll (by decide) _ _ _)⟩
  · rename_i hroom
    exact ⟨h.screen.nextLine (by omega), Nat.zero_le _, h.within⟩

theorem ConsoleShows.putGlyph (h : ConsoleShows m s t) (c : Byte) :
    ConsoleShows m (putGlyph c s) (t.glyphDeferred vgaWidth c) := by
  have draw {s : Console} {t : Terminal Byte} (h : ConsoleShows m s t)
      (hx : s.cursorX < vgaWidth) :
      let s' := vgaPutcAt c s.currentColor s.cursorX s.cursorY s
      ConsoleShows m { s' with cursorX := s'.cursorX + 1 } (t.put c).right :=
    ⟨(h.putAt hx c).screen.right, hx, (h.putAt hx c).within⟩
  unfold Libk.putGlyph Terminal.glyphDeferred
  rw [← h.screen.x_eq]
  by_cases hfull : s.cursorX ≥ vgaWidth
  · rw [if_pos hfull, if_neg (Nat.not_lt.mpr hfull)]
    refine draw h.newline ?_
    rw [h.newline.screen.x_eq]
    exact Nat.zero_lt_succ _
  · rw [if_neg hfull, if_pos (Nat.lt_of_not_le hfull)]
    exact draw h (Nat.lt_of_not_le hfull)

theorem ConsoleShows.kputc (h : ConsoleShows m s t) (c : Byte) :
    ConsoleShows m (kputc c s) (terminalKputc c t) := by
  have hserial : ConsoleShows m { s with serial := s.serial ++ [c] } t :=
    ⟨h.screen, h.x_le, h.within⟩
  unfold Libk.kputc terminalKputc Terminal.feed
  generalize { s with serial := s.serial ++ [c] } = s at hserial
  dsimp only
  split
  · exact hserial.newline
  split
  · exact hserial.moveTo (Nat.zero_le _)
  split
  · rw [Terminal.tab, ← hserial.screen.x_eq]
    exact Terminal.repeat_rel (fun _ _ h => h.putGlyph (ascii ' ')) _ hserial
  split
  · rw [Terminal.backspace, ← hserial.screen.x_eq]
    have hx := hserial.x_le
    split
    · exact (hserial.moveTo (x := s.cursorX - 1) (by omega)).putAt (by dsimp only; omega) _
    · exact hserial
  simp only [decide_eq_true_eq]
  split
  · exact hserial.putGlyph c
  · exact hserial

theorem ConsoleShows.step (h : ConsoleShows m s t) (call : ConsoleCall) :
    ConsoleShows m (consoleStep s call) (terminalStep t call) := by
  cases call with
  | kputc c => exact h.kputc c
  | ksetColor color => exact ⟨h.screen, h.x_le, h.within⟩

theorem consoleShows_kclearScreen (s : Console) :
    ConsoleShows s.video (kclearScreen s) .empty :=
  ⟨Terminal.shows_clear (by decide) _ _ _, Nat.zero_le _, TextBuffer.within_clear _ _ _⟩

theorem consoleShows_run (s : Console) (calls : List ConsoleCall) :
    ConsoleShows s.video (run consoleStep (kclearScreen s) calls)
      (run terminalStep .empty calls) :=
  run_rel (fun _ _ call h => h.step call) (consoleShows_kclearScreen s) calls

/-! ### Plain text on the console -/

def kputsConsole (s : List Byte) (console : Console) : Console :=
  s.foldl (fun console c => kputc c console) console

def kputsTerminal (t : Terminal Byte) (c : Byte) : Terminal Byte := terminalKputc c t

/-- While nothing scrolls, the console stores where the terminal gets its characters. -/
structure ConsoleTraces (t₀ : Terminal Byte) (s : Console) (t : Terminal Byte) : Prop where
  traces : Terminal.Traces vgaWidth vgaHeight t₀ s.video s.cursorX s.cursorY t
  x_le : s.cursorX ≤ vgaWidth

variable {t₀ : Terminal Byte}

theorem kputsTerminal_plain (hc : 0x20#8 ≤ c) (t : Terminal Byte) :
    kputsTerminal t c = t.glyphDeferred vgaWidth c := by
  have hdrawn : decide (c ≥ 0x20#8) = true := decide_eq_true hc
  exact @Terminal.feed_plain c (fun c => c ≥ 0x20#8) _ hc hdrawn t

theorem le_y_kputsTerminal (t : Terminal Byte) (c : Byte) (hc : Terminal.Plain c) :
    t.y ≤ (kputsTerminal t c).y := by
  rcases hc with rfl | ⟨hc, -⟩
  · exact Nat.le_succ _
  · rw [kputsTerminal_plain hc]
    exact Terminal.le_y_glyphDeferred c t

theorem ConsoleTraces.newline (h : ConsoleTraces t₀ s t) (hroom : t.newline.y < vgaHeight) :
    ConsoleTraces t₀ (newline s) t.newline := by
  have hy : s.cursorY + 1 < vgaHeight := by
    rw [h.traces.y_eq]
    exact hroom
  unfold Libk.newline scrollIfNeeded
  rw [if_neg (Nat.not_le.mpr hy)]
  exact ⟨h.traces.newline hy, Nat.zero_le _⟩

theorem ConsoleTraces.draw (h : ConsoleTraces t₀ s t) (hx : s.cursorX < vgaWidth) (c : Byte) :
    let s' := vgaPutcAt c s.currentColor s.cursorX s.cursorY s
    ConsoleTraces t₀ { s' with cursorX := s'.cursorX + 1 } (t.put c).right :=
  ⟨(h.traces.putAt c s.currentColor).right, hx⟩

theorem ConsoleTraces.putGlyph (h : ConsoleTraces t₀ s t) (c : Byte)
    (hroom : (t.glyphDeferred vgaWidth c).y < vgaHeight) :
    ConsoleTraces t₀ (putGlyph c s) (t.glyphDeferred vgaWidth c) := by
  unfold Libk.putGlyph
  unfold Terminal.glyphDeferred at hroom ⊢
  rw [← h.traces.x_eq] at hroom ⊢
  by_cases hfull : s.cursorX ≥ vgaWidth
  · rw [if_neg (Nat.not_lt.mpr hfull)] at hroom ⊢
    rw [if_pos hfull]
    have hnewline := h.newline hroom
    refine hnewline.draw ?_ c
    rw [hnewline.traces.x_eq]
    exact Nat.zero_lt_succ _
  · rw [if_neg hfull, if_pos (Nat.lt_of_not_le hfull)]
    exact h.draw (Nat.lt_of_not_le hfull) c

theorem ConsoleTraces.kputc (h : ConsoleTraces t₀ s t) (hc : Terminal.Plain c)
    (hroom : (kputsTerminal t c).y < vgaHeight) :
    ConsoleTraces t₀ (kputc c s) (kputsTerminal t c) := by
  have hserial : ConsoleTraces t₀ { s with serial := s.serial ++ [c] } t := ⟨h.traces, h.x_le⟩
  rcases hc with rfl | ⟨hc, -⟩
  · exact hserial.newline hroom
  · obtain ⟨h1, h2, h3, h4⟩ := Terminal.ne_control hc
    rw [kputsTerminal_plain hc] at hroom ⊢
    rw [Libk.kputc, if_neg h1, if_neg h2, if_neg h3, if_neg h4, if_pos hc]
    exact hserial.putGlyph c hroom

theorem ConsoleTraces.kputs (h : ConsoleTraces t₀ s t) {text : List Byte}
    (htext : ∀ c ∈ text, Terminal.Plain c) (hend : (text.foldl kputsTerminal t).y < vgaHeight) :
    ConsoleTraces t₀ (kputsConsole text s) (text.foldl kputsTerminal t) :=
  Terminal.foldl_text le_y_kputsTerminal (fun _ _ _ hc h hroom => h.kputc hc hroom) htext h hend

/-! ### Two consoles side by side, and the colors on one -/

/-- The consoles differ only in what stood on their screens before. -/
structure Beside (R : Byte → Byte → Prop) (s s' : Console) : Prop where
  like : TextBuffer.Like R s.video s'.video
  x_eq : s.cursorX = s'.cursorX
  y_eq : s.cursorY = s'.cursorY
  color_eq : s.currentColor = s'.currentColor
  serial_eq : s.serial = s'.serial

/-- Every cell of the screen has a color with the property, and so has what is printed next. -/
structure Painted (P : Byte → Prop) (s : Console) : Prop where
  cells : s.video.Colored P vgaWidth vgaHeight
  current : P s.currentColor

variable {R : Byte → Byte → Prop} {P : Byte → Prop} {s' : Console}

theorem Beside.moveTo (h : Beside R s s') (n : Nat) :
    Beside R { s with cursorX := n } { s' with cursorX := n } :=
  ⟨h.like, rfl, h.y_eq, h.color_eq, h.serial_eq⟩

theorem Beside.vgaPutcAt (h : Beside R s s') (hR : ∀ v, R v v) (c : Byte) :
    Beside R (vgaPutcAt c s.currentColor s.cursorX s.cursorY s)
      (vgaPutcAt c s'.currentColor s'.cursorX s'.cursorY s') := by
  rw [h.color_eq, h.x_eq, h.y_eq]
  exact ⟨h.like.putAt hR c _ _ _, h.x_eq, h.y_eq, h.color_eq, h.serial_eq⟩

theorem Beside.newline (h : Beside R s s') (hR : ∀ v, R v v) :
    Beside R (newline s) (newline s') := by
  unfold Libk.newline scrollIfNeeded
  dsimp only
  rw [h.y_eq, h.color_eq]
  split
  · exact ⟨h.like.scroll hR (by decide) (by decide) _ _, rfl, rfl, rfl, h.serial_eq⟩
  · exact ⟨h.like, rfl, rfl, rfl, h.serial_eq⟩

theorem Beside.putGlyph (h : Beside R s s') (hR : ∀ v, R v v) (c : Byte) :
    Beside R (putGlyph c s) (putGlyph c s') := by
  have draw {s s' : Console} (h : Beside R s s') :
      let t := Libk.vgaPutcAt c s.currentColor s.cursorX s.cursorY s
      let t' := Libk.vgaPutcAt c s'.currentColor s'.cursorX s'.cursorY s'
      Beside R { t with cursorX := t.cursorX + 1 } { t' with cursorX := t'.cursorX + 1 } := by
    have hput := h.vgaPutcAt hR c
    exact ⟨hput.like, congrArg (· + 1) hput.x_eq, hput.y_eq, hput.color_eq, hput.serial_eq⟩
  unfold Libk.putGlyph
  rw [← h.x_eq]
  split
  · exact draw (h.newline hR)
  · exact draw h

theorem Beside.kputc (h : Beside R s s') (hR : ∀ v, R v v) (c : Byte) :
    Beside R (kputc c s) (kputc c s') := by
  have hserial : Beside R { s with serial := s.serial ++ [c] }
      { s' with serial := s'.serial ++ [c] } :=
    ⟨h.like, h.x_eq, h.y_eq, h.color_eq, congrArg (· ++ [c]) h.serial_eq⟩
  unfold Libk.kputc
  generalize { s with serial := s.serial ++ [c] } = s at hserial
  generalize { s' with serial := s'.serial ++ [c] } = s' at hserial
  dsimp only
  rw [← hserial.x_eq]
  split
  · exact hserial.newline hR
  split
  · exact hserial.moveTo 0
  split
  · exact Terminal.repeat_rel (fun _ _ h => h.putGlyph hR (ascii ' ')) _ hserial
  split
  · split
    · exact (hserial.moveTo _).vgaPutcAt hR _
    · exact hserial
  split
  · exact hserial.putGlyph hR c
  · exact hserial

theorem Beside.step (h : Beside R s s') (hR : ∀ v, R v v) (call : ConsoleCall) :
    Beside R (consoleStep s call) (consoleStep s' call) := by
  cases call with
  | kputc c => exact h.kputc hR c
  | ksetColor color => exact ⟨h.like, h.x_eq, h.y_eq, rfl, h.serial_eq⟩

theorem Painted.newline (h : Painted P s) : Painted P (newline s) := by
  unfold Libk.newline scrollIfNeeded
  dsimp only
  split
  · exact ⟨h.cells.scroll h.current _, h.current⟩
  · exact ⟨h.cells, h.current⟩

theorem Painted.putGlyph (h : Painted P s) (c : Byte) : Painted P (putGlyph c s) := by
  unfold Libk.putGlyph
  split
  · exact ⟨h.newline.cells.putAt h.newline.current _ _ _, h.newline.current⟩
  · exact ⟨h.cells.putAt h.current _ _ _, h.current⟩

theorem Painted.kputc (h : Painted P s) (c : Byte) : Painted P (kputc c s) := by
  have hserial : Painted P { s with serial := s.serial ++ [c] } := ⟨h.cells, h.current⟩
  unfold Libk.kputc
  generalize { s with serial := s.serial ++ [c] } = s at hserial
  dsimp only
  split
  · exact hserial.newline
  split
  · exact ⟨hserial.cells, hserial.current⟩
  split
  · exact Terminal.repeat_rel (R := fun s _ => Painted P s) (g := id) (u := ())
      (fun _ _ h => h.putGlyph (ascii ' ')) _ hserial
  split
  · split
    · exact ⟨hserial.cells.putAt hserial.current _ _ _, hserial.current⟩
    · exact hserial
  split
  · exact hserial.putGlyph c
  · exact hserial

theorem Painted.run (h : Painted P s) {calls : List ConsoleCall}
    (hcolors : ∀ color, .ksetColor color ∈ calls → P color) :
    Painted P (run consoleStep s calls) := by
  induction calls generalizing s with
  | nil => exact h
  | cons call calls ih =>
    refine ih ?_ fun color hmem => hcolors color (List.mem_cons_of_mem _ hmem)
    cases call with
    | kputc c => exact h.kputc c
    | ksetColor color => exact ⟨h.cells, hcolors color List.mem_cons_self⟩

end FenwickOS.Libk
