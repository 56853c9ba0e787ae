import FenwickOS.Drv.SharedScreen
import FenwickOS.Lib.Displaced
import FenwickOS.Lib.Layout

/-! The same text on a cleared screen by `kputs` of lib/libk/src/stdio.rs and by `vga_driver_write`
of kernel/drv/drv_vga.c. -/
namespace FenwickOS.Drv
open Machine Display

/-- A buffer of printable characters and newlines. -/
structure PlainText where
  buf : Nat → Byte
  len : Word
  plain : ∀ i < len.toNat, Terminal.Plain (buf i)

def PlainText.bytes (text : PlainText) : List Byte := (List.range text.len.toNat).map text.buf

/-- The two bytes that show nothing. -/
def Blank (c : Byte) : Prop := c = 0#8 ∨ c = ascii ' '

instance (c : Byte) : Decidable (Blank c) := by
  unfold Blank
  infer_instance

def SameChar (a b : Byte) : Prop := a = b ∨ Blank a ∧ Blank b

def SameScreen (s : Libk.Console) (d : Display) : Prop :=
  ∀ row < 25, ∀ col < 80, SameChar (s.video.char 80 row col) (d.video.char 80 row col)

def lateTop (text : List Byte) : Nat := (Lines.of 80 text).lateCursor 80 - 24

def earlyTop (text : List Byte) : Nat := (Lines.of 80 text).earlyRow 80 - 24

/-- The driver's screen has scrolled further than libk's by one row for each completed line that
ends in the last column and stands before a character that one of the screens shows. -/
def Aligned (text : List Byte) : Prop :=
  ∀ u c, u ++ [c] <+: text → c ≠ 0x0A#8 → ¬ Blank c →
    lateTop text ≤ (Lines.of 80 u).row 80 ∨ earlyTop text ≤ (Lines.of 80 u).earlyRow 80 →
    earlyTop text = lateTop text + (Lines.of 80 u).full

/-- A character of the text that shows, after the part of the text before it. -/
structure Mark (text : List Byte) where
  before : List Byte
  char : Byte
  within : before ++ [char] <+: text
  no_newline : char ≠ 0x0A#8
  shows : ¬ Blank char

namespace Mark

variable {text : List Byte}

def lines (m : Mark text) : Lines := .of 80 m.before

/-- The row of a screen whose first one is row `top` of the text. -/
def place (row : Lines → Nat) (top : Nat) (m : Mark text) : Int := (row m.lines : Int) - top

def late : Mark text → Int := place (Lines.row 80) (lateTop text)

def early : Mark text → Int := place (Lines.earlyRow 80) (earlyTop text)

def label (m : Mark text) : Nat × Byte := (m.lines.col 80, m.char)

theorem passed (m : Mark text) : Lines.Passed 80 m.lines (.of 80 text) :=
  Lines.passed_of_prefix (by decide) m.no_newline m.within

theorem late_lt (m : Mark text) : m.late < 25 := by
  have hrow := m.passed.row_le
  unfold late place lateTop
  omega

theorem early_lt (m : Mark text) : m.early < 25 := by
  have hrow := Nat.le_trans m.passed.row_le (Lines.lateCursor_le_row 80 _)
  have hfull := m.passed.full_le
  unfold early place earlyTop Lines.earlyRow
  omega

theorem displaced (m : Mark text) :
    m.early - m.late = m.lines.full + lateTop text - earlyTop text := by
  unfold early late place Lines.earlyRow
  omega

/-- The lower a character stands, the more full lines it has before it. -/
theorem displaced_mono (m m' : Mark text) (h : m.late ≤ m'.late) :
    m.early - m.late ≤ m'.early - m'.late := by
  have hrow : m.lines.row 80 ≤ m'.lines.row 80 := by
    unfold late place at h
    omega
  have hfull : m.lines.full ≤ m'.lines.full :=
    Lines.full_mono (by decide) m'.no_newline ((List.prefix_append _ _).trans m.within) m'.within
      hrow
  rw [displaced, displaced]
  omega

end Mark

variable {text : List Byte} {t : Terminal Byte} {s : Libk.Console} {d : Display} {a b c ch : Byte}

theorem aligned_iff_marks : Aligned text ↔
    ∀ m : Mark text, 0 ≤ m.late ∨ 0 ≤ m.early → m.late = m.early := by
  constructor
  · intro h m hin
    have hd := m.displaced
    have htop := h m.before m.char m.within m.no_newline m.shows (by
      unfold Mark.late Mark.early Mark.place Mark.lines at hin
      omega)
    unfold Mark.lines at hd
    omega
  · intro h u c hu hc hblank hin
    have hd := Mark.displaced ⟨u, c, hu, hc, hblank⟩
    have heq := h ⟨u, c, hu, hc, hblank⟩ (by
      unfold Mark.late Mark.early Mark.place Mark.lines
      dsimp only
      omega)
    unfold Mark.lines at hd
    dsimp only at hd
    omega

theorem sameChar_iff : SameChar a b ↔ ∀ ch, ¬ Blank ch → (a = ch ↔ b = ch) := by
  constructor
  · rintro (rfl | ⟨ha, hb⟩) ch hch
    · exact Iff.rfl
    · refine iff_of_false ?_ ?_
      · rintro rfl
        exact hch ha
      · rintro rfl
        exact hch hb
  · intro h
    by_cases ha : Blank a
    · by_cases hb : Blank b
      · exact Or.inr ⟨ha, hb⟩
      · exact Or.inl ((h b hb).mpr rfl)
    · exact Or.inl ((h a ha).mp rfl).symm

/-! ### What each screen shows -/

/-- A screen shows the characters of a text where the terminal behind it has them. -/
theorem char_iff {row : Lines → Nat} {read : Nat → Nat → Byte} {x y r k : Nat}
    (h : t.Shows 80 25 b read x y) (hlaid : t.Laid row 80 text) (hb : Blank b) (hr : r < 25)
    (hk : k < 80) (hch : ¬ Blank ch) :
    read r k = ch ↔ Shown (Mark.place row (t.top 25) : Mark text → Int) Mark.label r (k, ch) := by
  have hcell : read r k = ch ↔ t.cells (t.top 25 + r) k = some ch := by
    rw [h.cells r hr k hk]
    cases t.cells (t.top 25 + r) k with
    | none =>
      rw [Option.getD_none]
      refine iff_of_false ?_ (by simp)
      rintro rfl
      exact hch hb
    | some c => simp
  rw [hcell, hlaid]
  constructor
  · rintro ⟨u, hu, hc, hrow, hcol⟩
    refine ⟨Int.natCast_nonneg r, ⟨u, ch, hu, hc, hch⟩, ?_, Prod.ext hcol rfl⟩
    unfold Mark.place Mark.lines
    dsimp only
    omega
  · rintro ⟨-, m, hrow, hlabel⟩
    obtain ⟨hcol, rfl⟩ := Prod.mk.inj hlabel
    refine ⟨m.before, m.within, m.no_newline, ?_, hcol⟩
    unfold Mark.place Mark.lines at hrow
    omega

theorem laidLate_kputs (htext : ∀ c ∈ text, Terminal.Plain c) :
    Terminal.LaidLate 80 text (Terminal.layout Libk.kputsTerminal text) := by
  induction text using List.reverseRecOn with
  | nil => exact Terminal.laidLate_empty 80
  | append_singleton text c ih =>
    have hlaid := ih fun c' hc' => htext c' (List.mem_append_left _ hc')
    rw [Terminal.layout_snoc]
    rcases htext c (by simp) with rfl | ⟨hc, -⟩
    · exact hlaid.newline
    · rw [Libk.kputsTerminal_plain hc]
      exact hlaid.glyph (by decide) (Terminal.ne_control hc).1

theorem laidEarly_write (htext : ∀ c ∈ text, Terminal.Plain c) :
    Terminal.LaidEarly 80 text (Terminal.layout writeTerminal text) := by
  induction text using List.reverseRecOn with
  | nil => exact Terminal.laidEarly_empty 80
  | append_singleton text c ih =>
    have hlaid := ih fun c' hc' => htext c' (List.mem_append_left _ hc')
    rw [Terminal.layout_snoc]
    rcases htext c (by simp) with rfl | ⟨hc, -⟩
    · exact hlaid.newline (by decide)
    · rw [writeTerminal_plain hc]
      exact hlaid.glyph (by decide) (Terminal.ne_control hc).1

theorem PlainText.plain_bytes (text : PlainText) : ∀ c ∈ text.bytes, Terminal.Plain c := by
  intro c hc
  obtain ⟨i, hi, rfl⟩ := List.mem_map.mp hc
  exact text.plain i (List.mem_range.mp hi)

theorem kputs_shows (s : Libk.Console) (text : List Byte) :
    Libk.ConsoleShows s.video (Libk.kputsConsole text (Libk.kclearScreen s))
      (Terminal.layout Libk.kputsTerminal text) :=
  run_rel (R := Libk.ConsoleShows s.video) (fun _ _ c h => h.kputc c)
    (Libk.consoleShows_kclearScreen s) text

theorem write_shows (d : Display) (text : PlainText) :
    DisplayShows d.video (Display.vgaDriverWrite (some text.buf) text.len (Display.vgaDriverInit d))
      (Terminal.layout writeTerminal text.bytes) := by
  have h := (displayShows_init d).write (some text.buf) text.len
  rw [terminalWrite] at h
  rw [Terminal.layout, PlainText.bytes, List.foldl_map]
  exact h

theorem kputs_char_iff (s : Libk.Console) (htext : ∀ c ∈ text, Terminal.Plain c) {r k : Nat}
    (hr : r < 25) (hk : k < 80) (hch : ¬ Blank ch) :
    (Libk.kputsConsole text (Libk.kclearScreen s)).video.char 80 r k = ch ↔
      Shown (Mark.late : Mark text → Int) Mark.label r (k, ch) := by
  have hlaid := laidLate_kputs htext
  have htop : (Terminal.layout Libk.kputsTerminal text).top 25 = lateTop text :=
    congrArg (· - 24) hlaid.y_eq
  have hchar := char_iff (kputs_shows s text).screen hlaid.laid (Or.inl rfl) hr hk hch
  rw [htop] at hchar
  exact hchar

theorem write_char_iff (d : Display) (text : PlainText) {r k : Nat} (hr : r < 25) (hk : k < 80)
    (hch : ¬ Blank ch) :
    (Display.vgaDriverWrite (some text.buf) text.len (Display.vgaDriverInit d)).video.char 80 r k =
        ch ↔
      Shown (Mark.early : Mark text.bytes → Int) Mark.label r (k, ch) := by
  have hlaid := laidEarly_write text.plain_bytes
  have htop : (Terminal.layout writeTerminal text.bytes).top 25 = earlyTop text.bytes :=
    congrArg (· - 24) hlaid.y_eq
  have hchar := char_iff (write_shows d text).screen hlaid.laid (Or.inr rfl) hr hk hch
  rw [htop] at hchar
  exact hchar

/-- The screens are the same if they show the same marks. -/
theorem sameScreen_iff_shown (s : Libk.Console) (d : Display) (text : PlainText) :
    SameScreen (Libk.kputsConsole text.bytes (Libk.kclearScreen s))
        (Display.vgaDriverWrite (some text.buf) text.len (Display.vgaDriverInit d)) ↔
      ∀ r g, Shown (Mark.late : Mark text.bytes → Int) Mark.label r g ↔
        Shown (Mark.early : Mark text.bytes → Int) Mark.label r g := by
  constructor
  · rintro h r ⟨k, ch⟩
    have hcell (hr : 0 ≤ r) (hr' : r < 25) (hk : k < 80) (hch : ¬ Blank ch) :
        Shown (Mark.late : Mark text.bytes → Int) Mark.label r (k, ch) ↔
          Shown (Mark.early : Mark text.bytes → Int) Mark.label r (k, ch) := by
      obtain ⟨n, rfl⟩ := Int.eq_ofNat_of_zero_le hr
      have hn : n < 25 := by omega
      rw [← kputs_char_iff s text.plain_bytes hn hk hch, ← write_char_iff d text hn hk hch]
      exact sameChar_iff.mp (h n hn k hk) ch hch
    constructor
    · intro hshown
      obtain ⟨hr, m, rfl, hlabel⟩ := id hshown
      obtain ⟨rfl, rfl⟩ := Prod.mk.inj hlabel
      exact (hcell hr m.late_lt (Nat.mod_lt _ (by decide)) m.shows).mp hshown
    · intro hshown
      obtain ⟨hr, m, rfl, hlabel⟩ := id hshown
      obtain ⟨rfl, rfl⟩ := Prod.mk.inj hlabel
      exact (hcell hr m.early_lt (Nat.mod_lt _ (by decide)) m.shows).mpr hshown
  · intro h row hrow col hcol
    refine sameChar_iff.mpr fun ch hch => ?_
    rw [kputs_char_iff s text.plain_bytes hrow hcol hch, write_char_iff d text hrow hcol hch]
    exact h row (col, ch)

/-- A text is aligned if none of its lines fills its last row. -/
theorem aligned_of_unfilled (h : ∀ u, u = text ∨ u ++ [0x0A#8] <+: text →
    (Lines.of 80 u).length = 0 ∨ (Lines.of 80 u).length % 80 ≠ 0) : Aligned text := by
  intro u c hu _ _ _
  have hfull : (Lines.of 80 text).full = 0 := Lines.full_eq_zero fun u hu => h u (Or.inr hu)
  have hbefore := Lines.full_le_of_prefix 80 ((List.prefix_append u [c]).trans hu)
  have hlast := h text (Or.inl rfl)
  unfold earlyTop lateTop Lines.earlyRow Lines.row Lines.lateCursor
  omega

/-- The two renderers leave the same screen exactly if the text is aligned. -/
theorem sameScreen_iff (s : Libk.Console) (d : Display) (text : PlainText) :
    SameScreen (Libk.kputsConsole text.bytes (Libk.kclearScreen s))
        (Display.vgaDriverWrite (some text.buf) text.len (Display.vgaDriverInit d)) ↔
      Aligned text.bytes := by
  rw [sameScreen_iff_shown, aligned_iff_marks]
  exact shown_iff Mark.displaced_mono Mark.late_lt Mark.early_lt

/-- A line of 80 characters and one of one character. -/
def fullLine : PlainText where
  buf := fun i => if i < 80 then ascii 'A' else if i = 80 then 0x0A#8 else ascii 'B'
  len := 82#64
  plain := by
    unfold Terminal.Plain
    decide +kernel

/-- The driver leaves a row free between the two. -/
theorem screens_differ_fullLine :
    ¬ SameScreen (Libk.kputsConsole fullLine.bytes (Libk.kclearScreen zeroConsole))
      (Display.vgaDriverWrite (some fullLine.buf) fullLine.len
        (Display.vgaDriverInit (recording zeroWorld.vga))) := by
  intro h
  have hshown := (sameScreen_iff_shown _ _ _).mp h
  have hrows := (shown_iff Mark.displaced_mono Mark.late_lt Mark.early_lt).mp hshown
    ⟨fullLine.bytes.take 81, ascii 'B', by decide +kernel, by decide, by decide⟩
  revert hrows
  decide +kernel

end FenwickOS.Drv
