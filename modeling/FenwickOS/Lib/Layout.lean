import FenwickOS.Lib.Terminal
import Mathlib.Data.List.Induction

/-! Where the characters of a plain text stand on a terminal that wraps a full line late, when a
character finds no room, and on one that wraps it early. -/
namespace Machine

/-- What a text comes to: the length of its last line, the rows that the lines before it take up
when they wrap late, and how many of those end in the last column. -/
structure Lines where
  length : Nat
  rows : Nat
  full : Nat

namespace Lines

variable {width : Nat} {l : Lines} {c ch : Byte} {u v w text : List Byte}

def next (width : Nat) (l : Lines) (c : Byte) : Lines :=
  if c = 0x0A#8 then
    { length := 0
      rows := l.rows + (l.length - 1) / width + 1
      full := if 0 < l.length ∧ l.length % width = 0 then l.full + 1 else l.full }
  else { l with length := l.length + 1 }

def of (width : Nat) (text : List Byte) : Lines := text.foldl (next width) ⟨0, 0, 0⟩

/-- Where the next character goes when lines wrap late. -/
def row (width : Nat) (l : Lines) : Nat := l.rows + l.length / width

def col (width : Nat) (l : Lines) : Nat := l.length % width

/-- Early wrapping adds a row to each line that has ended in the last column. -/
def earlyRow (width : Nat) (l : Lines) : Nat := l.row width + l.full

/-- The row of the cursor when lines wrap late. -/
def lateCursor (width : Nat) (l : Lines) : Nat := l.rows + (l.length - 1) / width

theorem of_snoc (width : Nat) (text : List Byte) (c : Byte) :
    of width (text ++ [c]) = (of width text).next width c := by
  simp [of]

theorem next_newline (width : Nat) (l : Lines) : l.next width 0x0A#8 =
    ⟨0, l.lateCursor width + 1,
      if 0 < l.length ∧ l.length % width = 0 then l.full + 1 else l.full⟩ := rfl

theorem next_char (hc : c ≠ 0x0A#8) (width : Nat) (l : Lines) :
    l.next width c = { l with length := l.length + 1 } := if_neg hc

theorem lateCursor_le_row (width : Nat) (l : Lines) : l.lateCursor width ≤ l.row width :=
  Nat.add_le_add_left (Nat.div_le_div_right (Nat.sub_le _ _)) _

theorem full_le_next (width : Nat) (l : Lines) (c : Byte) : l.full ≤ (l.next width c).full := by
  by_cases hc : c = 0x0A#8
  · subst hc
    rw [next_newline]
    dsimp only
    split
    · exact Nat.le_succ _
    · exact Nat.le_refl _
  · rw [next_char hc]

theorem lateCursor_le_next (width : Nat) (l : Lines) (c : Byte) :
    l.lateCursor width ≤ (l.next width c).lateCursor width := by
  by_cases hc : c = 0x0A#8
  · subst hc
    rw [next_newline, lateCursor, lateCursor, Nat.zero_sub, Nat.zero_div]
    exact Nat.le_succ _
  · rw [next_char hc]
    exact lateCursor_le_row width l

def cell (width : Nat) (l : Lines) : Nat := l.rows * width + l.length

theorem row_col (width : Nat) (l : Lines) : l.row width * width + l.col width = l.cell width := by
  rw [row, col, cell, Nat.add_mul, Nat.add_assoc, Nat.mul_comm (l.length / width),
    Nat.div_add_mod]

theorem cell_le_next (hwidth : 0 < width) (l : Lines) (c : Byte) :
    l.cell width ≤ (l.next width c).cell width := by
  by_cases hc : c = 0x0A#8
  · subst hc
    rw [next_newline, cell, cell, lateCursor]
    dsimp only
    have hlast := Nat.div_add_mod (l.length - 1) width
    have hmod := Nat.mod_lt (l.length - 1) hwidth
    rw [Nat.add_mul, Nat.add_mul, Nat.mul_comm ((l.length - 1) / width)]
    omega
  · rw [next_char hc]
    exact Nat.le_succ _

theorem cell_lt_next (hc : c ≠ 0x0A#8) (width : Nat) (l : Lines) :
    l.cell width < (l.next width c).cell width := by
  rw [next_char hc]
  exact Nat.lt_succ_self _

/-- What a character leaves behind it, and the rest of the text does not undo. -/
structure Passed (width : Nat) (l l' : Lines) : Prop where
  cell_lt : l.cell width < l'.cell width
  row_le : l.row width ≤ l'.lateCursor width
  full_le : l.full ≤ l'.full
  full_lt : l.full < l'.full → l.row width < l'.rows

theorem passed_char (hc : c ≠ 0x0A#8) (width : Nat) (l : Lines) :
    Passed width l (l.next width c) where
  cell_lt := cell_lt_next hc width l
  row_le := by
    rw [next_char hc]
    exact Nat.le_refl _
  full_le := full_le_next width l c
  full_lt := by
    rw [next_char hc]
    exact fun h => absurd h (Nat.lt_irrefl _)

theorem Passed.next {l' : Lines} (h : Passed width l l') (hwidth : 0 < width) (c : Byte) :
    Passed width l (l'.next width c) where
  cell_lt := Nat.lt_of_lt_of_le h.cell_lt (cell_le_next hwidth l' c)
  row_le := Nat.le_trans h.row_le (lateCursor_le_next width l' c)
  full_le := Nat.le_trans h.full_le (full_le_next width l' c)
  full_lt := by
    by_cases hc : c = 0x0A#8
    · subst hc
      rw [next_newline]
      exact fun _ => Nat.lt_succ_of_le h.row_le
    · rw [next_char hc]
      exact h.full_lt

/-- The character after `u` has been passed at the end of a text that goes on after it. -/
theorem passed_of_prefix (hwidth : 0 < width) (hc : c ≠ 0x0A#8) (hu : u ++ [c] <+: text) :
    Passed width (of width u) (of width text) := by
  obtain ⟨rest, rfl⟩ := hu
  induction rest using List.reverseRecOn with
  | nil =>
    rw [List.append_nil, of_snoc]
    exact passed_char hc width _
  | append_singleton rest c' ih =>
    rw [← List.append_assoc, of_snoc]
    exact ih.next hwidth c'

theorem full_le_of_prefix (width : Nat) (hu : u <+: text) :
    (of width u).full ≤ (of width text).full := by
  obtain ⟨rest, rfl⟩ := hu
  induction rest using List.reverseRecOn with
  | nil => rw [List.append_nil]
  | append_singleton rest c ih =>
    rw [← List.append_assoc, of_snoc]
    exact Nat.le_trans ih (full_le_next width _ c)

/-- A character that stands no lower than another has no more full lines before it. -/
theorem full_mono (hwidth : 0 < width) (hc : c ≠ 0x0A#8) (hu : u <+: text)
    (hv : v ++ [c] <+: text) (hrow : (of width u).row width ≤ (of width v).row width) :
    (of width u).full ≤ (of width v).full := by
  rcases List.prefix_or_prefix_of_prefix hu hv with huv | hvu
  · rcases List.prefix_concat_iff.mp huv with rfl | huv
    · rw [of_snoc, next_char hc]
    · exact full_le_of_prefix width huv
  · have hpassed := passed_of_prefix hwidth hc hvu
    by_contra hlt
    have hrows := hpassed.full_lt (by omega)
    have hrow' : (of width u).rows ≤ (of width u).row width := Nat.le_add_right _ _
    omega

/-- No line that has been completed ends in the last column. -/
theorem full_eq_zero (h : ∀ u, u ++ [0x0A#8] <+: text →
    (of width u).length = 0 ∨ (of width u).length % width ≠ 0) : (of width text).full = 0 := by
  induction text using List.reverseRecOn with
  | nil => rfl
  | append_singleton text c ih =>
    have hfull := ih fun u hu => h u (hu.trans (List.prefix_append _ _))
    rw [of_snoc]
    by_cases hc : c = 0x0A#8
    · subst hc
      have hline := h text List.prefix_rfl
      rw [next_newline, if_neg (by omega)]
      exact hfull
    · rw [next_char hc]
      exact hfull

/-- One character further the line goes on, or it has come to the last column. -/
theorem succ_div_mod (hwidth : 0 < width) (n : Nat) :
    (n % width + 1 < width ∧ (n + 1) % width = n % width + 1 ∧ (n + 1) / width = n / width) ∨
    (n % width + 1 = width ∧ (n + 1) % width = 0 ∧ (n + 1) / width = n / width + 1) := by
  have hlt := Nat.mod_lt n hwidth
  have hsplit : n + 1 = width * (n / width) + (n % width + 1) := by
    rw [← Nat.add_assoc, Nat.div_add_mod]
  rcases Nat.lt_or_ge (n % width + 1) width with hroom | hend
  · refine Or.inl ⟨hroom, ?_, ?_⟩
    · rw [hsplit, Nat.mul_add_mod, Nat.mod_eq_of_lt hroom]
    · rw [hsplit, Nat.mul_add_div hwidth, Nat.div_eq_of_lt hroom, Nat.add_zero]
  · have hend : n % width + 1 = width := Nat.le_antisymm hlt hend
    refine Or.inr ⟨hend, ?_, ?_⟩
    · rw [hsplit, hend, ← Nat.mul_succ, Nat.mul_mod_right]
    · rw [hsplit, hend, ← Nat.mul_succ, Nat.mul_div_cancel_left _ hwidth]

theorem intercalate_cons (sep line line' : List Byte) (lines : List (List Byte)) :
    List.intercalate sep (line :: line' :: lines) =
      line ++ (sep ++ List.intercalate sep (line' :: lines)) := by
  simp [List.intercalate]

theorem mem_intercalate {sep : List Byte} {lines : List (List Byte)}
    (h : c ∈ List.intercalate sep lines) : c ∈ sep ∨ ∃ line ∈ lines, c ∈ line := by
  induction lines with
  | nil => simp [List.intercalate] at h
  | cons line lines ih =>
    cases lines with
    | nil =>
      refine Or.inr ⟨line, List.mem_cons_self, ?_⟩
      simpa [List.intercalate] using h
    | cons line' lines =>
      rw [intercalate_cons, List.mem_append, List.mem_append] at h
      rcases h with h | h | h
      · exact Or.inr ⟨line, List.mem_cons_self, h⟩
      · exact Or.inl h
      · rcases ih h with h | ⟨l, hl, hc⟩
        · exact Or.inl h
        · exact Or.inr ⟨l, List.mem_cons_of_mem _ hl, hc⟩

theorem foldl_line {line : List Byte} (hline : 0x0A#8 ∉ line) (l : Lines) :
    line.foldl (next width) l = { l with length := l.length + line.length } := by
  induction line generalizing l with
  | nil => rfl
  | cons c line ih =>
    obtain ⟨hc, hline⟩ := not_or.mp (mt List.mem_cons.mpr hline)
    rw [List.foldl_cons, next_char (Ne.symm hc), ih hline, List.length_cons]
    dsimp only
    rw [Nat.add_right_comm, Nat.add_assoc]

/-- The last row of a text given line by line: one row a line, and one for each time a line
wraps. -/
theorem lateCursor_lines {lines : List (List Byte)} (hlines : ∀ line ∈ lines, 0x0A#8 ∉ line)
    (hl : l.length = 0) :
    ((List.intercalate [0x0A#8] lines).foldl (next width) l).lateCursor width =
      l.rows + (lines.length - 1) + (lines.map fun line => (line.length - 1) / width).sum := by
  induction lines generalizing l with
  | nil => simp [List.intercalate, lateCursor, hl]
  | cons line lines ih =>
    obtain ⟨hline, hlines⟩ := List.forall_mem_cons.mp hlines
    cases lines with
    | nil => simp [List.intercalate, foldl_line hline, lateCursor, hl]
    | cons line' lines =>
      rw [intercalate_cons, List.foldl_append, foldl_line hline, List.foldl_append,
        List.foldl_cons, List.foldl_nil, next_newline, ih hlines rfl]
      simp only [lateCursor, hl, Nat.zero_add, List.map_cons, List.sum_cons, List.length_cons]
      omega

end Lines

/-! ### The text on a terminal -/

namespace Terminal

variable {width : Nat} {text : List Byte} {t t' : Terminal Byte} {c : Byte} {row : Lines → Nat}

theorem layout_snoc (step : Terminal Byte → Byte → Terminal Byte) (text : List Byte) (c : Byte) :
    layout step (text ++ [c]) = step (layout step text) c := by
  simp [layout]

/-- The characters of the text are those on the terminal, and each stands where `row` says. -/
def Laid (row : Lines → Nat) (width : Nat) (text : List Byte) (t : Terminal Byte) : Prop :=
  ∀ r k ch, t.cells r k = some ch ↔ ∃ u, u ++ [ch] <+: text ∧ ch ≠ 0x0A#8 ∧
    row (.of width u) = r ∧ (Lines.of width u).col width = k

def Separate (row : Lines → Nat) (width : Nat) : Prop :=
  ∀ l l' : Lines, Lines.Passed width l l' → ¬ (row l = row l' ∧ l.col width = l'.col width)

theorem separate_row (width : Nat) : Separate (Lines.row width) width := by
  rintro l l' hpassed ⟨hrow, hcol⟩
  have hcell := hpassed.cell_lt
  rw [← Lines.row_col, ← Lines.row_col, hrow, hcol] at hcell
  exact Nat.lt_irrefl _ hcell

theorem separate_earlyRow (width : Nat) : Separate (Lines.earlyRow width) width := by
  rintro l l' hpassed ⟨hrow, hcol⟩
  have hcell := hpassed.cell_lt
  have hfull := hpassed.full_le
  unfold Lines.earlyRow at hrow
  have hle : l'.row width * width ≤ l.row width * width :=
    Nat.mul_le_mul_right width (by omega)
  rw [← Lines.row_col, ← Lines.row_col, hcol] at hcell
  omega

theorem laid_empty : Laid row width [] (empty : Terminal Byte) := by
  intro r k ch
  simp [empty]

theorem Laid.newline (h : Laid row width text t) (ht : t'.cells = t.cells) :
    Laid row width (text ++ [0x0A#8]) t' := by
  intro r k ch
  rw [ht, h r k ch]
  constructor
  · rintro ⟨u, hu, hplace⟩
    exact ⟨u, hu.trans (List.prefix_append _ _), hplace⟩
  · rintro ⟨u, hu, hch, hplace⟩
    rcases List.prefix_concat_iff.mp hu with heq | hu
    · obtain ⟨-, hlast⟩ := List.append_inj' heq rfl
      exact absurd (List.singleton_inj.mp hlast) hch
    · exact ⟨u, hu, hch, hplace⟩

theorem Laid.put (h : Laid row width text t) (hwidth : 0 < width) (hrow : Separate row width)
    (hc : c ≠ 0x0A#8) (hy : t.y = row (.of width text))
    (hx : t.x = (Lines.of width text).col width) : Laid row width (text ++ [c]) (t.put c) := by
  intro r k ch
  rw [cells_put, hy, hx]
  by_cases hcell : r = row (.of width text) ∧ k = (Lines.of width text).col width
  · rw [if_pos hcell]
    obtain ⟨rfl, rfl⟩ := hcell
    constructor
    · rintro ⟨rfl⟩
      exact ⟨text, List.prefix_rfl, hc, rfl, rfl⟩
    · rintro ⟨u, hu, hch, hplace⟩
      rcases List.prefix_concat_iff.mp hu with heq | hu
      · obtain ⟨-, hlast⟩ := List.append_inj' heq rfl
        rw [List.singleton_inj.mp hlast]
      · exact absurd hplace (hrow _ _ (Lines.passed_of_prefix hwidth hch hu))
  · rw [if_neg hcell, h r k ch]
    constructor
    · rintro ⟨u, hu, hplace⟩
      exact ⟨u, hu.trans (List.prefix_append _ _), hplace⟩
    · rintro ⟨u, hu, hch, hr, hk⟩
      rcases List.prefix_concat_iff.mp hu with heq | hu
      · obtain ⟨rfl, -⟩ := List.append_inj' heq rfl
        exact absurd ⟨hr.symm, hk.symm⟩ hcell
      · exact ⟨u, hu, hch, hr, hk⟩

/-- A terminal that wraps late. After a full line its cursor waits behind the last column. -/
structure LaidLate (width : Nat) (text : List Byte) (t : Terminal Byte) : Prop where
  x_eq : t.x = if (Lines.of width text).length = 0 then 0
    else ((Lines.of width text).length - 1) % width + 1
  y_eq : t.y = (Lines.of width text).lateCursor width
  laid : Laid (Lines.row width) width text t

structure LaidEarly (width : Nat) (text : List Byte) (t : Terminal Byte) : Prop where
  x_eq : t.x = (Lines.of width text).col width
  y_eq : t.y = (Lines.of width text).earlyRow width
  laid : Laid (Lines.earlyRow width) width text t

theorem laidLate_empty (width : Nat) : LaidLate width [] (empty : Terminal Byte) :=
  ⟨rfl, by simp [empty, Lines.of, Lines.lateCursor], laid_empty⟩

theorem laidEarly_empty (width : Nat) : LaidEarly width [] (empty : Terminal Byte) :=
  ⟨by simp [empty, Lines.of, Lines.col], by simp [empty, Lines.of, Lines.earlyRow, Lines.row],
    laid_empty⟩

theorem LaidLate.newline (h : LaidLate width text t) :
    LaidLate width (text ++ [0x0A#8]) t.newline where
  x_eq := by
    rw [Lines.of_snoc, Lines.next_newline, if_pos rfl]
    rfl
  y_eq := by
    rw [Lines.of_snoc, Lines.next_newline, Lines.lateCursor, Nat.zero_sub, Nat.zero_div, ← h.y_eq]
    rfl
  laid := h.laid.newline rfl

theorem LaidLate.glyph (h : LaidLate width text t) (hwidth : 0 < width) (hc : c ≠ 0x0A#8) :
    LaidLate width (text ++ [c]) (t.glyphDeferred width c) := by
  have draw {t : Terminal Byte} (hlaid : Laid (Lines.row width) width text t)
      (hy : t.y = (Lines.of width text).row width) (hx : t.x = (Lines.of width text).col width) :
      LaidLate width (text ++ [c]) (t.put c).right := by
    refine ⟨?_, ?_, hlaid.put hwidth (separate_row width) hc hy hx⟩
    · rw [Lines.of_snoc, Lines.next_char hc, if_neg (Nat.succ_ne_zero _), Nat.add_sub_cancel]
      exact congrArg (· + 1) hx
    · rw [Lines.of_snoc, Lines.next_char hc]
      exact hy
  have hx := h.x_eq
  have hy := h.y_eq
  rw [Lines.lateCursor] at hy
  unfold glyphDeferred
  generalize hl : Lines.of width text = l at hx hy draw
  rcases Nat.eq_zero_or_pos l.length with hzero | hpos
  · rw [if_pos hzero] at hx
    rw [hx, if_pos hwidth]
    refine draw h.laid ?_ ?_
    · rw [hy, Lines.row, hzero]
    · rw [hx, Lines.col, hzero, Nat.zero_mod]
  · rw [if_neg (by omega)] at hx
    have hnext := Lines.succ_div_mod hwidth (l.length - 1)
    rw [Nat.sub_add_cancel hpos] at hnext
    rcases hnext with ⟨hroom, hmod, hdiv⟩ | ⟨hend, hmod, hdiv⟩
    · rw [hx, if_pos hroom]
      refine draw h.laid ?_ ?_
      · rw [hy, Lines.row, hdiv]
      · rw [hx, Lines.col, hmod]
    · rw [hx, if_neg (by omega)]
      refine draw h.laid ?_ ?_
      · rw [Lines.row, hdiv, ← Nat.add_assoc, ← hy]
        rfl
      · rw [Lines.col, hmod]
        rfl

theorem LaidEarly.newline (h : LaidEarly width text t) (hwidth : 0 < width) :
    LaidEarly width (text ++ [0x0A#8]) t.newline where
  x_eq := by
    rw [Lines.of_snoc, Lines.next_newline, Lines.col, Nat.zero_mod]
    rfl
  y_eq := by
    have hy : t.newline.y = (Lines.of width text).earlyRow width + 1 := congrArg (· + 1) h.y_eq
    rw [hy, Lines.of_snoc, Lines.next_newline]
    generalize Lines.of width text = l
    simp only [Lines.earlyRow, Lines.row, Lines.lateCursor, Nat.zero_div]
    rcases Nat.eq_zero_or_pos l.length with hzero | hpos
    · rw [if_neg (by omega), hzero, Nat.zero_sub, Nat.zero_div]
      omega
    · have hnext := Lines.succ_div_mod hwidth (l.length - 1)
      rw [Nat.sub_add_cancel hpos] at hnext
      rcases hnext with ⟨hroom, hmod, hdiv⟩ | ⟨hend, hmod, hdiv⟩
      · rw [if_neg (by omega), hdiv]
        omega
      · rw [if_pos ⟨hpos, hmod⟩, hdiv]
        omega
  laid := h.laid.newline rfl

theorem LaidEarly.glyph (h : LaidEarly width text t) (hwidth : 0 < width) (hc : c ≠ 0x0A#8) :
    LaidEarly width (text ++ [c]) (t.glyphImmediate width c) := by
  have hlaid := h.laid.put hwidth (separate_earlyRow width) hc h.y_eq h.x_eq
  have hx := h.x_eq
  have hy := h.y_eq
  rw [Lines.col] at hx
  rw [Lines.earlyRow, Lines.row] at hy
  have hright : ((t.put c).right).x = t.x + 1 := rfl
  have hnewline : ((t.put c).right.newline).y = t.y + 1 := rfl
  unfold glyphImmediate
  dsimp only
  rw [hright]
  rcases Lines.succ_div_mod hwidth (Lines.of width text).length with
    ⟨hroom, hmod, hdiv⟩ | ⟨hend, hmod, hdiv⟩
  · rw [if_pos (hx ▸ hroom)]
    refine ⟨?_, ?_, hlaid⟩
    · rw [hright, hx, Lines.of_snoc, Lines.next_char hc, Lines.col, hmod]
    · rw [Lines.of_snoc, Lines.next_char hc, Lines.earlyRow, Lines.row, hdiv]
      exact hy
  · rw [if_neg (by omega)]
    refine ⟨?_, ?_, hlaid⟩
    · rw [Lines.of_snoc, Lines.next_char hc, Lines.col, hmod]
      rfl
    · rw [hnewline, hy, Lines.of_snoc, Lines.next_char hc, Lines.earlyRow, Lines.row, hdiv]
      dsimp only
      omega

end Terminal
end Machine
