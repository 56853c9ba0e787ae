import FenwickOS.Lib.TextBuffer
import Mathlib.Data.Set.Basic

/-! Terminals with unboundedly many rows, and screens that show the last of them. -/
namespace Machine

/-- Each row is as long as it needs to be; `none` has not been written. -/
structure Terminal (α : Type*) where
  cells : Nat → Nat → Option α
  x : Nat
  y : Nat

namespace Terminal

variable {α : Type*} {width height size row col n : Nat} {c blank : α} {t : Terminal α}
  {glyph : α → Terminal α → Terminal α}

def empty : Terminal α := ⟨fun _ _ => none, 0, 0⟩

def put (c : α) (t : Terminal α) : Terminal α :=
  { t with cells := Function.update t.cells t.y (Function.update (t.cells t.y) t.x (some c)) }

def right (t : Terminal α) : Terminal α := { t with x := t.x + 1 }

def newline (t : Terminal α) : Terminal α := { t with x := 0, y := t.y + 1 }

def carriageReturn (t : Terminal α) : Terminal α := { t with x := 0 }

/-- The line wraps when a character finds no room in it. -/
def glyphDeferred (width : Nat) (c : α) (t : Terminal α) : Terminal α :=
  ((if t.x < width then t else t.newline).put c).right

/-- The line wraps as soon as it is full. -/
def glyphImmediate (width : Nat) (c : α) (t : Terminal α) : Terminal α :=
  let t := (t.put c).right
  if t.x < width then t else t.newline

def tab (glyph : α → Terminal α → Terminal α) (size : Nat) (space : α) (t : Terminal α) :
    Terminal α :=
  Nat.repeat (glyph space) (size - t.x % size) t

def backspace (space : α) (t : Terminal α) : Terminal α :=
  if 0 < t.x then { t with x := t.x - 1 }.put space else t

/-- What a byte does to a terminal that wraps as `glyph` does and draws the bytes in `drawn`. -/
def feed (glyph : Byte → Terminal Byte → Terminal Byte) (drawn : Byte → Bool) (c : Byte)
    (t : Terminal Byte) : Terminal Byte :=
  if c = 0x0A#8 then t.newline
  else if c = 0x0D#8 then t.carriageReturn
  else if c = 0x09#8 then t.tab glyph 4 (ascii ' ')
  else if c = 0x08#8 then t.backspace (ascii ' ')
  else if drawn c then glyph c t
  else t

/-- The first row that a screen with `height` rows shows. -/
def top (height : Nat) (t : Terminal α) : Nat := t.y - (height - 1)

/-- A screen whose cells are given by `read` and whose cursor is at `x`, `y` shows the last rows of
the terminal up to the row of its cursor. -/
structure Shows (width height : Nat) (blank : α) (read : Nat → Nat → α) (x y : Nat)
    (t : Terminal α) : Prop where
  cells : ∀ row < height, ∀ col < width,
    read row col = (t.cells (t.top height + row) col).getD blank
  below : ∀ row, t.y < row → ∀ col, t.cells row col = none
  x_eq : x = t.x
  y_eq : t.top height + y = t.y
  y_lt : y < height

variable {read read' : Nat → Nat → α} {x y : Nat}

theorem shows_empty (hheight : 0 < height)
    (hread : ∀ row < height, ∀ col < width, read row col = blank) :
    Shows width height blank read 0 0 (empty : Terminal α) where
  cells := hread
  below := fun _ _ _ => rfl
  x_eq := rfl
  y_eq := Nat.zero_sub _
  y_lt := hheight

theorem cells_put (c : α) (t : Terminal α) (row col : Nat) :
    (t.put c).cells row col = if row = t.y ∧ col = t.x then some c else t.cells row col := by
  unfold put
  by_cases hrow : row = t.y
  · subst hrow
    by_cases hcol : col = t.x <;> simp [hcol]
  · simp [hrow]

theorem Shows.put (h : Shows width height blank read x y t)
    (hread : ∀ row < height, ∀ col < width,
      read' row col = if row = y ∧ col = x then c else read row col) :
    Shows width height blank read' x y (t.put c) where
  cells row hrow col hcol := by
    have hy := h.y_eq
    have hcell : t.top height + row = t.y ∧ col = t.x ↔ row = y ∧ col = x := by
      rw [h.x_eq]
      omega
    change _ = ((t.put c).cells (t.top height + row) col).getD blank
    rw [hread row hrow col hcol, cells_put, if_congr hcell rfl rfl]
    split
    · rfl
    · exact h.cells row hrow col hcol
  below row hrow col := by
    rw [cells_put, if_neg fun hcell => Nat.ne_of_gt hrow hcell.1]
    exact h.below row hrow col
  x_eq := h.x_eq
  y_eq := h.y_eq
  y_lt := h.y_lt

/-- A new line scrolls the screen when its cursor is in the last row. -/
theorem Shows.newline (h : Shows width height blank read x y t)
    (hread : ∀ row < height, ∀ col < width,
      read' row col = if y + 1 < height then read row col
        else if row + 1 < height then read (row + 1) col else blank) :
    Shows width height blank read' 0 (if y + 1 < height then y + 1 else height - 1)
      t.newline where
  cells row hrow col hcol := by
    have hy := h.y_eq
    rw [hread row hrow col hcol]
    unfold top at hy ⊢
    dsimp only [Terminal.newline]
    split
    · rw [h.cells row hrow col hcol, top, show t.y + 1 - (height - 1) = t.y - (height - 1) by omega]
    · split
      · rename_i hin
        rw [h.cells (row + 1) hin col hcol, top,
          show t.y + 1 - (height - 1) + row = t.y - (height - 1) + (row + 1) by omega]
      · rw [h.below _ (by omega), Option.getD_none]
  below row hrow col := h.below row (Nat.lt_of_succ_lt hrow) col
  x_eq := rfl
  y_eq := by
    have hy := h.y_eq
    have hlt := h.y_lt
    unfold top at hy ⊢
    dsimp only [Terminal.newline]
    split <;> omega
  y_lt := by
    have hlt := h.y_lt
    split <;> omega

theorem Shows.moveTo (h : Shows width height blank read x y t) (n : Nat) :
    Shows width height blank read n y { t with x := n } :=
  ⟨h.cells, h.below, rfl, h.y_eq, h.y_lt⟩

theorem Shows.right (h : Shows width height blank read x y t) :
    Shows width height blank read (x + 1) y t.right :=
  ⟨h.cells, h.below, congrArg (· + 1) h.x_eq, h.y_eq, h.y_lt⟩

/-- Two loops of the same length whose rounds correspond. -/
theorem repeat_rel {σ τ : Type*} {R : σ → τ → Prop} {f : σ → σ} {g : τ → τ}
    (h : ∀ s u, R s u → R (f s) (g u)) (n : Nat) {s : σ} {u : τ} (hs : R s u) :
    R (Nat.repeat f n s) (Nat.repeat g n u) := by
  induction n with
  | zero => exact hs
  | succ n ih => exact h _ _ ih

/-! ### Screens in text-mode memory -/

variable {m : TextBuffer} {ch : Byte} {t : Terminal Byte} {b : Byte}

theorem shows_clear (hheight : 0 < height) (m : TextBuffer) (b color : Byte) :
    Shows width height b ((m.clear width height b color).char width) 0 0 empty :=
  shows_empty hheight fun _ hrow _ hcol => TextBuffer.char_clear hrow hcol m b color

theorem Shows.putAt (h : Shows width height b (m.char width) x y t) (hx : x < width)
    (ch color : Byte) :
    Shows width height b ((m.putAt width ch color x y).char width) x y (t.put ch) :=
  h.put fun _ _ _ hcol => TextBuffer.char_putAt hx hcol m ch color

theorem Shows.scroll (h : Shows width height b (m.char width) x y t) (hlast : y + 1 = height)
    (color : Byte) :
    Shows width height b ((m.scroll width height b color).char width) 0 (height - 1)
      t.newline := by
  have hnewline : Shows width height b ((m.scroll width height b color).char width) 0
      (if y + 1 < height then y + 1 else height - 1) t.newline := by
    refine h.newline fun row hrow col hcol => ?_
    rw [if_neg (by omega), TextBuffer.char_scroll (by omega) hrow hcol]
  rwa [if_neg (by omega)] at hnewline

theorem Shows.nextLine (h : Shows width height b (m.char width) x y t) (hroom : y + 1 < height) :
    Shows width height b (m.char width) 0 (y + 1) t.newline := by
  have hnewline : Shows width height b (m.char width) 0
      (if y + 1 < height then y + 1 else height - 1) t.newline :=
    h.newline fun _ _ _ _ => (if_pos hroom).symm
  rwa [if_pos hroom] at hnewline

/-! ### Plain text -/

/-- Printable ASCII or a newline. -/
def Plain (c : Byte) : Prop := c = 0x0A#8 ∨ 0x20#8 ≤ c ∧ c ≤ 0x7E#8

/-- The text as it stands on an empty terminal. -/
def layout (step : Terminal Byte → Byte → Terminal Byte) (text : List Byte) : Terminal Byte :=
  text.foldl step empty

/-- The cells that hold a character, counted row by row. -/
def written (width : Nat) (t : Terminal α) : Set Int :=
  { cell | ∃ row col, (t.cells row col).isSome ∧ cell = (row * width + col : Nat) }

theorem written_put (c : α) (t : Terminal α) (cell : Int) :
    cell ∈ (t.put c).written width ↔
      cell ∈ t.written width ∨ cell = (t.y * width + t.x : Nat) := by
  simp only [written, Set.mem_ofPred_eq, cells_put]
  constructor
  · rintro ⟨row, col, hsome, rfl⟩
    split at hsome
    · rename_i hcell
      rw [hcell.1, hcell.2]
      exact Or.inr rfl
    · exact Or.inl ⟨row, col, hsome, rfl⟩
  · rintro (⟨row, col, hsome, rfl⟩ | rfl)
    · refine ⟨row, col, ?_, rfl⟩
      split
      · rfl
      · exact hsome
    · exact ⟨t.y, t.x, by rw [if_pos ⟨rfl, rfl⟩]; rfl, rfl⟩

/-- Screen memory since the terminal was `t₀`: while nothing scrolls, the cells stored to are those
that the terminal has got a character in. -/
structure Traces (width height : Nat) (t₀ : Terminal Byte) (m : TextBuffer) (x y : Nat)
    (t : Terminal Byte) : Prop where
  x_eq : x = t.x
  y_eq : y = t.y
  y_lt : y < height
  written : ∀ cell, cell ∈ t.written width ↔
    cell ∈ t₀.written width ∨ cell ∈ m.stores.map (· / 2)

variable {t₀ : Terminal Byte}

theorem Traces.restart (h : Traces width height t₀ m x y t) (bytes : Int → Byte) :
    Traces width height t ⟨bytes, []⟩ x y t :=
  ⟨h.x_eq, h.y_eq, h.y_lt, fun _ => by simp⟩

theorem Traces.putAt (h : Traces width height t₀ m x y t) (ch color : Byte) :
    Traces width height t₀ (m.putAt width ch color x y) x y (t.put ch) where
  x_eq := h.x_eq
  y_eq := h.y_eq
  y_lt := h.y_lt
  written cell := by
    have hchar : (TextBuffer.index width x y : Int) / 2 = (t.y * width + t.x : Nat) := by
      rw [h.x_eq, h.y_eq, TextBuffer.index]
      omega
    have hcolor : ((TextBuffer.index width x y : Int) + 1) / 2 = (t.y * width + t.x : Nat) := by
      rw [h.x_eq, h.y_eq, TextBuffer.index]
      omega
    rw [written_put, h.written]
    simp only [TextBuffer.putAt, TextBuffer.store, List.map_cons, List.mem_cons, hchar, hcolor]
    constructor
    · rintro ((hold | hold) | hnew)
      · exact Or.inl hold
      · exact Or.inr (Or.inr (Or.inr hold))
      · exact Or.inr (Or.inl hnew)
    · rintro (hold | hnew | hnew | hold)
      · exact Or.inl (Or.inl hold)
      · exact Or.inr hnew
      · exact Or.inr hnew
      · exact Or.inl (Or.inr hold)

theorem Traces.newline (h : Traces width height t₀ m x y t) (hroom : y + 1 < height) :
    Traces width height t₀ m 0 (y + 1) t.newline :=
  ⟨rfl, congrArg (· + 1) h.y_eq, hroom, h.written⟩

theorem Traces.right (h : Traces width height t₀ m x y t) :
    Traces width height t₀ m (x + 1) y t.right :=
  ⟨congrArg (· + 1) h.x_eq, h.y_eq, h.y_lt, h.written⟩


theorem ne_control (h : 0x20#8 ≤ ch) :
    ch ≠ 0x0A#8 ∧ ch ≠ 0x0D#8 ∧ ch ≠ 0x09#8 ∧ ch ≠ 0x08#8 := by
  revert ch
  decide

theorem feed_plain {drawn : Byte → Bool} (glyph : Byte → Terminal Byte → Terminal Byte)
    (h : 0x20#8 ≤ ch) (hdrawn : drawn ch = true) (t : Terminal Byte) :
    t.feed glyph drawn ch = glyph ch t := by
  obtain ⟨h1, h2, h3, h4⟩ := ne_control h
  rw [feed, if_neg h1, if_neg h2, if_neg h3, if_neg h4, if_pos hdrawn]

theorem le_y_glyphDeferred (ch : Byte) (t : Terminal Byte) :
    t.y ≤ (t.glyphDeferred width ch).y := by
  unfold glyphDeferred
  split
  · exact Nat.le_refl _
  · exact Nat.le_succ _

theorem le_y_glyphImmediate (ch : Byte) (t : Terminal Byte) :
    t.y ≤ (t.glyphImmediate width ch).y := by
  unfold glyphImmediate
  dsimp only
  split
  · exact Nat.le_refl _
  · exact Nat.le_succ _

section
variable {σ : Type*} {f : σ → Byte → σ} {g : Terminal Byte → Byte → Terminal Byte}
  {R : σ → Terminal Byte → Prop} {text : List Byte}

theorem le_y_foldl (hy : ∀ t ch, Plain ch → t.y ≤ (g t ch).y) (htext : ∀ ch ∈ text, Plain ch)
    (t : Terminal Byte) : t.y ≤ (text.foldl g t).y := by
  induction text generalizing t with
  | nil => exact Nat.le_refl _
  | cons ch text ih =>
    obtain ⟨hch, htext⟩ := List.forall_mem_cons.mp htext
    exact Nat.le_trans (hy t ch hch) (ih htext _)

/-- A relation that plain characters keep as long as the last row is not passed holds after a text
that does not pass it. -/
theorem foldl_text (hy : ∀ t ch, Plain ch → t.y ≤ (g t ch).y)
    (hstep : ∀ s t ch, Plain ch → R s t → (g t ch).y < height → R (f s ch) (g t ch))
    (htext : ∀ ch ∈ text, Plain ch) {s : σ} (hs : R s t) (hend : (text.foldl g t).y < height) :
    R (text.foldl f s) (text.foldl g t) := by
  induction text generalizing s t with
  | nil => exact hs
  | cons ch text ih =>
    obtain ⟨hch, htext⟩ := List.forall_mem_cons.mp htext
    have hroom := Nat.lt_of_le_of_lt (le_y_foldl hy htext (g t ch)) hend
    exact ih htext (hstep s t ch hch hs hroom) hend

end

end Terminal
end Machine
