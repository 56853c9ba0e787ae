import FenwickOS.Lib.Words

/-! Text-mode screen memory: each cell is a character byte and an attribute byte, row by row. -/
namespace Machine

/-- The bytes by their offset from the start of the screen. `stores` is no part of a machine: the
offsets that have been stored to, latest first. -/
structure TextBuffer where
  bytes : Int → Byte
  stores : List Int

namespace TextBuffer

variable {m m' m'' : TextBuffer} {i : Int} {v c color blank : Byte} {width height x y row col : Nat}

def store (i : Int) (v : Byte) (m : TextBuffer) : TextBuffer :=
  ⟨Function.update m.bytes i v, i :: m.stores⟩

/-- Where a cell of a screen with `width` columns starts. -/
def index (width x y : Nat) : Nat := (y * width + x) * 2

def putAt (width : Nat) (c color : Byte) (x y : Nat) (m : TextBuffer) : TextBuffer :=
  (m.store (index width x y) c).store (index width x y + 1) color

/-- One cell moves up by a row. -/
def moveUp (width x y : Nat) (m : TextBuffer) : TextBuffer :=
  let m := m.store (index width x (y - 1)) (m.bytes (index width x y))
  m.store (index width x (y - 1) + 1) (m.bytes (index width x y + 1))

/-- The loop over the columns of row `y` that moves each cell up. -/
def moveRowUp (width y : Nat) (m : TextBuffer) : TextBuffer :=
  (List.range width).foldl (fun m x => m.moveUp width x y) m

def blankRow (width : Nat) (blank color : Byte) (y : Nat) (m : TextBuffer) : TextBuffer :=
  (List.range width).foldl (fun m x => m.putAt width blank color x y) m

/-- The loops that move every row up by one and then blank the last. -/
def scroll (width height : Nat) (blank color : Byte) (m : TextBuffer) : TextBuffer :=
  ((List.range' 1 (height - 1)).foldl (fun m y => m.moveRowUp width y) m).blankRow width blank
    color (height - 1)

/-- The loops that blank every cell. -/
def clear (width height : Nat) (blank color : Byte) (m : TextBuffer) : TextBuffer :=
  (List.range height).foldl (fun m y => m.blankRow width blank color y) m

def char (width : Nat) (m : TextBuffer) (row col : Nat) : Byte := m.bytes (index width col row)

/-- `m'` comes from `m` by stores below `bound`. -/
def Within (bound : Nat) (m m' : TextBuffer) : Prop :=
  ∀ i ∈ m'.stores, i ∈ m.stores ∨ 0 ≤ i ∧ i < bound

/-- All bytes below `n` have been replaced by those `d` further on. -/
def Shifted (d n : Nat) (m m' : TextBuffer) : Prop :=
  ∀ i, m'.bytes i = if 0 ≤ i ∧ i < n then m.bytes (i + d) else m.bytes i

/-- All cells from offset `lo` up to `hi` are blank. -/
def Blanked (blank color : Byte) (lo hi : Nat) (m m' : TextBuffer) : Prop :=
  ∀ i, m'.bytes i = if lo ≤ i ∧ i < hi then (if i % 2 = 0 then blank else color) else m.bytes i

theorem foldl_range_induction {σ : Type*} {P : Nat → σ → Prop} {f : σ → Nat → σ} {n : Nat}
    (hstep : ∀ k < n, ∀ s, P k s → P (k + 1) (f s k)) {s : σ} (hs : P 0 s) :
    P n ((List.range n).foldl f s) := by
  induction n with
  | zero => exact hs
  | succ n ih =>
    rw [List.range_succ, List.foldl_append]
    exact hstep n (Nat.lt_succ_self n) _ (ih fun k hk => hstep k (Nat.lt_succ_of_lt hk))

@[simp] theorem bytes_store : (m.store i v).bytes = Function.update m.bytes i v := rfl

theorem index_succ_col : index width (x + 1) y = index width x y + 2 := by
  unfold index
  omega

theorem index_succ_row : index width x (y + 1) = index width x y + 2 * width := by
  rw [index, index, Nat.add_mul y 1 width]
  omega

theorem index_width : index width width y = index width 0 (y + 1) := by
  rw [index_succ_row, index, index]
  omega

theorem index_lt (hx : x < width) (hy : y < height) :
    index width x y + 1 < index width 0 height := by
  have hle : (y + 1) * width ≤ height * width := Nat.mul_le_mul_right width hy
  rw [Nat.add_mul, Nat.one_mul] at hle
  unfold index
  omega

theorem index_inj (hx : x < width) (hcol : col < width) (h : index width x y = index width col row) :
    y = row ∧ x = col := by
  unfold index at h
  have hw : 0 < width := by omega
  have hsum : y * width + x = row * width + col := by omega
  have hrow := congrArg (· / width) hsum
  have hrest := congrArg (· % width) hsum
  simp only [Nat.mul_comm _ width, Nat.mul_add_div hw, Nat.mul_add_mod, Nat.div_eq_of_lt hx,
    Nat.div_eq_of_lt hcol, Nat.mod_eq_of_lt hx, Nat.mod_eq_of_lt hcol, Nat.add_zero] at hrow hrest
  exact ⟨hrow, hrest⟩

/-! ### What the loops leave in memory -/

theorem shifted_zero {d : Nat} : Shifted d 0 m m := by
  intro i
  rw [if_neg (by omega)]

theorem Shifted.store {d n : Nat} (h : Shifted d n m m') (hd : 0 < d) :
    Shifted d (n + 1) m (m'.store n (m'.bytes (n + d))) := by
  intro i
  have hi := h i
  have hsrc := h (n + d)
  rw [if_neg (by omega)] at hsrc
  rw [bytes_store]
  by_cases hn : i = n
  · subst hn
    rw [Function.update_self, hsrc, if_pos (by omega)]
  · rw [Function.update_of_ne hn, hi]
    by_cases hlt : 0 ≤ i ∧ i < n
    · rw [if_pos hlt, if_pos (by omega)]
    · rw [if_neg hlt, if_neg (by omega)]

theorem Shifted.moveUp (h : Shifted (2 * width) (index width x y) m m') (hwidth : 0 < width) :
    Shifted (2 * width) (index width (x + 1) y) m (m'.moveUp width x (1 + y)) := by
  have hfirst := h.store (by omega)
  have hsecond := hfirst.store (by omega)
  have hnext : (index width x y : Int) + 2 * width + 1 =
      (index width x y + 1 : Nat) + (2 * width : Nat) := by omega
  rw [index_succ_col, TextBuffer.moveUp, Nat.add_comm 1 y, index_succ_row, Nat.add_sub_cancel]
  simpa [hnext] using hsecond

theorem Shifted.moveRowUp (h : Shifted (2 * width) (index width 0 y) m m') (hwidth : 0 < width) :
    Shifted (2 * width) (index width 0 (y + 1)) m (m'.moveRowUp width (1 + y)) := by
  rw [← index_width]
  exact foldl_range_induction (P := fun x m' => Shifted (2 * width) (index width x y) m m')
    (fun x _ _ h => h.moveUp hwidth) h

theorem shifted_rows (hwidth : 0 < width) (n : Nat) (m : TextBuffer) :
    Shifted (2 * width) (index width 0 n) m
      ((List.range' 1 n).foldl (fun m y => m.moveRowUp width y) m) := by
  rw [List.range'_eq_map_range, List.foldl_map]
  refine foldl_range_induction (P := fun y m' => Shifted (2 * width) (index width 0 y) m m')
    (fun y _ m' h => h.moveRowUp hwidth) ?_
  rw [index, Nat.zero_mul, Nat.zero_mul]
  exact shifted_zero

theorem blanked_self {lo : Nat} : Blanked blank color lo lo m m := by
  intro i
  rw [if_neg (by omega)]

theorem Blanked.putAt {lo : Nat} (h : Blanked blank color lo (index width x y) m m')
    (hlo : lo ≤ index width x y) :
    Blanked blank color lo (index width (x + 1) y) m (m'.putAt width blank color x y) := by
  intro i
  have hi := h i
  have heven : index width x y % 2 = 0 := Nat.mul_mod_left _ 2
  rw [index_succ_col, TextBuffer.putAt, bytes_store, bytes_store]
  generalize index width x y = n at *
  by_cases hcolor : i = n + 1
  · subst hcolor
    rw [Function.update_self, if_pos (by omega), if_neg (by omega)]
  rw [Function.update_of_ne hcolor]
  by_cases hchar : i = n
  · subst hchar
    rw [Function.update_self, if_pos (by omega), if_pos (by omega)]
  rw [Function.update_of_ne hchar, hi]
  by_cases hlt : lo ≤ i ∧ i < n
  · have hlt' : lo ≤ i ∧ i < (n + 2 : Nat) := by omega
    rw [if_pos hlt, if_pos hlt']
  · rw [if_neg hlt, if_neg (by omega)]

theorem Blanked.blankRow {lo : Nat} (h : Blanked blank color lo (index width 0 y) m m')
    (hlo : lo ≤ index width 0 y) :
    Blanked blank color lo (index width 0 (y + 1)) m (m'.blankRow width blank color y) := by
  rw [← index_width]
  refine foldl_range_induction (P := fun x m' => Blanked blank color lo (index width x y) m m')
    (fun x _ _ h => h.putAt ?_) h
  exact Nat.le_trans hlo (by unfold index; omega)

/-- The bytes after a scroll: each row holds the one below it, the last row is blank. -/
theorem bytes_scroll (hwidth : 0 < width) (hheight : 0 < height) (m : TextBuffer)
    (blank color : Byte) (i : Int) :
    (m.scroll width height blank color).bytes i =
      if 0 ≤ i ∧ i < index width 0 (height - 1) then m.bytes (i + (2 * width : Nat))
      else if index width 0 (height - 1) ≤ i ∧ i < index width 0 height then
        if i % 2 = 0 then blank else color
      else m.bytes i := by
  have hlast : height - 1 + 1 = height := Nat.sub_add_cancel hheight
  have hmoved := shifted_rows hwidth (height - 1) m i
  have hblank := (blanked_self.blankRow (Nat.le_refl _) :
    Blanked blank color _ _ _ (m.scroll width height blank color)) i
  rw [hlast] at hblank
  rw [scroll, hblank, hmoved]
  by_cases hin : 0 ≤ i ∧ i < index width 0 (height - 1)
  · rw [if_pos hin, if_pos hin, if_neg (by omega)]
  · rw [if_neg hin, if_neg hin]

theorem bytes_clear (m : TextBuffer) (blank color : Byte) (i : Int) :
    (m.clear width height blank color).bytes i =
      if 0 ≤ i ∧ i < index width 0 height then (if i % 2 = 0 then blank else color)
      else m.bytes i := by
  refine foldl_range_induction (P := fun y m' => Blanked blank color 0 (index width 0 y) m m')
    (fun y _ m' h => h.blankRow (Nat.zero_le _)) ?_ i
  rw [index, Nat.zero_mul, Nat.zero_mul]
  exact blanked_self

/-! ### What the loops leave in each cell -/

theorem char_putAt (hx : x < width) (hcol : col < width) (m : TextBuffer) (c color : Byte) :
    (m.putAt width c color x y).char width row col =
      if row = y ∧ col = x then c else m.char width row col := by
  have heven : index width col row % 2 = 0 := Nat.mul_mod_left _ 2
  have heven' : index width x y % 2 = 0 := Nat.mul_mod_left _ 2
  rw [char, char, putAt, bytes_store, bytes_store, Function.update_of_ne (by omega)]
  by_cases hcell : row = y ∧ col = x
  · obtain ⟨rfl, rfl⟩ := hcell
    rw [Function.update_self, if_pos ⟨rfl, rfl⟩]
  · rw [if_neg hcell, Function.update_of_ne]
    intro h
    exact hcell (index_inj hcol hx (by omega))

theorem char_scroll (hheight : 0 < height) (hrow : row < height) (hcol : col < width)
    (m : TextBuffer) (blank color : Byte) :
    (m.scroll width height blank color).char width row col =
      if row + 1 < height then m.char width (row + 1) col else blank := by
  have hin := index_lt hcol hrow
  have heven : index width col row % 2 = 0 := Nat.mul_mod_left _ 2
  rw [char, char, bytes_scroll (by omega) hheight]
  by_cases hlast : row + 1 < height
  · have habove := index_lt hcol (show row < height - 1 by omega)
    rw [if_pos hlast, if_pos (by omega), index_succ_row]
    rfl
  · have hbelow : index width 0 (height - 1) ≤ index width col row := by
      rw [show height - 1 = row by omega]
      unfold index
      omega
    rw [if_neg hlast, if_neg (by omega), if_pos (by omega), if_pos (by omega)]

theorem char_clear (hrow : row < height) (hcol : col < width) (m : TextBuffer)
    (blank color : Byte) : (m.clear width height blank color).char width row col = blank := by
  have hin := index_lt hcol hrow
  have heven : index width col row % 2 = 0 := Nat.mul_mod_left _ 2
  rw [char, bytes_clear, if_pos (by omega), if_pos (by omega)]

/-! ### Where the loops store -/

theorem Within.refl (bound : Nat) (m : TextBuffer) : Within bound m m := fun _ hi => Or.inl hi

theorem Within.trans {bound : Nat} (h : Within bound m m') (h' : Within bound m' m'') :
    Within bound m m'' := by
  intro i hi
  rcases h' i hi with hold | hin
  · exact h i hold
  · exact Or.inr hin

theorem within_store {bound n : Nat} (hn : n < bound) (v : Byte) (m : TextBuffer) :
    Within bound m (m.store n v) := by
  intro i hi
  rcases List.mem_cons.mp hi with rfl | hold
  · exact Or.inr (by omega)
  · exact Or.inl hold

theorem within_foldl {I : Type*} {bound : Nat} {f : TextBuffer → I → TextBuffer} {xs : List I}
    (h : ∀ x ∈ xs, ∀ m, Within bound m (f m x)) (m : TextBuffer) :
    Within bound m (xs.foldl f m) := by
  induction xs generalizing m with
  | nil => exact Within.refl _ _
  | cons x xs ih =>
    exact (h x List.mem_cons_self m).trans (ih (fun y hy => h y (List.mem_cons_of_mem _ hy)) _)

theorem within_putAt (hx : x < width) (hy : y < height) (m : TextBuffer) (c color : Byte) :
    Within (index width 0 height) m (m.putAt width c color x y) := by
  have hin := index_lt hx hy
  exact (within_store (by omega) _ _).trans (within_store hin _ _)

theorem within_moveUp (hx : x < width) (hy : y < height) (m : TextBuffer) :
    Within (index width 0 height) m (m.moveUp width x y) := by
  have hin := index_lt hx (show y - 1 < height by omega)
  exact (within_store (by omega) _ _).trans (within_store hin _ _)

theorem within_blankRow (hy : y < height) (m : TextBuffer) (blank color : Byte) :
    Within (index width 0 height) m (m.blankRow width blank color y) :=
  within_foldl (fun _ hx m => within_putAt (List.mem_range.mp hx) hy m _ _) m

theorem within_scroll (hheight : 0 < height) (m : TextBuffer) (blank color : Byte) :
    Within (index width 0 height) m (m.scroll width height blank color) := by
  refine Within.trans (within_foldl (fun y hy m => ?_) m) (within_blankRow (by omega) _ _ _)
  refine within_foldl (fun x hx m => within_moveUp (List.mem_range.mp hx) ?_ m) m
  have := List.mem_range'_1.mp hy
  omega

theorem within_clear (m : TextBuffer) (blank color : Byte) :
    Within (index width 0 height) m (m.clear width height blank color) :=
  within_foldl (fun _ hy m => within_blankRow (List.mem_range.mp hy) m _ _) m

/-! ### Screens side by side -/

/-- Byte by byte the two memories are related. -/
def Like (R : Byte → Byte → Prop) (m m' : TextBuffer) : Prop := ∀ i, R (m.bytes i) (m'.bytes i)

/-- The attribute of every cell of the screen has the property. -/
def Colored (P : Byte → Prop) (width height : Nat) (m : TextBuffer) : Prop :=
  ∀ row < height, ∀ col < width, P (m.bytes (index width col row + 1))

variable {R : Byte → Byte → Prop} {P : Byte → Prop}

theorem Like.store (h : Like R m m') (hv : R v v) (i : Int) :
    Like R (m.store i v) (m'.store i v) := by
  intro j
  rw [bytes_store, bytes_store]
  by_cases hj : j = i
  · rw [hj, Function.update_self, Function.update_self]
    exact hv
  · rw [Function.update_of_ne hj, Function.update_of_ne hj]
    exact h j

theorem Like.putAt (h : Like R m m') (hR : ∀ v, R v v) (c color : Byte) (x y : Nat) :
    Like R (m.putAt width c color x y) (m'.putAt width c color x y) :=
  (h.store (hR c) _).store (hR color) _

theorem Like.scroll (h : Like R m m') (hR : ∀ v, R v v) (hwidth : 0 < width) (hheight : 0 < height)
    (blank color : Byte) :
    Like R (m.scroll width height blank color) (m'.scroll width height blank color) := by
  intro i
  rw [bytes_scroll hwidth hheight, bytes_scroll hwidth hheight]
  split
  · exact h _
  · split
    · exact hR _
    · exact h i

theorem Colored.putAt (h : Colored P width height m) (hcolor : P color) (c : Byte) (x y : Nat) :
    Colored P width height (m.putAt width c color x y) := by
  intro row hrow col hcol
  have heven : index width col row % 2 = 0 := Nat.mul_mod_left _ 2
  have heven' : index width x y % 2 = 0 := Nat.mul_mod_left _ 2
  rw [TextBuffer.putAt, bytes_store, bytes_store]
  by_cases hcell : (index width col row : Int) + 1 = index width x y + 1
  · rw [hcell, Function.update_self]
    exact hcolor
  · rw [Function.update_of_ne hcell, Function.update_of_ne (by omega)]
    exact h row hrow col hcol

theorem Colored.scroll (h : Colored P width height m) (hcolor : P color) (blank : Byte) :
    Colored P width height (m.scroll width height blank color) := by
  intro row hrow col hcol
  have hin := index_lt hcol hrow
  have heven : index width col row % 2 = 0 := Nat.mul_mod_left _ 2
  rw [bytes_scroll (by omega) (by omega)]
  split
  · rename_i habove
    have hnext : (index width col row : Int) + 1 + (2 * width : Nat) =
        index width col (row + 1) + 1 := by
      rw [index_succ_row]
      omega
    have hroom : row + 1 < height := by
      by_contra hlast
      have hstart : index width 0 (height - 1) ≤ index width col row := by
        rw [show height - 1 = row by omega]
        unfold index
        omega
      omega
    rw [hnext]
    exact h (row + 1) hroom col hcol
  · split
    · rw [if_neg (by omega)]
      exact hcolor
    · omega

end TextBuffer
end Machine
