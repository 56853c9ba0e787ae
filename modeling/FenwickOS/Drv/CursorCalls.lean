import FenwickOS.Drv.Display
import FenwickOS.Lib.Runs

/-! The display driver of kernel/drv/drv_vga.c when its cursor is also set by `ioctl`. -/
namespace FenwickOS.Drv.Display
open Machine

def vgaDriverIoctl (cmd : BitVec 32) (arg : Word) (d : Display) : Int × Display :=
  if cmd = 0#32 then (0, { d with vgaColor := arg.setWidth 8 })
  else if cmd = 1#32 then (0, { d with vgaCursorX := toInt32 arg })
  else if cmd = 2#32 then (0, { d with vgaCursorY := toInt32 (arg >>> 32) })
  else if cmd = 3#32 then (0, { d with vgaCursorX := 0, vgaCursorY := 0 })
  else (-1, d)

inductive VgaCall
  | init
  | write (buf : Option (Nat → Byte)) (len : Word)
  | ioctl (cmd : BitVec 32) (arg : Word)

def vgaCallStep (d : Display) : VgaCall → Display
  | .init => vgaDriverInit d
  | .write buf len => vgaDriverWrite buf len d
  | .ioctl cmd arg => (vgaDriverIoctl cmd arg d).2

/-- The cursor is on the screen, and so is all that has been stored since memory was `m`. -/
structure OnScreen (m : TextBuffer) (d : Display) : Prop where
  x_nonneg : 0 ≤ d.vgaCursorX
  x_lt : d.vgaCursorX < vgaWidth
  y_nonneg : 0 ≤ d.vgaCursorY
  y_lt : d.vgaCursorY < vgaHeight
  within : m.Within 4000 d.video

/-- An `ioctl` that sets a coordinate sets it to one of the screen's. -/
def VgaCall.KeepsCursor : VgaCall → Prop
  | .ioctl cmd arg =>
    (cmd = 1#32 → 0 ≤ toInt32 arg ∧ toInt32 arg < vgaWidth) ∧
    (cmd = 2#32 → 0 ≤ toInt32 (arg >>> 32) ∧ toInt32 (arg >>> 32) < vgaHeight)
  | _ => True

variable {m : TextBuffer} {d : Display} {c : Byte} {x : Int}

theorem OnScreen.putAt (h : OnScreen m d) (hx : 0 ≤ x) (hlt : x < vgaWidth) (c color : Byte) :
    m.Within 4000 (vgaPutcAt c color x d.vgaCursorY d).video := by
  have hcol : x.toNat < vgaWidth.toNat := by
    have hlt : x < 80 := hlt
    exact (Int.toNat_lt hx).mpr hlt
  have hrow : d.vgaCursorY.toNat < vgaHeight.toNat := (Int.toNat_lt h.y_nonneg).mpr h.y_lt
  rw [video_vgaPutcAt hx h.y_nonneg]
  exact h.within.trans (TextBuffer.within_putAt hcol hrow _ _ _)

theorem onScreen_newline (hy : 0 ≤ d.vgaCursorY) (hlt : d.vgaCursorY < vgaHeight)
    (hwithin : m.Within 4000 d.video) : OnScreen m (vgaNewline d) := by
  have hlt : d.vgaCursorY < 25 := hlt
  unfold vgaNewline vgaScroll
  dsimp only
  split
  · rename_i hroom
    exact ⟨Int.le_refl 0, vgaWidth_pos, by dsimp only; omega, hroom, hwithin⟩
  · exact ⟨Int.le_refl 0, vgaWidth_pos, show (0 : Int) ≤ 24 by decide,
      show (24 : Int) < 25 by decide, hwithin.trans (TextBuffer.within_scroll (by decide) _ _ _)⟩

theorem OnScreen.putGlyph (h : OnScreen m d) (c : Byte) : OnScreen m (vgaPutGlyph c d) := by
  have hput := h.putAt h.x_nonneg h.x_lt c d.vgaColor
  unfold vgaPutGlyph
  dsimp only
  split
  · exact onScreen_newline h.y_nonneg h.y_lt hput
  · rename_i hroom
    exact ⟨Int.add_nonneg h.x_nonneg (by decide), Int.lt_of_not_ge hroom, h.y_nonneg, h.y_lt, hput⟩

theorem OnScreen.repeatGlyph (h : OnScreen m d) (c : Byte) (n : Nat) :
    OnScreen m (Nat.repeat (vgaPutGlyph c) n d) := by
  induction n with
  | zero => exact h
  | succ n ih => exact ih.putGlyph c

theorem OnScreen.putc (h : OnScreen m d) (c : Byte) : OnScreen m (vgaPutc c d) := by
  unfold vgaPutc
  split
  · exact onScreen_newline h.y_nonneg h.y_lt h.within
  split
  · exact ⟨Int.le_refl 0, vgaWidth_pos, h.y_nonneg, h.y_lt, h.within⟩
  split
  · exact h.repeatGlyph _ _
  split
  · split
    · rename_i hpos
      have hleft : 0 ≤ d.vgaCursorX - 1 := by omega
      have hlt : d.vgaCursorX - 1 < vgaWidth := Int.lt_trans (Int.sub_lt_self _ (by decide)) h.x_lt
      exact ⟨hleft, hlt, h.y_nonneg, h.y_lt, h.putAt hleft hlt _ _⟩
    · exact h
  · exact h.putGlyph c

theorem OnScreen.write (h : OnScreen m d) (buf : Option (Nat → Byte)) (len : Word) :
    OnScreen m (vgaDriverWrite buf len d) := by
  cases buf with
  | none => exact h
  | some buf => exact run_invariant (fun d i h => h.putc (buf i)) h _

theorem vgaHeight_pos : 0 < vgaHeight := by decide

theorem OnScreen.init (h : OnScreen m d) : OnScreen m (vgaDriverInit d) :=
  ⟨Int.le_refl 0, vgaWidth_pos, Int.le_refl 0, vgaHeight_pos,
    h.within.trans (TextBuffer.within_clear _ _ _)⟩

/-- Of the commands, only those that set a coordinate can take the cursor off the screen. -/
theorem onScreen_ioctl (h : OnScreen m d) (cmd : BitVec 32) (arg : Word) :
    OnScreen m (vgaDriverIoctl cmd arg d).2 ↔ (VgaCall.ioctl cmd arg).KeepsCursor := by
  unfold vgaDriverIoctl VgaCall.KeepsCursor
  by_cases hcolor : cmd = 0#32
  · subst hcolor
    exact iff_of_true ⟨h.x_nonneg, h.x_lt, h.y_nonneg, h.y_lt, h.within⟩ (by simp)
  by_cases hx : cmd = 1#32
  · subst hx
    constructor
    · intro hset
      exact ⟨fun _ => ⟨hset.x_nonneg, hset.x_lt⟩, by simp⟩
    · rintro ⟨hset, -⟩
      exact ⟨(hset rfl).1, (hset rfl).2, h.y_nonneg, h.y_lt, h.within⟩
  by_cases hy : cmd = 2#32
  · subst hy
    constructor
    · intro hset
      exact ⟨by simp, fun _ => ⟨hset.y_nonneg, hset.y_lt⟩⟩
    · rintro ⟨-, hset⟩
      exact ⟨h.x_nonneg, h.x_lt, (hset rfl).1, (hset rfl).2, h.within⟩
  rw [if_neg hcolor, if_neg hx, if_neg hy]
  refine iff_of_true ?_ ⟨fun h => absurd h hx, fun h => absurd h hy⟩
  split
  · exact ⟨Int.le_refl 0, vgaWidth_pos, Int.le_refl 0, vgaHeight_pos, h.within⟩
  · exact h

theorem onScreen_vgaCallStep (h : OnScreen m d) (call : VgaCall) :
    OnScreen m (vgaCallStep d call) ↔ call.KeepsCursor := by
  cases call with
  | init => exact iff_of_true h.init trivial
  | write buf len => exact iff_of_true (h.write buf len) trivial
  | ioctl cmd arg => exact onScreen_ioctl h cmd arg

def boot (video : TextBuffer) : Display := ⟨video, 0, 0, defaultColor⟩

/-- The cursor stays on the screen, and with it all that is stored, exactly if no `ioctl` sets it
elsewhere. -/
theorem onScreen_iff (video : TextBuffer) (calls : List VgaCall) :
    Throughout vgaCallStep (OnScreen video) (boot video) calls ↔
      ∀ call ∈ calls, call.KeepsCursor := by
  have hboot : OnScreen video (boot video) :=
    ⟨Int.le_refl 0, vgaWidth_pos, Int.le_refl 0, vgaHeight_pos, .refl _ _⟩
  rw [← @allowed_iff_forall _ _ vgaCallStep VgaCall.KeepsCursor (boot video)]
  exact throughout_iff_allowed (Q := OnScreen video) (fun _ h => h)
    (fun _ call h hkeeps => (onScreen_vgaCallStep h call).mpr hkeeps)
    (fun _ call h hafter => (onScreen_vgaCallStep h call).mp hafter) hboot calls

/-- A cursor in column 2000 takes the next character behind the screen's 4000 bytes. -/
theorem not_onScreen_column :
    let calls := [.ioctl 1#32 2000#64, .write (some fun _ => ascii 'A') 1#64]
    ¬ Throughout vgaCallStep (OnScreen ⟨fun _ => 0#8, []⟩) (boot ⟨fun _ => 0#8, []⟩) calls ∧
    4000 ∈ (run vgaCallStep (boot ⟨fun _ => 0#8, []⟩) calls).video.stores := by
  intro calls
  have hstored : (4000 : Int) ∈
      (run vgaCallStep (boot ⟨fun _ => 0#8, []⟩) calls).video.stores := by
    decide +kernel
  refine ⟨fun h => ?_, hstored⟩
  rcases (h calls List.prefix_rfl).within 4000 hstored with hold | hin
  · cases hold
  · exact absurd hin.2 (by decide)

end FenwickOS.Drv.Display
