import FenwickOS.Drv.Display
import FenwickOS.Drv.SubsystemStdout
import FenwickOS.Lib.Writers

/-! The two ways to the screen, `kputs` and standard output, each with a cursor of its own. -/
namespace FenwickOS.Drv
open Machine Vfs Display

/-- A string of printable characters and newlines. -/
abbrev Text := { s : List Byte // ∀ c ∈ s, Terminal.Plain c }

inductive ScreenCall
  | kputs (s : Text)
  | vfsWriteStr (s : Text)

/-- The kernel, whose display driver and libk share the memory at 0xB8000. `cells` is no part of
the source: who drew each cell last, libk being the first writer and the driver the second. -/
structure ScreenRun where
  kernel : Kernel World
  console : Libk.Console
  cells : Shared Int

/-- The driver with a record of its stores. -/
def recording (vga : Vga) : Display :=
  ⟨⟨vga.vgaBuffer, []⟩, vga.vgaCursorX, vga.vgaCursorY, vga.vgaColor⟩

/-- The length that `vfs_write_str` passes on. -/
def strLen (s : List Byte) : Word := (BitVec.ofNat 32 s.length).signExtend 64

def screenStep (s : ScreenRun) : ScreenCall → ScreenRun
  | .kputs text =>
    let vga := s.kernel.world.vga
    let console := Libk.kputsConsole text.val { s.console with video := ⟨vga.vgaBuffer, []⟩ }
    let vga := { vga with vgaBuffer := console.video.bytes }
    { kernel := { s.kernel with world := { s.kernel.world with vga := vga } }
      console := console
      cells := s.cells.write .first (console.video.stores.map (· / 2)) }
  | .vfsWriteStr text =>
    let display := Display.vgaDriverWrite (some (charAt text.val)) (strLen text.val)
      (recording s.kernel.world.vga)
    { s with
      kernel := (vfsWriteStr vfsNodeStdout text.val s.kernel).2
      cells := s.cells.write .second (display.video.stores.map (· / 2)) }

def libkText (calls : List ScreenCall) : List Byte :=
  calls.flatMap fun
    | .kputs text => text.val
    | .vfsWriteStr _ => []

def driverText (calls : List ScreenCall) : List Byte :=
  calls.flatMap fun
    | .kputs _ => []
    | .vfsWriteStr text => text.val

/-- The tables are those of `subsystem_init` and nothing has been drawn; both cursors are at the top
left. -/
structure AtTopLeft (stack : StackNames) (w : World) (s : ScreenRun) : Prop where
  registry : s.kernel.registry = (subsystemInit stack (bootKernel w)).registry
  vfs : s.kernel.vfs = (subsystemInit stack (bootKernel w)).vfs
  libkX : s.console.cursorX = 0
  libkY : s.console.cursorY = 0
  driverX : s.kernel.world.vga.vgaCursorX = 0
  driverY : s.kernel.world.vga.vgaCursorY = 0
  cells : s.cells = .untouched

/-- Where the two texts stand. -/
def drawn (tl td : Terminal Byte) : Writer → Set Int
  | .first => tl.written 80
  | .second => td.written 80

/-- After the text of `tl` by libk and that of `td` by the driver. -/
structure ScreenTraces (stack : StackNames) (w : World) (tl td : Terminal Byte) (s : ScreenRun) :
    Prop where
  registry : s.kernel.registry = (subsystemInit stack (bootKernel w)).registry
  vfs : s.kernel.vfs = (subsystemInit stack (bootKernel w)).vfs
  libk : Libk.ConsoleTraces tl { s.console with video := ⟨s.kernel.world.vga.vgaBuffer, []⟩ } tl
  driver : DisplayTraces td (recording s.kernel.world.vga) td
  accounts : s.cells.Accounts (drawn tl td)

variable {stack : StackNames} {w : World} {s : ScreenRun} {tl td t : Terminal Byte} {text : List Byte}
  {calls : List ScreenCall}

/-! ### Strings and their lengths -/

theorem map_charAt (s : List Byte) : (List.range s.length).map (charAt s) = s := by
  apply List.ext_getElem
  · simp
  · intro j h h'
    simp [charAt, h']

theorem length_le_of_layout (htext : ∀ c ∈ text, Terminal.Plain c) (hx : t.x < 80) :
    (text.foldl writeTerminal t).x < 80 ∧
    t.x + 81 * t.y + text.length ≤
      (text.foldl writeTerminal t).x + 81 * (text.foldl writeTerminal t).y := by
  induction text generalizing t with
  | nil => exact ⟨hx, Nat.le_refl _⟩
  | cons c text ih =>
    obtain ⟨hc, htext⟩ := List.forall_mem_cons.mp htext
    have hnext : (writeTerminal t c).x < 80 ∧
        t.x + 81 * t.y + 1 ≤ (writeTerminal t c).x + 81 * (writeTerminal t c).y := by
      rcases hc with rfl | ⟨hc, -⟩
      · rw [writeTerminal_newline]
        dsimp only [Terminal.newline]
        omega
      · rw [writeTerminal_plain hc]
        unfold Terminal.glyphImmediate
        dsimp only
        split
        · rename_i hroom
          exact ⟨hroom, by dsimp only [Terminal.right, Terminal.put]; omega⟩
        · dsimp only [Terminal.newline, Terminal.right, Terminal.put]
          omega
    have hrest := ih htext hnext.1
    rw [List.foldl_cons, List.length_cons]
    omega

theorem toNat_strLen (h : text.length < 2 ^ 31) : (strLen text).toNat = text.length := by
  have hint : (BitVec.ofNat 32 text.length).toNat = text.length := by
    rw [BitVec.toNat_ofNat]
    omega
  have hmsb : (BitVec.ofNat 32 text.length).msb = false := by
    rw [BitVec.msb_eq_false_iff_two_mul_lt, hint]
    omega
  rw [strLen, BitVec.signExtend_eq_setWidth_of_msb_false hmsb, BitVec.toNat_setWidth, hint]
  omega

/-- The driver's loop over a short string goes over its characters. -/
theorem vgaDriverWrite_str (h : text.length < 2 ^ 31) (d : Display) :
    Display.vgaDriverWrite (some (charAt text)) (strLen text) d =
      text.foldl (fun d c => Display.vgaPutc c d) d := by
  rw [Display.vgaDriverWrite, toNat_strLen h]
  conv_rhs => rw [← map_charAt text, List.foldl_map]

/-! ### What a call draws -/

theorem vga_recording (vga : Vga) : (recording vga).vga = vga := rfl

/-- The driver's record tells what `vfs_write_str` does to the display. -/
theorem world_vfsWriteStr {k : Kernel World}
    (hr : k.registry = (subsystemInit stack (bootKernel w)).registry)
    (hv : k.vfs = (subsystemInit stack (bootKernel w)).vfs) (text : List Byte) :
    (vfsWriteStr vfsNodeStdout text k).2 =
      { k with world :=
        { k.world with
          vga := (Display.vgaDriverWrite (some (charAt text)) (strLen text)
            (recording k.world.vga)).vga } } := by
  have hstdout : StdoutTo 0 vgaWrite k.registry k.vfs := by
    rw [hr, hv]
    exact stdoutTo_subsystemInit stack w
  rw [vfsWriteStr, hstdout.vfsWrite, vga_vgaDriverWrite, vga_recording]
  rfl

theorem ScreenTraces.kputs (h : ScreenTraces stack w tl td s) (text : Text)
    (hend : (text.val.foldl Libk.kputsTerminal tl).y < 25) :
    ScreenTraces stack w (text.val.foldl Libk.kputsTerminal tl) td
      (screenStep s (.kputs text)) := by
  have hconsole := h.libk.kputs text.property hend
  refine ⟨h.registry, h.vfs, ⟨hconsole.traces.restart _, hconsole.x_le⟩, ?_, ?_⟩
  · exact ⟨h.driver.x_nonneg, h.driver.y_nonneg, h.driver.x_lt, h.driver.traces.restart _⟩
  · exact h.accounts.write hconsole.traces.written rfl

theorem ScreenTraces.vfsWriteStr (h : ScreenTraces stack w tl td s) (text : Text)
    (hend : (text.val.foldl writeTerminal td).y < 25) :
    ScreenTraces stack w tl (text.val.foldl writeTerminal td)
      (screenStep s (.vfsWriteStr text)) := by
  have hx : td.x < 80 := by
    rw [← h.driver.traces.x_eq]
    have := h.driver.x_nonneg
    have hlt : (recording s.kernel.world.vga).vgaCursorX < 80 := h.driver.x_lt
    omega
  have hlength := length_le_of_layout text.property hx
  have hdriver := h.driver.text text.property hend
  rw [← vgaDriverWrite_str (show text.val.length < 2 ^ 31 by omega)] at hdriver
  have hworld := world_vfsWriteStr h.registry h.vfs text.val
  simp only [screenStep, hworld]
  refine ⟨h.registry, h.vfs, ?_, ?_, ?_⟩
  · exact ⟨h.libk.traces.restart _, h.libk.x_le⟩
  · exact ⟨hdriver.x_nonneg, hdriver.y_nonneg, hdriver.x_lt, hdriver.traces.restart _⟩
  · exact h.accounts.write hdriver.traces.written rfl

theorem plain_libkText (calls : List ScreenCall) : ∀ c ∈ libkText calls, Terminal.Plain c := by
  intro c hc
  obtain ⟨call, -, hc⟩ := List.mem_flatMap.mp hc
  cases call with
  | kputs text => exact text.property c hc
  | vfsWriteStr text => cases hc

theorem plain_driverText (calls : List ScreenCall) :
    ∀ c ∈ driverText calls, Terminal.Plain c := by
  intro c hc
  obtain ⟨call, -, hc⟩ := List.mem_flatMap.mp hc
  cases call with
  | kputs text => cases hc
  | vfsWriteStr text => exact text.property c hc

/-- The two texts grow call by call, whatever the order of the calls. -/
theorem ScreenTraces.run (h : ScreenTraces stack w tl td s)
    (hlibk : ((libkText calls).foldl Libk.kputsTerminal tl).y < 25)
    (hdriver : ((driverText calls).foldl writeTerminal td).y < 25) :
    ScreenTraces stack w ((libkText calls).foldl Libk.kputsTerminal tl)
      ((driverText calls).foldl writeTerminal td) (Machine.run screenStep s calls) := by
  induction calls generalizing s tl td with
  | nil => exact h
  | cons call calls ih =>
    cases call with
    | kputs text =>
      rw [libkText, List.flatMap_cons, List.foldl_append] at hlibk ⊢
      have hmono := Terminal.le_y_foldl Libk.le_y_kputsTerminal (plain_libkText calls)
        (text.val.foldl Libk.kputsTerminal tl)
      exact ih (h.kputs text (Nat.lt_of_le_of_lt hmono hlibk)) hlibk hdriver
    | vfsWriteStr text =>
      rw [driverText, List.flatMap_cons, List.foldl_append] at hdriver ⊢
      have hmono := Terminal.le_y_foldl le_y_writeTerminal (plain_driverText calls)
        (text.val.foldl writeTerminal td)
      exact ih (h.vfsWriteStr text (Nat.lt_of_le_of_lt hmono hdriver)) hlibk hdriver

theorem screenTraces_start (h : AtTopLeft stack w s) :
    ScreenTraces stack w .empty .empty s := by
  have hnone : (Terminal.empty : Terminal Byte).written 80 = ∅ := by
    simp [Terminal.written, Terminal.empty]
  refine ⟨h.registry, h.vfs, ⟨⟨h.libkX, h.libkY, ?_, fun _ => by simp⟩, ?_⟩, ?_, ?_⟩
  · dsimp only
    rw [h.libkY]
    decide
  · dsimp only
    rw [h.libkX]
    exact Nat.zero_le _
  · have hx : (recording s.kernel.world.vga).vgaCursorX = 0 := h.driverX
    have hy : (recording s.kernel.world.vga).vgaCursorY = 0 := h.driverY
    refine ⟨hx.ge, hy.ge, hx.trans_lt vgaWidth_pos, ⟨?_, ?_, ?_, fun _ => by simp [recording]⟩⟩
    · rw [hx]
      rfl
    · rw [hy]
      rfl
    · rw [hy]
      decide
  · rw [h.cells]
    have hdrawn : drawn .empty .empty = fun _ => ∅ := by
      funext p
      cases p <;> exact hnone
    rw [hdrawn]
    exact Shared.accounts_untouched

def clearedScreen (k : Kernel World) (console : Libk.Console) : ScreenRun :=
  let console := Libk.kclearScreen { console with video := ⟨k.world.vga.vgaBuffer, []⟩ }
  let vga := { k.world.vga with vgaBuffer := console.video.bytes }
  { kernel := { k with world := { k.world with vga := vga } }
    console := console
    cells := .untouched }

theorem atTopLeft_clearedScreen {k : Kernel World}
    (hr : k.registry = (subsystemInit stack (bootKernel w)).registry)
    (hv : k.vfs = (subsystemInit stack (bootKernel w)).vfs)
    (hx : k.world.vga.vgaCursorX = 0) (hy : k.world.vga.vgaCursorY = 0) (console : Libk.Console) :
    AtTopLeft stack w (clearedScreen k console) :=
  ⟨hr, hv, rfl, rfl, hx, hy, rfl⟩

theorem atTopLeft_subsystemInit (stack : StackNames) (w : World) (console : Libk.Console) :
    AtTopLeft stack w (clearedScreen (subsystemInit stack (bootKernel w)) console) :=
  atTopLeft_clearedScreen rfl rfl vgaCursor_subsystemInit.1 vgaCursor_subsystemInit.2 console

/-- No character is lost exactly if the text of `kputs` and that of the driver, each laid out from
the top left by its own rules, have no cell in common. -/
theorem output_kept_iff (h : AtTopLeft stack w s)
    (hlibk : (Terminal.layout Libk.kputsTerminal (libkText calls)).y < 25)
    (hdriver : (Terminal.layout writeTerminal (driverText calls)).y < 25) :
    (Machine.run screenStep s calls).cells.lost = false ↔
      ∀ cell, cell ∈ (Terminal.layout Libk.kputsTerminal (libkText calls)).written 80 →
        cell ∉ (Terminal.layout writeTerminal (driverText calls)).written 80 := by
  have hlost := ((screenTraces_start h).run hlibk hdriver).accounts.lost
  rw [← Bool.not_eq_true, hlost]
  simp only [not_exists, not_and]
  rfl

def zeroConsole : Libk.Console := ⟨⟨fun _ => 0#8, []⟩, 0, 0, 0x0F#8, []⟩

def charA : Text := ⟨[ascii 'A'], by unfold Terminal.Plain; decide⟩
def charB : Text := ⟨[ascii 'B'], by unfold Terminal.Plain; decide⟩
def lineEnd : Text := ⟨[0x0A#8], by unfold Terminal.Plain; decide⟩

/-- The driver only ends its line. -/
theorem output_kept_line_end :
    (Machine.run screenStep
      (clearedScreen (subsystemInit .zero (bootKernel zeroWorld)) zeroConsole)
      [.kputs charA, .vfsWriteStr lineEnd]).cells.lost = false := by
  refine (output_kept_iff (atTopLeft_subsystemInit .zero zeroWorld zeroConsole)
    (by decide) (by decide)).mpr ?_
  rintro cell - ⟨row, col, hsome, -⟩
  cases hsome

/-- `A` by libk and `B` by the driver come to the same cell. -/
theorem output_lost_first_cell :
    (Machine.run screenStep
      (clearedScreen (subsystemInit .zero (bootKernel zeroWorld)) zeroConsole)
      [.kputs charA, .vfsWriteStr charB]).cells.lost = true := by
  have hstart := screenTraces_start
    (atTopLeft_subsystemInit .zero zeroWorld zeroConsole)
  have hrun := @ScreenTraces.run _ _ _ _ _ [.kputs charA, .vfsWriteStr charB] hstart (by decide)
    (by decide)
  exact hrun.accounts.lost.mpr ⟨0, ⟨0, 0, rfl, rfl⟩, ⟨0, 0, rfl, rfl⟩⟩

end FenwickOS.Drv
