import FenwickOS.Drv.Renderers
import FenwickOS.Idt.Controllers
import FenwickOS.Idt.Exceptions
import FenwickOS.Libk.Formats

/-! `panic_handler` of kernel/panic.c: the report on the screen and as `serial_putc` gets it, and the
interrupts that no longer come. -/
namespace FenwickOS.Idt
open Machine Pic Libk

def bsodBg : Byte := 0x1F#8
def bsodText : Byte := 0x1F#8
def bsodHighlight : Byte := 0x1E#8

/-- What the handler changes: the flag that `cli` clears, the ports and the console. -/
structure PanicState where
  interruptFlag : Bool
  io : List IoEvent
  console : Console

def literal (s : String) : List Byte := s.toList.map ascii

def eol : List Byte := [0x0A#8]

/-- The loop goes in steps of two bytes. -/
def fillScreen (color : Byte) (vga : TextBuffer) : TextBuffer :=
  (List.range (80 * 25)).foldl
    (fun vga k => (vga.store (2 * k : Nat) (ascii ' ')).store ((2 * k : Nat) + 1) color) vga

def kputsCalls (s : List Byte) : List ConsoleCall := s.map .kputc

/-- The calls after `fill_screen`; the digits are those that `print_hex64` makes of the vector, the
error code and the address of the message. -/
def panicCalls (message intNo errCode address : List Byte) : List ConsoleCall :=
  List.flatten [
    [.ksetColor bsodText],
    kputsCalls eol,
    kputsCalls (literal ":(  FenwickOS has encountered a problem and needs to restart." ++ eol),
    kputsCalls eol,
    kputsCalls (literal
      "We're just collecting some error info, and then we'll restart for you." ++ eol),
    kputsCalls eol,
    [.ksetColor bsodText],
    kputsCalls (literal "  "),
    [.ksetColor bsodHighlight],
    kputsCalls (literal "Code:  "),
    [.ksetColor bsodText],
    kputsCalls (literal "INT#"),
    kputsCalls intNo,
    kputsCalls (literal "  ERR="),
    kputsCalls errCode,
    kputsCalls eol,
    kputsCalls eol,
    [.ksetColor bsodText],
    kputsCalls (literal "  What happened: "),
    kputsCalls message,
    kputsCalls (eol ++ eol),
    [.ksetColor bsodText],
    kputsCalls (literal
      "  If you'd like to know more, search online for the error code above." ++ eol ++ eol),
    [.ksetColor bsodHighlight],
    kputsCalls (literal "  Technical information:" ++ eol),
    [.ksetColor bsodText],
    kputsCalls (literal "  *** STOP: 0x"),
    kputsCalls address,
    kputsCalls (literal " ("),
    kputsCalls intNo,
    kputsCalls (literal "-"),
    kputsCalls errCode,
    kputsCalls (literal ")" ++ eol ++ eol),
    [.ksetColor bsodHighlight],
    kputsCalls (literal "  Press any key to continue_"),
    [.ksetColor bsodText]]

/-- The console from `kset_color(BSOD_BG)` to the end of `fill_screen`. -/
def blueScreen (c : Console) : Console :=
  let c := kclearScreen (ksetColor bsodBg c)
  { c with video := fillScreen bsodBg c.video }

/-- The handler up to its last `hlt`. `none` is the bounds panic of `print_hex64`. -/
def panicHandler (m : Memory) (message intNo errCode : Word) (s : PanicState) :
    Option PanicState := do
  let intDigits ← printHex64 intNo
  let errDigits ← printHex64 errCode
  let addressDigits ← printHex64 message
  some {
    interruptFlag := false
    io := s.io ++ [.outb 0x21#16 0xFF#8, .outb 0xA1#16 0xFF#8]
    console := run consoleStep (blueScreen s.console)
      (panicCalls (kputs m message) intDigits errDigits addressDigits) }

/-! ### The report -/

def printed (calls : List ConsoleCall) : List Byte :=
  calls.flatMap fun
    | .kputc c => [c]
    | .ksetColor _ => []

def panicLines (message intNo errCode address : List Byte) : List (List Byte) :=
  [[],
    literal ":(  FenwickOS has encountered a problem and needs to restart.",
    [],
    literal "We're just collecting some error info, and then we'll restart for you.",
    [],
    literal "  " ++ literal "Code:  " ++ literal "INT#" ++ intNo ++ literal "  ERR=" ++ errCode,
    [],
    literal "  What happened: " ++ message,
    [],
    literal "  If you'd like to know more, search online for the error code above.",
    [],
    literal "  Technical information:",
    literal "  *** STOP: 0x" ++ address ++ literal " (" ++ intNo ++ literal "-" ++ errCode ++
      literal ")",
    [],
    literal "  Press any key to continue_"]

/-- The report, with its numbers in hexadecimal. -/
def panicReport (m : Memory) (message intNo errCode : Word) : List Byte :=
  List.intercalate eol
    (panicLines (cstring m message) (numeral 16 intNo.toNat) (numeral 16 errCode.toNat)
      (numeral 16 message.toNat))

variable {m : Memory} {message intNo errCode : Word} {s s' : PanicState} {c c' : Console}
  {calls : List ConsoleCall} {text : List Byte} {color : Byte}

theorem printed_append (xs ys : List ConsoleCall) : printed (xs ++ ys) = printed xs ++ printed ys :=
  List.flatMap_append

theorem printed_kputsCalls (text : List Byte) : printed (kputsCalls text) = text := by
  induction text with
  | nil => rfl
  | cons c text ih => exact congrArg (c :: ·) ih

theorem printed_ksetColor (color : Byte) : printed [.ksetColor color] = [] := rfl

theorem printed_panicCalls (message intNo errCode address : List Byte) :
    printed (panicCalls message intNo errCode address) =
      List.intercalate eol (panicLines message intNo errCode address) := by
  unfold panicCalls panicLines
  simp only [List.intercalate, List.intersperse_cons_cons, List.intersperse_singleton,
    List.flatten_cons, List.flatten_nil, List.append_assoc, List.nil_append, List.append_nil,
    printed_append, printed_kputsCalls, printed_ksetColor]

theorem length_numeral_le {n k : Nat} (hk : 0 < k) (hn : n < 16 ^ k) :
    (numeral 16 n).length ≤ k := by
  unfold numeral writeDigits
  split
  · exact hk
  · rw [List.length_map, List.length_reverse]
    exact (Nat.digits_length_le_iff (by decide) n).mpr hn

theorem length_numeral_word (v : Word) : (numeral 16 v.toNat).length ≤ 16 := by
  refine length_numeral_le (by decide) ?_
  have hlt := v.isLt
  omega

/-- Characters that are drawn as they are. -/
def Printable (c : Byte) : Prop := 0x20#8 ≤ c ∧ c ≤ 0x7E#8

theorem Printable.plain {c : Byte} (h : Printable c) : Terminal.Plain c := Or.inr h

theorem Printable.ne_eol {c : Byte} (h : Printable c) : c ≠ 0x0A#8 := (Terminal.ne_control h.1).1

theorem printable_numeral (n : Nat) : ∀ c ∈ numeral 16 n, Printable c := by
  have hdigit : ∀ d < 36, Printable (digitByte d) := by
    unfold Printable
    decide
  intro c hc
  unfold numeral at hc
  split at hc
  · rw [List.mem_singleton.mp hc]
    exact hdigit 0 (by decide)
  · obtain ⟨d, hd, rfl⟩ := List.mem_map.mp hc
    exact hdigit d (digits_lt (by decide) (by decide) n d (List.mem_reverse.mp hd))

def printableString (s : String) : Bool := s.toList.all fun c => 32 ≤ c.toNat && c.toNat ≤ 126

theorem printable_literal {s : String} (h : printableString s = true) :
    ∀ c ∈ literal s, Printable c := by
  intro c hc
  obtain ⟨d, hd, rfl⟩ := List.mem_map.mp hc
  have hrange := List.all_eq_true.mp h d hd
  rw [Bool.and_eq_true, decide_eq_true_eq, decide_eq_true_eq] at hrange
  have hnat : (ascii d).toNat = d.toNat := by
    rw [ascii, BitVec.toNat_ofNat]
    omega
  constructor
  · rw [BitVec.le_def, hnat]
    exact hrange.1
  · rw [BitVec.le_def, hnat]
    exact hrange.2

theorem printable_append {xs ys : List Byte} (hxs : ∀ c ∈ xs, Printable c)
    (hys : ∀ c ∈ ys, Printable c) : ∀ c ∈ xs ++ ys, Printable c := by
  intro c hc
  rcases List.mem_append.mp hc with hc | hc
  · exact hxs c hc
  · exact hys c hc

theorem printable_lines {message intNo errCode address : List Byte}
    (hmessage : ∀ c ∈ message, Printable c) (hint : ∀ c ∈ intNo, Printable c)
    (herr : ∀ c ∈ errCode, Printable c) (haddress : ∀ c ∈ address, Printable c) :
    ∀ line ∈ panicLines message intNo errCode address, ∀ c ∈ line, Printable c := by
  have hempty : ∀ c ∈ ([] : List Byte), Printable c := by simp
  unfold panicLines
  simp only [List.forall_mem_cons]
  refine ⟨hempty, printable_literal (by decide), hempty, printable_literal (by decide), hempty,
    ?_, hempty, printable_append (printable_literal (by decide)) hmessage, hempty,
    printable_literal (by decide), hempty, printable_literal (by decide), ?_, hempty,
    printable_literal (by decide), by simp⟩
  · exact printable_append (printable_append (printable_append (printable_append (printable_append
      (printable_literal (by decide)) (printable_literal (by decide)))
      (printable_literal (by decide))) hint) (printable_literal (by decide))) herr
  · exact printable_append (printable_append (printable_append (printable_append (printable_append
      (printable_append (printable_literal (by decide)) haddress) (printable_literal (by decide)))
      hint) (printable_literal (by decide))) herr) (printable_literal (by decide))

/-- With a printable message the report takes fifteen rows and those into which the message
wraps. -/
theorem lateCursor_panicReport (hmessage : ∀ c ∈ cstring m message, Printable c) :
    (Lines.of 80 (panicReport m message intNo errCode)).lateCursor 80 =
      14 + ((cstring m message).length + 16) / 80 := by
  have hvector := length_numeral_word intNo
  have herror := length_numeral_word errCode
  have haddress := length_numeral_word message
  have hproblem :
      (literal ":(  FenwickOS has encountered a problem and needs to restart.").length =
        61 := by decide
  have hinfo :
      (literal "We're just collecting some error info, and then we'll restart for you.").length =
        70 := by decide
  have hmargin : (literal "  ").length = 2 := by decide
  have hcode : (literal "Code:  ").length = 7 := by decide
  have hint : (literal "INT#").length = 4 := by decide
  have herr : (literal "  ERR=").length = 6 := by decide
  have hwhat : (literal "  What happened: ").length = 17 := by decide
  have hmore :
      (literal "  If you'd like to know more, search online for the error code above.").length =
        69 := by decide
  have htechnical : (literal "  Technical information:").length = 24 := by decide
  have hstop : (literal "  *** STOP: 0x").length = 14 := by decide
  have hopen : (literal " (").length = 2 := by decide
  have hdash : (literal "-").length = 1 := by decide
  have hclose : (literal ")").length = 1 := by decide
  have hkey : (literal "  Press any key to continue_").length = 28 := by decide
  have hrows := @Lines.lateCursor_lines 80 ⟨0, 0, 0⟩ _
    (fun line hline => fun hmem => (printable_lines hmessage (printable_numeral intNo.toNat)
      (printable_numeral errCode.toNat) (printable_numeral message.toNat) line hline _ hmem).ne_eol
        rfl) rfl
  rw [panicReport, Lines.of, eol, hrows]
  simp only [panicLines, List.map_cons, List.map_nil, List.sum_cons, List.sum_nil,
    List.length_append, List.length_cons, List.length_nil, hproblem, hinfo, hmargin, hcode, hint,
    herr, hwhat, hmore, htechnical, hstop, hopen, hdash, hclose, hkey, Nat.reduceAdd,
    Nat.reduceSub, Nat.reduceDiv, Nat.add_zero, Nat.zero_add]
  clear hproblem hinfo hmargin hcode hint herr hwhat hmore htechnical hstop hopen hdash hclose hkey
  omega

/-! ### The screen -/

/-- The screen is blank either with spaces, as `fill_screen` leaves it, or with NULs. -/
def SpaceOrNul (a b : Byte) : Prop := a = b ∨ a = ascii ' ' ∧ b = 0#8

/-- The loop takes the screen for one row. -/
theorem fillScreen_eq (color : Byte) (vga : TextBuffer) :
    fillScreen color vga = vga.blankRow (80 * 25) (ascii ' ') color 0 := by
  have hindex (k : Nat) : TextBuffer.index (80 * 25) k 0 = 2 * k := by
    unfold TextBuffer.index
    omega
  unfold fillScreen TextBuffer.blankRow TextBuffer.putAt
  simp only [hindex]

theorem bytes_fillScreen (color : Byte) (vga : TextBuffer) (i : Int) :
    (fillScreen color vga).bytes i =
      if 0 ≤ i ∧ i < 4000 then if i % 2 = 0 then ascii ' ' else color else vga.bytes i := by
  rw [fillScreen_eq]
  exact TextBuffer.blanked_self.blankRow (Nat.le_refl _) i

theorem bytes_blueScreen (c : Console) (i : Int) :
    (blueScreen c).video.bytes i =
      if 0 ≤ i ∧ i < 4000 then if i % 2 = 0 then ascii ' ' else bsodBg
      else c.video.bytes i := by
  have hvideo : (blueScreen c).video =
      fillScreen bsodBg (c.video.clear vgaWidth vgaHeight 0#8 bsodBg) := by
    unfold blueScreen kclearScreen ksetColor
    dsimp only
  have hsize : ((TextBuffer.index vgaWidth 0 vgaHeight : Nat) : Int) = 4000 := rfl
  rw [hvideo, bytes_fillScreen, TextBuffer.bytes_clear, hsize]
  split
  · rfl
  · rfl

theorem blueScreen_serial (c : Console) : (blueScreen c).serial = c.serial := by
  unfold blueScreen kclearScreen ksetColor
  dsimp only

theorem beside_blueScreen (c : Console) :
    Beside SpaceOrNul (blueScreen c) (kclearScreen (ksetColor bsodBg c)) := by
  refine ⟨fun i => ?_, rfl, rfl, rfl, rfl⟩
  have hvideo : (kclearScreen (ksetColor bsodBg c)).video =
    c.video.clear vgaWidth vgaHeight 0#8 bsodBg := rfl
  have hsize : ((TextBuffer.index vgaWidth 0 vgaHeight : Nat) : Int) = 4000 := rfl
  rw [bytes_blueScreen, hvideo, TextBuffer.bytes_clear, hsize]
  by_cases hin : 0 ≤ i ∧ i < 4000
  · rw [if_pos hin, if_pos hin]
    by_cases heven : i % 2 = 0
    · rw [if_pos heven, if_pos heven]
      exact Or.inr ⟨rfl, rfl⟩
    · rw [if_neg heven, if_neg heven]
      exact Or.inl rfl
  · rw [if_neg hin, if_neg hin]
    exact Or.inl rfl

theorem painted_blueScreen (c : Console) :
    Painted (fun color => color = bsodText ∨ color = bsodHighlight) (blueScreen c) := by
  refine ⟨fun row hrow col hcol => ?_, Or.inl rfl⟩
  have hin := TextBuffer.index_lt hcol hrow
  have heven : TextBuffer.index vgaWidth col row % 2 = 0 := Nat.mul_mod_left _ 2
  have hsize : TextBuffer.index vgaWidth 0 vgaHeight = 4000 := rfl
  rw [bytes_blueScreen, if_pos (by omega), if_neg (by omega)]
  exact Or.inl rfl

theorem newline_serial (c : Console) : (newline c).serial = c.serial := by
  unfold newline scrollIfNeeded
  split <;> rfl

theorem putGlyph_serial (b : Byte) (c : Console) : (putGlyph b c).serial = c.serial := by
  unfold putGlyph
  split
  · exact newline_serial c
  · rfl

/-- Every character goes to `serial_putc`, whatever it does to the screen. -/
theorem kputc_serial (b : Byte) (c : Console) : (kputc b c).serial = c.serial ++ [b] := by
  have htab (n : Nat) (c : Console) :
      (Nat.repeat (putGlyph (ascii ' ')) n c).serial = c.serial := by
    induction n with
    | zero => rfl
    | succ n ih => exact (putGlyph_serial _ _).trans ih
  unfold kputc
  dsimp only
  split
  · exact newline_serial _
  split
  · rfl
  split
  · exact htab _ _
  split
  · split <;> rfl
  split
  · exact putGlyph_serial b _
  · rfl

theorem run_serial (calls : List ConsoleCall) (c : Console) :
    (run consoleStep c calls).serial = c.serial ++ printed calls := by
  induction calls generalizing c with
  | nil => exact (List.append_nil _).symm
  | cons call calls ih =>
    rw [run_cons, ih]
    cases call with
    | kputc b =>
      rw [consoleStep, kputc_serial, List.append_assoc]
      rfl
    | ksetColor color => rfl

theorem run_terminal (calls : List ConsoleCall) (t : Terminal Byte) :
    run terminalStep t calls = (printed calls).foldl kputsTerminal t := by
  induction calls generalizing t with
  | nil => rfl
  | cons call calls ih =>
    rw [run_cons, ih]
    cases call with
    | kputc b => rfl
    | ksetColor color => rfl

/-! ### The handler -/

def panicTerminal (m : Memory) (message intNo errCode : Word) : Terminal Byte :=
  Terminal.layout kputsTerminal (panicReport m message intNo errCode)

/-- What the handler leaves behind: the report, in full to `serial_putc` and as far as the screen
shows it, on blue. -/
structure PanicShown (m : Memory) (message intNo errCode : Word) (s s' : PanicState) : Prop where
  interruptFlag : s'.interruptFlag = false
  serial : s'.console.serial = s.console.serial ++ panicReport m message intNo errCode
  screen : ∀ row < 25, ∀ col < 80,
    let t := panicTerminal m message intNo errCode
    Drv.SameChar (s'.console.video.char 80 row col) ((t.cells (t.top 25 + row) col).getD 0#8)
  colors : s'.console.video.Colored (fun color => color = bsodText ∨ color = bsodHighlight) 80 25
  fits : (∀ c ∈ cstring m message, Printable c) →
    ((panicTerminal m message intNo errCode).top 25 = 0 ↔ (cstring m message).length < 864)

variable {base : Word} {isrStub : Fin 32 → Word} {irqStub : Fin 16 → Word} {idt : IdtState}
  {p : Pair}

theorem panicHandler_eq (m : Memory) (message intNo errCode : Word) (s : PanicState) :
    panicHandler m message intNo errCode s =
      some ⟨false, s.io ++ [.outb 0x21#16 0xFF#8, .outb 0xA1#16 0xFF#8],
        run consoleStep (blueScreen s.console) (panicCalls (cstring m message)
          (numeral 16 intNo.toNat) (numeral 16 errCode.toNat) (numeral 16 message.toNat))⟩ := by
  unfold panicHandler
  simp only [printHex64_eq, hexDigits_eq]
  rfl

theorem sameChar_of_spaceOrNul {a b : Byte} (h : SpaceOrNul a b) : Drv.SameChar a b := by
  rcases h with rfl | ⟨rfl, rfl⟩
  · exact Or.inl rfl
  · exact Or.inr ⟨Or.inr rfl, Or.inl rfl⟩

theorem blueScreen_char (c : Console) (calls : List ConsoleCall) {row col : Nat} (hrow : row < 25)
    (hcol : col < 80) :
    let t := Terminal.layout kputsTerminal (printed calls)
    Drv.SameChar ((run consoleStep (blueScreen c) calls).video.char 80 row col)
      ((t.cells (t.top 25 + row) col).getD 0#8) := by
  have hR : ∀ b, SpaceOrNul b b := fun _ => Or.inl rfl
  have hbeside : Beside SpaceOrNul (run consoleStep (blueScreen c) calls)
      (run consoleStep (kclearScreen (ksetColor bsodBg c)) calls) :=
    run_rel (fun _ _ call h => h.step hR call) (beside_blueScreen c) calls
  have hshows := consoleShows_run (ksetColor bsodBg c) calls
  rw [run_terminal] at hshows
  have hcell := hshows.screen.cells row hrow col hcol
  unfold vgaHeight at hcell
  unfold Terminal.layout
  dsimp only
  rw [← hcell]
  exact sameChar_of_spaceOrNul (hbeside.like _)

theorem plain_panicReport (hmessage : ∀ c ∈ cstring m message, Printable c) :
    ∀ c ∈ panicReport m message intNo errCode, Terminal.Plain c := by
  intro c hc
  rcases Lines.mem_intercalate hc with heol | ⟨line, hline, hc⟩
  · exact Or.inl (List.mem_singleton.mp heol)
  · exact (printable_lines hmessage (printable_numeral _) (printable_numeral _)
      (printable_numeral _) line hline c hc).plain

theorem top_panicTerminal (hmessage : ∀ c ∈ cstring m message, Printable c) :
    (panicTerminal m message intNo errCode).top 25 = 0 ↔ (cstring m message).length < 864 := by
  have hplain : ∀ c ∈ panicReport m message intNo errCode, Terminal.Plain c :=
    plain_panicReport hmessage
  have hy := (Drv.laidLate_kputs hplain).y_eq
  rw [lateCursor_panicReport hmessage] at hy
  unfold Terminal.top panicTerminal
  omega

theorem colors_panicCalls {message intNo errCode address : List Byte} {color : Byte}
    (h : .ksetColor color ∈ panicCalls message intNo errCode address) :
    color = bsodText ∨ color = bsodHighlight := by
  have hkputs (text : List Byte) : ConsoleCall.ksetColor color ∉ kputsCalls text := by
    simp [kputsCalls]
  unfold panicCalls at h
  simp only [List.flatten_cons, List.flatten_nil, List.mem_append, List.mem_singleton, hkputs,
    ConsoleCall.ksetColor.injEq, List.not_mem_nil, false_or, or_false] at h
  tauto

theorem panicHandler_shown (m : Memory) (message intNo errCode : Word) (s : PanicState) :
    ∃ s', panicHandler m message intNo errCode s = some s' ∧
      s'.io = s.io ++ [.outb 0x21#16 0xFF#8, .outb 0xA1#16 0xFF#8] ∧
      PanicShown m message intNo errCode s s' := by
  have hprinted := printed_panicCalls (cstring m message) (numeral 16 intNo.toNat)
    (numeral 16 errCode.toNat) (numeral 16 message.toNat)
  refine ⟨_, panicHandler_eq m message intNo errCode s, rfl, rfl, ?_, fun row hrow col hcol => ?_,
    ?_, top_panicTerminal⟩
  · rw [run_serial, hprinted, blueScreen_serial, panicReport]
  · have hchar := blueScreen_char s.console (panicCalls (cstring m message)
      (numeral 16 intNo.toNat) (numeral 16 errCode.toNat) (numeral 16 message.toNat)) hrow hcol
    rw [hprinted] at hchar
    exact hchar
  · have hpainted : Painted (fun color => color = bsodText ∨ color = bsodHighlight)
        (run consoleStep (blueScreen s.console) (panicCalls (cstring m message)
          (numeral 16 intNo.toNat) (numeral 16 errCode.toNat) (numeral 16 message.toNat))) :=
      (painted_blueScreen s.console).run fun _ => colors_panicCalls
    exact hpainted.cells

def setLines (p : Pair) (lines : List (Fin 16 × Bool)) : Pair :=
  run (fun p line => p.setLine line.1 line.2) p lines

theorem setLines_masked (hmask : p.master.imr = 0xFF#8) (lines : List (Fin 16 × Bool)) :
    (setLines p lines).interrupts = false :=
  Pair.interrupts_masked (run_invariant (P := fun p : Pair => p.master.imr = 0xFF#8)
    (fun p line h => (Pair.imr_setLine line.1 line.2 p).trans h) hmask lines)

/-- The messages of `isr_handler` that are not in its table. -/
def isrMessages : List String :=
  ["Double Fault - Critical error detected",
    "General Protection Fault - Memory protection violated", "Page Fault - Invalid memory access",
    "Machine Check - Hardware failure", "Division By Zero", "Invalid Opcode",
    "Stack-Segment Fault"]

theorem isrHandler_message {panic : Panic} (h : isrHandler intNo errCode = some panic) :
    panic.message ∈ isrMessages ++ exceptionMessages := by
  have htext {text : String} (hmem : text ∈ isrMessages)
      (heq : some (⟨text, intNo, errCode⟩ : Panic) = some panic) :
      panic.message ∈ isrMessages ++ exceptionMessages := by
    rw [← Option.some.inj heq]
    exact List.mem_append_left _ hmem
  unfold isrHandler at h
  split at h
  · exact htext (by simp [isrMessages]) h
  split at h
  · exact htext (by simp [isrMessages]) h
  split at h
  · exact htext (by simp [isrMessages]) h
  split at h
  · exact htext (by simp [isrMessages]) h
  split at h
  · exact htext (by simp [isrMessages]) h
  split at h
  · exact htext (by simp [isrMessages]) h
  split at h
  · exact htext (by simp [isrMessages]) h
  · obtain ⟨text, htable, rfl⟩ := Option.map_eq_some_iff.mp h
    exact List.mem_append_right _ (List.mem_of_getElem? htable)

/-- No exception has a message that would scroll the report away. -/
theorem isrHandler_fits {panic : Panic} (h : isrHandler intNo errCode = some panic)
    (hmessage : cstring m message = literal panic.message) :
    (panicTerminal m message intNo errCode).top 25 = 0 := by
  have hall : ∀ text ∈ isrMessages ++ exceptionMessages,
      printableString text = true ∧ (literal text).length < 864 := by decide +kernel
  obtain ⟨hprintable, hlen⟩ := hall _ (isrHandler_message h)
  rw [top_panicTerminal, hmessage]
  · exact hlen
  · rw [hmessage]
    exact printable_literal hprintable

/-- The handler always comes to its end, at any moment after `idt_install` and from any state of the
console: the report is out, in full if it is an exception's, and no interrupt comes any more. -/
theorem panic_final (base : Word) (isrStub : Fin 32 → Word) (irqStub : Fin 16 → Word)
    (idt : IdtState) (hidle : p.Serves none) (w : Routing) (events : List LineEvent) (m : Memory)
    (message intNo errCode : Word) (s : PanicState) :
    ∃ s', panicHandler m message intNo errCode s = some s' ∧
      PanicShown m message intNo errCode s s' ∧
      (∀ panic, isrHandler intNo errCode = some panic →
        cstring m message = literal panic.message →
        (panicTerminal m message intNo errCode).top 25 = 0) ∧
      ∀ lines, (setLines (run Pair.write
        (run lineStep (installed base isrStub irqStub idt p w) events).pics
        (s'.io.drop s.io.length)) lines).interrupts = false := by
  obtain ⟨s', hs', hio, hshown⟩ := panicHandler_shown m message intNo errCode s
  refine ⟨s', hs', hshown, fun _ => isrHandler_fits, fun lines => setLines_masked ?_ lines⟩
  have hready : InStep (run lineStep (installed base isrStub irqStub idt p w) events) :=
    inStep_run hidle events
  have hexpects := hready.ready.master.expects
  rw [hio, List.drop_left]
  generalize (run lineStep (installed base isrStub irqStub idt p w) events).pics = pics at hexpects
  change (pics.master.data 0xFF#8).imr = 0xFF#8
  rw [Chip.data, hexpects]

def divisionMemory : Memory where
  byte a := (literal "Division By Zero").getD (a - 0x1000#64).toNat 0#8
  nul := ⟨0x2000#64, by decide⟩

/-- A division by zero while the timer asks for an interrupt. -/
theorem panic_final_division :
    ∃ s', panicHandler divisionMemory 0x1000#64 0#64 0#64 ⟨true, [], Drv.zeroConsole⟩ = some s' ∧
      s'.console.serial = panicReport divisionMemory 0x1000#64 0#64 0#64 ∧
      (panicTerminal divisionMemory 0x1000#64 0#64 0#64).top 25 = 0 ∧
      (setLines (run Pair.write (run lineStep (installed 0x110000#64 (fun _ => 0x100000#64)
        (fun _ => 0x100200#64) coldIdt coldPair coldRouting) [.raise 0]).pics s'.io)
        [(0, true)]).interrupts = false := by
  obtain ⟨s', hs', hshown, hfits, hmasked⟩ := panic_final 0x110000#64 (fun _ => 0x100000#64)
    (fun _ => 0x100200#64) coldIdt coldPair_serves coldRouting [.raise 0] divisionMemory
    0x1000#64 0#64 0#64 ⟨true, [], Drv.zeroConsole⟩
  have hmessage : cstring divisionMemory 0x1000#64 = literal "Division By Zero" :=
    cstring_eq_of_bytes (by decide) (by decide)
  exact ⟨s', hs', hshown.serial, hfits _ rfl hmessage, hmasked [(0, true)]⟩

end FenwickOS.Idt
