import FenwickOS.Idt.Controllers
import FenwickOS.Lib.Held

/-! The keyboard controller and the clock, which hold their interrupt lines up until the kernel
answers: the handlers never do, and the code outside of them answers the clock only. -/
namespace FenwickOS.Idt
open Machine Pic

/-- `cmos_write(0x0B, cmos_read(0x0B) | bits)` and `cmos_read(reg)`. No handler touches the ports of
the clock, so that each is one step. -/
inductive CmosAccess
  | enable (bits : Byte)
  | read (reg : Byte)
  deriving DecidableEq

inductive RtcCall
  | rtcDriverInit
  | rtcDriverRead
  | rtcInit
  | rtcGetTime

def RtcCall.accesses : RtcCall → List CmosAccess
  | .rtcDriverInit => [.enable 0x40#8, .read 0x0C#8]
  | .rtcDriverRead =>
    [.read 0x00#8, .read 0x02#8, .read 0x04#8, .read 0x07#8, .read 0x08#8, .read 0x09#8,
      .read 0x32#8, .read 0x0C#8, .read 0x0B#8]
  | .rtcInit => [.enable 0x40#8, .read 0x0C#8]
  | .rtcGetTime =>
    [.read 0x00#8, .read 0x02#8, .read 0x04#8, .read 0x07#8, .read 0x08#8, .read 0x09#8,
      .read 0x32#8, .read 0x0B#8]

/-- The kernel with its controllers and the two devices; `todo` are the accesses to the clock that
the code outside of the handlers has still before it. -/
structure Board where
  control : Controlled
  keyboard : OutputBuffer
  clock : Mc146818
  todo : List CmosAccess

def keyboardLine : Fin 16 := ⟨1, by decide⟩
def clockLine : Fin 16 := ⟨8, by decide⟩

def wire (n : Fin 16) (before after : Bool) (c : Controlled) : Controlled :=
  if before = after then c else lineStep c (if after then .raise n else .withdraw n)

inductive BoardEvent
  | line (n : Fin 16) (b : Bool) (other : n ≠ keyboardLine ∧ n ≠ clockLine)
  | key (scancode : Byte)
  | transfer
  | clock (flags : Byte) (time : Byte → Byte)
  | main
  | take
  | handle (d : Delivery)

def setKeyboard (k : OutputBuffer) (b : Board) : Board :=
  { b with keyboard := k, control := wire keyboardLine b.keyboard.line k.line b.control }

def setClock (c : Mc146818) (b : Board) : Board :=
  { b with clock := c, control := wire clockLine b.clock.line c.line b.control }

def access (c : Mc146818) : CmosAccess → Mc146818
  | .enable bits =>
    let (v, c) := c.read 0x0B#8
    c.write 0x0B#8 (v ||| bits)
  | .read reg => (c.read reg).2

/-- What the reads of port 0x60 take out of the buffer. -/
def readPort (k : OutputBuffer) : IoEvent → OutputBuffer
  | .inb port _ => if port = 0x60#16 then k.read else k
  | .outb _ _ => k

def boardStep (b : Board) : BoardEvent → Board
  | .line n up _ => { b with control := lineStep b.control (if up then .raise n else .withdraw n) }
  | .key scancode => setKeyboard (b.keyboard.key scancode) b
  | .transfer => setKeyboard b.keyboard.transfer b
  | .clock flags time => setClock (b.clock.signal flags time) b
  | .main =>
    match b.todo with
    | [] => b
    | a :: todo => setClock (access b.clock a) { b with todo := todo }
  | .take => { b with control := takeVector b.control }
  | .handle d =>
    let control := handleVector { d with scancode := b.keyboard.value } b.control
    let io := control.kernel.state.io.drop b.control.kernel.state.io.length
    setKeyboard (run readPort b.keyboard io) { b with control := control }

/-! ### How often a vector can be taken -/

/-- Line `n` has been raised at most `k` times: each time accounts for one vector, or for a request
that is still pending. -/
structure Counted (n : Fin 16) (k : Nat) (c : Controlled) : Prop where
  inStep : InStep c
  count_le : c.taken.count (lineVector n) + (c.pics.pending n).toNat ≤ k

variable {c : Controlled} {n m : Fin 16} {k : Nat} {up before after : Bool}

@[simp] theorem lineVector_inj : lineVector n = lineVector m ↔ n = m := lineVector_injective.eq_iff

theorem Counted.mono (h : Counted n k c) {l : Nat} (hl : k ≤ l) : Counted n l c :=
  ⟨h.inStep, Nat.le_trans h.count_le hl⟩

theorem Counted.raise (h : Counted n k c) : Counted n (k + 1) (lineStep c (.raise n)) := by
  refine ⟨h.inStep.setLine n true, ?_⟩
  have hcount := h.count_le
  change c.taken.count (lineVector n) + ((c.pics.setLine n true).pending n).toNat ≤ k + 1
  rw [Pair.pending_setLine, if_pos rfl, Bool.toNat_true]
  omega

theorem Counted.withdraw (h : Counted n k c) (m : Fin 16) :
    Counted n k (lineStep c (.withdraw m)) := by
  refine ⟨h.inStep.setLine m false, ?_⟩
  have hcount := h.count_le
  change c.taken.count (lineVector n) + ((c.pics.setLine m false).pending n).toNat ≤ k
  rw [Pair.pending_setLine]
  split
  · rw [Bool.toNat_false]
    omega
  · exact hcount

theorem Counted.raise_other (h : Counted n k c) (hm : n ≠ m) :
    Counted n k (lineStep c (.raise m)) := by
  refine ⟨h.inStep.setLine m true, ?_⟩
  change c.taken.count (lineVector n) + ((c.pics.setLine m true).pending n).toNat ≤ k
  rw [Pair.pending_setLine, if_neg hm]
  exact h.count_le

theorem Counted.takeVector (h : Counted n k c) (hn : n ≠ 2) (hspurious : n ≠ 7) :
    Counted n k (takeVector c) := by
  refine ⟨h.inStep.takeVector, ?_⟩
  have hcount := h.count_le
  cases hs : c.serving with
  | some v =>
    rw [takeVector_busy hs]
    exact hcount
  | none =>
    cases hnext : c.pics.next with
    | some m =>
      obtain ⟨pics, heq, hack⟩ := takeVector_next h.inStep hs hnext
      rw [heq]
      dsimp only
      rw [List.count_append]
      by_cases hm : n = m
      · subst hm
        -- the request becomes a vector
        have hpending : c.pics.pending n = true := List.find?_some hnext
        rw [hpending, Bool.toNat_true] at hcount
        rw [hack.taken, List.count_singleton_self, Bool.toNat_false]
        omega
      · rw [hack.rest n hn hm, List.count_singleton, if_neg (by simpa using Ne.symm hm)]
        exact hcount
    | none =>
      rw [takeVector_spurious h.inStep hs hnext]
      dsimp only
      rw [List.count_append, List.count_singleton, if_neg (by simpa using Ne.symm hspurious)]
      exact hcount

theorem Counted.handleVector (h : Counted n k c) (d : Delivery) :
    Counted n k (handleVector d c) := by
  obtain ⟨htaken, hpending⟩ := handleVector_frame h.inStep d
  refine ⟨h.inStep.handleVector d, ?_⟩
  rw [htaken, hpending]
  exact h.count_le

/-- A line that stays up or comes up accounts for one more, and so does its fall. -/
theorem Counted.wire (h : Counted n (k + before.toNat) c) (hstays : before = true → after = true) :
    Counted n (k + after.toNat) (Idt.wire n before after c) := by
  unfold Idt.wire
  cases before with
  | true =>
    rw [hstays rfl, if_pos rfl]
    exact h
  | false =>
    cases after with
    | true => exact h.raise
    | false => exact h

theorem Counted.wire_answered (h : Counted n (k + before.toNat) c) :
    Counted n (k + 1 + after.toNat) (Idt.wire n before after c) := by
  have hbound : before.toNat ≤ 1 := Bool.toNat_le before
  unfold Idt.wire
  split
  · exact h.mono (by omega)
  · cases after with
    | true => exact h.raise.mono (by rw [Bool.toNat_true]; omega)
    | false => exact (h.withdraw n).mono (by omega)

theorem Counted.wire_other (h : Counted n k c) (hm : n ≠ m) :
    Counted n k (Idt.wire m before after c) := by
  unfold Idt.wire
  split
  · exact h
  · cases after with
    | true => exact h.raise_other hm
    | false => exact h.withdraw m

/-! ### The devices -/

/-- No handler reads the port of the keyboard. -/
theorem handleVector_reads (d : Delivery) (c : Controlled) (k : OutputBuffer) :
    run readPort k ((handleVector d c).kernel.state.io.drop c.kernel.state.io.length) = k ∧
      (handleVector d c).kernel.state.kbd = c.kernel.state.kbd := by
  unfold handleVector
  split
  · simp
  · simp only [deliver_eq, List.drop_left]
    exact ⟨rfl, trivial⟩

/-- The clock takes its line back only when register C is read. -/
theorem line_access {c : Mc146818} {a : CmosAccess} (ha : a ≠ .read 0x0C#8) (h : c.line = true) :
    (access c a).line = true := by
  cases a with
  | enable bits => exact Mc146818.line_enable h bits
  | read reg => exact Mc146818.line_read h fun hreg => ha (congrArg CmosAccess.read hreg)

def statusReads (accesses : List CmosAccess) : Nat := accesses.count (.read 0x0C#8)

/-- Since the keyboard's line was up or not, as `full` says, and `reads` answers to the clock were
to come. -/
structure Balanced (full : Bool) (reads : Nat) (b : Board) : Prop where
  keyboard : Counted keyboardLine (if full then 0 else b.keyboard.line.toNat) b.control
  held : full = true → b.keyboard.line = true
  clock : ∃ k, Counted clockLine (k + b.clock.line.toNat) b.control ∧ k + statusReads b.todo ≤ reads

variable {b b₀ : Board} {full : Bool} {reads : Nat} {keyboard : OutputBuffer} {clock : Mc146818}
  {todo : List CmosAccess}

theorem Balanced.setKeyboard (h : Balanced full reads b)
    (hstays : b.keyboard.line = true → keyboard.line = true) :
    Balanced full reads (setKeyboard keyboard b) := by
  refine ⟨?_, fun hfull => hstays (h.held hfull), ?_⟩
  · have hcount := h.keyboard
    cases full with
    | true =>
      have hbefore := h.held rfl
      have hafter := hstays hbefore
      unfold Idt.setKeyboard Idt.wire
      rw [if_pos (hbefore.trans hafter.symm)]
      exact hcount
    | false =>
      have hwire := Counted.wire (k := 0) (by simpa using hcount) hstays
      rw [Nat.zero_add] at hwire
      exact hwire
  · obtain ⟨k, hcount, hreads⟩ := h.clock
    exact ⟨k, hcount.wire_other (by decide), hreads⟩

theorem Balanced.setClock (h : Balanced full reads b)
    (hstays : b.clock.line = true → clock.line = true) :
    Balanced full reads (setClock clock b) := by
  refine ⟨h.keyboard.wire_other (by decide), h.held, ?_⟩
  obtain ⟨k, hcount, hreads⟩ := h.clock
  exact ⟨k, hcount.wire hstays, hreads⟩

/-- Whatever happens to the controllers alone. -/
theorem Balanced.control (h : Balanced full reads b)
    (hstep : ∀ n, n = keyboardLine ∨ n = clockLine → ∀ k, Counted n k b.control → Counted n k c) :
    Balanced full reads { b with control := c } := by
  refine ⟨hstep keyboardLine (Or.inl rfl) _ h.keyboard, h.held, ?_⟩
  obtain ⟨k, hcount, hreads⟩ := h.clock
  exact ⟨k, hstep clockLine (Or.inr rfl) _ hcount, hreads⟩

theorem Balanced.main (h : Balanced full reads b) : Balanced full reads (boardStep b .main) := by
  unfold boardStep
  cases htodo : b.todo with
  | nil =>
    dsimp only
    exact h
  | cons a todo =>
    dsimp only
    obtain ⟨k, hcount, hreads⟩ := h.clock
    rw [htodo, statusReads, List.count_cons] at hreads
    by_cases ha : a = .read 0x0C#8
    · refine ⟨h.keyboard.wire_other (by decide), h.held, k + 1, hcount.wire_answered, ?_⟩
      rw [ha, if_pos (by decide)] at hreads
      change k + 1 + List.count _ todo ≤ reads
      omega
    · rw [if_neg (by simpa using ha)] at hreads
      exact Balanced.setClock (b := { b with todo := todo }) ⟨h.keyboard, h.held, k, hcount, hreads⟩
        (line_access ha)

theorem Balanced.step (h : Balanced full reads b) (e : BoardEvent) :
    Balanced full reads (boardStep b e) := by
  cases e with
  | line n up other =>
    refine h.control fun m hm k hcount => ?_
    have hne : m ≠ n := by
      rintro rfl
      rcases hm with hm | hm
      · exact other.1 hm
      · exact other.2 hm
    cases up with
    | true => exact hcount.raise_other hne
    | false => exact hcount.withdraw n
  | key scancode => exact h.setKeyboard fun hline => OutputBuffer.line_key hline scancode
  | transfer => exact h.setKeyboard OutputBuffer.line_transfer
  | clock flags time => exact h.setClock Mc146818.line_signal
  | main => exact h.main
  | take =>
    refine h.control fun n hn k hcount => ?_
    rcases hn with rfl | rfl
    · exact hcount.takeVector (by decide) (by decide)
    · exact hcount.takeVector (by decide) (by decide)
  | handle d =>
    unfold boardStep
    dsimp only
    rw [(handleVector_reads _ _ _).1]
    exact Balanced.setKeyboard (h.control fun _ _ _ hcount => hcount.handleVector _) id

/-! ### Whole runs -/

def typed (events : List BoardEvent) : List Byte :=
  events.filterMap fun
    | .key scancode => some scancode
    | _ => none

theorem typed_cons (e : BoardEvent) (events : List BoardEvent) :
    typed (e :: events) = typed [e] ++ typed events := by
  cases e <;> rfl

/-- No scancode leaves the controller, and none gets to the keyboard module. -/
theorem unread_step (b : Board) (e : BoardEvent) :
    b.keyboard.Takes (typed [e]) (boardStep b e).keyboard ∧
      (boardStep b e).control.kernel.state.kbd = b.control.kernel.state.kbd := by
  have hwire (n : Fin 16) (before after : Bool) (c : Controlled) :
      (wire n before after c).kernel = c.kernel := by
    unfold wire
    split
    · rfl
    · split <;> rfl
  have htake (c : Controlled) : (takeVector c).kernel = c.kernel := by
    unfold takeVector
    split <;> rfl
  cases e with
  | line n up other =>
    refine ⟨OutputBuffer.takes_nil rfl, ?_⟩
    cases up <;> rfl
  | key scancode =>
    exact ⟨b.keyboard.takes_key scancode, by rw [boardStep, setKeyboard, hwire]⟩
  | transfer =>
    exact ⟨OutputBuffer.takes_nil b.keyboard.unread_transfer,
      by rw [boardStep, setKeyboard, hwire]⟩
  | clock flags time =>
    exact ⟨OutputBuffer.takes_nil rfl, by rw [boardStep, setClock, hwire]⟩
  | main =>
    unfold boardStep
    cases b.todo with
    | nil => exact ⟨OutputBuffer.takes_nil rfl, rfl⟩
    | cons a todo =>
      refine ⟨OutputBuffer.takes_nil rfl, ?_⟩
      dsimp only [setClock]
      rw [hwire]
  | take => exact ⟨OutputBuffer.takes_nil rfl, by rw [boardStep, htake]⟩
  | handle d =>
    obtain ⟨hreads, hkbd⟩ := handleVector_reads { d with scancode := b.keyboard.value } b.control
      b.keyboard
    refine ⟨OutputBuffer.takes_nil ?_, ?_⟩
    · dsimp only [boardStep, setKeyboard]
      rw [hreads]
    · dsimp only [boardStep, setKeyboard]
      rw [hwire]
      exact hkbd

theorem unread_run (b : Board) (events : List BoardEvent) :
    b.keyboard.Takes (typed events) (run boardStep b events).keyboard ∧
      (run boardStep b events).control.kernel.state.kbd = b.control.kernel.state.kbd := by
  induction events generalizing b with
  | nil => exact ⟨OutputBuffer.takes_nil rfl, rfl⟩
  | cons e events ih =>
    obtain ⟨htakes, hkbd⟩ := unread_step b e
    obtain ⟨htakes', hkbd'⟩ := ih (boardStep b e)
    rw [typed_cons]
    exact ⟨htakes.trans htakes', hkbd'.trans hkbd⟩

def isMain : BoardEvent → Bool
  | .main => true
  | _ => false

/-- Of the accesses that the code outside of the handlers has before it, those that it makes in
these events. -/
def accessesDone (accesses : List CmosAccess) (events : List BoardEvent) : List CmosAccess :=
  accesses.take (events.countP isMain)

theorem todo_step (b : Board) (e : BoardEvent) :
    (boardStep b e).todo = b.todo.drop (if isMain e then 1 else 0) := by
  cases e with
  | main =>
    unfold boardStep
    cases htodo : b.todo with
    | nil => exact htodo
    | cons a todo => rfl
  | _ => rfl

theorem todo_run (b : Board) (events : List BoardEvent) :
    (run boardStep b events).todo = b.todo.drop (events.countP isMain) := by
  induction events generalizing b with
  | nil => rfl
  | cons e events ih =>
    rw [run_cons, ih, todo_step, List.drop_drop, List.countP_cons, Nat.add_comm]

theorem statusReads_done (b : Board) (events : List BoardEvent) :
    statusReads (accessesDone b.todo events) + statusReads (run boardStep b events).todo =
      statusReads b.todo := by
  rw [todo_run, accessesDone, statusReads, statusReads, statusReads, ← List.count_append,
    List.take_append_drop]

/-- The board when `idt_install` has written to the ports, before the calls. -/
def Board.start (base : Word) (isrStub : Fin 32 → Word) (irqStub : Fin 16 → Word) (s : IdtState)
    (p : Pair) (w : Routing) (keyboard : OutputBuffer) (clock : Mc146818) (calls : List RtcCall) :
    Board where
  control := installed base isrStub irqStub s p w
  keyboard := keyboard
  clock := clock
  todo := calls.flatMap RtcCall.accesses

/-- No line is pending when `idt_install` ends: the first initialization word forgets requests. -/
theorem counted_installed (base : Word) (isrStub : Fin 32 → Word) (irqStub : Fin 16 → Word)
    (s : IdtState) {p : Pair} (hidle : p.Serves none) (w : Routing) (n : Fin 16) :
    Counted n 0 (installed base isrStub irqStub s p w) := by
  refine ⟨inStep_installed hidle, ?_⟩
  have hpending : (installed base isrStub irqStub s p w).pics.pending n = false := by
    rw [installed_pics]
    rcases Pair.eq_ofMaster_or_ofSlave n with ⟨k, rfl⟩ | ⟨k, rfl⟩
    · rw [Pair.pending_ofMaster]
      rfl
    · rw [Pair.pending_ofSlave]
      rfl
  rw [hpending]
  exact Nat.le_refl 0

theorem balanced_start (base : Word) (isrStub : Fin 32 → Word) (irqStub : Fin 16 → Word)
    (s : IdtState) {p : Pair} (hidle : p.Serves none) (w : Routing) (keyboard : OutputBuffer)
    (clock : Mc146818) (calls : List RtcCall) :
    Balanced keyboard.line (statusReads (calls.flatMap RtcCall.accesses))
      (.start base isrStub irqStub s p w keyboard clock calls) := by
  have hcount := counted_installed base isrStub irqStub s hidle w
  refine ⟨(hcount keyboardLine).mono (Nat.zero_le _), id, 0,
    (hcount clockLine).mono (Nat.zero_le _), ?_⟩
  rw [Nat.zero_add]
  exact Nat.le_refl _

/-- How often the two devices have got through, and what has become of the keys. -/
structure Unanswered (w : Routing) (port : OutputBuffer) (calls : List RtcCall)
    (events : List BoardEvent) (b : Board) : Prop where
  keyboard : b.control.taken.count (lineVector keyboardLine) ≤ if port.line then 0 else 1
  unread : port.Takes (typed events) b.keyboard
  bounded : b.keyboard.unread.length ≤ keyboardRoom + 1
  kbd : b.control.kernel.state.kbd = w.state.kbd
  clock : b.control.taken.count (lineVector clockLine) ≤
    statusReads (accessesDone (calls.flatMap RtcCall.accesses) events) + 1

def quietClock : Mc146818 := ⟨fun _ => 0#8, 0#8⟩

/-- The clock's second flag gets through once the first has been answered. -/
example : (run boardStep (.start 0x110000#64 (fun _ => 0x100000#64) (fun _ => 0x100200#64) coldIdt
    coldPair coldRouting ⟨none, 0#8, [], Nat.zero_le _⟩ quietClock [.rtcDriverInit])
    [.key 0x1E#8, .transfer, .take, .handle quietDelivery, .main, .main,
      .clock 0x40#8 (fun _ => 0#8), .take]).control.taken = [lineVector 1, lineVector 8] := by
  decide +kernel

end FenwickOS.Idt
