import FenwickOS.Lib.Uart
import FenwickOS.Syscall.Counts

/-! The serial driver at work on its port: what `serial_driver_init` sets up, and how the bytes that
`serial_driver_write` is handed get through the wait of `serial_putc`. -/
namespace FenwickOS.Drv
open Machine Uart Vfs Syscall

/-- The port accesses of the driver reach the registers from COM1 up. -/
def portWrite (u : Port) : IoEvent → Port
  | .outb port v =>
    if (port - com1).toNat < 8 then u.write (port - com1).toNat v else u
  | .inb _ _ => u

/-- The driver's loop over its buffer with the port, and its record of what it has written. -/
structure SerialLine where
  polled : Polled
  serial : Serial

/-- Calls of `serial_driver_write`, the steps of `serial_putc`, and those of the port. -/
inductive SerialEvent
  | call (buf : Option (Nat → Byte)) (len : Word)
  | poll
  | load
  | send

def SerialEvent.event : SerialEvent → Event
  | .call buf len => .call (handed buf len)
  | .poll => .poll
  | .load => .load
  | .send => .send

/-- A byte is recorded when `serial_putc` comes to its `outb`. -/
def serialStep (s : SerialLine) (e : SerialEvent) : SerialLine where
  polled := s.polled.step e.event
  serial :=
    match e, s.polled.todo with
    | .poll, c :: _ => if s.polled.cleared then serialPutc c s.serial else s.serial
    | _, _ => s.serial

def serialStart (u : Port) (s : Serial) : SerialLine :=
  let s' := (serialDriverInit s).2
  ⟨⟨run portWrite u (s'.io.drop s.io.length), [], false⟩, s'⟩

/-- The calls of a run that are taken up: the others wait for an earlier one. -/
def taken (s : SerialLine) (e : SerialEvent) : List (Option (Nat → Byte) × Word) :=
  match e with
  | .call buf len => if s.polled.todo.isEmpty then [(buf, len)] else []
  | _ => []

/-- The same calls without the wait: each returns before anything else happens. -/
def writeCalls (s : Serial) (calls : List (Option (Nat → Byte) × Word)) : Serial :=
  run (fun s call => (serialDriverWrite call.1 call.2 s).2) s calls

/-- The rate of a line with this divisor, in bits a second. -/
def baud (divisor : BitVec 16) : Nat := 115200 / divisor.toNat

variable {u : Port} {s : SerialLine} {e : SerialEvent} {w : Serial}

theorem divisor_three (d : BitVec 16) :
    (0#8 ++ BitVec.extractLsb' 0 8 (BitVec.extractLsb' 8 8 d ++ 3#8) : BitVec 16) = 3#16 :=
  congrArg (fun low : Byte => (0#8 ++ low : BitVec 16)) BitVec.extractLsb'_append_eq_right

/-- The writes of `serial_driver_init`: the divisor behind its latch, eight bits without parity,
and the transmitter emptied. -/
theorem serialStart_port : (serialStart u w).polled.port =
    { divisorLatch := false, divisor := 3#16, format := 3#7, fifo := true, loopback := false,
      queue := [], shifting := u.shifting, line := u.line } := by
  simp only [serialStart, serialDriverInit, List.drop_left]
  cases hlatch : u.divisorLatch <;> cases hfifo : u.fifo <;>
    simp [run, portWrite, com1, Port.write, hlatch, hfifo] <;> exact divisor_three _

theorem working_serialStart : (serialStart u w).polled.Working 3#16 3#7 := by
  constructor <;> simp [serialStart_port, show (serialStart u w).polled.cleared = false from rfl]

theorem owed_serialStart :
    (serialStart u w).polled.owed = u.line ++ u.shifting.toList := by
  have htodo : (serialStart u w).polled.todo = [] := rfl
  simp [Polled.owed, Port.accepted, serialStart_port, htodo]

theorem polled_run (s : SerialLine) (events : List SerialEvent) :
    (run serialStep s events).polled = run Polled.step s.polled (events.map SerialEvent.event) := by
  induction events generalizing s with
  | nil => rfl
  | cons e events ih => exact ih (serialStep s e)

theorem handed_event : s.polled.handed e.event =
    (taken s e).flatMap fun call => handed call.1 call.2 := by
  cases e with
  | call buf len =>
    simp only [SerialEvent.event, Polled.handed, taken]
    split
    · simp
    · rfl
  | poll => rfl
  | load => rfl
  | send => rfl

theorem outputs_handed (s : SerialLine) (events : List SerialEvent) :
    outputs Polled.step Polled.handed s.polled (events.map SerialEvent.event) =
      (outputs serialStep taken s events).flatMap fun call => handed call.1 call.2 := by
  induction events generalizing s with
  | nil => rfl
  | cons e events ih =>
    have htail := ih (serialStep s e)
    simp only [List.map_cons, outputs, List.flatMap_append, ← handed_event]
    exact congrArg _ htail

/-- The record once the bytes before the writer have been written. -/
def recorded (s : SerialLine) : Serial :=
  run (fun serial c => serialPutc c serial) s.serial s.polled.todo

theorem recorded_step (s : SerialLine) (e : SerialEvent) :
    recorded (serialStep s e) = writeCalls (recorded s) (taken s e) := by
  cases e with
  | call buf len =>
    cases htodo : s.polled.todo with
    | nil =>
      simp [recorded, serialStep, SerialEvent.event, Polled.step, taken, htodo, writeCalls,
        serialDriverWrite_handed]
    | cons c todo =>
      simp [recorded, serialStep, SerialEvent.event, Polled.step, taken, htodo, writeCalls]
  | poll =>
    cases htodo : s.polled.todo with
    | nil =>
      simp [recorded, serialStep, SerialEvent.event, Polled.step, Polled.poll, taken, htodo,
        writeCalls]
    | cons c todo =>
      cases hcleared : s.polled.cleared <;>
        simp [recorded, serialStep, SerialEvent.event, Polled.step, Polled.poll, taken, htodo,
          hcleared, writeCalls]
  | load => rfl
  | send => rfl

theorem recorded_run (s : SerialLine) (events : List SerialEvent) :
    recorded (run serialStep s events) =
      writeCalls (recorded s) (outputs serialStep taken s events) := by
  induction events generalizing s with
  | nil => rfl
  | cons e events ih =>
    rw [run_cons, ih, recorded_step]
    exact (run_append _ _ _).symm

/-- From `serial_driver_init` on, whenever the port does its work: the line is set up at 38400 bits
a second, the bytes of all calls follow what was on its way before, none lost, repeated or out of
order; a call that has returned leaves what the driver without its wait would; and if the port
goes on working, every call returns and all bytes leave. -/
theorem serial_transmits (u : Port) (w : Serial) (events : List SerialEvent) :
    let t := run serialStep (serialStart u w) events
    let calls := outputs serialStep taken (serialStart u w) events
    let bytes := calls.flatMap fun call => handed call.1 call.2
    let later := run Polled.step t.polled (Polled.turns t.polled.todo.length)
    (t.polled.port.divisorLatch = false ∧ baud t.polled.port.divisor = 38400) ∧
    t.polled.port.accepted ++ t.polled.todo = u.line ++ u.shifting.toList ++ bytes ∧
    (t.polled.todo = [] → t.serial = writeCalls (serialDriverInit w).2 calls) ∧
    later.todo = [] ∧ later.port.line = u.line ++ u.shifting.toList ++ bytes := by
  intro t calls bytes later
  have hworking : t.polled.Working 3#16 3#7 := by
    rw [polled_run]
    exact Polled.working_run working_serialStart _
  have howed : t.polled.owed = u.line ++ u.shifting.toList ++ bytes := by
    rw [polled_run, Polled.owed_run working_serialStart, owed_serialStart, outputs_handed]
  obtain ⟨hdone, hline⟩ := Polled.line_turns hworking
  refine ⟨⟨hworking.divisorLatch, ?_⟩, howed, fun htodo => ?_, hdone, hline.trans howed⟩
  · rw [hworking.divisor]
    rfl
  · have hrecorded := recorded_run (serialStart u w) events
    rwa [recorded, htodo] at hrecorded

end FenwickOS.Drv
