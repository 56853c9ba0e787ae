import FenwickOS.Lib.Runs
import FenwickOS.Lib.Words

/-! The transmitting half of a 16550 serial port, and a writer that polls it before each byte. -/
namespace Machine.Uart

/-- `queue` are the bytes written and not yet on their way, `shifting` the one on its way, `line`
those that have left. -/
structure Port where
  divisorLatch : Bool
  divisor : BitVec 16
  format : BitVec 7
  fifo : Bool
  loopback : Bool
  queue : List Byte
  shifting : Option Byte
  line : List Byte

namespace Port

def capacity (u : Port) : Nat := if u.fifo then 16 else 1

/-- A byte that finds the transmitter full is lost, or takes the place of the one waiting. -/
def transmit (c : Byte) (u : Port) : Port :=
  if u.queue.length < u.capacity then { u with queue := u.queue ++ [c] }
  else if u.fifo then u
  else { u with queue := [c] }

/-- A write to the register at `offset`; the first two are the divisor while its latch is open. -/
def write (offset : Nat) (v : Byte) (u : Port) : Port :=
  match offset with
  | 0 =>
    if u.divisorLatch then { u with divisor := u.divisor.extractLsb' 8 8 ++ v } else u.transmit v
  | 1 =>
    if u.divisorLatch then { u with divisor := v ++ u.divisor.extractLsb' 0 8 } else u
  | 2 =>
    { u with
      fifo := v.getLsbD 0
      queue := if v.getLsbD 2 || v.getLsbD 0 != u.fifo then [] else u.queue }
  | 3 => { u with divisorLatch := v.getLsbD 7, format := v.extractLsb' 0 7 }
  | 4 => { u with loopback := v.getLsbD 4 }
  | _ => u

/-- Bit 5 of the line status: the transmitter takes a byte without losing one. -/
def ready (u : Port) : Bool := u.queue.isEmpty

def load (u : Port) : Port :=
  match u.shifting, u.queue with
  | none, c :: queue => { u with shifting := some c, queue := queue }
  | _, _ => u

def send (u : Port) : Port :=
  match u.shifting with
  | some c => { u with shifting := none, line := if u.loopback then u.line else u.line ++ [c] }
  | none => u

/-- Everything that the transmitter has taken over and not lost, in the order it will leave. -/
def accepted (u : Port) : List Byte := u.line ++ u.shifting.toList ++ u.queue

end Port

/-- A writer with the bytes `todo` before it, which reads the status until it is `cleared` to write
the first of them. -/
structure Polled where
  port : Port
  todo : List Byte
  cleared : Bool

/-- A call hands over bytes; the writer takes its next step; the port works on its own. -/
inductive Event
  | call (bytes : List Byte)
  | poll
  | load
  | send

namespace Polled

/-- One round of the loop that waits, or the write that follows it. -/
def poll (s : Polled) : Polled :=
  match s.todo with
  | [] => s
  | c :: todo =>
    if s.cleared then ⟨s.port.write 0 c, todo, false⟩ else { s with cleared := s.port.ready }

/-- A new call waits until the one before has returned. -/
def step (s : Polled) : Event → Polled
  | .call bytes => if s.todo.isEmpty then { s with todo := bytes } else s
  | .poll => s.poll
  | .load => { s with port := s.port.load }
  | .send => { s with port := s.port.send }

def handed (s : Polled) : Event → List Byte
  | .call bytes => if s.todo.isEmpty then bytes else []
  | _ => []

/-- The registers are set up for sending, and a writer that is cleared finds room. -/
structure Working (divisor : BitVec 16) (format : BitVec 7) (s : Polled) : Prop where
  divisorLatch : s.port.divisorLatch = false
  divisor : s.port.divisor = divisor
  format : s.port.format = format
  loopback : s.port.loopback = false
  room : s.port.queue.length ≤ 1
  cleared : s.cleared = true → s.port.queue = []

end Polled

variable {u : Port} {s : Polled} {divisor : BitVec 16} {format : BitVec 7} {c : Byte}
  {todo : List Byte}

theorem Port.accepted_load : u.load.accepted = u.accepted := by
  unfold Port.load
  split
  · rename_i hshifting hqueue
    simp [Port.accepted, hshifting, hqueue]
  · rfl

theorem Port.accepted_send (h : u.loopback = false) : u.send.accepted = u.accepted := by
  unfold Port.send
  split
  · rename_i hshifting
    simp [Port.accepted, hshifting, h]
  · rfl

theorem Port.queue_load : u.load.queue = u.queue ∨ u.load.queue = u.queue.tail := by
  unfold Port.load
  split
  · rename_i hqueue
    simp [hqueue]
  · exact Or.inl rfl

theorem Port.queue_send : u.send.queue = u.queue := by
  unfold Port.send
  split <;> rfl

namespace Polled

theorem poll_idle (h : s.todo = []) : s.poll = s := by
  simp only [poll, h]

theorem poll_waiting (h : s.todo = c :: todo) (hc : s.cleared = false) :
    s.poll = { s with cleared := s.port.ready } := by
  simp only [poll, h, hc, Bool.false_eq_true, if_false]

theorem poll_writing (hw : s.Working divisor format) (h : s.todo = c :: todo)
    (hc : s.cleared = true) : s.poll = ⟨{ s.port with queue := [c] }, todo, false⟩ := by
  have hroom : s.port.queue.length < s.port.capacity := by
    rw [hw.cleared hc, Port.capacity]
    split <;> simp
  have hwrite : s.port.write 0 c = s.port.transmit c := if_neg (by simp [hw.divisorLatch])
  have htransmit : s.port.transmit c = { s.port with queue := [c] } := by
    rw [Port.transmit, if_pos hroom, hw.cleared hc, List.nil_append]
  simp only [poll, h, hc, if_true, hwrite, htransmit]

theorem Working.poll (hw : s.Working divisor format) : s.poll.Working divisor format := by
  cases h : s.todo with
  | nil =>
    rw [poll_idle h]
    exact hw
  | cons c todo =>
    cases hc : s.cleared with
    | false =>
      rw [poll_waiting h hc]
      refine ⟨hw.divisorLatch, hw.divisor, hw.format, hw.loopback, hw.room, fun hready => ?_⟩
      exact List.isEmpty_iff.mp hready
    | true =>
      rw [poll_writing hw h hc]
      exact ⟨hw.divisorLatch, hw.divisor, hw.format, hw.loopback, by simp, by simp⟩

theorem Working.load (hw : s.Working divisor format) :
    Working divisor format { s with port := s.port.load } := by
  have hsame : s.port.load.divisorLatch = s.port.divisorLatch ∧
      s.port.load.divisor = s.port.divisor ∧ s.port.load.format = s.port.format ∧
      s.port.load.loopback = s.port.loopback := by
    unfold Port.load
    split <;> exact ⟨rfl, rfl, rfl, rfl⟩
  obtain ⟨hlatch, hdivisor, hformat, hloopback⟩ := hsame
  refine ⟨hlatch.trans hw.divisorLatch, hdivisor.trans hw.divisor, hformat.trans hw.format,
    hloopback.trans hw.loopback, ?_, fun hc => ?_⟩
  · have := hw.room
    rcases s.port.queue_load with hqueue | hqueue <;> simp only [hqueue, List.length_tail] <;> omega
  · have := hw.cleared hc
    rcases s.port.queue_load with hqueue | hqueue <;> simp [hqueue, this]

theorem Working.send (hw : s.Working divisor format) :
    Working divisor format { s with port := s.port.send } := by
  have hsame : s.port.send.divisorLatch = s.port.divisorLatch ∧
      s.port.send.divisor = s.port.divisor ∧ s.port.send.format = s.port.format ∧
      s.port.send.loopback = s.port.loopback := by
    unfold Port.send
    split <;> exact ⟨rfl, rfl, rfl, rfl⟩
  obtain ⟨hlatch, hdivisor, hformat, hloopback⟩ := hsame
  refine ⟨hlatch.trans hw.divisorLatch, hdivisor.trans hw.divisor, hformat.trans hw.format,
    hloopback.trans hw.loopback, ?_, fun hc => ?_⟩
  · rw [Port.queue_send]
    exact hw.room
  · rw [Port.queue_send]
    exact hw.cleared hc

theorem Working.step (hw : s.Working divisor format) (e : Event) :
    (s.step e).Working divisor format := by
  cases e with
  | call bytes =>
    simp only [Polled.step]
    split
    · exact ⟨hw.divisorLatch, hw.divisor, hw.format, hw.loopback, hw.room, hw.cleared⟩
    · exact hw
  | poll => exact hw.poll
  | load => exact hw.load
  | send => exact hw.send

/-- Bytes that a call has handed over and that have not left are where they should be: before the
writer or in the port. -/
def owed (s : Polled) : List Byte := s.port.accepted ++ s.todo

theorem owed_poll (hw : s.Working divisor format) : s.poll.owed = s.owed := by
  cases h : s.todo with
  | nil => rw [poll_idle h]
  | cons c todo =>
    cases hc : s.cleared with
    | false => rw [poll_waiting h hc, owed, owed]
    | true =>
      rw [poll_writing hw h hc, owed, owed, h]
      simp [Port.accepted, hw.cleared hc]

/-- One step moves bytes along and loses, repeats and exchanges none. -/
theorem owed_step (hw : s.Working divisor format) (e : Event) :
    (s.step e).owed = s.owed ++ s.handed e := by
  cases e with
  | call bytes =>
    simp only [step, handed]
    split
    · rename_i hempty
      have : s.todo = [] := List.isEmpty_iff.mp hempty
      simp [owed, this]
    · simp
  | poll => simp only [step, handed, List.append_nil, owed_poll hw]
  | load => simp only [step, handed, List.append_nil, owed, Port.accepted_load]
  | send => simp only [step, handed, List.append_nil, owed, Port.accepted_send hw.loopback]

theorem owed_run (hw : s.Working divisor format) (events : List Event) :
    (run step s events).owed = s.owed ++ outputs step handed s events :=
  run_outputs (fun _ e h => Working.step h e) (fun _ e h => owed_step h e) hw events

/-! ### The port keeps up with the writer -/

/-- The port sends a byte and takes the next one, and the writer looks twice. -/
def turn : List Event := [.send, .load, .poll, .poll]

theorem queue_load_send (hw : s.Working divisor format) : s.port.send.load.queue = [] := by
  have hshifting : s.port.send.shifting = none := by
    unfold Port.send
    split
    · rfl
    · assumption
  have hroom := hw.room
  rw [← s.port.queue_send] at hroom
  unfold Port.load
  cases hqueue : s.port.send.queue with
  | nil => simp [hshifting, hqueue]
  | cons c rest =>
    rw [hqueue] at hroom
    have : rest = [] := List.length_eq_zero_iff.mp (by simpa using hroom)
    simp [hshifting, this]

/-- In one turn the writer gets rid of one byte. -/
theorem todo_turn (hw : s.Working divisor format) (h : s.todo = c :: todo) :
    (run step s turn).todo = todo ∧ (run step s turn).cleared = false := by
  have hqueue := queue_load_send hw
  have hw' : Working divisor format { s with port := s.port.send.load } := hw.send.load
  cases hc : s.cleared with
  | true =>
    have hfirst := poll_writing hw' h hc
    have hidle : (poll ⟨{ s.port.send.load with queue := [c] }, todo, false⟩).todo = todo ∧
        (poll ⟨{ s.port.send.load with queue := [c] }, todo, false⟩).cleared = false := by
      cases todo <;> exact ⟨rfl, rfl⟩
    simpa only [turn, run_cons, run_nil, step, hfirst] using hidle
  | false =>
    have hready : s.port.send.load.ready = true := List.isEmpty_iff.mpr hqueue
    have hfirst : poll { s with port := s.port.send.load } =
        ⟨s.port.send.load, s.todo, s.port.send.load.ready⟩ := poll_waiting h hc
    have hw'' : Working divisor format ⟨s.port.send.load, s.todo, s.port.send.load.ready⟩ :=
      hfirst ▸ hw'.poll
    have hsecond := poll_writing hw'' h hready
    simp only [turn, run_cons, run_nil, step, hfirst, hsecond, and_self]

/-- As many turns as there are bytes before the writer, and time for the last of them to leave. -/
def turns (n : Nat) : List Event := (List.replicate n turn).flatten ++ [.send, .load, .send]

theorem working_run (hw : s.Working divisor format) (events : List Event) :
    (run step s events).Working divisor format :=
  run_invariant (P := Working divisor format) (fun _ e h => h.step e) hw events

theorem line_flush (hw : s.Working divisor format) (h : s.todo = []) :
    (run step s [.send, .load, .send]).port.line = s.owed := by
  have hshifting : ∀ u : Port, u.send.shifting = none := by
    intro u
    unfold Port.send
    split
    · rfl
    · assumption
  have howed : (run step s [.send, .load, .send]).owed = s.owed := by
    rw [owed_run hw]
    exact List.append_nil _
  have hqueue : s.port.send.load.send.queue = [] :=
    Port.queue_send.trans (queue_load_send hw)
  rw [← howed]
  simp only [owed, Port.accepted, run_cons, run_nil, step, hshifting, hqueue, h,
    Option.toList_none, List.append_nil]

/-- If the port goes on working, everything handed over leaves and every call returns. -/
theorem line_turns (hw : s.Working divisor format) :
    (run step s (turns s.todo.length)).todo = [] ∧
      (run step s (turns s.todo.length)).port.line = s.owed := by
  generalize htodo : s.todo = todo
  induction todo generalizing s with
  | nil => exact ⟨htodo, line_flush hw htodo⟩
  | cons c todo ih =>
    obtain ⟨hrest, -⟩ := todo_turn hw htodo
    obtain ⟨hdone, hline⟩ := ih (working_run hw turn) hrest
    have hturns : turns (c :: todo).length = turn ++ turns todo.length := by
      simp [turns, List.replicate_succ]
    rw [hturns, run_append]
    refine ⟨hdone, hline.trans ?_⟩
    rw [owed_run hw]
    exact List.append_nil _

end Polled
end Machine.Uart
