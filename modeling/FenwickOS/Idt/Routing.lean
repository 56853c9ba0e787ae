import FenwickOS.Idt.Irq
import FenwickOS.Idt.Stubs

/-! Which vector the C handler is told, and what that does over a sequence of interrupts. -/
namespace FenwickOS.Idt
open Machine X86

/-- One hardware interrupt: the machine it arrives in, what the C code will leave behind, and the
byte waiting on the keyboard port. -/
structure Delivery where
  irq : Fin 16
  regs : Reg → Word
  mem : Word → Word
  left : Clobber
  scancode : Byte

structure Routing where
  handled : List Word
  state : IrqState

def irqCalls (d : Delivery) : Calls Handler Routing where
  effect f args w :=
    match f with
    | .irqHandler => ⟨w.handled ++ [args 0], irqHandler d.scancode (args 0) w.state⟩
    | .isrHandler => w
  left := d.left
  frame := handlerFrame

def deliver (w : Routing) (d : Delivery) : Routing :=
  ((takeIrq (irqCalls d) d.irq ⟨d.regs, d.mem, w⟩).map fun r => r.2.world).getD w

/-- Each interrupt of `ds` reached its own handler: the vectors are right, and so are the ticks,
the runs of the keyboard handler and the end-of-interrupt commands to the slave controller. -/
def Routed (w : Routing) (ds : List Delivery) : Prop :=
  let t := run deliver w ds
  t.handled = w.handled ++ ds.map (fun d => irqVector d.irq) ∧
  t.state.timerTicks = w.state.timerTicks + BitVec.ofNat 64 (ds.countP fun d => d.irq = 0) ∧
  kbdRuns t.state = kbdRuns w.state + ds.countP (fun d => d.irq = 1) ∧
  slaveEois t.state = slaveEois w.state + ds.countP (fun d => 8 ≤ d.irq)

variable {w : Routing} {ds : List Delivery}

theorem deliver_eq (w : Routing) (d : Delivery) :
    deliver w d = ⟨w.handled ++ [0#64],
      { w.state with io := w.state.io ++ [.outb 0xA0#16 0x20#8, .outb 0x20#16 0x20#8] }⟩ := by
  obtain ⟨t, ht, -, -, -, args, hargs, hworld⟩ :=
    takeIrq_spec (c := irqCalls d) rfl d.irq ⟨d.regs, d.mem, w⟩
  rw [deliver, ht, Option.map_some, Option.getD_some, hworld]
  simp only [irqCalls, hargs, irqHandler_zero]

theorem run_deliver (w : Routing) (ds : List Delivery) :
    let t := run deliver w ds
    t.handled = w.handled ++ List.replicate ds.length 0#64 ∧
    t.state.timerTicks = w.state.timerTicks ∧ t.state.kbd = w.state.kbd ∧
    kbdRuns t.state = kbdRuns w.state ∧
    slaveEois t.state = slaveEois w.state + ds.length := by
  induction ds generalizing w with
  | nil => simp
  | cons d ds ih =>
    obtain ⟨hhandled, hticks, hkbd, hruns, heois⟩ := ih (deliver w d)
    simp only [run_cons]
    rw [hhandled, hticks, hkbd, hruns, heois, deliver_eq]
    refine ⟨by simp [List.replicate_succ], rfl, rfl, by simp [kbdRuns], ?_⟩
    simp [slaveEois]
    omega

/-- Interrupts are routed only when there are none. -/
theorem routed_iff (w : Routing) (ds : List Delivery) : Routed w ds ↔ ds = [] := by
  constructor
  · rintro ⟨hhandled, -⟩
    rw [(run_deliver w ds).1, List.append_cancel_left_eq] at hhandled
    cases ds with
    | nil => rfl
    | cons d ds =>
      have hvector : ∀ n : Fin 16, irqVector n ≠ 0#64 := by decide
      simp only [List.length_cons, List.replicate_succ, List.map_cons, List.cons.injEq] at hhandled
      exact absurd hhandled.1.symm (hvector d.irq)
  · rintro rfl
    simp [Routed]

theorem not_routed_timer :
    ¬ Routed ⟨[], ⟨0#64, Kbd.KbdState.boot, []⟩⟩
      [⟨0, fun _ => 0#64, fun _ => 0#64, ⟨fun _ => 0#64, fun _ => 0#64⟩, 0#8⟩] := by
  rintro ⟨-, hticks, -⟩
  rw [(run_deliver _ _).2.1] at hticks
  exact absurd hticks (by decide)

end FenwickOS.Idt
