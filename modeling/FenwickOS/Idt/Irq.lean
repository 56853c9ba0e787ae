import FenwickOS.Kbd.Kbd

/-! Hardware interrupts as kernel/idt/idt.c handles them. -/
namespace FenwickOS.Idt
open Machine Kbd

/-- The tick counter, the keyboard module and the port accesses so far. -/
structure IrqState where
  timerTicks : Word
  kbd : KbdState
  io : List IoEvent

def outb (port : BitVec 16) (val : Byte) (s : IrqState) : IrqState :=
  { s with io := s.io ++ [.outb port val] }

def picSendEoi (irq : Byte) (s : IrqState) : IrqState :=
  outb 0x20#16 0x20#8 (if irq ≥ 8#8 then outb 0xA0#16 0x20#8 s else s)

def runKbdHandler (scancode : Byte) (s : IrqState) : IrqState :=
  { s with kbd := kbdHandler scancode s.kbd, io := s.io ++ [.inb 0x60#16 scancode] }

/-- `scancode` is what port 0x60 holds at this moment. -/
def irqHandler (scancode : Byte) (intNo : Word) (s : IrqState) : IrqState :=
  if intNo = 32#64 then picSendEoi 0#8 { s with timerTicks := s.timerTicks + 1#64 }
  else if intNo = 33#64 then picSendEoi 1#8 (runKbdHandler scancode s)
  else picSendEoi ((intNo - 32#64).setWidth 8) s

def slaveEois (s : IrqState) : Nat := s.io.count (.outb 0xA0#16 0x20#8)

/-- How often the keyboard handler ran: nothing else reads its port. -/
def kbdRuns (s : IrqState) : Nat :=
  s.io.countP fun e => match e with
    | .inb port _ => port == 0x60#16
    | .outb _ _ => false

variable {s : IrqState} {irq scancode : Byte}

/-- Vector 0 is taken for an interrupt of the slave controller. -/
theorem irqHandler_zero (scancode : Byte) (s : IrqState) :
    irqHandler scancode 0#64 s =
      { s with io := s.io ++ [.outb 0xA0#16 0x20#8, .outb 0x20#16 0x20#8] } := by
  simp [irqHandler, picSendEoi, outb]

end FenwickOS.Idt
