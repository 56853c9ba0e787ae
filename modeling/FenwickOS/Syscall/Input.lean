import FenwickOS.Drv.SubsystemTables
import FenwickOS.Idt.Irq
import FenwickOS.Syscall.Calls

/-! Keyboard input from the interrupt to the user's read. -/
namespace FenwickOS.Syscall
open Machine Drv Vfs Idt Kbd

/-- A keyboard interrupt, with the byte on its port, or a read of standard input. -/
inductive InputEvent
  | irq (scancode : Byte)
  | read (buf len : Word) (hbuf : buf ≠ 0#64) (hlen : len ≠ 0#64)

/-- The kernel, what its interrupt path has accepted, what reads have returned, and whether some
read got less than it should while characters were unread. -/
structure InputRun where
  irq : IrqState
  kernel : Kernel World
  accepted : List Byte
  returned : List Byte
  starved : Bool

def inputStep (s : InputRun) : InputEvent → InputRun
  | .irq scancode =>
    let irq := irqHandler scancode 33#64 s.irq
    { s with
      irq := irq
      accepted := s.accepted ++
        irq.kbd.kbdBuffer.contents.drop s.irq.kbd.kbdBuffer.contents.length }
  | .read buf len _ _ =>
    let (n, bytes, kernel) := sysRead 0#64 buf len s.kernel
    let unread := s.accepted.length - s.returned.length
    let served := n = min len.toNat unread ∧ bytes.length = min len.toNat unread
    { s with
      kernel := kernel
      returned := s.returned ++ bytes
      starved := s.starved || decide (0 < unread ∧ ¬ served) }

/-- After `subsystem_init`, with the interrupt path in any state. -/
def InputRun.start (stack : StackNames) (w : World) (irq : IrqState) : InputRun where
  irq := irq
  kernel := subsystemInit stack (bootKernel w)
  accepted := irq.kbd.kbdBuffer.contents
  returned := []
  starved := false

/-- Reads have returned a prefix of what was accepted, and each as much of it as it had room
for. -/
def Delivered (s : InputRun) : Prop := s.returned <+: s.accepted ∧ s.starved = false

/-- Every read is issued while the buffer of the interrupt path is empty. -/
def ReadsFindNothing : IrqState → List InputEvent → Prop
  | _, [] => True
  | irq, .irq scancode :: events => ReadsFindNothing (irqHandler scancode 33#64 irq) events
  | irq, .read _ _ _ _ :: events => kbdHasInput irq.kbd = false ∧ ReadsFindNothing irq events

variable {stack : StackNames} {w : World} {s : InputRun} {k : Kernel World} {buf len : Word}

/-- The interrupt path and the reads share no buffer: what is accepted stays in the one, and the
other is empty as `subsystem_init` left it. -/
structure Severed (stack : StackNames) (w : World) (s : InputRun) : Prop where
  kernel : s.kernel = subsystemInit stack (bootKernel w)
  returned : s.returned = []
  accepted : s.accepted = s.irq.kbd.kbdBuffer.contents

theorem severed_start (stack : StackNames) (w : World) (irq : IrqState) :
    Severed stack w (InputRun.start stack w irq) := ⟨rfl, rfl, rfl⟩

theorem irqHandler_kbd (scancode : Byte) (irq : IrqState) :
    (irqHandler scancode 33#64 irq).kbd = kbdHandler scancode irq.kbd := by
  simp [irqHandler, picSendEoi, Idt.outb, runKbdHandler]

/-- While the driver's buffer is empty, a read returns nothing and changes nothing. -/
theorem sysRead_empty (hr : k.registry = (subsystemInit stack (bootKernel w)).registry)
    (hv : k.vfs = (subsystemInit stack (bootKernel w)).vfs)
    (hempty : k.world.kbd.kbdBuffer.contents = []) (hbuf : buf ≠ 0#64) (hlen : len ≠ 0#64) :
    sysRead 0#64 buf len k = (0, [], k) := by
  rw [sysRead, if_pos rfl, vfsRead_kbd hr hv, kbdDriverRead, if_neg (not_or.mpr ⟨hbuf, hlen⟩),
    drain_empty hempty]
  rfl

theorem sysRead_severed (h : Severed stack w s) (hbuf : buf ≠ 0#64) (hlen : len ≠ 0#64) :
    sysRead 0#64 buf len s.kernel = (0, [], s.kernel) := by
  refine sysRead_empty (congrArg _ h.kernel) (congrArg _ h.kernel) ?_ hbuf hlen
  rw [h.kernel]
  exact kbdBuffer_subsystemInit

theorem inputStep_severed (h : Severed stack w s) (event : InputEvent) :
    Severed stack w (inputStep s event) := by
  cases event with
  | irq scancode =>
    refine ⟨h.kernel, h.returned, ?_⟩
    obtain ⟨cs, hcs⟩ := contents_kbdHandler scancode s.irq.kbd
    simp only [inputStep, irqHandler_kbd, hcs, List.drop_left, h.accepted]
  | read buf len hbuf hlen =>
    simp only [inputStep, sysRead_severed h hbuf hlen]
    exact ⟨h.kernel, by simp [h.returned], h.accepted⟩

theorem starved_read (h : Severed stack w s) (hbuf : buf ≠ 0#64) (hlen : len ≠ 0#64) :
    (inputStep s (.read buf len hbuf hlen)).starved = (s.starved || kbdHasInput s.irq.kbd) := by
  have hroom : 0 < len.toNat := BitVec.toNat_pos_of_ne_zero hlen
  simp only [inputStep, sysRead_severed h hbuf hlen, h.returned, h.accepted]
  congr 1
  rw [Bool.eq_iff_iff, kbdHasInput_iff, decide_eq_true_iff, ← List.length_pos_iff]
  simp
  omega

theorem delivered_run (h : Severed stack w s) (events : List InputEvent) :
    Delivered (run inputStep s events) ↔
      s.starved = false ∧ ReadsFindNothing s.irq events := by
  induction events generalizing s with
  | nil => simp [Delivered, ReadsFindNothing, h.returned]
  | cons event events ih =>
    rw [run_cons, ih (inputStep_severed h event)]
    cases event with
    | irq scancode => rfl
    | read buf len hbuf hlen =>
      rw [starved_read h, Bool.or_eq_false_iff, and_assoc]
      rfl

/-- Input is delivered exactly in the runs whose reads all come before the first character. -/
theorem delivered_iff (stack : StackNames) (w : World) (irq : IrqState) (events : List InputEvent) :
    Delivered (run inputStep (InputRun.start stack w irq) events) ↔
      ReadsFindNothing irq events := by
  rw [delivered_run (severed_start stack w irq)]
  exact and_iff_right rfl

/-- The key `a`, then a read of one byte, after which the key is still unread. -/
theorem not_delivered_a :
    ¬ Delivered (run inputStep
      (InputRun.start .zero
        ⟨⟨fun _ => 0#8, 0, 0, defaultColor⟩, ⟨[]⟩, ⟨fun _ _ => 0#8, 0, []⟩,
          ⟨⟨fun _ => 0#8, 0, 0⟩, false, false, false, false, false, fun _ => false⟩⟩
        ⟨0#64, KbdState.boot, []⟩)
      [.irq 0x1E#8, .read 0x400000#64 1#64 (by decide) (by decide)]) := by
  rw [delivered_run (severed_start _ _ _)]
  rintro ⟨-, hempty, -⟩
  exact absurd hempty (by decide)

end FenwickOS.Syscall
