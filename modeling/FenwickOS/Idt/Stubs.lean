import FenwickOS.Lib.X86

/-! The interrupt entry points of kernel/idt/idt.asm. -/
namespace FenwickOS.Idt
open Machine X86

inductive Label
  | isrStub (n : Fin 32)
  | irqStub (n : Fin 16)
  | isrCommon
  | irqCommon

inductive Handler
  | isrHandler | irqHandler

/-- The macros `ISR_NO_ERR`, `ISR_ERR` and `IRQ`. -/
def isrNoErr (n : Word) : Block Label Handler := ⟨[.pushImm 0#64, .pushImm n], .jmp .isrCommon⟩
def isrErr (n : Word) : Block Label Handler := ⟨[.pushImm n], .jmp .isrCommon⟩
def irqMacro (vector : Word) : Block Label Handler :=
  ⟨[.pushImm 0#64, .pushImm vector], .jmp .irqCommon⟩

def errVectors : List (Fin 32) := [8, 10, 11, 12, 13, 14, 17]

def irqVector (n : Fin 16) : Word := BitVec.ofNat 64 (32 + n.val)

def program : Label → Block Label Handler
  | .isrStub n =>
    if n ∈ errVectors then isrErr (BitVec.ofNat 64 n.val) else isrNoErr (BitVec.ofNat 64 n.val)
  | .irqStub n => irqMacro (irqVector n)
  | .isrCommon =>
    ⟨[.cld, .load .rdi .rsp 8#64, .load .rsi .rsp 16#64, .call .isrHandler, .addImm .rsp 16#64],
      .ret .iretq⟩
  | .irqCommon =>
    ⟨[.cld, .load .rdi .rsp 8#64, .call .irqHandler, .addImm .rsp 16#64], .ret .iretq⟩

/-- The words of the caller's stack that a handler keeps: two pushed by the stub, five by the
processor. -/
def handlerFrame : Nat := 8 * 7

def takeIrq {σ : Type*} (c : Calls Handler σ) (n : Fin 16) (s : Cpu σ) : Option (Return × Cpu σ) :=
  exec c program 2 (.irqStub n) s

variable {σ : Type*} {c : Calls Handler σ} {n : Fin 16} {s t : Cpu σ} {r : Reg}

def irqCode (n : Fin 16) : List (Instr Handler) :=
  [.pushImm 0#64, .pushImm (irqVector n), .cld, .load .rdi .rsp 8#64, .call .irqHandler,
    .addImm .rsp 16#64]

theorem takeIrq_eq (c : Calls Handler σ) (n : Fin 16) (s : Cpu σ) :
    takeIrq c n s = some (.iretq, run (step c) s (irqCode n)) := rfl

/-- The registers and the state when the handler runs, and what is left at `iretq`. -/
def irqView (c : Calls Handler σ) (v : View σ) : View σ :=
  (v.set .rdi 0#64).ccall c .irqHandler

theorem irqView_run (hframe : c.frame = handlerFrame) (n : Fin 16) (v : View σ)
    (hv : v.stack.length = 5) : v.run c (irqCode n) = some (irqView c v) := by
  obtain ⟨regs, stack, world⟩ := v
  obtain ⟨a, b, d, e, f, rfl⟩ : ∃ a b d e f, stack = [a, b, d, e, f] := by
    match stack, hv with
    | [a, b, d, e, f], _ => exact ⟨a, b, d, e, f, rfl⟩
  simp [View.run, irqCode, View.step, hframe, handlerFrame, irqView, View.set, View.ccall]

/-- An interrupt always reaches `iretq`, with the stack as it was, the handler's leftovers in the
registers it may use freely, and a handler that was told vector 0. -/
theorem takeIrq_spec (hframe : c.frame = handlerFrame) (n : Fin 16) (s : Cpu σ) :
    ∃ t, takeIrq c n s = some (.iretq, t) ∧
      (∀ r, r ≠ .rsp → t.regs r = if calleeSaved r then s.regs r else c.left.regs r) ∧
      t.regs .rsp = s.regs .rsp ∧
      (∀ k < 5, t.mem (s.regs .rsp + BitVec.ofNat 64 (8 * k)) =
        s.mem (s.regs .rsp + BitVec.ofNat 64 (8 * k))) ∧
      ∃ args, args 0 = 0#64 ∧ t.world = c.effect .irqHandler args s.world := by
  have hstart := models_top s 5
  have hlen : (irqCode n).length = 6 := rfl
  have hend := hstart.run (by simp [hlen]) (irqView_run hframe n _ (by simp))
  have hrsp : (run (step c) s (irqCode n)).regs .rsp = s.regs .rsp :=
    hend.rsp.trans hstart.rsp.symm
  refine ⟨_, takeIrq_eq c n s, fun r hr => ?_, hrsp, fun k hk => ?_, _, ?_, hend.world⟩
  · rw [hend.regs r hr]
    simp only [irqView, View.ccall, View.set_regs]
    split
    · rename_i hsaved
      rw [if_neg]
      rintro rfl
      simp [calleeSaved] at hsaved
    · rfl
  · have hword := hend.mem (k := k) (w := s.mem (s.regs .rsp + BitVec.ofNat 64 (8 * k))) ?_
    · rwa [hrsp] at hword
    · simp [irqView, View.ccall, View.set, hk]
  · simp [View.set_regs, argReg]

/-- At `iretq` the general registers hold what they held at the interrupt, and `rsp` points at
the return address that the processor pushed. -/
def Transparent (s : Cpu σ) (result : Option (Return × Cpu σ)) : Prop :=
  ∃ t, result = some (.iretq, t) ∧ (∀ r, r ≠ .rsp → t.regs r = s.regs r) ∧
    t.regs .rsp = s.regs .rsp ∧ t.mem (t.regs .rsp) = s.mem (s.regs .rsp)

/-- The stubs save no register: the interrupted program sees what the handler leaves. -/
theorem transparent_iff (effect : Handler → (Fin 6 → Word) → σ → σ) (left : Clobber) (n : Fin 16)
    (s : Cpu σ) :
    Transparent s (takeIrq ⟨effect, left, handlerFrame⟩ n s) ↔
      ∀ r, calleeSaved r = false → left.regs r = s.regs r := by
  obtain ⟨t, ht, hregs, hrsp, hmem, -⟩ := takeIrq_spec (c := ⟨effect, left, handlerFrame⟩) rfl n s
  constructor
  · rintro ⟨t', ht', hsame, -, -⟩ r hr
    obtain rfl := (Prod.mk.inj (Option.some.inj (ht.symm.trans ht'))).2
    have hne : r ≠ .rsp := by
      rintro rfl
      simp [calleeSaved] at hr
    have := (hregs r hne).symm.trans (hsame r hne)
    rwa [hr] at this
  · intro h
    refine ⟨t, ht, fun r hr => ?_, hrsp, ?_⟩
    · rw [hregs r hr]
      split
      · rfl
      · rename_i hsaved
        exact h r (by simpa using hsaved)
    · rw [hrsp]
      simpa using hmem 0 (by decide)

/-- The timer interrupt lands while `rax` is 1, and the handler leaves 0x20 in it. -/
theorem not_transparent_rax :
    let s : Cpu Unit := ⟨fun _ => 1#64, fun _ => 0#64, ()⟩
    let left : Clobber := ⟨fun _ => 0x20#64, fun _ => 0#64⟩
    ¬ Transparent s (takeIrq ⟨fun _ _ w => w, left, handlerFrame⟩ 0 s) := by
  intro s left
  obtain ⟨t, ht, hregs, -⟩ := takeIrq_spec (c := ⟨fun _ _ w => w, left, handlerFrame⟩) rfl 0 s
  rintro ⟨t', ht', hsame, -, -⟩
  obtain rfl := (Prod.mk.inj (Option.some.inj (ht.symm.trans ht'))).2
  have hrax := (hregs .rax (by decide)).symm.trans (hsame .rax (by decide))
  exact absurd hrax (by decide)

end FenwickOS.Idt
