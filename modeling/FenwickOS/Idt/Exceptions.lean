import FenwickOS.Idt.Stubs

/-! The exceptions: what the processor pushes, the stubs and `isr_common` of kernel/idt/idt.asm,
and `isr_handler` of kernel/idt/idt.c. -/
namespace FenwickOS.Idt
open Machine X86

local instance neZero_args : NeZero 6 := ⟨by decide⟩

def exceptionMessages : List String :=
  ["Division By Zero", "Debug", "Non-Maskable Interrupt", "Breakpoint", "Overflow",
    "Bound Range Exceeded", "Invalid Opcode", "Device Not Available", "Double Fault",
    "Coprocessor Segment Overrun", "Invalid TSS", "Segment Not Present", "Stack-Segment Fault",
    "General Protection Fault", "Page Fault", "Reserved", "x87 Floating-Point Exception",
    "Alignment Check", "Machine Check", "SIMD Floating-Point Exception",
    "Virtualization Exception", "Control Protection Exception", "Reserved", "Reserved",
    "Reserved", "Reserved", "Reserved", "Reserved", "Hypervisor Injection Exception",
    "VMM Communication Exception", "Security Exception", "Reserved"]

structure Panic where
  message : String
  intNo : Word
  errCode : Word

/-- `none` is a read past the end of `exception_messages`. -/
def isrHandler (intNo errCode : Word) : Option Panic :=
  if intNo = 8#64 then some ⟨"Double Fault - Critical error detected", intNo, errCode⟩
  else if intNo = 13#64 then
    some ⟨"General Protection Fault - Memory protection violated", intNo, errCode⟩
  else if intNo = 14#64 then some ⟨"Page Fault - Invalid memory access", intNo, errCode⟩
  else if intNo = 18#64 then some ⟨"Machine Check - Hardware failure", intNo, errCode⟩
  else if intNo = 0#64 then some ⟨"Division By Zero", intNo, errCode⟩
  else if intNo = 6#64 then some ⟨"Invalid Opcode", intNo, errCode⟩
  else if intNo = 12#64 then some ⟨"Stack-Segment Fault", intNo, errCode⟩
  else exceptionMessages[intNo.toNat]?.map fun message => ⟨message, intNo, errCode⟩

/-! ### The processor's side -/

def hasErrorCode (n : Fin 32) : Prop :=
  n.val = 8 ∨ (10 ≤ n.val ∧ n.val ≤ 14) ∨ n.val = 17 ∨ n.val = 21 ∨ n.val = 29 ∨ n.val = 30

instance (n : Fin 32) : Decidable (hasErrorCode n) := by
  unfold hasErrorCode
  infer_instance

/-- What the processor saves of the interrupted program. -/
structure Frame where
  rip : Word
  cs : Word
  rflags : Word
  rsp : Word
  ss : Word

/-- What exception `n` with error code `e` pushes. -/
def exceptionWords (n : Fin 32) (e : Word) (f : Frame) : List Word :=
  [f.ss, f.rsp, f.rflags, f.cs, f.rip] ++ if hasErrorCode n then [e] else []

/-- The exception up to the first instruction of its stub. -/
def raiseException {σ : Type*} (n : Fin 32) (e : Word) (f : Frame) (s : Cpu σ) : Cpu σ :=
  (exceptionWords n e f).foldl Cpu.pushWord s

def exceptionFrame : Nat := 8 * 8

/-- From the exception through `isr_stub_n` to `iretq`; `panic_handler` never lets it come to what
follows the call. -/
def takeException {σ : Type*} (c : Calls Handler σ) (n : Fin 32) (e : Word) (f : Frame)
    (s : Cpu σ) : Option (Return × Cpu σ) :=
  exec c program 2 (.isrStub n) (raiseException n e f s)

/-- The calls of `isr_handler`, with `int_no` and `err_code`. -/
def exceptionCalls (left : Clobber) : Calls Handler (List (Word × Word)) where
  effect handler args calls :=
    match handler with
    | .isrHandler => calls ++ [(args 0, args 1)]
    | .irqHandler => calls
  left := left
  frame := exceptionFrame

/-- The handler is called once, with the vector and the error code or 0, and stays inside its
table. -/
def Reported (left : Clobber) (n : Fin 32) (e : Word) (f : Frame)
    (s : Cpu (List (Word × Word))) : Prop :=
  ∃ calls, (takeException (exceptionCalls left) n e f s).map (fun r => r.2.world) =
      some (s.world ++ calls) ∧
    calls = [(BitVec.ofNat 64 n.val, if hasErrorCode n then e else 0#64)] ∧
    ∀ call ∈ calls, isrHandler call.1 call.2 ≠ none

variable {σ : Type*} {n : Fin 32} {e : Word} {f : Frame}

/-! ### The stub and `isr_common` -/

def isrPushes (n : Fin 32) : List (Instr Handler) := (program (.isrStub n)).body

def isrCommon : List (Instr Handler) :=
  [.cld, .load .rdi .rsp 8#64, .load .rsi .rsp 16#64, .call .isrHandler, .addImm .rsp 16#64]

theorem takeException_eq (c : Calls Handler σ) (n : Fin 32) (e : Word) (f : Frame) (s : Cpu σ) :
    takeException c n e f s =
      some (.iretq, run (step c) (raiseException n e f s) (isrPushes n ++ isrCommon)) := by
  rw [run_append]
  unfold takeException isrPushes
  by_cases hn : n ∈ errVectors
  · simp [exec, program, hn, isrErr, isrCommon]
  · simp [exec, program, hn, isrNoErr, isrCommon]

/-- What `isr_common` passes: it reads one word too high, past the vector that the stub pushed
last. -/
def isrArgs (n : Fin 32) (e : Word) (f : Frame) : Word × Word :=
  if errVectors.contains n then (e, f.rip)
  else if hasErrorCode n then (0#64, e) else (0#64, f.rip)

theorem isrPushes_err (hn : n ∈ errVectors) : isrPushes n = [.pushImm (BitVec.ofNat 64 n.val)] := by
  unfold isrPushes program
  dsimp only
  rw [if_pos hn]
  rfl

theorem isrPushes_noErr (hn : n ∉ errVectors) :
    isrPushes n = [.pushImm 0#64, .pushImm (BitVec.ofNat 64 n.val)] := by
  unfold isrPushes program
  dsimp only
  rw [if_neg hn]
  rfl

theorem isrArgs_err (hn : n ∈ errVectors) (e : Word) (f : Frame) : isrArgs n e f = (e, f.rip) :=
  if_pos (List.contains_iff_mem.mpr hn)

theorem isrArgs_noErr (hn : n ∉ errVectors) (e : Word) (f : Frame) :
    isrArgs n e f = if hasErrorCode n then (0#64, e) else (0#64, f.rip) :=
  if_neg (mt List.contains_iff_mem.mp hn)

theorem isr_view (left : Clobber) (n : Fin 32) (e : Word) (f : Frame) (regs : Reg → Word)
    (calls : List (Word × Word)) :
    ∃ v, View.run (exceptionCalls left) ⟨regs, (exceptionWords n e f).reverse, calls⟩
        (isrPushes n ++ isrCommon) = some v ∧ v.world = calls ++ [isrArgs n e f] := by
  have herr : ∀ n ∈ errVectors, hasErrorCode n := by decide
  rw [exceptionWords]
  by_cases hn : n ∈ errVectors
  · rw [isrPushes_err hn, isrArgs_err hn, if_pos (herr n hn)]
    exact ⟨_, rfl, rfl⟩
  · rw [isrPushes_noErr hn, isrArgs_noErr hn]
    by_cases hcode : hasErrorCode n
    · rw [if_pos hcode, if_pos hcode]
      exact ⟨_, rfl, rfl⟩
    · rw [if_neg hcode, if_neg hcode]
      exact ⟨_, rfl, rfl⟩

theorem takeException_world (left : Clobber) (n : Fin 32) (e : Word) (f : Frame)
    (s : Cpu (List (Word × Word))) :
    (takeException (exceptionCalls left) n e f s).map (fun r => r.2.world) =
      some (s.world ++ [isrArgs n e f]) := by
  obtain ⟨v, hv, hworld⟩ := isr_view left n e f s.regs s.world
  have hlen : (isrPushes n ++ isrCommon).length ≤ 7 := by
    rw [List.length_append]
    by_cases hn : n ∈ errVectors
    · simp [isrPushes_err hn, isrCommon]
    · simp [isrPushes_noErr hn, isrCommon]
  have hwords : (exceptionWords n e f).length ≤ 6 := by
    rw [exceptionWords, List.length_append]
    split <;> simp
  have hpushed : ([] : List Word).length + (exceptionWords n e f).length < 2 ^ 59 := by
    rw [List.length_nil]
    omega
  have hstart := (models_top s 0).pushWords hpushed
  have hroom : ((exceptionWords n e f).reverse ++ []).length +
      (isrPushes n ++ isrCommon).length < 2 ^ 59 := by
    rw [List.append_nil, List.length_reverse]
    omega
  have hend := hstart.run hroom (by simpa using hv)
  rw [takeException_eq, Option.map_some]
  exact congrArg some (hend.world.trans hworld)

theorem isrHandler_eq_none (intNo errCode : Word) :
    isrHandler intNo errCode = none ↔ 32 ≤ intNo.toNat := by
  have hout : exceptionMessages[intNo.toNat]? = none ↔ 32 ≤ intNo.toNat :=
    List.getElem?_eq_none_iff
  unfold isrHandler
  -- the seven vectors with a text of their own
  iterate 7
    split
    · rename_i h
      simp [h]
  rw [Option.map_eq_none_iff]
  exact hout

theorem ofNat_inj {a b : Nat} (ha : a < 2 ^ 64) (hb : b < 2 ^ 64)
    (h : BitVec.ofNat 64 a = BitVec.ofNat 64 b) : a = b := by
  have hnat := congrArg BitVec.toNat h
  rwa [BitVec.toNat_ofNat, BitVec.toNat_ofNat, Nat.mod_eq_of_lt ha, Nat.mod_eq_of_lt hb] at hnat

/-- An exception is reported as what it is only where the words above the vector hold the right
values by chance. -/
theorem reported_iff (left : Clobber) (n : Fin 32) (e : Word) (f : Frame)
    (s : Cpu (List (Word × Word))) :
    Reported left n e f s ↔ (n = 0 ∧ f.rip = 0#64) ∨
      (n ∈ errVectors ∧ e = BitVec.ofNat 64 n.val ∧ f.rip = e) := by
  have hinside (code : Word) : isrHandler (BitVec.ofNat 64 n.val) code ≠ none := by
    rw [Ne, isrHandler_eq_none, BitVec.toNat_ofNat]
    omega
  have hzero : 0#64 = BitVec.ofNat 64 n.val ↔ n = 0 := by
    constructor
    · intro h
      exact Fin.ext (ofNat_inj (by omega) (by omega) h).symm
    · rintro rfl
      rfl
  have hplain : ∀ n : Fin 32, n ∉ errVectors → hasErrorCode n → n ≠ 0 := by decide
  have herr : ∀ n ∈ errVectors, hasErrorCode n ∧ n ≠ 0 := by decide
  have hargs : Reported left n e f s ↔
      isrArgs n e f = (BitVec.ofNat 64 n.val, if hasErrorCode n then e else 0#64) := by
    unfold Reported
    rw [takeException_world]
    constructor
    · rintro ⟨calls, hcalls, rfl, -⟩
      rw [Option.some.injEq, List.append_cancel_left_eq, List.cons.injEq] at hcalls
      exact hcalls.1
    · intro h
      refine ⟨_, by rw [h], rfl, ?_⟩
      intro call hcall
      rw [List.mem_singleton] at hcall
      rw [hcall]
      exact hinside _
  rw [hargs]
  by_cases hn : n ∈ errVectors
  · obtain ⟨hcode, hne⟩ := herr n hn
    rw [isrArgs_err hn, if_pos hcode, Prod.mk.injEq]
    simp [hn, hne]
  · rw [isrArgs_noErr hn]
    by_cases hcode : hasErrorCode n
    · rw [if_pos hcode, if_pos hcode, Prod.mk.injEq, hzero]
      simp [hn, hplain n hn hcode]
    · rw [if_neg hcode, if_neg hcode, Prod.mk.injEq, hzero]
      simp [hn]

/-- A general protection fault on selector 0x2B: the handler looks for message 43. -/
theorem not_reported_selector :
    ¬ Reported ⟨fun _ => 0#64, fun _ => 0#64⟩ 13 0x2B#64
      ⟨0x400000#64, 0x08#64, 0x202#64, 0x500000#64, 0x10#64⟩
      ⟨fun _ => 0x7FFFF0#64, fun _ => 0#64, []⟩ := by
  rintro ⟨calls, hcalls, rfl, -⟩
  rw [takeException_world, Option.some.injEq, List.append_cancel_left_eq] at hcalls
  exact absurd hcalls (by decide)

end FenwickOS.Idt
