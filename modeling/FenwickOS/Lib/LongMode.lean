import FenwickOS.Lib.I386
import FenwickOS.Lib.Segments

/-! An x86 processor on its way from protected mode with paging off to 64-bit mode: flags, `cpuid`,
control registers, the stack and the far jump. Code runs in blocks, as in `Machine.I386`. -/
namespace Machine.LongMode
open I386 Segments

inductive Alu
  | or | xor | test | cmp
  deriving DecidableEq

def Alu.result : Alu → BitVec 32 → BitVec 32 → BitVec 32
  | .or, a, b => a ||| b
  | .xor, a, b => a ^^^ b
  | .test, a, b => a &&& b
  | .cmp, a, b => a - b

/-- `cmp` and `test` keep only the flags. -/
def Alu.stores : Alu → Bool
  | .or | .xor => true
  | .test | .cmp => false

structure CpuidResult where
  eax : BitVec 32
  ebx : BitVec 32
  ecx : BitVec 32
  edx : BitVec 32

/-! ### Bits of EFLAGS, CR0, CR4 and EFER -/

/-- CF, PF, AF, ZF, SF and OF. -/
def statusFlags : BitVec 32 := 0x8D5#32
def carryFlag : Nat := 0
def zeroFlag : Nat := 6
def interruptFlag : BitVec 32 := 1#32 <<< 9
def idFlag : BitVec 32 := 1#32 <<< 21

/-- `pushfd` pushes VM and RF as zero. -/
def pushedFlags : BitVec 32 := 0x00FCFFFF#32

def cr0Pe : BitVec 32 := 1#32 <<< 0
def cr0Pg : BitVec 32 := 1#32 <<< 31
def cr4Pae : BitVec 32 := 1#32 <<< 5
def cr4Pge : BitVec 32 := 1#32 <<< 7

def eferLme : Word := 1#64 <<< 8
def eferLma : Word := 1#64 <<< 10
def eferNxe : Word := 1#64 <<< 11

/-- The number of EFER for `rdmsr` and `wrmsr`. -/
def eferNumber : BitVec 32 := 0xC0000080#32

def includes {n : Nat} (v bits : BitVec n) : Bool := v &&& bits == bits

/-- What differs between processors: the flags that `popfd` writes, the status flags that an
operation leaves, the answers of `cpuid` and the bits that CR4 and EFER take. A processor with
long mode has PAE and global pages. -/
structure Chip where
  writable : BitVec 32
  status : Alu → BitVec 32 → BitVec 32 → BitVec 32
  left : BitVec 32
  cpuid : BitVec 32 → CpuidResult
  cr4Bits : BitVec 32
  eferBits : Word
  writable_status : writable &&& statusFlags = statusFlags
  status_zero : ∀ op a b, (status op a b).getLsbD zeroFlag = (op.result a b == 0#32)
  status_carry : ∀ a b, (status .cmp a b).getLsbD carryFlag = decide (a < b)
  longMode : (0x80000001#32 ≤ (cpuid 0x80000000#32).eax ∧
      (cpuid 0x80000001#32).edx.getLsbD 29 = true) →
    includes cr4Bits (cr4Pae ||| cr4Pge) = true ∧ includes eferBits eferLme = true
  noExecute : includes eferBits eferNxe = (cpuid 0x80000001#32).edx.getLsbD 20

def Chip.hasCpuid (c : Chip) : Bool := c.writable.getLsbD 21

def Chip.hasLongMode (c : Chip) : Bool :=
  decide (0x80000001#32 ≤ (c.cpuid 0x80000000#32).eax) &&
    (c.cpuid 0x80000001#32).edx.getLsbD 29

def Chip.hasNoExecute (c : Chip) : Bool := (c.cpuid 0x80000001#32).edx.getLsbD 20

/-- The zero flag of `cpu` belongs to the routines of `Machine.I386`; here it is in `eflags`. -/
structure Processor where
  cpu : Cpu
  eflags : BitVec 32
  cr0 : BitVec 32
  cr4 : BitVec 32
  efer : Word
  gdtLimit : BitVec 16
  gdtBase : BitVec 32

abbrev PageWalk := (Word → Byte) → BitVec 32 → Word → Option Word

inductive Instr
  | cli
  | movImm (dst : Reg) (v : BitVec 32)
  | mov (dst src : Reg)
  | alu (op : Alu) (dst : Reg) (v : BitVec 32)
  | cmpReg (a b : Reg)
  | push (r : Reg)
  | pop (r : Reg)
  | pushfd
  | popfd
  | cpuid
  | rdmsr
  | wrmsr
  | fromCr0 (dst : Reg)
  | toCr0 (src : Reg)
  | fromCr4 (dst : Reg)
  | toCr4 (src : Reg)
  | lgdt (base : Reg)

namespace Processor

variable (p : Processor)

def reg (r : Reg) : BitVec 32 := p.cpu.regs r

def set (r : Reg) (v : BitVec 32) : Processor := { p with cpu := p.cpu.set r v }

def setStatus (flags : BitVec 32) : Processor :=
  { p with eflags := p.eflags &&& ~~~statusFlags ||| flags &&& statusFlags }

def paging : Bool := includes p.cr0 cr0Pg

/-- Pushes and loads are those of a processor whose paging is off. -/
def push (v : BitVec 32) : Processor :=
  let top := p.reg .esp - 4#32
  { p.set .esp top with
    cpu := { p.cpu.set .esp top with mem := store32 p.cpu.mem (top.setWidth 64) v } }

def top : BitVec 32 := load32 p.cpu.mem ((p.reg .esp).setWidth 64)

def popped : Processor := p.set .esp (p.reg .esp + 4#32)

def readLinear (walk : PageWalk) (a : Word) : Option Byte :=
  if p.paging then (walk p.cpu.mem p.cpu.cr3 a).map p.cpu.mem else some (p.cpu.mem a)

/-- Eight bytes at linear addresses. -/
def loadDescriptor (walk : PageWalk) (a : Word) : Option Word :=
  if ∀ k : Fin 8, (p.readLinear walk (a + BitVec.ofNat 64 k.val)).isSome then
    some (load64 (fun x => (p.readLinear walk x).getD 0#8) a)
  else none

/-- The descriptor table that `lgdt` has named; what cannot be read is null. -/
def table (walk : PageWalk) : Table where
  limit := p.gdtLimit
  entry i := (p.loadDescriptor walk (p.gdtBase.setWidth 64 + BitVec.ofNat 64 (8 * i))).getD 0#64

end Processor

def protection : Fault := protectionFault 0#16

/-- EFER is the only register of its kind here. Paging with LME but without PAE is refused, and
turns long mode on where PAE is there. -/
def step (c : Chip) (p : Processor) : Instr → Except Fault Processor
  | .cli => .ok { p with eflags := p.eflags &&& ~~~interruptFlag }
  | .movImm dst v => .ok (p.set dst v)
  | .mov dst src => .ok (p.set dst (p.reg src))
  | .alu op dst v =>
    let q := if op.stores then p.set dst (op.result (p.reg dst) v) else p
    .ok (q.setStatus (c.status op (p.reg dst) v))
  | .cmpReg a b => .ok (p.setStatus (c.status .cmp (p.reg a) (p.reg b)))
  | .push r => .ok (p.push (p.reg r))
  | .pop r => .ok (p.popped.set r p.top)
  | .pushfd => .ok (p.push (p.eflags &&& pushedFlags))
  | .popfd =>
    .ok { p.popped with eflags := p.top &&& c.writable ||| p.eflags &&& ~~~c.writable }
  | .cpuid =>
    if c.hasCpuid then
      let result := c.cpuid (p.reg .eax)
      .ok ((((p.set .eax result.eax).set .ebx result.ebx).set .ecx result.ecx).set .edx result.edx)
    else .error ⟨.invalidOpcode, 0#16⟩
  | .rdmsr =>
    if p.reg .ecx = eferNumber then
      .ok ((p.set .eax (p.efer.setWidth 32)).set .edx (p.efer.extractLsb' 32 32))
    else .error protection
  | .wrmsr =>
    let v := p.reg .edx ++ p.reg .eax
    if p.reg .ecx ≠ eferNumber then .error protection
    else if v &&& ~~~(c.eferBits ||| eferLma) ≠ 0#64 then .error protection
    else if p.paging && includes v eferLme != includes p.efer eferLme then .error protection
    else .ok { p with efer := v &&& ~~~eferLma ||| p.efer &&& eferLma }
  | .fromCr0 dst => .ok (p.set dst p.cr0)
  | .toCr0 src =>
    let v := p.reg src
    if includes v cr0Pg && !includes v cr0Pe then .error protection
    else if includes v cr0Pg && includes p.efer eferLme && !includes p.cr4 cr4Pae then
      .error protection
    else
      let lma := if includes v cr0Pg && includes p.efer eferLme then eferLma else 0#64
      .ok { p with cr0 := v, efer := p.efer &&& ~~~eferLma ||| lma }
  | .fromCr4 dst => .ok (p.set dst p.cr4)
  | .toCr4 src =>
    let v := p.reg src
    if v &&& ~~~c.cr4Bits ≠ 0#32 then .error protection
    else if includes p.efer eferLma && !includes v cr4Pae then .error protection
    else .ok { p with cr4 := v }
  | .lgdt base =>
    let a := (p.reg base).setWidth 64
    .ok { p with
      gdtLimit := (load32 p.cpu.mem a).setWidth 16
      gdtBase := load32 p.cpu.mem (a + 2#64) }

def runBody (c : Chip) (p : Processor) (body : List Instr) : Except Fault Processor :=
  body.foldlM (step c) p

inductive Cond
  | zero | carry

def Cond.holds (eflags : BitVec 32) : Cond → Bool
  | .zero => eflags.getLsbD zeroFlag
  | .carry => eflags.getLsbD carryFlag

/-- `flat` is a whole routine of `Machine.I386`, up to its `ret`. -/
inductive Exit (L : Type*)
  | call (f back : L)
  | ret
  | jcc (cond : Cond) (target next : L)
  | halt
  | flat (routine : Nat → Cpu → Option Cpu)
  | farJmp (s : Selector) (target : BitVec 32)

structure Block (L : Type*) where
  body : List Instr
  exit : Exit L

/-- Blocks at addresses. -/
structure Program (L : Type*) where
  block : L → Block L
  addr : L → BitVec 32
  labelAt : BitVec 32 → Option L
  labelAt_addr : ∀ l, labelAt (addr l) = some l

/-- `entered` is the far jump, with whether it leads to 64-bit mode. -/
inductive Outcome (L : Type*)
  | running
  | halted (l : L)
  | fault (f : Fault)
  | stray
  | entered (target : BitVec 32) (long : Bool) (p : Processor)

def jumpFar {L : Type*} (walk : PageWalk) (s : Selector) (target : BitVec 32) (p : Processor) :
    Outcome L :=
  match checkJump (p.table walk) 0#2 s with
  | some f => .fault f
  | none =>
    if (p.readLinear walk (target.setWidth 64)).isNone then .fault ⟨.page, 0#16⟩
    else
      .entered target (includes p.efer eferLma && is64Bit ((p.table walk).entry s.index)) p

/-- Run the block at a label and what it goes on to, through at most `fuel` blocks. -/
def exec {L : Type*} (c : Chip) (walk : PageWalk) (prog : Program L) :
    Nat → L → Processor → Outcome L
  | 0, _, _ => .running
  | fuel + 1, l, p =>
    let back (q : Processor) : Outcome L :=
      match prog.labelAt q.top with
      | some m => exec c walk prog fuel m q.popped
      | none => .stray
    match runBody c p (prog.block l).body with
    | .error f => .fault f
    | .ok q =>
      match (prog.block l).exit with
      | .call f next => exec c walk prog fuel f (q.push (prog.addr next))
      | .ret => back q
      | .jcc cond target next =>
        exec c walk prog fuel (if cond.holds q.eflags then target else next) q
      | .halt => .halted l
      | .flat routine =>
        match routine fuel q.cpu with
        | some cpu => back ({ q with cpu := cpu }.setStatus c.left)
        | none => .running
      | .farJmp s target => jumpFar walk s target q

variable {L : Type*} {c : Chip} {walk : PageWalk} {prog : Program L} {p q : Processor} {l m : L}
  {r r' : Reg} {v : BitVec 32}

namespace Processor

@[simp] theorem set_reg : (p.set r v).reg r' = if r' = r then v else p.reg r' :=
  Function.update_apply ..

@[simp] theorem set_mem : (p.set r v).cpu.mem = p.cpu.mem := rfl
@[simp] theorem set_eflags : (p.set r v).eflags = p.eflags := rfl
@[simp] theorem setStatus_reg : (p.setStatus v).reg r = p.reg r := rfl
@[simp] theorem setStatus_cpu : (p.setStatus v).cpu = p.cpu := rfl

@[simp] theorem push_reg :
    (p.push v).reg r = if r = .esp then p.reg .esp - 4#32 else p.reg r :=
  Function.update_apply ..

@[simp] theorem push_mem :
    (p.push v).cpu.mem = store32 p.cpu.mem ((p.reg .esp - 4#32).setWidth 64) v := rfl

@[simp] theorem push_eflags : (p.push v).eflags = p.eflags := rfl

@[simp] theorem push_top : (p.push v).top = v := by
  rw [top, push_reg, if_pos rfl, push_mem]
  exact load32_store32 _ _ _

@[simp] theorem popped_reg :
    p.popped.reg r = if r = .esp then p.reg .esp + 4#32 else p.reg r :=
  Function.update_apply ..

@[simp] theorem popped_mem : p.popped.cpu.mem = p.cpu.mem := rfl
@[simp] theorem popped_eflags : p.popped.eflags = p.eflags := rfl

def scratch (p : Processor) (v : BitVec 32) : Processor :=
  { p with cpu :=
      { p.cpu with mem := store32 p.cpu.mem ((p.reg .esp - 4#32).setWidth 64) v } }

theorem push_popped (p : Processor) (v : BitVec 32) : (p.push v).popped = p.scratch v := by
  have hregs : (p.push v).popped.cpu.regs = p.cpu.regs := by
    funext r
    have hpop := popped_reg (p := p.push v) (r := r)
    rw [push_reg, push_reg, if_pos rfl, BitVec.sub_add_cancel] at hpop
    by_cases hr : r = .esp
    · rw [if_pos hr] at hpop
      rw [hr] at hpop ⊢
      exact hpop
    · rw [if_neg hr, if_neg hr] at hpop
      exact hpop
  dsimp only [scratch]
  rw [← hregs]
  rfl

@[simp] theorem scratch_reg : (p.scratch v).reg r = p.reg r := rfl
@[simp] theorem scratch_eflags : (p.scratch v).eflags = p.eflags := rfl

end Processor

/-! ### Bits -/

theorem includes_bit {n : Nat} (v : BitVec n) {k : Nat} (hk : k < n) :
    includes v (1#n <<< k) = v.getLsbD k := by
  have hpow : (1#n <<< k : BitVec n) = BitVec.twoPow n k := (BitVec.twoPow_eq n k).symm
  have hne : BitVec.twoPow n k ≠ 0#n := by
    intro he
    have hbit := congrArg (fun w => w.getLsbD k) he
    simp [hk] at hbit
  rw [includes, hpow, BitVec.and_twoPow]
  cases v.getLsbD k with
  | true => simp
  | false =>
    rw [if_neg Bool.false_ne_true]
    exact beq_eq_false_iff_ne.mpr (Ne.symm hne)

/-- What a mask includes lies under it. -/
theorem and_not_of_includes {n : Nat} {m bits : BitVec n} (h : includes m bits = true) :
    bits &&& ~~~m = 0#n := by
  have hsub : m &&& bits = bits := beq_iff_eq.mp h
  apply BitVec.eq_of_getLsbD_eq
  intro k hk
  have hbit := congrArg (fun w => w.getLsbD k) hsub
  simp only [BitVec.getLsbD_and] at hbit
  simp only [BitVec.getLsbD_and, BitVec.getLsbD_not, hk, decide_true, Bool.true_and,
    BitVec.getLsbD_zero]
  cases hm : m.getLsbD k with
  | true => simp
  | false =>
    rw [hm, Bool.false_and] at hbit
    rw [← hbit, Bool.false_and]

theorem or_and_not {n : Nat} {a b m : BitVec n} (ha : a &&& ~~~m = 0#n) (hb : b &&& ~~~m = 0#n) :
    (a ||| b) &&& ~~~m = 0#n := by
  rw [BitVec.and_or_distrib_right, ha, hb, BitVec.or_zero]

theorem setStatus_zero (op : Alu) (a b : BitVec 32) :
    (p.setStatus (c.status op a b)).eflags.getLsbD zeroFlag = (op.result a b == 0#32) := by
  have hbit : statusFlags.getLsbD zeroFlag = true := rfl
  rw [← c.status_zero op a b]
  simp [Processor.setStatus, hbit]

theorem setStatus_carry (a b : BitVec 32) :
    (p.setStatus (c.status .cmp a b)).eflags.getLsbD carryFlag = decide (a < b) := by
  have hbit : statusFlags.getLsbD carryFlag = true := rfl
  rw [← c.status_carry a b]
  simp [Processor.setStatus, hbit]

theorem setStatus_interrupts (hoff : p.eflags.getLsbD 9 = false) (flags : BitVec 32) :
    (p.setStatus flags).eflags.getLsbD 9 = false := by
  have hbit : statusFlags.getLsbD 9 = false := by decide
  simp only [Processor.setStatus, BitVec.getLsbD_or, BitVec.getLsbD_and, hoff, hbit]
  simp

/-! ### Bodies -/

variable {body : List Instr} {i : Instr}

theorem runBody_cons (h : step c p i = .ok q) : runBody c p (i :: body) = runBody c q body := by
  rw [runBody, List.foldlM_cons, h]
  rfl

theorem runBody_fault {f : Fault} (h : step c p i = .error f) :
    runBody c p (i :: body) = .error f := by
  rw [runBody, List.foldlM_cons, h]
  rfl

/-- `pushfd` and `pop` read the flags. -/
theorem runBody_readFlags (c : Chip) (p : Processor) (r : Reg) (body : List Instr) :
    runBody c p (.pushfd :: .pop r :: body) =
      runBody c ((p.scratch (p.eflags &&& pushedFlags)).set r (p.eflags &&& pushedFlags)) body := by
  have hpop : step c (p.push (p.eflags &&& pushedFlags)) (.pop r) =
      .ok ((p.scratch (p.eflags &&& pushedFlags)).set r (p.eflags &&& pushedFlags)) := by
    rw [step, Processor.push_popped, Processor.push_top]
  rw [runBody_cons rfl, runBody_cons hpop]

/-- `push` and `popfd` write those that the processor lets it write. -/
theorem runBody_writeFlags (c : Chip) (p : Processor) (r : Reg) (body : List Instr) :
    runBody c p (.push r :: .popfd :: body) =
      runBody c { p.scratch (p.reg r) with
        eflags := p.reg r &&& c.writable ||| p.eflags &&& ~~~c.writable } body := by
  have hpop : step c (p.push (p.reg r)) .popfd =
      .ok { p.scratch (p.reg r) with
        eflags := p.reg r &&& c.writable ||| p.eflags &&& ~~~c.writable } := by
    rw [step, Processor.push_popped, Processor.push_top, Processor.push_eflags]
  rw [runBody_cons rfl, runBody_cons hpop]

/-- Nothing but the dword below the stack, registers other than `esp` and flags have changed. -/
structure Quiet (p q : Processor) : Prop where
  esp : q.reg .esp = p.reg .esp
  mem : ∀ x : Word, x.toNat + 4 < (p.reg .esp).toNat ∨ (p.reg .esp).toNat ≤ x.toNat →
    q.cpu.mem x = p.cpu.mem x
  cr0 : q.cr0 = p.cr0
  cr4 : q.cr4 = p.cr4
  efer : q.efer = p.efer

theorem Quiet.refl (p : Processor) : Quiet p p := ⟨rfl, fun _ _ => rfl, rfl, rfl, rfl⟩

theorem Quiet.trans {p₁ p₂ p₃ : Processor} (h : Quiet p₁ p₂) (h' : Quiet p₂ p₃) : Quiet p₁ p₃ where
  esp := h'.esp.trans h.esp
  mem x hx := (h'.mem x (by rwa [h.esp])).trans (h.mem x hx)
  cr0 := h'.cr0.trans h.cr0
  cr4 := h'.cr4.trans h.cr4
  efer := h'.efer.trans h.efer

theorem quiet_set (hr : r ≠ .esp) (p : Processor) (v : BitVec 32) : Quiet p (p.set r v) where
  esp := by rw [Processor.set_reg, if_neg (Ne.symm hr)]
  mem _ _ := rfl
  cr0 := rfl
  cr4 := rfl
  efer := rfl

theorem quiet_eflags (p : Processor) (flags : BitVec 32) : Quiet p { p with eflags := flags } :=
  ⟨rfl, fun _ _ => rfl, rfl, rfl, rfl⟩

theorem quiet_scratch (hroom : 4 ≤ (p.reg .esp).toNat) (v : BitVec 32) :
    Quiet p (p.scratch v) where
  esp := rfl
  mem x hx := by
    have hlt := (p.reg .esp).isLt
    have haddr : ((p.reg .esp - 4#32).setWidth 64).toNat = (p.reg .esp).toNat - 4 := by
      rw [BitVec.toNat_setWidth, BitVec.toNat_sub, BitVec.toNat_ofNat]
      omega
    exact store32_of_apart _ _ (by omega) (by omega)
  cr0 := rfl
  cr4 := rfl
  efer := rfl

/-- A routine that has been called and has returned wrote at most eight bytes of the stack. -/
structure Kept (p q : Processor) : Prop where
  esp : q.reg .esp = p.reg .esp
  mem : ∀ x : Word, x.toNat + 8 < (p.reg .esp).toNat ∨ (p.reg .esp).toNat ≤ x.toNat →
    q.cpu.mem x = p.cpu.mem x
  cr0 : q.cr0 = p.cr0
  cr4 : q.cr4 = p.cr4
  efer : q.efer = p.efer

theorem sub_four_toNat {a : BitVec 32} (h : 4 ≤ a.toNat) :
    ((a - 4#32).setWidth 64).toNat = a.toNat - 4 := by
  have hlt := a.isLt
  rw [BitVec.toNat_setWidth, BitVec.toNat_sub, BitVec.toNat_ofNat]
  omega

theorem Quiet.top_eq (hroom : 4 ≤ (p.reg .esp).toNat) (h : Quiet (p.push v) q) : q.top = v := by
  have hlt := (p.reg .esp).isLt
  have hesp : q.reg .esp = p.reg .esp - 4#32 := by
    rw [h.esp, Processor.push_reg, if_pos rfl]
  have hstart := sub_four_toNat hroom
  rw [Processor.top, hesp, ← load32_store32 p.cpu.mem ((p.reg .esp - 4#32).setWidth 64) v]
  refine load32_congr fun k hk => h.mem _ (Or.inr ?_)
  rw [Processor.push_reg, if_pos rfl, BitVec.toNat_add, hstart, BitVec.toNat_ofNat,
    BitVec.toNat_sub, BitVec.toNat_ofNat]
  omega

theorem Quiet.kept (hroom : 8 ≤ (p.reg .esp).toNat) (h : Quiet (p.push v) q) :
    Kept p q.popped where
  esp := by
    rw [Processor.popped_reg, if_pos rfl, h.esp, Processor.push_reg, if_pos rfl,
      BitVec.sub_add_cancel]
  mem x hx := by
    have hlt := (p.reg .esp).isLt
    have hstart := sub_four_toNat (a := p.reg .esp) (by omega)
    have hpushed : ((p.push v).reg .esp).toNat = (p.reg .esp).toNat - 4 := by
      rw [Processor.push_reg, if_pos rfl, BitVec.toNat_sub, BitVec.toNat_ofNat]
      omega
    rw [Processor.popped_mem, h.mem x (by omega), Processor.push_mem]
    exact store32_of_apart _ _ (by omega) (by omega)
  cr0 := h.cr0
  cr4 := h.cr4
  efer := h.efer

theorem Kept.trans {p₁ p₂ p₃ : Processor} (h : Kept p₁ p₂) (h' : Kept p₂ p₃) : Kept p₁ p₃ where
  esp := h'.esp.trans h.esp
  mem x hx := (h'.mem x (by rwa [h.esp])).trans (h.mem x hx)
  cr0 := h'.cr0.trans h.cr0
  cr4 := h'.cr4.trans h.cr4
  efer := h'.efer.trans h.efer

theorem runBody_cpuid (hcpuid : c.hasCpuid = true) (p : Processor) (leaf : BitVec 32)
    (body : List Instr) :
    ∃ q, runBody c p (.movImm .eax leaf :: .cpuid :: body) = runBody c q body ∧ Quiet p q ∧
      q.eflags = p.eflags ∧ q.reg .eax = (c.cpuid leaf).eax ∧ q.reg .edx = (c.cpuid leaf).edx := by
  have heax : (p.set .eax leaf).reg .eax = leaf := by simp
  have hstep : step c (p.set .eax leaf) .cpuid =
      .ok (((((p.set .eax leaf).set .eax (c.cpuid leaf).eax).set .ebx (c.cpuid leaf).ebx).set .ecx
        (c.cpuid leaf).ecx).set .edx (c.cpuid leaf).edx) := by
    rw [step, if_pos hcpuid, heax]
  have h₁ := quiet_set (r := .eax) (by decide) p leaf
  have h₂ := h₁.trans (quiet_set (r := .eax) (by decide) _ (c.cpuid leaf).eax)
  have h₃ := h₂.trans (quiet_set (r := .ebx) (by decide) _ (c.cpuid leaf).ebx)
  have h₄ := h₃.trans (quiet_set (r := .ecx) (by decide) _ (c.cpuid leaf).ecx)
  have h₅ := h₄.trans (quiet_set (r := .edx) (by decide) _ (c.cpuid leaf).edx)
  have hrun : runBody c p (.movImm .eax leaf :: .cpuid :: body) =
      runBody c (((((p.set .eax leaf).set .eax (c.cpuid leaf).eax).set .ebx (c.cpuid leaf).ebx).set
        .ecx (c.cpuid leaf).ecx).set .edx (c.cpuid leaf).edx) body := by
    rw [runBody_cons rfl, runBody_cons hstep]
  exact ⟨_, hrun, h₅, rfl, by simp, by simp⟩

/-! ### Going on through blocks -/

theorem exec_call {f next : L} (hbody : runBody c p (prog.block l).body = .ok q)
    (hexit : (prog.block l).exit = .call f next) (fuel : Nat) :
    exec c walk prog (fuel + 1) l p = exec c walk prog fuel f (q.push (prog.addr next)) := by
  rw [exec, hbody, hexit]

theorem exec_ret (hbody : runBody c p (prog.block l).body = .ok q)
    (hexit : (prog.block l).exit = .ret) (htop : q.top = prog.addr m) (fuel : Nat) :
    exec c walk prog (fuel + 1) l p = exec c walk prog fuel m q.popped := by
  simp only [exec, hbody, hexit, htop, prog.labelAt_addr]

theorem exec_jcc {cond : Cond} {target next : L}
    (hbody : runBody c p (prog.block l).body = .ok q)
    (hexit : (prog.block l).exit = .jcc cond target next) (fuel : Nat) :
    exec c walk prog (fuel + 1) l p =
      exec c walk prog fuel (if cond.holds q.eflags then target else next) q := by
  rw [exec, hbody, hexit]

theorem exec_halt (hbody : runBody c p (prog.block l).body = .ok q)
    (hexit : (prog.block l).exit = .halt) (fuel : Nat) :
    exec c walk prog (fuel + 1) l p = .halted l := by
  rw [exec, hbody, hexit]

theorem exec_fault {f : Fault} (hbody : runBody c p (prog.block l).body = .error f)
    (fuel : Nat) : exec c walk prog (fuel + 1) l p = .fault f := by
  rw [exec, hbody]

theorem exec_farJmp {s : Selector} {target : BitVec 32}
    (hbody : runBody c p (prog.block l).body = .ok q)
    (hexit : (prog.block l).exit = .farJmp s target) (fuel : Nat) :
    exec c walk prog (fuel + 1) l p = jumpFar walk s target q := by
  rw [exec, hbody, hexit]

theorem exec_flat {routine : Nat → Cpu → Option Cpu} {cpu : Cpu} {fuel : Nat}
    (hbody : runBody c p (prog.block l).body = .ok q)
    (hexit : (prog.block l).exit = .flat routine) (hroutine : routine fuel q.cpu = some cpu)
    (htop : Processor.top { q with cpu := cpu } = prog.addr m) :
    exec c walk prog (fuel + 1) l p =
      exec c walk prog fuel m ({ q with cpu := cpu }.setStatus c.left).popped := by
  have htop' : ({ q with cpu := cpu }.setStatus c.left).top = prog.addr m := htop
  simp only [exec, hbody, hexit, hroutine, htop', prog.labelAt_addr]

end Machine.LongMode
