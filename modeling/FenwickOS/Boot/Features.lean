import FenwickOS.Boot.SetupPaging
import FenwickOS.Lib.LongMode

/-! The code of `start` in boot/arch/x86_64/bootloader.asm, and its two checks. -/
namespace FenwickOS.Boot
open Machine LongMode
open I386 (Cpu Reg)

/-- What follows a call or a conditional jump has no label in the source. -/
inductive StartLabel
  | start | cpuidChecked | longModeChecked | pagingSet
  | checkCpuid | cpuidFound | noCpuid
  | checkLongMode | leafFound | longModeFound | noLongMode
  | setupPaging
  deriving DecidableEq

def StartLabel.all : List StartLabel :=
  [.start, .cpuidChecked, .longModeChecked, .pagingSet, .checkCpuid, .cpuidFound, .noCpuid,
    .checkLongMode, .leafFound, .longModeFound, .noLongMode, .setupPaging]

/-- Where the linker has put the tables, `gdt64` and the code. -/
structure Image where
  pml4Table : Word
  gdt64 : BitVec 32
  longModeEntry : BitVec 32
  addr : StartLabel → BitVec 32
  addr_injective : Function.Injective addr

/-- `stack_bottom` follows the three tables. -/
def Image.stackTop (img : Image) : BitVec 32 := img.pml4Table.setWidth 32 + 0x7000#32

/-- `gdt64.pointer`. -/
def Image.gdtPointer (img : Image) : BitVec 32 := img.gdt64 + 24#32

/-- `jmp .no_cpuid` after the `hlt` goes back to it. -/
def startCode (img : Image) : StartLabel → Block StartLabel
  | .start => ⟨[.cli, .movImm .esp img.stackTop], .call .checkCpuid .cpuidChecked⟩
  | .cpuidChecked => ⟨[], .call .checkLongMode .longModeChecked⟩
  | .longModeChecked => ⟨[], .call .setupPaging .pagingSet⟩
  | .pagingSet =>
    { body :=
        [.fromCr4 .eax, .alu .or .eax (1#32 <<< 5 ||| 1#32 <<< 7), .toCr4 .eax,
         .movImm .ecx 0xC0000080#32, .rdmsr, .alu .or .eax (1#32 <<< 8 ||| 1#32 <<< 11), .wrmsr,
         .movImm .eax img.gdtPointer, .lgdt .eax,
         .fromCr0 .eax, .alu .or .eax (1#32 <<< 31 ||| 1#32 <<< 0), .toCr0 .eax]
      exit := .farJmp 0x08#16 img.longModeEntry }
  | .checkCpuid =>
    { body :=
        [.pushfd, .pop .eax, .mov .ecx .eax, .alu .xor .eax (1#32 <<< 21), .push .eax, .popfd,
         .pushfd, .pop .eax, .push .ecx, .popfd, .cmpReg .eax .ecx]
      exit := .jcc .zero .noCpuid .cpuidFound }
  | .cpuidFound => ⟨[], .ret⟩
  | .noCpuid => ⟨[], .halt⟩
  | .checkLongMode =>
    ⟨[.movImm .eax 0x80000000#32, .cpuid, .alu .cmp .eax 0x80000001#32],
      .jcc .carry .noLongMode .leafFound⟩
  | .leafFound =>
    ⟨[.movImm .eax 0x80000001#32, .cpuid, .alu .test .edx (1#32 <<< 29)],
      .jcc .zero .noLongMode .longModeFound⟩
  | .longModeFound => ⟨[], .ret⟩
  | .noLongMode => ⟨[], .halt⟩
  | .setupPaging =>
    ⟨[], .flat fun fuel cpu => I386.exec (bootCode img.pml4Table) fuel .setupPaging cpu⟩

def startProgram (img : Image) : Program StartLabel where
  block := startCode img
  addr := img.addr
  labelAt a := StartLabel.all.find? fun l => img.addr l = a
  labelAt_addr l := by
    have hmem : l ∈ StartLabel.all := by
      cases l <;> decide
    cases hfind : StartLabel.all.find? fun m => img.addr m = img.addr l with
    | none =>
      have hno := List.find?_eq_none.mp hfind l hmem
      simp at hno
    | some m =>
      have hm := List.find?_some hfind
      rw [decide_eq_true_eq] at hm
      rw [img.addr_injective hm]

/-- The processor's walk through the tables of Mm. -/
def pageWalk : PageWalk := fun mem cr3 a =>
  (Mm.mmuWalk (load64 mem) (cr3.setWidth 64) a).map Prod.fst

def gdt64Entries : List Word := [0#64, 0x00AF9B000000FFFF#64, 0x00AF93000000FFFF#64]

/-- The loader has put the image into memory below 1 GiB and has zeroed the tables. -/
structure Loaded (img : Image) (mem : Word → Byte) : Prop where
  aligned : img.pml4Table.toNat % 4096 = 0
  bound : img.pml4Table.toNat + 0x7000 ≤ 2 ^ 30
  tables : Zeroed mem img.pml4Table 0x3000
  gdtBound : img.gdt64.toNat + 34 ≤ 2 ^ 30
  apart : img.gdt64.toNat + 34 ≤ img.pml4Table.toNat ∨
    img.pml4Table.toNat + 0x7000 ≤ img.gdt64.toNat
  entries : ∀ i d, gdt64Entries[i]? = some d →
    load64 mem (img.gdt64.setWidth 64 + BitVec.ofNat 64 (8 * i)) = d
  limit : (load32 mem (img.gdtPointer.setWidth 64)).setWidth 16 = 23#16
  base : load32 mem (img.gdtPointer.setWidth 64 + 2#64) = img.gdt64
  entryBound : img.longModeEntry.toNat < 2 ^ 30

/-- As the multiboot loader leaves the processor: protected mode, no paging, valid registers. -/
structure Protected (c : Chip) (p : Processor) : Prop where
  pe : includes p.cr0 cr0Pe = true
  cr4 : p.cr4 &&& ~~~c.cr4Bits = 0#32
  efer : p.efer &&& ~~~c.eferBits = 0#64
  pg : p.paging = false
  lma : includes p.efer eferLma = false

variable {img : Image} {c : Chip} {p q : Processor} {v : BitVec 32} {x : Word}

/-! ### `check_cpuid` -/

/-- The flags that `pushfd` finds after an attempt to turn bit 21 over. -/
def flagsBack (c : Chip) (flags status : BitVec 32) : BitVec 32 :=
  let changed := flags &&& ~~~statusFlags ||| status &&& statusFlags
  ((flags &&& pushedFlags) ^^^ idFlag) &&& c.writable ||| changed &&& ~~~c.writable

theorem flagsBack_eq_iff (c : Chip) (flags status : BitVec 32) :
    flagsBack c flags status &&& pushedFlags = flags &&& pushedFlags ↔ c.hasCpuid = false := by
  have hstatus (k : Nat) (hk : k < 32) (h : c.writable.getLsbD k = false) :
      statusFlags.getLsbD k = false := by
    have hbit := congrArg (fun v => v.getLsbD k) c.writable_status
    simp only [BitVec.getLsbD_and, h, Bool.false_and] at hbit
    exact hbit.symm
  have hid (k : Nat) (hk : k < 32) : idFlag.getLsbD k = decide (k = 21) := by
    have hall : ∀ k < 32, idFlag.getLsbD k = decide (k = 21) := by decide
    exact hall k hk
  have hbit (k : Nat) (hk : k < 32) :
      (flagsBack c flags status &&& pushedFlags).getLsbD k =
        ((flags &&& pushedFlags).getLsbD k ^^
          (decide (k = 21) && c.writable.getLsbD k && pushedFlags.getLsbD k)) := by
    simp only [flagsBack, BitVec.getLsbD_and, BitVec.getLsbD_or, BitVec.getLsbD_xor,
      BitVec.getLsbD_not, hid k hk, hk, decide_true, Bool.true_and]
    cases hw : c.writable.getLsbD k with
    | false => simp [hstatus k hk hw]
    | true => cases flags.getLsbD k <;> cases pushedFlags.getLsbD k <;> simp
  have hpushed : pushedFlags.getLsbD 21 = true := by decide
  constructor
  · intro he
    have h21 := hbit 21 (by decide)
    rw [he, hpushed] at h21
    rw [Chip.hasCpuid]
    cases hw : c.writable.getLsbD 21 with
    | false => rfl
    | true =>
      rw [hw] at h21
      generalize (flags &&& pushedFlags).getLsbD 21 = bit at h21
      cases bit <;> cases h21
  · intro hno
    apply BitVec.eq_of_getLsbD_eq
    intro k hk
    rw [hbit k hk]
    by_cases h21 : k = 21
    · have hw : c.writable.getLsbD k = false := by rw [h21]; exact hno
      simp [hw]
    · simp [h21]

theorem checkCpuid_body (img : Image) (c : Chip) (hroom : 4 ≤ (p.reg .esp).toNat) :
    ∃ q, runBody c p (startCode img .checkCpuid).body = .ok q ∧ Quiet p q ∧
      q.eflags.getLsbD zeroFlag = !c.hasCpuid ∧
      (p.eflags.getLsbD 9 = false → q.eflags.getLsbD 9 = false) := by
  let flags := p.eflags &&& pushedFlags
  let status := c.status .xor flags idFlag
  let back := flagsBack c p.eflags status
  let restored := flags &&& c.writable ||| back &&& ~~~c.writable
  -- the processor after each pair of instructions, with what it holds
  obtain ⟨p₁, h₁⟩ : ∃ p₁, p₁ = (p.scratch flags).set .eax flags := ⟨_, rfl⟩
  obtain ⟨p₂, h₂⟩ : ∃ p₂, p₂ = (p₁.set .ecx flags).set .eax (flags ^^^ idFlag) := ⟨_, rfl⟩
  obtain ⟨p₃, h₃⟩ : ∃ p₃, p₃ = p₂.setStatus status := ⟨_, rfl⟩
  obtain ⟨p₄, h₄⟩ : ∃ p₄, p₄ = { p₃.scratch (flags ^^^ idFlag) with eflags := back } := ⟨_, rfl⟩
  obtain ⟨p₅, h₅⟩ : ∃ p₅, p₅ = (p₄.scratch (back &&& pushedFlags)).set .eax
    (back &&& pushedFlags) := ⟨_, rfl⟩
  obtain ⟨p₆, h₆⟩ : ∃ p₆, p₆ = { p₅.scratch flags with eflags := restored } := ⟨_, rfl⟩
  have hquiet₁ : Quiet p p₁ := by
    rw [h₁]
    exact (quiet_scratch hroom _).trans (quiet_set (by decide) _ _)
  have hquiet₂ : Quiet p p₂ := by
    rw [h₂]
    exact (hquiet₁.trans (quiet_set (by decide) _ _)).trans (quiet_set (by decide) _ _)
  have hquiet₃ : Quiet p p₃ := by
    rw [h₃]
    exact hquiet₂.trans (quiet_eflags _ _)
  have hquiet₄ : Quiet p p₄ := by
    rw [h₄]
    exact (hquiet₃.trans (quiet_scratch (by rwa [hquiet₃.esp]) _)).trans (quiet_eflags _ _)
  have hquiet₅ : Quiet p p₅ := by
    rw [h₅]
    exact (hquiet₄.trans (quiet_scratch (by rwa [hquiet₄.esp]) _)).trans
      (quiet_set (by decide) _ _)
  have hquiet₆ : Quiet p p₆ := by
    rw [h₆]
    exact (hquiet₅.trans (quiet_scratch (by rwa [hquiet₅.esp]) _)).trans (quiet_eflags _ _)
  have heax₁ : p₁.reg .eax = flags := by simp [h₁]
  have heax₃ : p₃.reg .eax = flags ^^^ idFlag := by simp [h₃, h₂]
  have heflags₃ : p₃.eflags = p.eflags &&& ~~~statusFlags ||| status &&& statusFlags := by
    rw [h₃, h₂, h₁]
    rfl
  have hecx₅ : p₅.reg .ecx = flags := by
    have hecx₄ : p₄.reg .ecx = p₃.reg .ecx := by
      rw [h₄]
      rfl
    simp [h₅, hecx₄, h₃, h₂]
  have hecx₆ : p₆.reg .ecx = flags := by
    rw [← hecx₅, h₆]
    rfl
  have heax₆ : p₆.reg .eax = back &&& pushedFlags := by
    have heax₅ : p₅.reg .eax = back &&& pushedFlags := by simp [h₅]
    rw [← heax₅, h₆]
    rfl
  refine ⟨p₆.setStatus (c.status .cmp (back &&& pushedFlags) flags), ?_,
    hquiet₆.trans (quiet_eflags _ _), ?_, ?_⟩
  · have hmov : step c p₁ (.mov .ecx .eax) = .ok (p₁.set .ecx flags) := by rw [step, heax₁]
    have hxor : step c (p₁.set .ecx flags) (.alu .xor .eax (1#32 <<< 21)) = .ok p₃ := by
      have heax : (p₁.set .ecx flags).reg .eax = flags := by simp [heax₁]
      rw [step, heax, h₃, h₂]
      rfl
    have hback : p₃.reg .eax &&& c.writable ||| p₃.eflags &&& ~~~c.writable = back := by
      rw [heax₃, heflags₃]
      rfl
    have hrestored : p₅.reg .ecx &&& c.writable ||| p₅.eflags &&& ~~~c.writable = restored := by
      rw [hecx₅, h₅, h₄]
      rfl
    have hcmp : step c p₆ (.cmpReg .eax .ecx) =
        .ok (p₆.setStatus (c.status .cmp (back &&& pushedFlags) flags)) := by
      rw [step, heax₆, hecx₆]
    dsimp only [startCode]
    rw [runBody_readFlags, ← h₁, runBody_cons hmov, runBody_cons hxor, runBody_writeFlags, hback,
      heax₃, ← h₄, runBody_readFlags]
    have heflags₄ : p₄.eflags = back := by rw [h₄]
    rw [heflags₄, ← h₅, runBody_writeFlags, hrestored, hecx₅, ← h₆, runBody_cons hcmp]
    rfl
  · rw [setStatus_zero, Alu.result, Bool.eq_iff_iff, beq_iff_eq, BitVec.sub_eq_iff_eq_add,
      BitVec.zero_add, Bool.not_eq_true']
    exact flagsBack_eq_iff c p.eflags status
  · intro hoff
    have hstatus : statusFlags.getLsbD 9 = false := by decide
    have hid : idFlag.getLsbD 9 = false := by decide
    have hback : back.getLsbD 9 = false := by
      simp only [back, flagsBack, BitVec.getLsbD_or, BitVec.getLsbD_and, BitVec.getLsbD_xor,
        hoff, hstatus, hid]
      simp
    have heflags₆ : p₆.eflags = restored := by rw [h₆]
    simp only [Processor.setStatus, heflags₆, restored, flags, BitVec.getLsbD_or,
      BitVec.getLsbD_and, hoff, hback, hstatus]
    simp

/-! ### `check_long_mode` -/

theorem checkLongMode_body (img : Image) (hcpuid : c.hasCpuid = true) (p : Processor) :
    ∃ q, runBody c p (startCode img .checkLongMode).body = .ok q ∧ Quiet p q ∧
      (p.eflags.getLsbD 9 = false → q.eflags.getLsbD 9 = false) ∧
      q.eflags.getLsbD carryFlag = decide ((c.cpuid 0x80000000#32).eax < 0x80000001#32) := by
  obtain ⟨q, hrun, hquiet, heflags, heax, -⟩ :=
    runBody_cpuid hcpuid p 0x80000000#32 [.alu .cmp .eax 0x80000001#32]
  have hcmp : step c q (.alu .cmp .eax 0x80000001#32) =
      .ok (q.setStatus (c.status .cmp (c.cpuid 0x80000000#32).eax 0x80000001#32)) := by
    rw [step, heax]
    rfl
  refine ⟨q.setStatus (c.status .cmp (c.cpuid 0x80000000#32).eax 0x80000001#32), ?_,
    hquiet.trans (quiet_eflags _ _), fun hoff => ?_, setStatus_carry _ _⟩
  · dsimp only [startCode]
    rw [hrun, runBody_cons hcmp]
    rfl
  · rw [← heflags] at hoff
    exact setStatus_interrupts hoff _

theorem leafFound_body (img : Image) (hcpuid : c.hasCpuid = true) (p : Processor) :
    ∃ q, runBody c p (startCode img .leafFound).body = .ok q ∧ Quiet p q ∧
      (p.eflags.getLsbD 9 = false → q.eflags.getLsbD 9 = false) ∧
      q.eflags.getLsbD zeroFlag = !(c.cpuid 0x80000001#32).edx.getLsbD 29 := by
  obtain ⟨q, hrun, hquiet, heflags, -, hedx⟩ :=
    runBody_cpuid hcpuid p 0x80000001#32 [.alu .test .edx (1#32 <<< 29)]
  have htest : step c q (.alu .test .edx (1#32 <<< 29)) =
      .ok (q.setStatus (c.status .test (c.cpuid 0x80000001#32).edx (1#32 <<< 29))) := by
    rw [step, hedx]
    rfl
  refine ⟨q.setStatus (c.status .test (c.cpuid 0x80000001#32).edx (1#32 <<< 29)), ?_,
    hquiet.trans (quiet_eflags _ _), fun hoff => ?_, ?_⟩
  · dsimp only [startCode]
    rw [hrun, runBody_cons htest]
    rfl
  · rw [← heflags] at hoff
    exact setStatus_interrupts hoff _
  · have hpow : (1#32 <<< 29) = BitVec.twoPow 32 29 := rfl
    rw [setStatus_zero, Alu.result, hpow, BitVec.and_twoPow]
    cases (c.cpuid 0x80000001#32).edx.getLsbD 29 <;> rfl

/-! ### The two checks from `start` on -/

/-- The processor when the checks begin: no interrupts, and an empty stack. -/
def begun (img : Image) (p : Processor) : Processor :=
  { p with eflags := p.eflags &&& ~~~interruptFlag }.set .esp img.stackTop

theorem begun_interrupts : (begun img p).eflags.getLsbD 9 = false := by
  have hbit : interruptFlag.getLsbD 9 = true := by decide
  simp [begun, hbit]

theorem exec_start (fuel : Nat) :
    exec c pageWalk (startProgram img) (fuel + 1) .start p =
      exec c pageWalk (startProgram img) fuel .checkCpuid
        ((begun img p).push (img.addr .cpuidChecked)) :=
  exec_call rfl rfl fuel

theorem stackTop_toNat (hbound : img.pml4Table.toNat + 0x7000 ≤ 2 ^ 30) :
    img.stackTop.toNat = img.pml4Table.toNat + 0x7000 := by
  rw [Image.stackTop, BitVec.toNat_add, BitVec.toNat_setWidth, BitVec.toNat_ofNat]
  omega

theorem exec_checkCpuid (img : Image) (c : Chip) (hroom : 8 ≤ (p.reg .esp).toNat) (hoff : p.eflags.getLsbD 9 = false)
    (next : StartLabel) :
    ∃ q, Kept p q ∧ q.eflags.getLsbD 9 = false ∧ ∀ fuel,
      exec c pageWalk (startProgram img) (fuel + 2) .checkCpuid (p.push (img.addr next)) =
        if c.hasCpuid then exec c pageWalk (startProgram img) fuel next q
        else .halted .noCpuid := by
  have hpushed : ((p.push (img.addr next)).reg .esp).toNat = (p.reg .esp).toNat - 4 := by
    have hlt := (p.reg .esp).isLt
    rw [Processor.push_reg, if_pos rfl, BitVec.toNat_sub, BitVec.toNat_ofNat]
    omega
  obtain ⟨q, hbody, hquiet, hzero, hoff'⟩ :=
    checkCpuid_body (p := p.push (img.addr next)) img c (by omega)
  refine ⟨q.popped, hquiet.kept hroom, hoff' hoff, fun fuel => ?_⟩
  have hjump : exec c pageWalk (startProgram img) (fuel + 2) .checkCpuid (p.push (img.addr next)) =
      exec c pageWalk (startProgram img) (fuel + 1)
        (if Cond.zero.holds q.eflags then .noCpuid else .cpuidFound) q :=
    exec_jcc hbody rfl (fuel + 1)
  rw [hjump, Cond.holds, hzero]
  cases c.hasCpuid with
  | false => exact exec_halt rfl rfl fuel
  | true => exact exec_ret rfl rfl (hquiet.top_eq (by omega)) fuel

theorem exec_checkLongMode (img : Image) (hcpuid : c.hasCpuid = true) (hroom : 8 ≤ (p.reg .esp).toNat)
    (hoff : p.eflags.getLsbD 9 = false) (next : StartLabel) :
    ∃ q, Kept p q ∧ q.eflags.getLsbD 9 = false ∧ ∀ fuel,
      exec c pageWalk (startProgram img) (fuel + 3) .checkLongMode (p.push (img.addr next)) =
        if c.hasLongMode then exec c pageWalk (startProgram img) fuel next q
        else .halted .noLongMode := by
  obtain ⟨q₁, hbody₁, hquiet₁, hoff₁, hcarry⟩ :=
    checkLongMode_body img hcpuid (p.push (img.addr next))
  obtain ⟨q₂, hbody₂, hquiet₂, hoff₂, hzero⟩ := leafFound_body img hcpuid q₁
  have hquiet := hquiet₁.trans hquiet₂
  refine ⟨q₂.popped, hquiet.kept hroom, hoff₂ (hoff₁ hoff), fun fuel => ?_⟩
  have hjump₁ :
      exec c pageWalk (startProgram img) (fuel + 3) .checkLongMode (p.push (img.addr next)) =
        exec c pageWalk (startProgram img) (fuel + 2)
          (if Cond.carry.holds q₁.eflags then .noLongMode else .leafFound) q₁ :=
    exec_jcc hbody₁ rfl (fuel + 2)
  have hjump₂ : exec c pageWalk (startProgram img) (fuel + 2) .leafFound q₁ =
      exec c pageWalk (startProgram img) (fuel + 1)
        (if Cond.zero.holds q₂.eflags then .noLongMode else .longModeFound) q₂ :=
    exec_jcc hbody₂ rfl (fuel + 1)
  rw [hjump₁, Cond.holds, hcarry, Chip.hasLongMode]
  by_cases hleaf : (c.cpuid 0x80000000#32).eax < 0x80000001#32
  · have hless : ¬ 0x80000001#32 ≤ (c.cpuid 0x80000000#32).eax := BitVec.not_le.mpr hleaf
    rw [decide_eq_true hleaf, if_pos rfl, decide_eq_false hless, Bool.false_and,
      if_neg Bool.false_ne_true]
    exact exec_halt rfl rfl (fuel + 1)
  · have hmore : 0x80000001#32 ≤ (c.cpuid 0x80000000#32).eax := BitVec.not_lt.mp hleaf
    rw [decide_eq_false hleaf, if_neg Bool.false_ne_true, decide_eq_true hmore, Bool.true_and,
      hjump₂, Cond.holds, hzero]
    cases (c.cpuid 0x80000001#32).edx.getLsbD 29 with
    | false => exact exec_halt rfl rfl fuel
    | true => exact exec_ret rfl rfl (hquiet.top_eq (by omega)) fuel

end FenwickOS.Boot
