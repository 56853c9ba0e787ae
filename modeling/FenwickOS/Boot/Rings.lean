import FenwickOS.Idt.Exceptions
import FenwickOS.Lib.Segments

/-! Privilege levels under the descriptor table of kernel/gdt/gdt.c: `gdt_load`, `tss_init` of
kernel/syscall/syscall.c, `userland_enter` of kernel/userland.asm and the `sysretq` of
kernel/syscall/syscall.asm. -/
namespace FenwickOS.Boot
open Machine Segments

/-- What privilege depends on. The values in the data registers are left out: nothing reads
them. -/
structure Rings where
  gdt : Table
  cpl : BitVec 2
  task : Option Selector
  /-- Bit 0 of EFER, which turns `syscall` and `sysretq` on. -/
  sce : Bool

inductive RingOp
  | load (r : DataReg) (s : Selector)
  | ltr (s : Selector)
  | iretq (cs ss : Selector)
  | sysretq

def ringStep (s : Rings) : RingOp → Except Fault Rings
  | .load r sel =>
    match checkLoad s.gdt s.cpl r sel with
    | some fault => .error fault
    | none => .ok s
  | .ltr sel =>
    match checkTask s.gdt s.cpl sel with
    | some fault => .error fault
    | none => .ok { s with task := some sel }
  | .iretq cs ss =>
    match checkReturn s.gdt s.cpl cs with
    | some fault => .error fault
    | none =>
      match checkStack s.gdt cs.rpl ss with
      | some fault => .error fault
      | none => .ok { s with cpl := cs.rpl }
  | .sysretq =>
    if !s.sce then .error ⟨.invalidOpcode, 0#16⟩
    else if s.cpl ≠ 0#2 then .error (protectionFault 0#16)
    else .ok { s with cpl := 3#2 }

/-- A fault goes through a gate of `idt_install`, all of which lead to the selector 0x08. -/
def ringRun (s : Rings) (op : RingOp) : Rings :=
  match ringStep s op with
  | .ok t => t
  | .error _ => { s with cpl := 0#2 }

def gdtEntries : List Word :=
  [0x0000000000000000#64, 0x00AF9B000000FFFF#64, 0x00AF93000000FFFF#64, 0x0000000000000000#64,
    0x0000000000000000#64, 0x0000000000000000#64, 0x0000000000000000#64, 0x0000000000000000#64]

/-- `gdt_descriptor`. -/
def gdtTable : Table where
  limit := BitVec.ofNat 16 (8 * gdtEntries.length - 1)
  entry i := gdtEntries[i]?.getD 0#64

/-- The loads of `gdt_load` after its `lgdt`. -/
def gdtLoads : List RingOp :=
  [.load .ds 0x10#16, .load .es 0x10#16, .load .fs 0x10#16, .load .gs 0x10#16, .load .ss 0x10#16]

def gdtInit (s : Rings) : Except Fault Rings :=
  gdtLoads.foldlM ringStep { s with gdt := gdtTable }

/-- The end of `tss_init`: the selector of the task state segment. -/
def tssInit (s : Rings) : Except Fault Rings := ringStep s (.ltr 0x2B#16)

/-- `userland_enter` pushes 0x23 for `ss` and 0x1B for `cs`. -/
def userlandEnter : List RingOp :=
  [.load .ds 0x23#16, .load .es 0x23#16, .load .fs 0x23#16, .load .gs 0x23#16,
    .iretq 0x1B#16 0x23#16]

/-- What `krnl_main` does to the privilege level; `syscall_init` writes no bit of EFER. -/
def krnlMain (s : Rings) : Except Fault Rings := do
  let s ← gdtInit s
  let s ← tssInit s
  userlandEnter.foldlM ringStep s

variable {s : Rings} {op : RingOp} {ops : List RingOp}

/-- Level 0, with the table of `gdt_init` and no task register. -/
structure KernelLevel (s : Rings) : Prop where
  gdt : KernelOnly s.gdt
  cpl : s.cpl = 0#2
  task : s.task = none
  sce : s.sce = false

/-- What holds of the eight entries and of zero holds of the whole table. -/
theorem gdtTable_forall {P : Word → Prop} (hlow : ∀ i < 8, P (gdtTable.entry i)) (hzero : P 0#64)
    (i : Nat) : P (gdtTable.entry i) := by
  rcases Nat.lt_or_ge i 8 with hlt | hge
  · exact hlow i hlt
  · have hnone : gdtEntries[i]? = none := List.getElem?_eq_none hge
    have hentry : gdtTable.entry i = 0#64 := by
      dsimp only [gdtTable]
      rw [hnone]
      rfl
    rw [hentry]
    exact hzero

theorem kernelOnly_gdtTable : KernelOnly gdtTable where
  code := gdtTable_forall (P := fun d => isCode d = true → dpl d = 0#2 ∧ isConforming d = false)
    (by decide) (by decide)
  task := gdtTable_forall (P := fun d => isFreeTss d = false) (by decide) (by decide)

/-- No selector, no frame and no `sysretq` leaves the kernel's level. -/
theorem kernelLevel_step (h : KernelLevel s) (op : RingOp) : KernelLevel (ringRun s op) := by
  have hfault : KernelLevel { s with cpl := 0#2 } := ⟨h.gdt, rfl, h.task, h.sce⟩
  unfold ringRun
  cases op with
  | load r sel =>
    rw [ringStep]
    cases checkLoad s.gdt s.cpl r sel with
    | some fault => exact hfault
    | none => exact h
  | ltr sel =>
    obtain ⟨code, hcode⟩ := h.gdt.checkTask sel
    rw [ringStep, h.cpl, hcode]
    exact hfault
  | iretq cs ss =>
    rw [ringStep]
    cases hcs : checkReturn s.gdt s.cpl cs with
    | some fault => exact hfault
    | none =>
      have hrpl := h.gdt.checkReturn hcs
      dsimp only
      cases checkStack s.gdt cs.rpl ss with
      | some fault => exact hfault
      | none => exact ⟨h.gdt, hrpl, h.task, h.sce⟩
  | sysretq =>
    have hstep : ringStep s .sysretq = .error ⟨.invalidOpcode, 0#16⟩ := by
      rw [ringStep, h.sce]
      rfl
    rw [hstep]
    exact hfault

theorem kernelLevel_run (h : KernelLevel s) (ops : List RingOp) :
    KernelLevel (run ringRun s ops) :=
  run_invariant (P := KernelLevel) (fun _ op hs => kernelLevel_step hs op) h ops

/-- The ways out of level 0. -/
def LeavesLevel0 : RingOp → Prop
  | .load _ _ => False
  | .ltr _ => True
  | .iretq cs _ => cs.rpl ≠ 0#2
  | .sysretq => True

theorem leaves_fault (h : KernelLevel s) (hop : LeavesLevel0 op) :
    ∃ fault, ringStep s op = .error fault := by
  cases op with
  | load r sel => exact hop.elim
  | ltr sel =>
    obtain ⟨code, hcode⟩ := h.gdt.checkTask sel
    exact ⟨_, by rw [ringStep, h.cpl, hcode]⟩
  | iretq cs ss =>
    cases hcs : checkReturn s.gdt s.cpl cs with
    | some fault => exact ⟨fault, by rw [ringStep, hcs]⟩
    | none => exact absurd (h.gdt.checkReturn hcs) hop
  | sysretq => exact ⟨_, by rw [ringStep, h.sce]; rfl⟩

theorem foldlM_ringStep_ok (h : ∀ op ∈ ops, ringStep s op = .ok s) :
    ops.foldlM ringStep s = .ok s := by
  induction ops with
  | nil => rfl
  | cons op ops ih =>
    have hhead := h op List.mem_cons_self
    rw [List.foldlM_cons, hhead]
    exact ih fun op' hop' => h op' (List.mem_cons_of_mem _ hop')

theorem gdtInit_eq (hcpl : s.cpl = 0#2) : gdtInit s = .ok { s with gdt := gdtTable } := by
  have hload : ∀ r, checkLoad gdtTable 0#2 r 0x10#16 = none := by
    intro r
    cases r <;> decide
  refine foldlM_ringStep_ok fun op hop => ?_
  obtain ⟨r, rfl⟩ : ∃ r, op = .load r 0x10#16 := by
    simp only [gdtLoads, List.mem_cons, List.not_mem_nil, or_false] at hop
    rcases hop with rfl | rfl | rfl | rfl | rfl
    all_goals exact ⟨_, rfl⟩
  rw [ringStep, hcpl, hload]

/-- From `gdt_init` on no sequence of segment loads, `ltr`, `iretq` and `sysretq` with any
operands leaves level 0. `krnl_main` itself stops at the `ltr` of `tss_init`, and its exception
looks for a text behind the end of `exception_messages`. -/
theorem never_leaves_kernel (hcpl : s.cpl = 0#2) (htask : s.task = none) (hsce : s.sce = false) :
    ∃ t, gdtInit s = .ok t ∧
      (∀ ops, (run ringRun t ops).cpl = 0#2 ∧ (run ringRun t ops).task = none ∧
        ∀ op, LeavesLevel0 op → ∃ fault, ringStep (run ringRun t ops) op = .error fault) ∧
      krnlMain s = .error ⟨.protection, 0x28#16⟩ ∧
      ∀ (left : X86.Clobber) (f : Idt.Frame) (c : X86.Cpu (List (Word × Word))),
        (Idt.takeException (Idt.exceptionCalls left) 13 0x28#64 f c).map (fun r => r.2.world) =
          some (c.world ++ [(0x28#64, f.rip)]) ∧ Idt.isrHandler 0x28#64 f.rip = none := by
  have hinit := gdtInit_eq hcpl
  have hlevel : KernelLevel { s with gdt := gdtTable } := ⟨kernelOnly_gdtTable, hcpl, htask, hsce⟩
  refine ⟨_, hinit, fun ops => ?_, ?_, fun left f c => ⟨?_, ?_⟩⟩
  · have hend := kernelLevel_run hlevel ops
    exact ⟨hend.cpl, hend.task, fun op hop => leaves_fault hend hop⟩
  · have hltr : checkTask gdtTable 0#2 0x2B#16 = some ⟨.protection, 0x28#16⟩ := by decide
    have htss : tssInit { s with gdt := gdtTable } = .error ⟨.protection, 0x28#16⟩ := by
      rw [tssInit, ringStep]
      dsimp only
      rw [hcpl, hltr]
    rw [krnlMain, hinit]
    change (tssInit { s with gdt := gdtTable } >>= fun s => userlandEnter.foldlM ringStep s) = _
    rw [htss]
    rfl
  · have hargs : Idt.isrArgs 13 0x28#64 f = (0x28#64, f.rip) := Idt.isrArgs_err (by decide) _ f
    rw [Idt.takeException_world, hargs]
  · exact (Idt.isrHandler_eq_none _ _).mpr (by decide)

/-- As the bootloader leaves it: an `iretq` with the frame of `userland_enter` fails. -/
theorem never_leaves_kernel_iretq : ∃ t, gdtInit ⟨gdtTable, 0#2, none, false⟩ = .ok t ∧
    (run ringRun t [.load .ds 0x23#16, .iretq 0x1B#16 0x23#16]).cpl = 0#2 := by
  obtain ⟨t, hinit, hruns, -⟩ :=
    never_leaves_kernel (s := ⟨gdtTable, 0#2, none, false⟩) rfl rfl rfl
  exact ⟨t, hinit, (hruns [.load .ds 0x23#16, .iretq 0x1B#16 0x23#16]).1⟩

end FenwickOS.Boot
