import FenwickOS.Lib.X86
import FenwickOS.Syscall.Table

/-! The system call entry point of kernel/syscall/syscall.asm. -/
namespace FenwickOS.Syscall
open Machine X86

inductive Label
  | syscallEntry

inductive Callee
  | syscallDispatcher

def entryCode : List (Instr Callee) :=
  [.push .rcx, .push .r11, .push .rbp, .push .rbx, .push .r12, .push .r13, .push .r14, .push .r15,
    .mov .r15 .rax, .mov .r14 .rdi, .mov .r13 .rsi, .mov .r12 .rdx,
    .mov .rbx .r10, .push .rbx, .mov .rbx .r8, .push .rbx, .mov .rbx .r9, .push .rbx,
    .push .r14, .push .r13, .push .r12, .push .rbp, .push .rbx, .push .r15,
    .mov .rdi .rax, .mov .rsi .r14, .mov .rdx .r13, .mov .rcx .r12,
    .load .r8 .rsp 40#64, .load .r9 .rsp 48#64,
    .call .syscallDispatcher,
    .addImm .rsp 64#64,
    .pop .r15, .pop .r14, .pop .r13, .pop .r12, .pop .rbx, .pop .rbp, .pop .r11, .pop .rcx]

def program : Label → Block Label Callee
  | .syscallEntry => ⟨entryCode, .ret .sysretq⟩

/-- The seventeen words that `syscall_entry` has pushed when it calls. -/
def entryFrame : Nat := 8 * 17

variable {σ : Type*} {c : Calls Callee σ} {s t : Cpu σ}

def enterSyscall (c : Calls Callee σ) (s : Cpu σ) : Option (Return × Cpu σ) :=
  exec c program 1 .syscallEntry s

theorem enterSyscall_eq (c : Calls Callee σ) (s : Cpu σ) :
    enterSyscall c s = some (.sysretq, run (step c) s entryCode) := rfl

/-- What the registers hold at `sysretq`: `add rsp, 64` drops eight of the nine argument words,
so every `pop` takes the word that belongs to the next one. -/
structure Shifted (c : Calls Callee σ) (s t : Cpu σ) : Prop where
  rsp : t.regs .rsp = s.regs .rsp - 8#64
  r15 : t.regs .r15 = s.regs .r10
  r14 : t.regs .r14 = s.regs .r15
  r13 : t.regs .r13 = s.regs .r14
  r12 : t.regs .r12 = s.regs .r13
  rbx : t.regs .rbx = s.regs .r12
  rbp : t.regs .rbp = s.regs .rbx
  r11 : t.regs .r11 = s.regs .rbp
  rcx : t.regs .rcx = s.regs .r11
  rax : t.regs .rax = c.left.regs .rax

def passedArgs (regs : Reg → Word) : Fin 6 → Word
  | 0 => regs .rax
  | 1 => regs .rdi
  | 2 => regs .rsi
  | 3 => regs .rdx
  | 4 => regs .rdi
  | 5 => regs .r9

/-- What the view of the stack shows at `sysretq`: one pushed word is left over. -/
theorem entryCode_view (hframe : c.frame = entryFrame) (regs : Reg → Word) (w : σ) :
    ∃ v, View.run c ⟨regs, [], w⟩ entryCode = some v ∧ v.stack = [regs .rcx] ∧
      (v.regs .r15 = regs .r10 ∧ v.regs .r14 = regs .r15 ∧ v.regs .r13 = regs .r14 ∧
        v.regs .r12 = regs .r13 ∧ v.regs .rbx = regs .r12 ∧ v.regs .rbp = regs .rbx ∧
        v.regs .r11 = regs .rbp ∧ v.regs .rcx = regs .r11 ∧ v.regs .rax = c.left.regs .rax) ∧
      v.world = c.effect .syscallDispatcher (passedArgs regs) w := by
  obtain ⟨effect, left, frame⟩ := c
  obtain rfl : frame = entryFrame := hframe
  refine ⟨_, rfl, rfl, ⟨rfl, rfl, rfl, rfl, rfl, rfl, rfl, rfl, rfl⟩, ?_⟩
  refine congrArg (fun args => effect .syscallDispatcher args w) (funext fun i => ?_)
  match i with
  | 0 | 1 | 2 | 3 | 4 | 5 => rfl

theorem enterSyscall_spec (hframe : c.frame = entryFrame) (s : Cpu σ) :
    ∃ t, enterSyscall c s = some (.sysretq, t) ∧ Shifted c s t ∧
      t.world = c.effect .syscallDispatcher (passedArgs s.regs) s.world := by
  have hstart := models_top s 0
  obtain ⟨v, hv, hstack, hregs, hworld⟩ := entryCode_view hframe s.regs s.world
  have hlen : entryCode.length < 2 ^ 59 := by decide
  have hend := hstart.run (by simpa using hlen) hv
  obtain ⟨h15, h14, h13, h12, hbx, hbp, h11, hcx, hax⟩ := hregs
  refine ⟨_, enterSyscall_eq c s, ⟨?_, ?_, ?_, ?_, ?_, ?_, ?_, ?_, ?_, ?_⟩,
    hend.world.trans hworld⟩
  · rw [hend.rsp, hstack]
    simp [below]
  · exact (hend.regs .r15 (by decide)).trans h15
  · exact (hend.regs .r14 (by decide)).trans h14
  · exact (hend.regs .r13 (by decide)).trans h13
  · exact (hend.regs .r12 (by decide)).trans h12
  · exact (hend.regs .rbx (by decide)).trans hbx
  · exact (hend.regs .rbp (by decide)).trans hbp
  · exact (hend.regs .r11 (by decide)).trans h11
  · exact (hend.regs .rcx (by decide)).trans hcx
  · exact (hend.regs .rax (by decide)).trans hax

/-! ### The user's context -/

/-- The user's stack pointer, callee-saved registers, return address and flags at `sysretq`. -/
structure Preserved (s t : Cpu σ) : Prop where
  rsp : t.regs .rsp = s.regs .rsp
  rbx : t.regs .rbx = s.regs .rbx
  rbp : t.regs .rbp = s.regs .rbp
  r12 : t.regs .r12 = s.regs .r12
  r13 : t.regs .r13 = s.regs .r13
  r14 : t.regs .r14 = s.regs .r14
  r15 : t.regs .r15 = s.regs .r15
  rcx : t.regs .rcx = s.regs .rcx
  r11 : t.regs .r11 = s.regs .r11

/-- No system call preserves the user's context: `rsp` comes back eight bytes too low. -/
theorem not_preserved (effect : Callee → (Fin 6 → Word) → σ → σ) (left : Clobber) (s : Cpu σ) :
    ¬ ∃ t, enterSyscall ⟨effect, left, entryFrame⟩ s = some (.sysretq, t) ∧ Preserved s t := by
  rintro ⟨t', ht', hkept⟩
  obtain ⟨t, ht, hshift, -⟩ := enterSyscall_spec (c := ⟨effect, left, entryFrame⟩) rfl s
  obtain rfl := (Prod.mk.inj (Option.some.inj (ht.symm.trans ht'))).2
  have hrsp := hshift.rsp.symm.trans hkept.rsp
  bv_omega

/-- A call with all registers zero returns with `rsp` eight below zero. -/
theorem not_preserved_zero :
    let s : Cpu Unit := ⟨fun _ => 0#64, fun _ => 0#64, ()⟩
    let left : Clobber := ⟨fun _ => 0#64, fun _ => 0#64⟩
    ¬ ∃ t, enterSyscall ⟨fun _ _ w => w, left, entryFrame⟩ s = some (.sysretq, t) ∧
      Preserved s t := by
  rintro s left ⟨t', ht', hkept⟩
  obtain ⟨t, ht, hshift, -⟩ := enterSyscall_spec (c := ⟨fun _ _ w => w, left, entryFrame⟩) rfl s
  obtain rfl := (Prod.mk.inj (Option.some.inj (ht.symm.trans ht'))).2
  exact absurd (hshift.rsp.symm.trans hkept.rsp) (by decide)

/-! ### The handler -/

def syscallArgs (regs : Reg → Word) : Fin 6 → Word
  | 0 => regs .rdi
  | 1 => regs .rsi
  | 2 => regs .rdx
  | 3 => regs .r10
  | 4 => regs .r8
  | 5 => regs .r9

/-- Entering has the effect of `syscall_handle` on the registers the user set, its result in
`rax`. -/
def Dispatched (handlers : Handlers σ) (s : Cpu (SyscallState σ))
    (result : Option (Return × Cpu (SyscallState σ))) : Prop :=
  ∃ t, result = some (.sysretq, t) ∧
    (t.regs .rax, t.world) = syscallHandle handlers (s.regs .rax) (syscallArgs s.regs) s.world

def dispatcherCalls (left : Clobber) : Calls Callee (SyscallState σ) where
  effect _ _ w := syscallDispatcher w
  left := left
  frame := entryFrame

/-- The empty body of `syscall_dispatcher` leaves in `rax` what the thirty instructions before the
call have left there. -/
def LeavesRax (left : Clobber) (s : Cpu (SyscallState σ)) : Prop :=
  left.regs .rax = (run (step (dispatcherCalls left)) s (entryCode.take 30)).regs .rax

/-- Which is what the user has set. -/
theorem leavesRax_iff {left : Clobber} {s : Cpu (SyscallState σ)} :
    LeavesRax left s ↔ left.regs .rax = s.regs .rax := by
  simp [LeavesRax, entryCode, run, step, Cpu.pushWord_regs, Cpu.set_regs]

theorem registered_neg_one (t : SyscallTable) : registered t (-1#64) = none := by
  have hslot : slot (-1#64) = none := by decide
  rw [registered, hslot]
  rfl

/-- No handler ever runs, and the empty body of `syscall_dispatcher` leaves `rax` alone: entering is
right only where the call number is itself the error. -/
theorem dispatched_iff (handlers : Handlers σ) (left : Clobber) (s : Cpu (SyscallState σ))
    (hleft : LeavesRax left s) :
    Dispatched handlers s (enterSyscall (dispatcherCalls left) s) ↔ s.regs .rax = -1#64 := by
  obtain ⟨t, ht, hshift, hworld⟩ := enterSyscall_spec (c := dispatcherCalls left) rfl s
  have hsame : t.world = s.world := hworld
  have hrax : t.regs .rax = s.regs .rax := hshift.rax.trans (leavesRax_iff.mp hleft)
  unfold Dispatched syscallHandle
  constructor
  · rintro ⟨t', ht', he⟩
    obtain rfl := (Prod.mk.inj (Option.some.inj (ht.symm.trans ht'))).2
    rw [hsame, hrax] at he
    cases hreg : registered s.world.table (s.regs .rax) with
    | none =>
      rw [hreg] at he
      exact (Prod.mk.inj he).1
    | some fn =>
      -- the handler that should have run leaves its mark
      rw [hreg] at he
      have hcalled := congrArg (fun w => w.called.length) (Prod.mk.inj he).2
      simp at hcalled
  · intro hnum
    refine ⟨t, ht, ?_⟩
    rw [hsame, hrax, hnum, registered_neg_one]

/-- The call number 8 of `sys_getpid`, registered at 0x1000: its handler is not called. -/
theorem not_dispatched_getpid :
    let table : SyscallTable := ⟨fun i => if i = 8 then 0x1000#64 else 0#64, 9⟩
    let s : Cpu (SyscallState Unit) := ⟨fun _ => 8#64, fun _ => 0#64, ⟨table, [], ()⟩⟩
    let left : Clobber := ⟨fun _ => 8#64, fun _ => 0#64⟩
    LeavesRax left s ∧
      ¬ Dispatched (fun _ _ k => (1#64, k)) s (enterSyscall (dispatcherCalls left) s) := by
  intro table s left
  refine ⟨leavesRax_iff.mpr rfl, ?_⟩
  rintro ⟨t', ht', he⟩
  obtain ⟨t, ht, -, hworld⟩ := enterSyscall_spec (c := dispatcherCalls left) rfl s
  obtain rfl := (Prod.mk.inj (Option.some.inj (ht.symm.trans ht'))).2
  have hreg : registered s.world.table (s.regs .rax) = some 0x1000#64 := by decide
  have hsame : t.world = s.world := hworld
  unfold syscallHandle at he
  rw [hreg, hsame] at he
  have hcalled := congrArg (fun w => w.called.length) (Prod.mk.inj he).2
  exact absurd hcalled (by decide)

/-- The call numbers -1 and 9, with nothing in the table but the handler of 8. -/
theorem dispatched_iff_numbers :
    let table : SyscallTable := ⟨fun i => if i = 8 then 0x1000#64 else 0#64, 9⟩
    let s (num : Word) : Cpu (SyscallState Unit) := ⟨fun _ => num, fun _ => 0#64, ⟨table, [], ()⟩⟩
    let left (num : Word) : Clobber := ⟨fun _ => num, fun _ => 0#64⟩
    let entered (num : Word) := enterSyscall (dispatcherCalls (left num)) (s num)
    Dispatched (fun _ _ k => (1#64, k)) (s (-1#64)) (entered (-1#64)) ∧
      ¬ Dispatched (fun _ _ k => (1#64, k)) (s 9#64) (entered 9#64) := by
  intro table s left entered
  refine ⟨(dispatched_iff _ (left (-1#64)) (s (-1#64)) (leavesRax_iff.mpr rfl)).mpr rfl,
    fun h => ?_⟩
  exact absurd ((dispatched_iff _ (left 9#64) (s 9#64) (leavesRax_iff.mpr rfl)).mp h) (by decide)

end FenwickOS.Syscall
