import FenwickOS.Lib.Bytes
import FenwickOS.Lib.Runs

/-! Assembly routines of a 32-bit x86 processor with flat segments and paging off. -/
namespace Machine.I386

inductive Reg
  | eax | ecx | edx | ebx | esp | ebp | esi | edi
  deriving DecidableEq

/-- `zf` is the zero flag, `none` where it is undefined. -/
structure Cpu where
  regs : Reg → BitVec 32
  zf : Option Bool
  cr3 : BitVec 32
  mem : Word → Byte

/-- `[disp]` or `[disp + index * scale]`. -/
structure Addr where
  disp : BitVec 32
  index : Option (Reg × BitVec 32)

inductive Instr
  | movImm (dst : Reg) (v : BitVec 32)
  | orImm (dst : Reg) (v : BitVec 32)
  | mul (src : Reg)
  | inc (dst : Reg)
  | cmpImm (r : Reg) (v : BitVec 32)
  | store (dst : Addr) (src : Reg)
  | movCr3 (src : Reg)

inductive Exit (L : Type*)
  | jmp (target : L)
  | jne (target next : L)
  | ret

structure Block (L : Type*) where
  body : List Instr
  exit : Exit L

def Cpu.set (s : Cpu) (r : Reg) (v : BitVec 32) : Cpu :=
  { s with regs := Function.update s.regs r v }

def Cpu.setFlagged (s : Cpu) (r : Reg) (v : BitVec 32) : Cpu :=
  { s.set r v with zf := some (v == 0#32) }

def Cpu.address (s : Cpu) (a : Addr) : BitVec 32 :=
  match a.index with
  | none => a.disp
  | some (r, scale) => a.disp + s.regs r * scale

/-- `mul` puts the upper half of the product into `edx`. -/
def step (s : Cpu) : Instr → Cpu
  | .movImm dst v => s.set dst v
  | .orImm dst v => s.setFlagged dst (s.regs dst ||| v)
  | .mul src =>
    let product := (s.regs .eax).setWidth 64 * (s.regs src).setWidth 64
    { (s.set .eax (product.setWidth 32)).set .edx (product.extractLsb' 32 32) with zf := none }
  | .inc dst => s.setFlagged dst (s.regs dst + 1#32)
  | .cmpImm r v => { s with zf := some (s.regs r == v) }
  | .store dst src =>
    { s with mem := store32 s.mem ((s.address dst).setWidth 64) (s.regs src) }
  | .movCr3 src => { s with cr3 := s.regs src }

variable {L : Type*} {program : L → Block L} {s : Cpu}

/-- Run the block at a label and what it goes on to, through at most `fuel` blocks. -/
def exec (program : L → Block L) : Nat → L → Cpu → Option Cpu
  | 0, _, _ => none
  | fuel + 1, l, s =>
    let t := run step s (program l).body
    match (program l).exit with
    | .jmp target => exec program fuel target t
    | .jne target next => t.zf.bind fun zf => exec program fuel (if zf then next else target) t
    | .ret => some t

@[simp] theorem Cpu.set_regs (s : Cpu) (r r' : Reg) (v : BitVec 32) :
    (s.set r v).regs r' = if r' = r then v else s.regs r' :=
  Function.update_apply ..

@[simp] theorem Cpu.set_mem (s : Cpu) (r : Reg) (v : BitVec 32) : (s.set r v).mem = s.mem := rfl

@[simp] theorem Cpu.setFlagged_regs (s : Cpu) (r r' : Reg) (v : BitVec 32) :
    (s.setFlagged r v).regs r' = if r' = r then v else s.regs r' :=
  Function.update_apply ..

@[simp] theorem Cpu.setFlagged_mem (s : Cpu) (r : Reg) (v : BitVec 32) :
    (s.setFlagged r v).mem = s.mem := rfl

/-! ### Going on through blocks -/

theorem exec_jmp {l target : L} (hexit : (program l).exit = .jmp target) (fuel : Nat) (s : Cpu) :
    exec program (fuel + 1) l s = exec program fuel target (run step s (program l).body) := by
  rw [exec, hexit]

theorem exec_ret {l : L} (hexit : (program l).exit = .ret) (fuel : Nat) (s : Cpu) :
    exec program (fuel + 1) l s = some (run step s (program l).body) := by
  rw [exec, hexit]

theorem exec_jne {l target next : L} (hexit : (program l).exit = .jne target next) {zf : Bool}
    (hzf : (run step s (program l).body).zf = some zf) (fuel : Nat) :
    exec program (fuel + 1) l s =
      exec program fuel (if zf then next else target) (run step s (program l).body) := by
  simp only [exec, hexit, hzf, Option.bind_some]

/-- A block that jumps back to itself until its `n`-th round, with an invariant over the rounds. -/
theorem exec_loop {l next : L} {n : Nat} {I : Nat → Cpu → Prop}
    (hexit : (program l).exit = .jne l next)
    (hstep : ∀ i < n, ∀ s, I i s → I (i + 1) (run step s (program l).body) ∧
      (run step s (program l).body).zf = some (decide (i + 1 = n))) (hn : 0 < n) (hs : I 0 s) :
    ∃ t, I n t ∧ ∀ fuel, exec program (fuel + n) l s = exec program fuel next t := by
  have hrest (k : Nat) : ∀ i < n, i + k + 1 = n → ∀ s, I i s →
      ∃ t, I n t ∧ ∀ fuel, exec program (fuel + (k + 1)) l s = exec program fuel next t := by
    induction k with
    | zero =>
      intro i hi hk s hs
      obtain ⟨hinv, hzf⟩ := hstep i hi s hs
      have hlast : i + 1 = n := hk
      rw [hlast] at hinv
      refine ⟨_, hinv, fun fuel => ?_⟩
      rw [exec_jne hexit hzf, decide_eq_true hlast, if_pos rfl]
    | succ k ih =>
      intro i hi hk s hs
      obtain ⟨hinv, hzf⟩ := hstep i hi s hs
      obtain ⟨t, ht, hrun⟩ := ih (i + 1) (by omega) (by omega) _ hinv
      refine ⟨t, ht, fun fuel => ?_⟩
      have hmore : ¬ i + 1 = n := by omega
      rw [← Nat.add_assoc, exec_jne hexit hzf, decide_eq_false hmore, if_neg Bool.false_ne_true]
      exact hrun fuel
  obtain ⟨t, ht, hrun⟩ := hrest (n - 1) 0 hn (by omega) s hs
  rw [Nat.sub_add_cancel hn] at hrun
  exact ⟨t, ht, hrun⟩

/-! ### Registers that a routine leaves alone -/

def Instr.writes : Instr → Reg → Bool
  | .movImm dst _, r => dst = r
  | .orImm dst _, r => dst = r
  | .mul _, r => r = .eax ∨ r = .edx
  | .inc dst, r => dst = r
  | .cmpImm _ _, _ => false
  | .store _ _, _ => false
  | .movCr3 _, _ => false

theorem step_regs {i : Instr} {r : Reg} (h : i.writes r = false) : (step s i).regs r = s.regs r := by
  cases i with
  | movImm dst v =>
    have hne : r ≠ dst := fun he => by simp [Instr.writes, he] at h
    simp [step, hne]
  | orImm dst v =>
    have hne : r ≠ dst := fun he => by simp [Instr.writes, he] at h
    simp [step, hne]
  | mul src =>
    have hne : r ≠ .eax ∧ r ≠ .edx := by simpa [Instr.writes] using h
    simp [step, hne]
  | inc dst =>
    have hne : r ≠ dst := fun he => by simp [Instr.writes, he] at h
    simp [step, hne]
  | cmpImm r' v => rfl
  | store dst src => rfl
  | movCr3 src => rfl

theorem exec_regs {r : Reg} (h : ∀ l, ∀ i ∈ (program l).body, i.writes r = false) {fuel : Nat}
    {l : L} {t : Cpu} (hexec : exec program fuel l s = some t) : t.regs r = s.regs r := by
  induction fuel generalizing l s with
  | zero => cases hexec
  | succ fuel ih =>
    have hbody : (run step s (program l).body).regs r = s.regs r := by
      have hall (body : List Instr) (hb : ∀ i ∈ body, i.writes r = false) (s : Cpu) :
          (run step s body).regs r = s.regs r := by
        induction body generalizing s with
        | nil => rfl
        | cons i body ihb =>
          rw [run_cons, ihb fun j hj => hb j (List.mem_cons_of_mem _ hj)]
          exact step_regs (hb i List.mem_cons_self)
      exact hall _ (h l) s
    rw [exec] at hexec
    cases hexit : (program l).exit with
    | jmp target =>
      rw [hexit] at hexec
      exact (ih hexec).trans hbody
    | jne target next =>
      rw [hexit] at hexec
      obtain ⟨zf, -, hrest⟩ := Option.bind_eq_some_iff.mp hexec
      exact (ih hrest).trans hbody
    | ret =>
      rw [hexit] at hexec
      obtain rfl := Option.some.inj hexec
      exact hbody

end Machine.I386
