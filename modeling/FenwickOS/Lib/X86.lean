import FenwickOS.Lib.Runs
import FenwickOS.Lib.Words

/-! Straight-line x86-64 assembly around calls of C functions: registers, a stack in memory, and
what the System V calling convention leaves unchanged. -/
namespace Machine.X86

inductive Reg
  | rax | rbx | rcx | rdx | rsi | rdi | rbp | rsp
  | r8 | r9 | r10 | r11 | r12 | r13 | r14 | r15
  deriving DecidableEq

/-- A processor with memory read and written in eight-byte words, and the state `σ` of the C
program around it. -/
structure Cpu (σ : Type*) where
  regs : Reg → Word
  mem : Word → Word
  world : σ

inductive Instr (F : Type*)
  | push (r : Reg)
  | pushImm (v : Word)
  | pop (r : Reg)
  | mov (dst src : Reg)
  | load (dst base : Reg) (disp : Word)
  | addImm (dst : Reg) (v : Word)
  | cld
  | call (f : F)

inductive Return
  | iretq | sysretq
  deriving DecidableEq

inductive Exit (L : Type*)
  | jmp (target : L)
  | ret (kind : Return)

structure Block (L F : Type*) where
  body : List (Instr F)
  exit : Exit L

/-- The registers and memory that a function leaves where it need not preserve them. -/
structure Clobber where
  regs : Reg → Word
  mem : Word → Word

def calleeSaved : Reg → Bool
  | .rbx | .rbp | .rsp | .r12 | .r13 | .r14 | .r15 => true
  | _ => false

def argReg : Fin 6 → Reg
  | 0 => .rdi
  | 1 => .rsi
  | 2 => .rdx
  | 3 => .rcx
  | 4 => .r8
  | 5 => .r9

/-- The C functions that a routine calls, with what they leave behind; they keep the `frame` bytes
of the caller's stack from `rsp` up. -/
structure Calls (F σ : Type*) where
  effect : F → (Fin 6 → Word) → σ → σ
  left : Clobber
  frame : Nat

variable {F L σ : Type*}

def ccall (c : Calls F σ) (f : F) (s : Cpu σ) : Cpu σ where
  regs r := if calleeSaved r then s.regs r else c.left.regs r
  mem a := if (a - s.regs .rsp).toNat < c.frame then s.mem a else c.left.mem a
  world := c.effect f (fun i => s.regs (argReg i)) s.world

/-- `push` of a value that was read before `rsp` moves. -/
def Cpu.pushWord (s : Cpu σ) (v : Word) : Cpu σ :=
  { s with
    regs := Function.update s.regs .rsp (s.regs .rsp - 8#64)
    mem := Function.update s.mem (s.regs .rsp - 8#64) v }

def Cpu.set (s : Cpu σ) (r : Reg) (v : Word) : Cpu σ :=
  { s with regs := Function.update s.regs r v }

def step (c : Calls F σ) (s : Cpu σ) : Instr F → Cpu σ
  | .push r => s.pushWord (s.regs r)
  | .pushImm v => s.pushWord v
  | .pop r => (s.set .rsp (s.regs .rsp + 8#64)).set r (s.mem (s.regs .rsp))
  | .mov dst src => s.set dst (s.regs src)
  | .load dst base disp => s.set dst (s.mem (s.regs base + disp))
  | .addImm dst v => s.set dst (s.regs dst + v)
  | .cld => s
  | .call f => ccall c f s

/-- Run the block at a label and what it jumps to, through at most `fuel` blocks. -/
def exec (c : Calls F σ) (program : L → Block L F) : Nat → L → Cpu σ → Option (Return × Cpu σ)
  | 0, _, _ => none
  | fuel + 1, l, s =>
    match (program l).exit with
    | .jmp target => exec c program fuel target (run (step c) s (program l).body)
    | .ret kind => some (kind, run (step c) s (program l).body)

/-! ### The stack as a list

What a routine pushes is a list with the top first; below it lies what the routine never sees. -/

structure View (σ : Type*) where
  regs : Reg → Word
  stack : List Word
  world : σ

def View.set (v : View σ) (r : Reg) (w : Word) : View σ :=
  { v with regs := Function.update v.regs r w }

def View.ccall (c : Calls F σ) (f : F) (v : View σ) : View σ where
  regs r := if calleeSaved r then v.regs r else c.left.regs r
  stack := v.stack
  world := c.effect f (fun i => v.regs (argReg i)) v.world

/-- `none` is a step whose effect a list of words cannot show. -/
def View.step (c : Calls F σ) (v : View σ) : Instr F → Option (View σ)
  | .push r => if r = .rsp then none else some { v with stack := v.regs r :: v.stack }
  | .pushImm w => some { v with stack := w :: v.stack }
  | .pop r =>
    match v.stack with
    | [] => none
    | w :: ws => if r = .rsp then none else some ({ v with stack := ws }.set r w)
  | .mov dst src => if dst = .rsp ∨ src = .rsp then none else some (v.set dst (v.regs src))
  | .load dst base disp =>
    if dst = .rsp ∨ base ≠ .rsp ∨ disp.toNat % 8 ≠ 0 then none
    else (v.stack[disp.toNat / 8]?).map (v.set dst)
  | .addImm dst w =>
    if dst = .rsp then
      if w.toNat % 8 = 0 ∧ w.toNat / 8 ≤ v.stack.length then
        some { v with stack := v.stack.drop (w.toNat / 8) }
      else none
    else some (v.set dst (v.regs dst + w))
  | .cld => some v
  | .call f => if 8 * v.stack.length ≤ c.frame then some (v.ccall c f) else none

def View.run (c : Calls F σ) (v : View σ) (code : List (Instr F)) : Option (View σ) :=
  code.foldlM (View.step c) v

def below (base : Word) (n : Nat) : Word := base - BitVec.ofNat 64 (8 * n)

/-- The stack of `v` lies in the memory of `s` just below `base`, and `rsp` points at its top. -/
structure Models (base : Word) (s : Cpu σ) (v : View σ) : Prop where
  regs : ∀ r, r ≠ .rsp → s.regs r = v.regs r
  rsp : s.regs .rsp = below base v.stack.length
  words : ∀ k w, v.stack[k]? = some w → s.mem (below base (v.stack.length - k)) = w
  world : s.world = v.world

variable {c : Calls F σ} {base w : Word} {s : Cpu σ} {v v' : View σ} {r : Reg} {n k : Nat}
  {code : List (Instr F)}

theorem below_sub_eight (base : Word) (n : Nat) : below base n - 8#64 = below base (n + 1) := by
  have hsum : BitVec.ofNat 64 (8 * (n + 1)) = BitVec.ofNat 64 (8 * n) + 8#64 := by
    rw [Nat.mul_add, BitVec.ofNat_add]
  rw [below, below, hsum, ← BitVec.sub_sub]

theorem below_add (base : Word) (h : k ≤ n) :
    below base n + BitVec.ofNat 64 (8 * k) = below base (n - k) := by
  have hsum : BitVec.ofNat 64 (8 * n) =
      BitVec.ofNat 64 (8 * (n - k)) + BitVec.ofNat 64 (8 * k) := by
    rw [← BitVec.ofNat_add]
    congr 1
    omega
  rw [below, below, hsum, ← BitVec.sub_sub, BitVec.sub_add_cancel]

theorem below_inj {base : Word} (hn : n < 2 ^ 60) (hk : k < 2 ^ 60)
    (h : below base n = below base k) : n = k := by
  have hnat := congrArg BitVec.toNat h
  simp only [below, BitVec.toNat_sub, BitVec.toNat_ofNat] at hnat
  omega

theorem Cpu.pushWord_regs (s : Cpu σ) (w : Word) (r : Reg) :
    (s.pushWord w).regs r = if r = .rsp then s.regs .rsp - 8#64 else s.regs r :=
  Function.update_apply ..

theorem Cpu.pushWord_mem (s : Cpu σ) (w a : Word) :
    (s.pushWord w).mem a = if a = s.regs .rsp - 8#64 then w else s.mem a :=
  Function.update_apply ..

theorem Cpu.set_regs (s : Cpu σ) (r r' : Reg) (w : Word) :
    (s.set r w).regs r' = if r' = r then w else s.regs r' :=
  Function.update_apply ..

theorem View.set_regs (v : View σ) (r r' : Reg) (w : Word) :
    (v.set r w).regs r' = if r' = r then w else v.regs r' :=
  Function.update_apply ..

theorem Models.pushWord (h : Models base s v) (hsmall : v.stack.length < 2 ^ 59) (w : Word) :
    Models base (s.pushWord w) { v with stack := w :: v.stack } where
  regs r hr := by
    rw [Cpu.pushWord_regs, if_neg hr]
    exact h.regs r hr
  rsp := by
    rw [Cpu.pushWord_regs, if_pos rfl, h.rsp, below_sub_eight]
    rfl
  words k x hk := by
    have hlen : (w :: v.stack).length = v.stack.length + 1 := rfl
    rw [Cpu.pushWord_mem, h.rsp, below_sub_eight, hlen]
    cases k with
    | zero =>
      rw [Nat.sub_zero, if_pos rfl]
      simpa using hk
    | succ k =>
      have hx : v.stack[k]? = some x := hk
      have hlt : k < v.stack.length := (List.getElem?_eq_some_iff.mp hx).1
      rw [Nat.add_sub_add_right, if_neg]
      · exact h.words k x hx
      · intro he
        have := below_inj (by omega) (by omega) he
        omega
  world := h.world

theorem Models.pushWords {ws : List Word} (h : Models base s v)
    (hsmall : v.stack.length + ws.length < 2 ^ 59) :
    Models base (ws.foldl Cpu.pushWord s) { v with stack := ws.reverse ++ v.stack } := by
  induction ws generalizing s v with
  | nil => exact h
  | cons w ws ih =>
    rw [List.length_cons] at hsmall
    have hpush := h.pushWord (by omega) w
    have hrest := ih hpush (by rw [List.length_cons]; omega)
    rw [List.reverse_cons, List.append_assoc]
    exact hrest

theorem Models.set (h : Models base s v) (hr : r ≠ .rsp) (w : Word) :
    Models base (s.set r w) (v.set r w) where
  regs r' hr' := by
    rw [Cpu.set_regs, View.set_regs, h.regs r' hr']
  rsp := by
    rw [Cpu.set_regs, if_neg (Ne.symm hr)]
    exact h.rsp
  words := h.words
  world := h.world

theorem Models.drop (h : Models base s v) (hk : k ≤ v.stack.length) :
    Models base (s.set .rsp (s.regs .rsp + BitVec.ofNat 64 (8 * k)))
      { v with stack := v.stack.drop k } where
  regs r hr := by
    rw [Cpu.set_regs, if_neg hr]
    exact h.regs r hr
  rsp := by
    rw [Cpu.set_regs, if_pos rfl, h.rsp, below_add base hk, List.length_drop]
  words j x hj := by
    rw [List.getElem?_drop] at hj
    rw [List.length_drop, Nat.sub_sub]
    exact h.words (k + j) x hj
  world := h.world

theorem Models.mem (h : Models base s v) (hk : v.stack[k]? = some w) :
    s.mem (s.regs .rsp + BitVec.ofNat 64 (8 * k)) = w := by
  have hlt : k < v.stack.length := (List.getElem?_eq_some_iff.mp hk).1
  rw [h.rsp, below_add base (by omega)]
  exact h.words k w hk

theorem Models.ccall (h : Models base s v) (f : F) (hframe : 8 * v.stack.length ≤ c.frame)
    (hsmall : v.stack.length < 2 ^ 59) : Models base (X86.ccall c f s) (v.ccall c f) where
  regs r hr := by
    simp only [X86.ccall, View.ccall, h.regs r hr]
  rsp := h.rsp
  words k w hk := by
    have hlt : k < v.stack.length := (List.getElem?_eq_some_iff.mp hk).1
    have hdist : (below base (v.stack.length - k) - s.regs .rsp).toNat < c.frame := by
      rw [h.rsp, ← below_add base (Nat.le_of_lt hlt), BitVec.add_comm, BitVec.add_sub_cancel,
        BitVec.toNat_ofNat]
      omega
    simp only [X86.ccall, View.ccall, if_pos hdist]
    exact h.words k w hk
  world := by
    have hne : ∀ i, argReg i ≠ .rsp := by decide
    have hargs : (fun i => s.regs (argReg i)) = fun i => v.regs (argReg i) :=
      funext fun i => h.regs _ (hne i)
    change c.effect f (fun i => s.regs (argReg i)) s.world = _
    rw [hargs, h.world]
    rfl

/-- What a step on the list can be, instruction by instruction. -/
inductive View.Steps (c : Calls F σ) (v : View σ) : Instr F → View σ → Prop
  | push {r : Reg} (hr : r ≠ .rsp) : Steps c v (.push r) { v with stack := v.regs r :: v.stack }
  | pushImm (w : Word) : Steps c v (.pushImm w) { v with stack := w :: v.stack }
  | pop {r : Reg} {w : Word} {ws : List Word} (hr : r ≠ .rsp) (hs : v.stack = w :: ws) :
    Steps c v (.pop r) ({ v with stack := ws }.set r w)
  | mov {dst src : Reg} (hdst : dst ≠ .rsp) (hsrc : src ≠ .rsp) :
    Steps c v (.mov dst src) (v.set dst (v.regs src))
  | load {dst : Reg} {k : Nat} {w : Word} (hdst : dst ≠ .rsp) (hw : v.stack[k]? = some w) :
    Steps c v (.load dst .rsp (BitVec.ofNat 64 (8 * k))) (v.set dst w)
  | drop {k : Nat} (hk : k ≤ v.stack.length) :
    Steps c v (.addImm .rsp (BitVec.ofNat 64 (8 * k))) { v with stack := v.stack.drop k }
  | addImm {dst : Reg} (hdst : dst ≠ .rsp) (w : Word) :
    Steps c v (.addImm dst w) (v.set dst (v.regs dst + w))
  | cld : Steps c v .cld v
  | call (f : F) (hframe : 8 * v.stack.length ≤ c.frame) : Steps c v (.call f) (v.ccall c f)

theorem eq_words (h : w.toNat % 8 = 0) : w = BitVec.ofNat 64 (8 * (w.toNat / 8)) := by
  rw [Nat.mul_div_cancel' (Nat.dvd_of_mod_eq_zero h), BitVec.ofNat_toNat, BitVec.setWidth_eq]

theorem View.steps_of_step {i : Instr F} (hv : v.step c i = some v') : v.Steps c i v' := by
  cases i with
  | push r =>
    simp only [View.step] at hv
    split at hv
    · cases hv
    · rename_i hr
      cases hv
      exact .push hr
  | pushImm w =>
    cases hv
    exact .pushImm w
  | pop r =>
    cases hs : v.stack with
    | nil => simp [View.step, hs] at hv
    | cons w ws =>
      simp only [View.step, hs] at hv
      split at hv
      · cases hv
      · rename_i hr
        cases hv
        exact .pop hr hs
  | mov dst src =>
    simp only [View.step] at hv
    split at hv
    · cases hv
    · rename_i hr
      cases hv
      exact .mov (not_or.mp hr).1 (not_or.mp hr).2
  | load dst b disp =>
    simp only [View.step] at hv
    split at hv
    · cases hv
    · rename_i hr
      obtain ⟨hdst, rfl, hmod⟩ : dst ≠ .rsp ∧ b = .rsp ∧ disp.toNat % 8 = 0 := by tauto
      obtain ⟨w, hw, rfl⟩ := Option.map_eq_some_iff.mp hv
      rw [eq_words hmod]
      exact .load hdst hw
  | addImm dst w =>
    simp only [View.step] at hv
    split at hv
    · rename_i hdst
      subst hdst
      split at hv
      · rename_i hw
        cases hv
        nth_rewrite 1 [eq_words hw.1]
        exact .drop hw.2
      · cases hv
    · rename_i hdst
      cases hv
      exact .addImm hdst w
  | cld =>
    cases hv
    exact .cld
  | call f =>
    simp only [View.step] at hv
    split at hv
    · rename_i hframe
      cases hv
      exact .call f hframe
    · cases hv

/-- One step on the list is one step of the processor. -/
theorem Models.step (h : Models base s v) (hsmall : v.stack.length < 2 ^ 59) {i : Instr F}
    (hv : v.Steps c i v') : Models base (X86.step c s i) v' := by
  cases hv with
  | push hr =>
    rw [← h.regs _ hr]
    exact h.pushWord hsmall _
  | pushImm w => exact h.pushWord hsmall w
  | @pop r w ws hr hs =>
    have hmem := h.mem (k := 0) (w := w) (by rw [hs]; rfl)
    have hdrop := h.drop (k := 1) (by rw [hs]; exact Nat.le_add_left 1 _)
    rw [hs] at hdrop
    simp only [Nat.mul_zero, BitVec.add_zero] at hmem
    simp only [X86.step, hmem]
    exact hdrop.set hr w
  | mov hdst hsrc =>
    rw [← h.regs _ hsrc]
    exact h.set hdst _
  | load hdst hw =>
    simp only [X86.step, h.mem hw]
    exact h.set hdst _
  | drop hk => exact h.drop hk
  | addImm hdst w =>
    rw [← h.regs _ hdst]
    exact h.set hdst _
  | cld => exact h
  | call f hframe => exact h.ccall f hframe hsmall

theorem View.Steps.length_le {i : Instr F} (hv : v.Steps c i v') :
    v'.stack.length ≤ v.stack.length + 1 := by
  cases hv with
  | push | pushImm => exact Nat.le_refl _
  | pop hr hs =>
    rw [hs, List.length_cons]
    exact Nat.le_add_right _ 2
  | drop hk =>
    rw [List.length_drop]
    omega
  | mov | load | addImm | cld | call => exact Nat.le_succ _

/-- A routine that the view can follow to its end does on the processor what the view says. -/
theorem Models.run (h : Models base s v) (hsmall : v.stack.length + code.length < 2 ^ 59)
    (hv : v.run c code = some v') : Models base (Machine.run (X86.step c) s code) v' := by
  induction code generalizing s v with
  | nil =>
    obtain rfl := Option.some.inj hv
    exact h
  | cons i code ih =>
    obtain ⟨u, hu, hrest⟩ := Option.bind_eq_some_iff.mp hv
    have hstep := View.steps_of_step hu
    have hlen := hstep.length_le
    rw [List.length_cons] at hsmall
    exact ih (h.step (by omega) hstep) (by omega) hrest

/-- Every processor state is modelled by the words that lie above its stack pointer. -/
theorem models_top (s : Cpu σ) (n : Nat) :
    Models (s.regs .rsp + BitVec.ofNat 64 (8 * n)) s
      ⟨s.regs, (List.range n).map fun k => s.mem (s.regs .rsp + BitVec.ofNat 64 (8 * k)), s.world⟩
    where
  regs _ _ := rfl
  rsp := by
    simp only [List.length_map, List.length_range]
    rw [below, BitVec.add_sub_cancel]
  words k w hk := by
    simp only [List.length_map, List.length_range, List.getElem?_map,
      Option.map_eq_some_iff] at hk ⊢
    obtain ⟨j, hj, rfl⟩ := hk
    obtain ⟨hlt, rfl⟩ := List.getElem?_eq_some_iff.mp hj
    rw [List.length_range] at hlt
    have hzero : s.regs .rsp = below (s.regs .rsp + BitVec.ofNat 64 (8 * n)) n := by
      rw [below, BitVec.add_sub_cancel]
    rw [List.getElem_range, ← below_add _ (Nat.le_of_lt hlt), ← hzero]
  world := rfl

end Machine.X86
