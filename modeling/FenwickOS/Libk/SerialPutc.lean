import FenwickOS.Drv.SerialLine
import FenwickOS.Lib.X86
import Mathlib.Data.List.Forall2

/-! `serial_putc` of lib/libk/src/serial.asm at work on its port, instruction by instruction. -/
namespace FenwickOS.Libk
open Machine Uart
open X86 (Cpu Reg)
open Drv (portWrite com1)

inductive SerialPc
  | pushRdx | pushRax | wait | inAl | testAl | jz | popRax | popRdx | movDx | outDx | ret
  deriving DecidableEq

/-- The routine beside the port; `pc` is `none` between two calls. The last two fields are no part
of it: the processor as each call so far has found it, and as each that has returned has left it. -/
structure SerialAsm where
  port : Port
  cpu : Cpu Unit
  zf : Bool
  pc : Option SerialPc
  calls : List (Cpu Unit)
  returned : List (Cpu Unit)

def al (w : Word) : Byte := w.setWidth 8

def setAl (w : Word) (v : Byte) : Word := (w.extractLsb' 8 56 ++ v : BitVec (56 + 8))

def dx (w : Word) : BitVec 16 := w.setWidth 16

def setDx (w : Word) (v : BitVec 16) : Word := (w.extractLsb' 16 48 ++ v : BitVec (48 + 16))

def lineStatus : BitVec 16 := 0x3FD#16

/-- A read finds the line status at COM1 + 5, whose bits but the fifth are in `other`, as is what
the rest of the ports hold. -/
def portRead (u : Port) (port : BitVec 16) (other : Byte) : Byte :=
  if port = lineStatus then
    if u.ready then other ||| 0x20#8 else other &&& ~~~0x20#8
  else other

def popTo (r : Reg) (cpu : Cpu Unit) : Cpu Unit :=
  (cpu.set .rsp (cpu.regs .rsp + 8#64)).set r (cpu.mem (cpu.regs .rsp))

def asmInstr (other : Byte) (s : SerialAsm) : SerialAsm :=
  match s.pc with
  | none => s
  | some .pushRdx => { s with cpu := s.cpu.pushWord (s.cpu.regs .rdx), pc := some .pushRax }
  | some .pushRax => { s with cpu := s.cpu.pushWord (s.cpu.regs .rax), pc := some .wait }
  | some .wait =>
    { s with cpu := s.cpu.set .rdx (setDx (s.cpu.regs .rdx) 0x3FD#16), pc := some .inAl }
  | some .inAl =>
    let v := portRead s.port (dx (s.cpu.regs .rdx)) other
    { s with cpu := s.cpu.set .rax (setAl (s.cpu.regs .rax) v), pc := some .testAl }
  | some .testAl => { s with zf := al (s.cpu.regs .rax) &&& 0x20#8 == 0#8, pc := some .jz }
  | some .jz => { s with pc := some (if s.zf then .wait else .popRax) }
  | some .popRax => { s with cpu := popTo .rax s.cpu, pc := some .popRdx }
  | some .popRdx => { s with cpu := popTo .rdx s.cpu, pc := some .movDx }
  | some .movDx =>
    { s with cpu := s.cpu.set .rdx (setDx (s.cpu.regs .rdx) 0x3F8#16), pc := some .outDx }
  | some .outDx =>
    { s with
      port := portWrite s.port (.outb (dx (s.cpu.regs .rdx)) (al (s.cpu.regs .rax)))
      pc := some .ret }
  | some .ret =>
    let cpu := s.cpu.set .rsp (s.cpu.regs .rsp + 8#64)
    { s with cpu := cpu, pc := none, returned := s.returned ++ [cpu] }

/-- A call finds any registers and memory, its return address on the stack; the routine executes an
instruction; the port works on its own. -/
inductive AsmEvent
  | call (caller : Cpu Unit)
  | instr (other : Byte)
  | load
  | send

def asmStep (s : SerialAsm) : AsmEvent → SerialAsm
  | .call caller =>
    if s.pc.isNone then { s with cpu := caller, pc := some .pushRdx, calls := s.calls ++ [caller] }
    else s
  | .instr other => asmInstr other s
  | .load => { s with port := s.port.load }
  | .send => { s with port := s.port.send }

def SerialAsm.start (u : Port) (cpu : Cpu Unit) : SerialAsm := ⟨u, cpu, false, none, [], []⟩

/-! ### One call -/

/-- How many bytes of the stack the routine has taken. -/
def SerialPc.depth : SerialPc → Word
  | .pushRdx | .movDx | .outDx | .ret => 0#64
  | .pushRax | .popRdx => 8#64
  | .wait | .inAl | .testAl | .jz | .popRax => 16#64

/-- What `rdx` holds, where the routine relies on it. -/
def SerialPc.rdx (w : Word) : SerialPc → Option Word
  | .pushRdx | .pushRax | .movDx => some w
  | .outDx | .ret => some (setDx w 0x3F8#16)
  | _ => none

def SerialPc.ownRax : SerialPc → Bool
  | .inAl | .wait | .testAl | .jz | .popRax => false
  | _ => true

/-- The routine has come to `pc` since the processor was `caller`. -/
structure Inside (caller : Cpu Unit) (pc : SerialPc) (cpu : Cpu Unit) : Prop where
  rsp : cpu.regs .rsp = caller.regs .rsp - pc.depth
  rax : pc.ownRax = true → cpu.regs .rax = caller.regs .rax
  rdx : ∀ w, pc.rdx (caller.regs .rdx) = some w → cpu.regs .rdx = w
  status : pc = .inAl → dx (cpu.regs .rdx) = lineStatus
  others : ∀ r, r ≠ .rax → r ≠ .rdx → r ≠ .rsp → cpu.regs r = caller.regs r
  savedRdx : pc.depth ≠ 0#64 → cpu.mem (caller.regs .rsp - 8#64) = caller.regs .rdx
  savedRax : pc.depth = 16#64 → cpu.mem (caller.regs .rsp - 16#64) = caller.regs .rax
  mem : ∀ x, x ≠ caller.regs .rsp - 8#64 → x ≠ caller.regs .rsp - 16#64 →
    cpu.mem x = caller.mem x

/-- A call that has returned: all registers but `dx` are as they were, and all memory but two
words below the stack. -/
structure Undisturbed (caller cpu : Cpu Unit) : Prop where
  rsp : cpu.regs .rsp = caller.regs .rsp + 8#64
  rdx : cpu.regs .rdx = setDx (caller.regs .rdx) 0x3F8#16
  others : ∀ r, r ≠ .rdx → r ≠ .rsp → cpu.regs r = caller.regs r
  mem : ∀ x, x ≠ caller.regs .rsp - 8#64 → x ≠ caller.regs .rsp - 16#64 →
    cpu.mem x = caller.mem x

variable {s : SerialAsm} {caller cpu : Cpu Unit} {pc : SerialPc} {other : Byte} {w : Word}

@[simp] theorem dx_setDx (w : Word) (v : BitVec 16) : dx (setDx w v) = v :=
  BitVec.setWidth_append_eq_right

@[simp] theorem al_setAl (w : Word) (v : Byte) : al (setAl w v) = v :=
  BitVec.setWidth_append_eq_right

theorem sub_eight_ne (a : Word) : a - 16#64 ≠ a - 8#64 := by
  bv_omega

theorem inside_call (caller : Cpu Unit) : Inside caller .pushRdx caller where
  rsp := (BitVec.sub_zero _).symm
  rax _ := rfl
  rdx w hw := Option.some.inj hw
  status h := by cases h
  others _ _ _ _ := rfl
  savedRdx h := absurd rfl h
  savedRax h := by cases h
  mem _ _ _ := rfl

theorem Inside.pushRdx (h : Inside caller .pushRdx cpu) :
    Inside caller .pushRax (cpu.pushWord (cpu.regs .rdx)) := by
  have hrsp : cpu.regs .rsp = caller.regs .rsp := h.rsp.trans (BitVec.sub_zero _)
  have hrdx : cpu.regs .rdx = caller.regs .rdx := h.rdx _ rfl
  refine ⟨?_, fun hr => ?_, fun w hw => ?_, fun hp => ?_, fun r hax hdx hsp => ?_, fun _ => ?_,
    fun hd => ?_, fun x hx _ => ?_⟩
  · rw [X86.Cpu.pushWord_regs, if_pos rfl, hrsp]
    rfl
  · rw [X86.Cpu.pushWord_regs, if_neg (by decide)]
    exact h.rax rfl
  · rw [X86.Cpu.pushWord_regs, if_neg (by decide)]
    exact hrdx.trans (Option.some.inj hw)
  · cases hp
  · rw [X86.Cpu.pushWord_regs, if_neg hsp]
    exact h.others r hax hdx hsp
  · rw [X86.Cpu.pushWord_mem, hrsp, if_pos rfl, hrdx]
  · cases hd
  · rw [X86.Cpu.pushWord_mem, hrsp, if_neg hx]
    exact h.mem x hx ‹_›

theorem Inside.pushRax (h : Inside caller .pushRax cpu) :
    Inside caller .wait (cpu.pushWord (cpu.regs .rax)) := by
  have hrsp : cpu.regs .rsp - 8#64 = caller.regs .rsp - 16#64 := by
    rw [h.rsp, BitVec.sub_sub]
    rfl
  refine ⟨?_, fun hr => ?_, fun w hw => ?_, fun hp => ?_, fun r hax hdx hsp => ?_, fun _ => ?_,
    fun _ => ?_, fun x hx hx' => ?_⟩
  · rw [X86.Cpu.pushWord_regs, if_pos rfl, hrsp]
    rfl
  · cases hr
  · cases hw
  · cases hp
  · rw [X86.Cpu.pushWord_regs, if_neg hsp]
    exact h.others r hax hdx hsp
  · rw [X86.Cpu.pushWord_mem, hrsp, if_neg (sub_eight_ne _).symm]
    exact h.savedRdx (by decide)
  · rw [X86.Cpu.pushWord_mem, hrsp, if_pos rfl]
    exact h.rax rfl
  · rw [X86.Cpu.pushWord_mem, hrsp, if_neg hx']
    exact h.mem x hx hx'

/-- In the loop only `rax` and `rdx` change. -/
theorem Inside.loop {pc' : SerialPc} (h : Inside caller pc cpu) (hdepth : pc.depth = 16#64)
    (hdepth' : pc'.depth = 16#64) (hown : pc'.ownRax = false) (hrdx : ∀ w, pc'.rdx w = none)
    {regs : Reg → Word} (hregs : ∀ r, r ≠ .rax → r ≠ .rdx → regs r = cpu.regs r)
    (hstatus : pc' = .inAl → dx (regs .rdx) = lineStatus) :
    Inside caller pc' { cpu with regs := regs } := by
  refine ⟨?_, fun hr => ?_, fun w hw => ?_, hstatus, fun r hax hdx hsp => ?_, fun _ => ?_,
    fun _ => h.savedRax hdepth, h.mem⟩
  · rw [hdepth', ← hdepth, ← h.rsp]
    exact hregs .rsp (by decide) (by decide)
  · rw [hown] at hr
    cases hr
  · rw [hrdx] at hw
    cases hw
  · exact (hregs r hax hdx).trans (h.others r hax hdx hsp)
  · exact h.savedRdx (by rw [hdepth]; decide)

theorem popTo_regs (r r' : Reg) (cpu : Cpu Unit) : (popTo r cpu).regs r' =
    if r' = r then cpu.mem (cpu.regs .rsp)
    else if r' = .rsp then cpu.regs .rsp + 8#64 else cpu.regs r' := by
  rw [popTo, X86.Cpu.set_regs, X86.Cpu.set_regs]

theorem Inside.popRax (h : Inside caller .popRax cpu) :
    Inside caller .popRdx (popTo .rax cpu) := by
  have hrsp : cpu.regs .rsp = caller.regs .rsp - 16#64 := h.rsp
  have hup : caller.regs .rsp - 16#64 + 8#64 = caller.regs .rsp - 8#64 := by bv_omega
  refine ⟨?_, fun _ => ?_, fun w hw => ?_, fun hp => ?_, fun r hax hdx hsp => ?_, fun _ => ?_,
    fun hd => ?_, h.mem⟩
  · rw [popTo_regs, if_neg (by decide), if_pos rfl, hrsp, hup]
    rfl
  · rw [popTo_regs, if_pos rfl, hrsp]
    exact h.savedRax rfl
  · cases hw
  · cases hp
  · rw [popTo_regs, if_neg hax, if_neg hsp]
    exact h.others r hax hdx hsp
  · exact h.savedRdx (by decide)
  · cases hd

theorem Inside.popRdx (h : Inside caller .popRdx cpu) :
    Inside caller .movDx (popTo .rdx cpu) := by
  have hrsp : cpu.regs .rsp = caller.regs .rsp - 8#64 := h.rsp
  refine ⟨?_, fun _ => ?_, fun w hw => ?_, fun hp => ?_, fun r hax hdx hsp => ?_, fun hd => ?_,
    fun hd => ?_, h.mem⟩
  · rw [popTo_regs, if_neg (by decide), if_pos rfl, hrsp, BitVec.sub_add_cancel]
    exact (BitVec.sub_zero _).symm
  · rw [popTo_regs, if_neg (by decide), if_neg (by decide)]
    exact h.rax rfl
  · rw [popTo_regs, if_pos rfl, hrsp, h.savedRdx (by decide)]
    exact Option.some.inj hw
  · cases hp
  · rw [popTo_regs, if_neg hdx, if_neg hsp]
    exact h.others r hax hdx hsp
  · exact absurd rfl hd
  · cases hd

theorem Inside.movDx (h : Inside caller .movDx cpu) :
    Inside caller .outDx (cpu.set .rdx (setDx (cpu.regs .rdx) 0x3F8#16)) := by
  refine ⟨?_, fun _ => ?_, fun w hw => ?_, fun hp => ?_, fun r hax hdx hsp => ?_, fun hd => ?_,
    fun hd => ?_, h.mem⟩
  · rw [X86.Cpu.set_regs, if_neg (by decide)]
    exact h.rsp
  · rw [X86.Cpu.set_regs, if_neg (by decide)]
    exact h.rax rfl
  · rw [X86.Cpu.set_regs, if_pos rfl, h.rdx _ rfl]
    exact Option.some.inj hw
  · cases hp
  · rw [X86.Cpu.set_regs, if_neg hdx]
    exact h.others r hax hdx hsp
  · exact absurd rfl hd
  · cases hd

theorem Inside.outDx (h : Inside caller .outDx cpu) : Inside caller .ret cpu :=
  ⟨h.rsp, h.rax, h.rdx, fun hp => absurd hp (by decide), h.others, fun hd => absurd rfl hd,
    fun hd => absurd hd (by decide), h.mem⟩

theorem Inside.ret (h : Inside caller .ret cpu) :
    Undisturbed caller (cpu.set .rsp (cpu.regs .rsp + 8#64)) where
  rsp := by
    have hrsp : cpu.regs .rsp = caller.regs .rsp := h.rsp.trans (BitVec.sub_zero _)
    rw [X86.Cpu.set_regs, if_pos rfl, hrsp]
  rdx := by
    rw [X86.Cpu.set_regs, if_neg (by decide)]
    exact h.rdx _ rfl
  others r hdx hsp := by
    rw [X86.Cpu.set_regs, if_neg hsp]
    by_cases hax : r = .rax
    · rw [hax]
      exact h.rax rfl
    · exact h.others r hax hdx hsp
  mem := h.mem

/-! ### The routine polls -/

def pending (s : SerialAsm) : List Byte :=
  match s.pc with
  | none | some .ret => []
  | some _ => (s.calls.getLast?.map fun caller => al (caller.regs .rax)).toList

def cleared (s : SerialAsm) : Bool :=
  match s.pc with
  | some .testAl => (al (s.cpu.regs .rax)).getLsbD 5
  | some .jz => !s.zf
  | some .popRax | some .popRdx | some .movDx | some .outDx => true
  | _ => false

/-- The routine as a writer that polls. -/
def polled (s : SerialAsm) : Polled := ⟨s.port, pending s, cleared s⟩

/-- What the writer does in one step of the routine. -/
def polledEvents (s : SerialAsm) : AsmEvent → List Event
  | .call caller => if s.pc.isNone then [.call [al (caller.regs .rax)]] else []
  | .instr _ =>
    match s.pc with
    | some .inAl | some .outDx => [.poll]
    | _ => []
  | .load => [.load]
  | .send => [.send]

/-- Each call that has returned left the processor undisturbed, and the one under way has come to
its place. -/
structure OnTrack (s : SerialAsm) : Prop where
  current : ∀ pc, s.pc = some pc → ∃ earlier caller, s.calls = earlier ++ [caller] ∧
    Inside caller pc s.cpu ∧ List.Forall₂ Undisturbed earlier s.returned
  idle : s.pc = none → List.Forall₂ Undisturbed s.calls s.returned

theorem pending_eq {earlier : List (Cpu Unit)} (hcalls : s.calls = earlier ++ [caller])
    (hpc : s.pc = some pc) (hret : pc ≠ .ret) : pending s = [al (caller.regs .rax)] := by
  unfold pending
  rw [hpc, hcalls, List.getLast?_concat]
  cases pc with
  | ret => exact absurd rfl hret
  | _ => rfl

theorem status_bit (u : Port) (other : Byte) :
    (portRead u lineStatus other).getLsbD 5 = u.ready := by
  have hbit : (0x20#8 : Byte).getLsbD 5 = true := rfl
  rw [portRead, if_pos rfl]
  cases u.ready with
  | true =>
    rw [if_pos rfl, BitVec.getLsbD_or, hbit, Bool.or_true]
  | false =>
    rw [if_neg Bool.false_ne_true, BitVec.getLsbD_and, BitVec.getLsbD_not, hbit]
    simp

theorem test_bit (v : Byte) : (v &&& 0x20#8 == 0#8) = !v.getLsbD 5 := by
  have hpow : (0x20#8 : Byte) = BitVec.twoPow 8 5 := rfl
  rw [hpow, BitVec.and_twoPow]
  cases v.getLsbD 5 <;> rfl

theorem onTrack_of_inside {earlier : List (Cpu Unit)} {s' : SerialAsm} (hpc : s'.pc = some pc)
    (hcalls : s'.calls = earlier ++ [caller]) (hin : Inside caller pc s'.cpu)
    (hreturned : List.Forall₂ Undisturbed earlier s'.returned) : OnTrack s' where
  current pc' hpc' := by
    obtain rfl := Option.some.inj (hpc.symm.trans hpc')
    exact ⟨earlier, caller, hcalls, hin, hreturned⟩
  idle hnone := by
    rw [hpc] at hnone
    cases hnone

theorem set_other {r r' : Reg} (h : r' ≠ r) (cpu : Cpu Unit) (w : Word) :
    (cpu.set r w).regs r' = cpu.regs r' := by
  rw [X86.Cpu.set_regs, if_neg h]

theorem onTrack_instr (h : OnTrack s) (other : Byte) : OnTrack (asmInstr other s) := by
  cases hpc : s.pc with
  | none =>
    have hsame : asmInstr other s = s := by rw [asmInstr, hpc]
    rwa [hsame]
  | some pc =>
    obtain ⟨earlier, caller, hcalls, hin, hreturned⟩ := h.current pc hpc
    rw [asmInstr, hpc]
    cases pc with
    | pushRdx => exact onTrack_of_inside rfl hcalls hin.pushRdx hreturned
    | pushRax => exact onTrack_of_inside rfl hcalls hin.pushRax hreturned
    | wait =>
      refine onTrack_of_inside rfl hcalls (hin.loop rfl rfl rfl (fun _ => rfl)
        (fun r _ hdx => set_other hdx _ _) fun _ => ?_) hreturned
      rw [Function.update_self, dx_setDx]
      rfl
    | inAl =>
      exact onTrack_of_inside rfl hcalls (hin.loop rfl rfl rfl (fun _ => rfl)
        (fun r hax _ => set_other hax _ _) fun hp => by cases hp) hreturned
    | testAl =>
      exact onTrack_of_inside rfl hcalls (hin.loop rfl rfl rfl (fun _ => rfl)
        (fun _ _ _ => rfl) fun hp => by cases hp) hreturned
    | jz =>
      dsimp only
      cases s.zf with
      | true =>
        exact onTrack_of_inside rfl hcalls (hin.loop rfl rfl rfl (fun _ => rfl)
          (fun _ _ _ => rfl) fun hp => by cases hp) hreturned
      | false =>
        exact onTrack_of_inside rfl hcalls (hin.loop rfl rfl rfl (fun _ => rfl)
          (fun _ _ _ => rfl) fun hp => by cases hp) hreturned
    | popRax => exact onTrack_of_inside rfl hcalls hin.popRax hreturned
    | popRdx => exact onTrack_of_inside rfl hcalls hin.popRdx hreturned
    | movDx => exact onTrack_of_inside rfl hcalls hin.movDx hreturned
    | outDx => exact onTrack_of_inside rfl hcalls hin.outDx hreturned
    | ret =>
      refine ⟨fun pc' hpc' => absurd hpc' (by simp), fun _ => ?_⟩
      dsimp only
      rw [hcalls]
      exact List.rel_append hreturned (List.Forall₂.cons hin.ret List.Forall₂.nil)

theorem onTrack_step (h : OnTrack s) (e : AsmEvent) : OnTrack (asmStep s e) := by
  cases e with
  | call caller =>
    rw [asmStep]
    cases hpc : s.pc with
    | none => exact onTrack_of_inside rfl rfl (inside_call caller) (h.idle hpc)
    | some pc => exact h
  | instr other => exact onTrack_instr h other
  | load => exact ⟨h.current, h.idle⟩
  | send => exact ⟨h.current, h.idle⟩

theorem polled_eq {earlier : List (Cpu Unit)} (hcalls : s.calls = earlier ++ [caller])
    (hpc : s.pc = some pc) (hret : pc ≠ .ret) :
    polled s = ⟨s.port, [al (caller.regs .rax)], cleared s⟩ := by
  rw [polled, pending_eq hcalls hpc hret]

/-- An instruction that the port and the loop condition do not notice. -/
theorem polled_same {s' : SerialAsm} {pc' : SerialPc} {earlier : List (Cpu Unit)}
    (hcalls : s.calls = earlier ++ [caller]) (hcalls' : s'.calls = s.calls)
    (hport : s'.port = s.port) (hpc : s.pc = some pc) (hpc' : s'.pc = some pc')
    (hret : pc ≠ .ret) (hret' : pc' ≠ .ret) (hcleared : cleared s' = cleared s) :
    polled s' = polled s := by
  rw [polled_eq hcalls hpc hret, polled_eq (hcalls'.trans hcalls) hpc' hret', hport, hcleared]

/-- Only the read of the status and the write of the byte are seen from the port. -/
theorem polled_instr (h : OnTrack s) (other : Byte) :
    polled (asmInstr other s) = run Polled.step (polled s) (polledEvents s (.instr other)) := by
  cases hpc : s.pc with
  | none =>
    have hsame : asmInstr other s = s := by rw [asmInstr, hpc]
    rw [hsame, polledEvents, hpc]
    rfl
  | some pc =>
    obtain ⟨earlier, caller, hcalls, hin, -⟩ := h.current pc hpc
    rw [asmInstr, polledEvents, hpc]
    cases pc with
    | pushRdx | pushRax | wait | popRax | popRdx | movDx =>
      exact polled_same hcalls rfl rfl hpc rfl (by decide) (by decide) (by simp only [cleared, hpc])
    | testAl =>
      refine polled_same hcalls rfl rfl hpc rfl (by decide) (by decide) ?_
      simp only [cleared, hpc, test_bit, Bool.not_not]
    | jz =>
      have hnext : (if s.zf then SerialPc.wait else .popRax) ≠ .ret := by
        split <;> decide
      refine polled_same hcalls rfl rfl hpc rfl (by decide) hnext ?_
      cases hzf : s.zf <;> simp [cleared, hpc, hzf]
    | inAl =>
      obtain ⟨s', hs'⟩ : ∃ s', s' = { s with
          cpu := s.cpu.set .rax
            (setAl (s.cpu.regs .rax) (portRead s.port (dx (s.cpu.regs .rdx)) other))
          pc := some .testAl } := ⟨_, rfl⟩
      have hcalls' : s'.calls = earlier ++ [caller] := by
        rw [hs']
        exact hcalls
      have hpc' : s'.pc = some .testAl := by rw [hs']
      have hbit : cleared s' = s.port.ready := by
        rw [hs']
        dsimp only [cleared]
        rw [X86.Cpu.set_regs, if_pos rfl, al_setAl, hin.status rfl, status_bit]
      have hport : s'.port = s.port := by rw [hs']
      dsimp only
      rw [← hs', polled_eq hcalls' hpc' (by decide), polled_eq hcalls hpc (by decide), hbit, hport,
        cleared, hpc]
      rfl
    | outDx =>
      have hdx : dx (s.cpu.regs .rdx) = com1 := by
        rw [hin.rdx _ rfl, dx_setDx]
        rfl
      have hwrite (c : Byte) : portWrite s.port (.outb com1 c) = s.port.write 0 c := by
        rw [portWrite, BitVec.sub_self]
        rfl
      have hold : polled s = ⟨s.port, [al (caller.regs .rax)], true⟩ := by
        rw [polled_eq hcalls hpc (by decide), cleared, hpc]
      rw [hold, hin.rax rfl, hdx, hwrite]
      rfl
    | ret =>
      have hold : polled s = ⟨s.port, [], false⟩ := by
        rw [polled, pending, cleared, hpc]
      rw [hold]
      rfl

theorem polled_step (h : OnTrack s) (e : AsmEvent) :
    polled (asmStep s e) = run Polled.step (polled s) (polledEvents s e) := by
  cases e with
  | call caller =>
    rw [asmStep, polledEvents]
    cases hpc : s.pc with
    | none =>
      have hpending : pending { s with
          cpu := caller, pc := some .pushRdx, calls := s.calls ++ [caller] } =
            [al (caller.regs .rax)] := pending_eq rfl rfl (by decide)
      have hold : polled s = ⟨s.port, [], false⟩ := by
        rw [polled, pending, cleared, hpc]
      rw [Option.isNone_none, if_pos rfl, if_pos rfl, hold, polled, hpending]
      rfl
    | some pc => rfl
  | instr other => exact polled_instr h other
  | load => rfl
  | send => rfl

/-! ### Runs -/

def alAt (caller : Cpu Unit) : Byte := al (caller.regs .rax)

/-- From a port with these settings that had accepted `bytes`: the port is still set up, and it has
accepted, or the call under way is about to write, what `rax` held at the calls. -/
structure SendsAl (bytes : List Byte) (divisor : BitVec 16) (format : BitVec 7) (s : SerialAsm) :
    Prop where
  onTrack : OnTrack s
  working : (polled s).Working divisor format
  owed : s.port.accepted ++ pending s = bytes ++ s.calls.map alAt

variable {bytes : List Byte} {divisor : BitVec 16} {format : BitVec 7}

theorem owed_asmStep (h : OnTrack s) (hw : (polled s).Working divisor format) (e : AsmEvent) :
    ∃ calls, (asmStep s e).calls = s.calls ++ calls ∧
      (polled (asmStep s e)).owed = (polled s).owed ++ calls.map alAt := by
  have howed := Polled.owed_run hw (polledEvents s e)
  rw [← polled_step h] at howed
  have hcalls (hsame : (asmStep s e).calls = s.calls)
      (hnone : outputs Polled.step Polled.handed (polled s) (polledEvents s e) = []) :
      ∃ calls, (asmStep s e).calls = s.calls ++ calls ∧
        (polled (asmStep s e)).owed = (polled s).owed ++ calls.map alAt := by
    refine ⟨[], ?_, ?_⟩
    · rw [hsame, List.append_nil]
    · rw [howed, hnone]
      rfl
  cases e with
  | call caller =>
    cases hpc : s.pc with
    | none =>
      have hidle : pending s = [] := by rw [pending, hpc]
      refine ⟨[caller], ?_, ?_⟩
      · rw [asmStep, hpc]
        rfl
      · have hevents : polledEvents s (.call caller) = [.call [al (caller.regs .rax)]] := by
          rw [polledEvents, hpc]
          rfl
        have hempty : (polled s).todo.isEmpty = true := by
          rw [polled, hidle]
          rfl
        rw [howed, hevents, outputs, Polled.handed, if_pos hempty]
        rfl
    | some pc =>
      refine hcalls ?_ ?_
      · rw [asmStep, hpc]
        rfl
      · rw [polledEvents, hpc]
        rfl
  | instr other =>
    refine hcalls ?_ ?_
    · cases hpc : s.pc with
      | none => rw [asmStep, asmInstr, hpc]
      | some pc => cases pc <;> rw [asmStep, asmInstr, hpc]
    · rw [polledEvents]
      split <;> rfl
  | load => exact hcalls rfl rfl
  | send => exact hcalls rfl rfl

theorem sendsAl_step (h : SendsAl bytes divisor format s) (e : AsmEvent) :
    SendsAl bytes divisor format (asmStep s e) := by
  obtain ⟨calls, hcalls, howed⟩ := owed_asmStep h.onTrack h.working e
  refine ⟨onTrack_step h.onTrack e, ?_, ?_⟩
  · rw [polled_step h.onTrack]
    exact Polled.working_run h.working _
  · have hold : (polled s).owed = bytes ++ s.calls.map alAt := h.owed
    rw [hold] at howed
    rw [hcalls, List.map_append, ← List.append_assoc]
    exact howed

/-- How many instructions are left, if the transmitter stays empty. -/
def instrsLeft (s : SerialAsm) : Nat :=
  match s.pc with
  | none => 0
  | some .ret => 1
  | some .outDx => 2
  | some .movDx => 3
  | some .popRdx => 4
  | some .popRax => 5
  | some .jz => if s.zf then 10 else 6
  | some .testAl => if (al (s.cpu.regs .rax)).getLsbD 5 then 7 else 11
  | some .inAl => 8
  | some .wait => 9
  | some .pushRax => 10
  | some .pushRdx => 11

theorem instrsLeft_le (s : SerialAsm) : instrsLeft s ≤ 11 := by
  unfold instrsLeft
  split <;> try split
  all_goals decide

theorem one_lt_instrsLeft (hpc : s.pc = some pc) (hret : pc ≠ .ret) : 1 < instrsLeft s := by
  rw [instrsLeft, hpc]
  cases pc with
  | ret => exact absurd rfl hret
  | testAl | jz =>
    dsimp only
    split <;> decide
  | _ => exact Nat.lt_of_sub_pos (Nat.zero_lt_succ _)

/-- Every instruction brings the routine on, once the transmitter is empty. -/
theorem instrsLeft_instr (h : OnTrack s) (hready : s.port.ready = true ∨ instrsLeft s ≤ 1)
    (other : Byte) :
    instrsLeft (asmInstr other s) ≤ instrsLeft s - 1 ∧
      ((asmInstr other s).port.ready = true ∨ instrsLeft (asmInstr other s) ≤ 1) := by
  cases hpc : s.pc with
  | none =>
    have hsame : asmInstr other s = s := by rw [asmInstr, hpc]
    have hzero : instrsLeft s = 0 := by rw [instrsLeft, hpc]
    rw [hsame, hzero]
    exact ⟨Nat.le_refl _, Or.inr (Nat.zero_le _)⟩
  | some pc =>
    by_cases hret : pc = .ret
    · rw [hret] at hpc
      simp [asmInstr, instrsLeft, hpc]
    · have hr : s.port.ready = true :=
        hready.resolve_right (Nat.not_le.mpr (one_lt_instrsLeft hpc hret))
      obtain ⟨earlier, caller, -, hin, -⟩ := h.current pc hpc
      cases pc with
      | ret => exact absurd rfl hret
      | pushRdx | pushRax | wait | popRax | popRdx | movDx | outDx =>
        simp [asmInstr, instrsLeft, hpc, hr]
      | inAl =>
        have hbit := status_bit s.port other
        rw [← hin.status rfl, hr] at hbit
        simp [asmInstr, instrsLeft, hpc, hr, X86.Cpu.set_regs, hbit]
      | testAl =>
        simp only [asmInstr, instrsLeft, hpc, test_bit]
        cases (al (s.cpu.regs .rax)).getLsbD 5 <;> simp [hr]
      | jz => cases hzf : s.zf <;> simp [asmInstr, instrsLeft, hpc, hr, hzf]

/-- So the call returns. -/
theorem returns (h : OnTrack s) (hready : s.port.ready = true ∨ instrsLeft s ≤ 1)
    {others : List Byte} (hlen : instrsLeft s ≤ others.length) :
    (run asmStep s (others.map .instr)).pc = none := by
  induction others generalizing s with
  | nil =>
    have hzero : instrsLeft s = 0 := Nat.le_zero.mp hlen
    cases hpc : s.pc with
    | none => exact hpc
    | some pc =>
      by_cases hret : pc = .ret
      · rw [instrsLeft, hpc, hret] at hzero
        cases hzero
      · have hlt := one_lt_instrsLeft hpc hret
        omega
  | cons other others ih =>
    obtain ⟨hless, hready'⟩ := instrsLeft_instr h hready other
    rw [List.length_cons] at hlen
    have hlen' : instrsLeft (asmInstr other s) ≤ others.length := by omega
    exact ih (onTrack_instr h other) hready' hlen'

theorem sendsAl_run (h : SendsAl bytes divisor format s) (events : List AsmEvent) :
    SendsAl bytes divisor format (run asmStep s events) :=
  run_invariant (P := SendsAl bytes divisor format) (fun _ e hs => sendsAl_step hs e) h events

theorem calls_instrs (s : SerialAsm) (others : List Byte) :
    (run asmStep s (others.map .instr)).calls = s.calls := by
  induction others generalizing s with
  | nil => rfl
  | cons other others ih =>
    have hsame : (asmInstr other s).calls = s.calls := by
      cases hpc : s.pc with
      | none => rw [asmInstr, hpc]
      | some pc => cases pc <;> rw [asmInstr, hpc]
    exact (ih (asmInstr other s)).trans hsame

theorem owed_idle (h : SendsAl bytes divisor format s) (hpc : s.pc = none) :
    (run asmStep s [.send, .load, .send]).port.line = bytes ++ s.calls.map alAt := by
  have hidle : pending s = [] := by rw [pending, hpc]
  have howed : (polled s).owed = bytes ++ s.calls.map alAt := h.owed
  rw [← howed]
  exact Polled.line_flush h.working hidle

def callsDone (s : SerialAsm) : List (Cpu Unit) :=
  if s.pc.isNone then s.calls else s.calls.dropLast

theorem OnTrack.callsDone (h : OnTrack s) : List.Forall₂ Undisturbed (callsDone s) s.returned := by
  rw [Libk.callsDone]
  cases hpc : s.pc with
  | none => exact h.idle hpc
  | some pc =>
    obtain ⟨earlier, caller, hcalls, -, hreturned⟩ := h.current pc hpc
    rw [hcalls, Option.isNone_some, if_neg Bool.false_ne_true, List.dropLast_concat]
    exact hreturned

/-- `serial_putc` on a port that is set up for sending, in every interleaving of calls, of its
instructions and of the port's work: what is sent is what `al` held at the calls, in order, none
lost or repeated, whatever the argument in `rdi`; a call that returns has disturbed only `dx` and
two words below the stack; and if the port goes on working, the call under way returns and all
bytes leave. -/
theorem serial_putc_sends_al {u : Port} (cpu : Cpu Unit)
    (hu : (polled (.start u cpu)).Working divisor format) (events : List AsmEvent) :
    let t := run asmStep (.start u cpu) events
    t.port.accepted ++ pending t = u.accepted ++ t.calls.map alAt ∧
    (t.port.divisorLatch = false ∧ t.port.divisor = divisor ∧ t.port.format = format) ∧
    List.Forall₂ Undisturbed (callsDone t) t.returned ∧
    ∀ others : List Byte, 11 ≤ others.length →
      let later := run asmStep t (.send :: .load :: others.map .instr)
      later.pc = none ∧ later.calls = t.calls ∧
        (run asmStep later [.send, .load, .send]).port.line = u.accepted ++ t.calls.map alAt := by
  intro t
  have hstart : SendsAl u.accepted divisor format (.start u cpu) :=
    ⟨⟨fun pc hpc => (by cases hpc), fun _ => .nil⟩, hu, rfl⟩
  have ht : SendsAl u.accepted divisor format t := sendsAl_run hstart events
  refine ⟨ht.owed, ⟨ht.working.divisorLatch, ht.working.divisor, ht.working.format⟩,
    ht.onTrack.callsDone, fun others hlen => ?_⟩
  intro later
  -- the port has had time to take the byte that waits
  have hsent := sendsAl_run ht [.send, .load]
  have hready : (run asmStep t [.send, .load]).port.ready = true :=
    List.isEmpty_iff.mpr (Polled.queue_load_send ht.working)
  have hlater : SendsAl u.accepted divisor format later := sendsAl_run ht _
  have hpc : later.pc = none :=
    returns hsent.onTrack (Or.inl hready) (Nat.le_trans (instrsLeft_le _) hlen)
  have hcalls : later.calls = t.calls := calls_instrs (run asmStep t [.send, .load]) others
  refine ⟨hpc, hcalls, ?_⟩
  rw [owed_idle hlater hpc, hcalls]

/-- The argument is `A`, but `al` holds `Z`. -/
theorem serial_putc_sends_al_z :
    let u : Port := ⟨false, 1#16, 3#7, true, false, [], none, []⟩
    let caller : Cpu Unit := ⟨fun r => if r = .rax then 0x5A#64 else 0x41#64, fun _ => 0#64, ()⟩
    let t := run asmStep (.start u caller) [.call caller]
    (run asmStep (run asmStep t (.send :: .load :: (List.replicate 11 0#8).map .instr))
      [.send, .load, .send]).port.line = [0x5A#8] := by
  intro u caller t
  have hu : (polled (.start u caller)).Working 1#16 3#7 :=
    ⟨rfl, rfl, rfl, rfl, Nat.zero_le _, fun _ => rfl⟩
  obtain ⟨-, -, -, hlater⟩ := serial_putc_sends_al caller hu [.call caller]
  exact (hlater (List.replicate 11 0#8) (by decide)).2.2

end FenwickOS.Libk
