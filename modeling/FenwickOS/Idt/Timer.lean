import FenwickOS.Idt.Irq
import FenwickOS.Lib.Runs

/-! `timer_wait` of kernel/idt/idt.c, with interrupts between its steps. -/
namespace FenwickOS.Idt
open Machine Kbd

/-- Where `timer_wait` is: before it reads the counter for its target, before the test of its loop,
before `hlt`, halted, or back in its caller. -/
inductive WaitPc
  | entry | test | halting | halted | returned
  deriving DecidableEq

structure Waiting where
  pc : WaitPc
  target : Word
  irq : IrqState

inductive WaitAction
  | step
  | interrupt (scancode : Byte) (intNo : Word)

/-- The call; `target` has no value of its own yet. -/
def Waiting.call (irq : IrqState) : Waiting := ⟨.entry, 0#64, irq⟩

def timerWait (ms : Word) (s : Waiting) : Waiting :=
  match s.pc with
  | .entry => { s with pc := .test, target := s.irq.timerTicks + ms / 10#64 }
  | .test => { s with pc := if s.irq.timerTicks < s.target then .halting else .returned }
  | .halting => { s with pc := .halted }
  | .halted => s
  | .returned => s

/-- An interrupt ends `hlt`. -/
def waitStep (ms : Word) (s : Waiting) : WaitAction → Waiting
  | .step => timerWait ms s
  | .interrupt scancode intNo =>
    { s with
      pc := if s.pc = .halted then .test else s.pc
      irq := irqHandler scancode intNo s.irq }

def WaitAction.isTick : WaitAction → Bool
  | .step => false
  | .interrupt _ intNo => intNo == 32#64

/-- The timer ticks of a run, of 10 ms each. -/
def ticks (actions : List WaitAction) : Nat := actions.countP WaitAction.isTick

/-- Whenever `timer_wait(ms)` has returned, ticks for `ms` milliseconds have come since the call. -/
def WaitsLongEnough (ms : Word) (irq : IrqState) : Prop :=
  ∀ actions, (run (waitStep ms) (.call irq) actions).pc = .returned →
    ms.toNat ≤ 10 * ticks actions

variable {ms : Word} {irq : IrqState} {s : Waiting} {a : WaitAction} {c j k : Nat}

theorem irqHandler_timerTicks (scancode : Byte) (intNo : Word) (irq : IrqState) :
    (irqHandler scancode intNo irq).timerTicks =
      if intNo = 32#64 then irq.timerTicks + 1#64 else irq.timerTicks := by
  unfold irqHandler
  split
  · rfl
  · split <;> simp [picSendEoi, outb, runKbdHandler, apply_ite IrqState.timerTicks]

theorem ticks_append (xs ys : List WaitAction) : ticks (xs ++ ys) = ticks xs + ticks ys :=
  List.countP_append

theorem toNat_div_ten (ms : Word) : (ms / 10#64).toNat = ms.toNat / 10 := by
  rw [BitVec.toNat_udiv]
  rfl

/-! ### Where the wait is long enough -/

/-- After `c` ticks: the target lies `ms / 10` ticks behind one of them, and a return has waited for
as many. -/
structure WaitInv (ms : Word) (irq : IrqState) (c : Nat) (s : Waiting) : Prop where
  counter : s.irq.timerTicks = irq.timerTicks + BitVec.ofNat 64 c
  target : s.pc ≠ .entry → ∃ k ≤ c, s.target = irq.timerTicks + BitVec.ofNat 64 k + ms / 10#64
  waited : s.pc = .returned → ms.toNat / 10 ≤ c

theorem waitInv_call (ms : Word) (irq : IrqState) : WaitInv ms irq 0 (.call irq) where
  counter := (BitVec.add_zero _).symm
  target h := absurd rfl h
  waited h := by cases h

theorem toNat_counter (h : irq.timerTicks.toNat + c < 2 ^ 64) :
    (irq.timerTicks + BitVec.ofNat 64 c).toNat = irq.timerTicks.toNat + c := by
  rw [BitVec.toNat_add, BitVec.toNat_ofNat]
  omega

theorem reached_target (hroom : irq.timerTicks.toNat + 2 * (ms.toNat / 10) ≤ 2 ^ 64)
    (hk : k ≤ c) (h : ¬ irq.timerTicks + BitVec.ofNat 64 c <
      irq.timerTicks + BitVec.ofNat 64 k + ms / 10#64) : ms.toNat / 10 ≤ c := by
  by_contra hlt
  refine h ?_
  rw [BitVec.lt_def]
  rw [BitVec.toNat_add _ (ms / 10#64), toNat_counter (by omega), toNat_counter (by omega),
    toNat_div_ten]
  omega

theorem waitInv_step (hroom : irq.timerTicks.toNat + 2 * (ms.toNat / 10) ≤ 2 ^ 64)
    (h : WaitInv ms irq c s) : WaitInv ms irq c (timerWait ms s) := by
  unfold timerWait
  cases hpc : s.pc with
  | entry =>
    refine ⟨h.counter, fun _ => ⟨c, Nat.le_refl c, ?_⟩, fun hret => by cases hret⟩
    rw [← h.counter]
  | test =>
    obtain ⟨k, hk, htarget⟩ := h.target (by rw [hpc]; decide)
    refine ⟨h.counter, fun _ => ⟨k, hk, htarget⟩, fun hret => ?_⟩
    have hreached : ¬ s.irq.timerTicks < s.target := by
      intro hlt
      simp [hlt] at hret
    rw [h.counter, htarget] at hreached
    exact reached_target hroom hk hreached
  | halting =>
    exact ⟨h.counter, fun _ => h.target (by rw [hpc]; decide), fun hret => by cases hret⟩
  | halted => exact h
  | returned => exact h

theorem waitInv_interrupt (h : WaitInv ms irq c s) (scancode : Byte) (intNo : Word) :
    WaitInv ms irq (c + ticks [.interrupt scancode intNo])
      (waitStep ms s (.interrupt scancode intNo)) := by
  have hcount : c ≤ c + ticks [.interrupt scancode intNo] := Nat.le_add_right _ _
  refine ⟨?_, fun hpc => ?_, fun hret => ?_⟩
  · have hcounter := h.counter
    by_cases htick : intNo = 32#64
    · simp [waitStep, irqHandler_timerTicks, ticks, WaitAction.isTick, htick, hcounter,
        BitVec.ofNat_add, BitVec.add_assoc]
    · simp [waitStep, irqHandler_timerTicks, ticks, WaitAction.isTick, htick, hcounter]
  · obtain ⟨k, hk, htarget⟩ := h.target fun hentry => hpc (by simp [waitStep, hentry])
    exact ⟨k, Nat.le_trans hk hcount, htarget⟩
  · refine Nat.le_trans (h.waited ?_) hcount
    by_contra hne
    by_cases hhalted : s.pc = .halted <;> simp [waitStep, hhalted, hne] at hret

theorem waitInv_run (hroom : irq.timerTicks.toNat + 2 * (ms.toNat / 10) ≤ 2 ^ 64)
    (actions : List WaitAction) :
    WaitInv ms irq (ticks actions) (run (waitStep ms) (.call irq) actions) := by
  induction actions using List.reverseRecOn with
  | nil => exact waitInv_call ms irq
  | append_singleton actions a ih =>
    rw [run_snoc, ticks_append]
    cases a with
    | step => exact waitInv_step hroom ih
    | interrupt scancode intNo => exact waitInv_interrupt ih scancode intNo

/-! ### Where it is not -/

def tick : WaitAction := .interrupt 0#8 32#64

theorem ticks_replicate (k : Nat) : ticks (List.replicate k tick) = k := by
  simp [ticks, List.countP_replicate, tick, WaitAction.isTick]

theorem waitStep_tick_pc (h : s.pc ≠ .halted) : (waitStep ms s tick).pc = s.pc := if_neg h

theorem waitStep_tick_counter (ms : Word) (s : Waiting) :
    (waitStep ms s tick).irq.timerTicks = s.irq.timerTicks + 1#64 := by
  rw [tick, waitStep, irqHandler_timerTicks, if_pos rfl]

theorem run_ticks (h : s.pc ≠ .halted) (k : Nat) :
    let t := run (waitStep ms) s (List.replicate k tick)
    t.pc = s.pc ∧ t.target = s.target ∧
      t.irq.timerTicks = s.irq.timerTicks + BitVec.ofNat 64 k := by
  induction k with
  | zero => exact ⟨rfl, rfl, (BitVec.add_zero _).symm⟩
  | succ k ih =>
    obtain ⟨hpc, htarget, hcounter⟩ := ih
    rw [List.replicate_succ', run_snoc]
    refine ⟨?_, htarget, ?_⟩
    · rw [waitStep_tick_pc (by rwa [hpc]), hpc]
    · rw [waitStep_tick_counter, hcounter]
      exact add_ofNat_add _ k 1

/-- `k` ticks before `timer_wait` reads the counter and `j` before it tests it. -/
def earlyTicks (k j : Nat) : List WaitAction :=
  (List.replicate k tick ++ [.step]) ++ (List.replicate j tick ++ [.step])

theorem ticks_earlyTicks (k j : Nat) : ticks (earlyTicks k j) = k + j := by
  have hstep : ticks [.step] = 0 := rfl
  simp only [earlyTicks, ticks_append, ticks_replicate, hstep, Nat.add_zero]

theorem timerWait_entry (h : s.pc = .entry) : timerWait ms s =
    { s with pc := .test, target := s.irq.timerTicks + ms / 10#64 } := by
  simp [timerWait, h]

theorem timerWait_test (h : s.pc = .test) (hreached : ¬ s.irq.timerTicks < s.target) :
    (timerWait ms s).pc = .returned := by
  simp [timerWait, h, hreached]

theorem earlyTicks_returns (h : ¬ irq.timerTicks + BitVec.ofNat 64 k + BitVec.ofNat 64 j <
    irq.timerTicks + BitVec.ofNat 64 k + ms / 10#64) :
    (run (waitStep ms) (.call irq) (earlyTicks k j)).pc = .returned := by
  have hcall : (Waiting.call irq).pc ≠ .halted := by simp [Waiting.call]
  obtain ⟨hpc, -, hcounter⟩ := @run_ticks ms _ hcall k
  have hread := @timerWait_entry ms _ hpc
  have htest : (timerWait ms (run (waitStep ms) (.call irq) (List.replicate k tick))).pc ≠
      .halted := by
    rw [hread]
    simp
  obtain ⟨hpc', htarget', hcounter'⟩ := @run_ticks ms _ htest j
  rw [hread] at hpc' htarget' hcounter'
  rw [earlyTicks, run_append, run_snoc, run_snoc, waitStep, waitStep, hread]
  refine timerWait_test hpc' ?_
  rw [htarget', hcounter', hcounter]
  exact h

/-- The time is never short for whole ticks far enough from the limit of the counter, and only
there. -/
theorem waitsLongEnough_iff (ms : Word) (irq : IrqState) : WaitsLongEnough ms irq ↔
    ms.toNat % 10 = 0 ∧ (ms = 0#64 ∨ irq.timerTicks.toNat + 2 * (ms.toNat / 10) ≤ 2 ^ 64) := by
  have hdiv := toNat_div_ten ms
  constructor
  · intro h
    have hearly (k j : Nat) (hreturn : ¬ irq.timerTicks + BitVec.ofNat 64 k + BitVec.ofNat 64 j <
        irq.timerTicks + BitVec.ofNat 64 k + ms / 10#64) : ms.toNat ≤ 10 * (k + j) := by
      have hlong := h (earlyTicks k j) (earlyTicks_returns hreturn)
      rwa [ticks_earlyTicks] at hlong
    have hwhole : ms.toNat % 10 = 0 := by
      have hlong := hearly 0 (ms.toNat / 10) ?_
      · omega
      · rw [← hdiv, BitVec.ofNat_toNat, BitVec.setWidth_eq]
        exact BitVec.lt_irrefl _
    refine ⟨hwhole, ?_⟩
    by_contra hnot
    obtain ⟨hne, hroom⟩ := not_or.mp hnot
    have hpos : 0 < ms.toNat := by
      have hzero : ms.toNat ≠ 0 := fun hzero => hne (BitVec.eq_of_toNat_eq hzero)
      omega
    -- the counter is read so close to its limit that the target wraps
    obtain ⟨k, hk, hlt, hwrap⟩ : ∃ k < ms.toNat / 10, irq.timerTicks.toNat + k < 2 ^ 64 ∧
        2 ^ 64 ≤ irq.timerTicks.toNat + k + ms.toNat / 10 := by
      have hcounter := irq.timerTicks.isLt
      exact ⟨min (ms.toNat / 10 - 1) (2 ^ 64 - 1 - irq.timerTicks.toNat), by omega, by omega,
        by omega⟩
    have hlong := hearly k 0 ?_
    · omega
    · rw [BitVec.add_zero, BitVec.lt_def, BitVec.toNat_add _ (ms / 10#64), toNat_counter hlt, hdiv]
      omega
  · rintro ⟨hwhole, rfl | hroom⟩ actions hreturn
    · exact Nat.zero_le _
    · have hwaited := (waitInv_run hroom actions).waited hreturn
      omega

def IrqState.boot : IrqState where
  timerTicks := 0#64
  kbd := .boot
  io := []

/-- Five milliseconds are over at once. -/
theorem not_waitsLongEnough_five :
    ¬ ∀ (ms : Word) (irq : IrqState), WaitsLongEnough ms irq := by
  intro h
  have hlong := h 5#64 .boot [.step, .step] rfl
  exact absurd hlong (by decide)

end FenwickOS.Idt
