import FenwickOS.Drv.KbdKeys
import FenwickOS.Drv.SubsystemStdout

/-! What `ioctl` on the keyboard driver answers, in every state that scancodes and reads lead to. -/
namespace FenwickOS.Drv
open Machine Vfs Kbd

inductive KbdDriverCall
  | init
  | isr (status sc : Byte)
  | read (buf len : Word)

def kbdDriverCallStep (s : KbdDriver) : KbdDriverCall → KbdDriver
  | .init => (kbdDriverInit s).2
  | .isr status sc => kbdHandlerIsr status sc s
  | .read buf len => (kbdDriverRead buf len s).2.2

/-- The scancode that the handler takes from the data port. -/
def KbdDriverCall.scancode : KbdDriverCall → Option Byte
  | .isr status sc => if status &&& 0x01#8 = 0#8 then none else some sc
  | _ => none

/-- A scancode of the key `code` that is no prefix. -/
def isEventOf (code sc : Byte) : Bool := sc != 0xE0#8 && sc &&& 0x7F#8 == code

/-- The last of them is a make code. -/
def LastMake (code : Byte) (scancodes : List Byte) : Prop :=
  ∃ sc, (scancodes.filter (isEventOf code)).getLast? = some sc ∧ released sc = false

/-- The call stays inside `kbd_state`, changes nothing and answers -1, 0 or 1; a key is said to be
down only if its last scancode was a make code. -/
def AnswersInBounds (scancodes : List Byte) (id : NodeId) (cmd : BitVec 32) (arg : Word)
    (k : Kernel World) : Prop :=
  ∃ n : Int, vfsIoctl id cmd arg k = some (n, k) ∧ (n = -1 ∨ n = 0 ∨ n = 1) ∧
    (cmd = 10#32 → n = 1 → LastMake (arg.setWidth 8) scancodes)

variable {s : KbdDriver} {k : Kernel World} {id : NodeId} {cmd : BitVec 32} {arg : Word}
  {code : Fin 128} {sc : Byte} {scs : List Byte} {stack : StackNames} {w : World}

/-! ### The keys that are down -/

theorem LastMake.skip (h : LastMake (BitVec.ofNat 8 code.val) scs)
    (hother : sc = 0xE0#8 ∨ keyCode sc ≠ code) :
    LastMake (BitVec.ofNat 8 code.val) (scs ++ [sc]) := by
  have hdrop : ¬ isEventOf (BitVec.ofNat 8 code.val) sc = true := by
    rcases hother with rfl | hcode
    · simp [isEventOf]
    · simp [isEventOf, mt (code_eq_iff code sc).mp hcode]
  obtain ⟨last, hlast, hmake⟩ := h
  refine ⟨last, ?_, hmake⟩
  rwa [List.filter_append, List.filter_cons_of_neg hdrop, List.filter_nil,
    List.append_nil]

theorem lastMake_snoc (hextended : sc ≠ 0xE0#8) (hmake : released sc = false) :
    LastMake (BitVec.ofNat 8 (keyCode sc).val) (scs ++ [sc]) := by
  have hkeep : isEventOf (BitVec.ofNat 8 (keyCode sc).val) sc = true := by
    simp [isEventOf, hextended, (code_eq_iff (keyCode sc) sc).mpr rfl]
  refine ⟨sc, ?_, hmake⟩
  rw [List.filter_append, List.filter_cons_of_pos hkeep, List.filter_nil, List.getLast?_concat]

theorem lastMake_scan {keys : Keys}
    (h : ∀ code, keys.pressed code = true → LastMake (BitVec.ofNat 8 code.val) scs) (sc : Byte)
    (hpressed : (keys.scan sc).pressed code = true) :
    LastMake (BitVec.ofNat 8 code.val) (scs ++ [sc]) := by
  dsimp only [Keys.scan] at hpressed
  by_cases hextended : sc = 0xE0#8
  · rw [if_pos hextended] at hpressed
    exact (h code hpressed).skip (Or.inl hextended)
  · rw [if_neg hextended] at hpressed
    by_cases hcode : code = keyCode sc
    · subst hcode
      rw [Function.update_self] at hpressed
      exact lastMake_snoc hextended (by simpa using hpressed)
    · rw [Function.update_of_ne hcode] at hpressed
      exact (h code hpressed).skip (Or.inr (Ne.symm hcode))

theorem kbdState_drain (rounds len : Nat) (s : KbdDriver) :
    (drain rounds len s).2.kbdState = s.kbdState := by
  induction rounds generalizing len s with
  | zero => rfl
  | succ rounds ih =>
    cases len with
    | zero => rfl
    | succ len =>
      unfold drain
      split
      · rfl
      · exact ih len _

theorem kbdState_kbdDriverRead (buf len : Word) (s : KbdDriver) :
    (kbdDriverRead buf len s).2.2.kbdState = s.kbdState := by
  unfold kbdDriverRead
  split
  · rfl
  · exact kbdState_drain _ _ _

theorem lastMake_run (calls : List KbdDriverCall)
    (hpressed : (run kbdDriverCallStep KbdDriver.boot calls).kbdState code = true) :
    LastMake (BitVec.ofNat 8 code.val) (calls.filterMap KbdDriverCall.scancode) := by
  induction calls using List.reverseRecOn generalizing code with
  | nil => cases hpressed
  | append_singleton calls call ih =>
    rw [run_snoc] at hpressed
    rw [List.filterMap_append]
    generalize run kbdDriverCallStep KbdDriver.boot calls = s at ih hpressed
    cases call with
    | init => cases hpressed
    | isr status sc =>
      dsimp only [kbdDriverCallStep] at hpressed
      by_cases hdata : status &&& 0x01#8 = 0#8
      · rw [kbdHandlerIsr_idle hdata] at hpressed
        simpa [KbdDriverCall.scancode, hdata] using ih hpressed
      · have hkeys := congrArg Keys.pressed (kbdHandlerIsr_keys hdata sc s)
        have hscan : (s.keys.scan sc).pressed code = true := hkeys ▸ hpressed
        simpa [KbdDriverCall.scancode, hdata] using lastMake_scan (fun _ h => ih h) sc hscan
    | read buf len =>
      dsimp only [kbdDriverCallStep] at hpressed
      rw [kbdState_kbdDriverRead] at hpressed
      exact (List.append_nil _).symm ▸ ih hpressed

/-! ### The call -/

theorem vfsIoctl_kbd (h : BoundTo kbdOps id k) (cmd : BitVec 32) (arg : Word) :
    vfsIoctl id cmd arg k = (kbdDriverIoctl cmd arg k.world.kbd).map
      fun r => (r.1, { k with world := { k.world with kbd := r.2 } }) := by
  obtain ⟨node, dev, hnode, hdevice, hops⟩ := h
  simp [vfsIoctl, hnode, hdevice, drvCallIoctl, hops, kbdOps]
  rfl

theorem bool_toInt_cases (b : Bool) : b.toInt = -1 ∨ b.toInt = 0 ∨ b.toInt = 1 := by
  cases b <;> decide

theorem kbdDriverIoctl_other (hcmd : cmd ≠ 10#32) (arg : Word) (s : KbdDriver) :
    ∃ n : Int, kbdDriverIoctl cmd arg s = some (n, s) ∧ (n = -1 ∨ n = 0 ∨ n = 1) := by
  unfold kbdDriverIoctl
  split
  · exact ⟨_, rfl, bool_toInt_cases _⟩
  split
  · exact ⟨_, rfl, bool_toInt_cases _⟩
  split
  · exact ⟨_, rfl, bool_toInt_cases _⟩
  split
  · exact ⟨_, rfl, bool_toInt_cases _⟩
  split
  · exact ⟨_, rfl, bool_toInt_cases _⟩
  · exact ⟨-1, rfl, Or.inl rfl⟩

theorem kbdDriverIoctl_ten (arg : Word) (s : KbdDriver) :
    kbdDriverIoctl 10#32 arg s =
      if h : (arg.setWidth 8).toNat < 128 then some ((s.kbdState ⟨_, h⟩).toInt, s) else none := rfl

/-- In every reachable state of the driver the call behaves exactly if it does not ask for a key
code of 128 or more. -/
theorem vfsIoctl_kbd_iff (hbound : BoundTo kbdOps id k) (calls : List KbdDriverCall)
    (hkbd : k.world.kbd = run kbdDriverCallStep KbdDriver.boot calls) (cmd : BitVec 32)
    (arg : Word) :
    AnswersInBounds (calls.filterMap KbdDriverCall.scancode) id cmd arg k ↔
      (cmd = 10#32 → (arg.setWidth 8).toNat < 128) := by
  rw [AnswersInBounds, vfsIoctl_kbd hbound]
  by_cases hcmd : cmd = 10#32
  · subst hcmd
    rw [kbdDriverIoctl_ten]
    by_cases hlt : (arg.setWidth 8).toNat < 128
    · refine iff_of_true ?_ fun _ => hlt
      rw [dif_pos hlt]
      refine ⟨_, rfl, bool_toInt_cases _, fun _ hdown => ?_⟩
      have hpressed : k.world.kbd.kbdState ⟨_, hlt⟩ = true := by
        refine Bool.eq_true_of_not_eq_false fun hup => ?_
        dsimp only at hdown
        rw [hup] at hdown
        cases hdown
      rw [hkbd] at hpressed
      have hcode : BitVec.ofNat 8 (arg.setWidth 8).toNat = arg.setWidth 8 := by
        rw [BitVec.ofNat_toNat, BitVec.setWidth_eq]
      exact hcode ▸ lastMake_run calls hpressed
    · refine iff_of_false ?_ fun h => hlt (h rfl)
      rw [dif_neg hlt]
      rintro ⟨n, hcall, -⟩
      cases hcall
  · obtain ⟨n, hcall, hn⟩ := kbdDriverIoctl_other hcmd arg k.world.kbd
    refine iff_of_true ?_ fun h => absurd h hcmd
    rw [hcall]
    exact ⟨n, rfl, hn, fun h => absurd h hcmd⟩

/-- A kernel to whose keyboard driver these scancodes have come. -/
def typed (scancodes : List Byte) (k : Kernel World) : Kernel World :=
  { k with
    world := { k.world with
               kbd := run kbdDriverCallStep KbdDriver.boot (scancodes.map (.isr 1#8)) } }

theorem boundTo_typed (scancodes : List Byte) :
    BoundTo kbdOps vfsNodeKbd
      (typed scancodes (subsystemInit .zero (bootKernel zeroWorld))) := by
  have htables (k : Kernel World) :
      (typed scancodes k).registry = k.registry ∧ (typed scancodes k).vfs = k.vfs := ⟨rfl, rfl⟩
  exact boundTo_kbd (htables _).1 (htables _).2

theorem vfsIoctl_kbd_a :
    AnswersInBounds [0x1E#8] vfsNodeKbd 10#32 0x1E#64
      (typed [0x1E#8] (subsystemInit .zero (bootKernel zeroWorld))) := by
  have h := vfsIoctl_kbd_iff (boundTo_typed [0x1E#8]) ([0x1E#8].map (.isr 1#8)) rfl 10#32 0x1E#64
  exact h.mpr fun _ => by decide

/-- Key code 128 is the byte behind the table. -/
theorem vfsIoctl_kbd_outside :
    ¬ AnswersInBounds [] vfsNodeKbd 10#32 0x80#64
      (typed [] (subsystemInit .zero (bootKernel zeroWorld))) := by
  rintro ⟨n, hcall, -⟩
  rw [vfsIoctl_kbd (boundTo_typed []), kbdDriverIoctl_ten, dif_neg (by decide)] at hcall
  cases hcall

end FenwickOS.Drv
