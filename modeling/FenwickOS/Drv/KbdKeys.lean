import FenwickOS.Drv.KbdDriver
import FenwickOS.Kbd.Keys

/-! The keys held in kernel/drv/drv_kbd.c, and when the flags of both decoders agree with them. -/
namespace FenwickOS.Drv
open Machine Kbd

def KbdDriver.flags (s : KbdDriver) : Flags := ⟨s.shift, s.ctrl, s.alt, s.caps⟩

def KbdDriver.keys (s : KbdDriver) : Keys := ⟨s.kbdState, s.flags⟩

def KbdDriver.boot : KbdDriver :=
  ⟨⟨fun _ => 0#8, 0, 0⟩, false, false, false, false, false, fun _ => false⟩

inductive KbdDriverOp
  | init
  | isr (status sc : Byte)

def kbdDriverOpStep (s : KbdDriver) : KbdDriverOp → KbdDriver
  | .init => (kbdDriverInit s).2
  | .isr status sc => kbdHandlerIsr status sc s

/-- If there is data to read, it releases no Shift key while the other is held. -/
def KbdDriverOp.KeepsFlags (s : KbdDriver) : KbdDriverOp → Prop
  | .init => True
  | .isr status sc => status &&& 0x01#8 ≠ 0#8 → s.keys.ReleasesLast sc

variable {s : KbdDriver} {c status sc : Byte} {k : Keys}

theorem keys_bufPush (c : Byte) (s : KbdDriver) : (bufPush c s).keys = s.keys := by
  unfold bufPush
  split <;> rfl

theorem code_eq_iff (n : Fin 128) (sc : Byte) :
    sc &&& 0x7F#8 = BitVec.ofNat 8 n.val ↔ keyCode sc = n := by
  have hn := n.isLt
  rw [keyCode, ← BitVec.toNat_inj, Fin.ext_iff, BitVec.toNat_ofNat, Fin.val_ofNat,
    Nat.mod_eq_of_lt (code_lt sc), Nat.mod_eq_of_lt (by omega)]

/-- The interrupt handler of drv_kbd.c refines the keys. -/
theorem kbdHandlerIsr_keys (hdata : status &&& 0x01#8 ≠ 0#8) (sc : Byte) (s : KbdDriver) :
    (kbdHandlerIsr status sc s).keys = s.keys.scan sc := by
  unfold kbdHandlerIsr Keys.scan Flags.scan
  dsimp only
  rw [if_neg hdata]
  by_cases hextended : sc = 0xE0#8
  · rw [if_pos hextended, if_pos hextended, if_pos hextended]
    rfl
  · have hshift : (sc &&& 0x7F#8 = 0x2A#8 ∨ sc &&& 0x7F#8 = 0x36#8) ↔ isShiftKey (keyCode sc) :=
      or_congr (code_eq_iff 0x2A sc) (code_eq_iff 0x36 sc)
    have hctrl : sc &&& 0x7F#8 = 0x1D#8 ↔ keyCode sc = 0x1D := code_eq_iff 0x1D sc
    have halt : sc &&& 0x7F#8 = 0x38#8 ↔ keyCode sc = 0x38 := code_eq_iff 0x38 sc
    have hcaps : sc &&& 0x7F#8 = 0x3A#8 ↔ keyCode sc = 0x3A := code_eq_iff 0x3A sc
    rw [if_neg hextended, if_neg hextended, if_neg hextended, dif_pos (code_lt sc), keyCode_eq]
    simp only [hshift, hctrl, halt, hcaps]
    unfold Flags.key
    change (if _ then _ else _ : KbdDriver).keys =
      ⟨_, if _ then _ else if _ then _ else if _ then _ else if _ ∧ (!released sc) = true then _
        else _⟩
    by_cases h : isShiftKey (keyCode sc)
    · rw [if_pos h, if_pos h]
      rfl
    rw [if_neg h, if_neg h]
    by_cases h : keyCode sc = 0x1D
    · rw [if_pos h, if_pos h]
      rfl
    rw [if_neg h, if_neg h]
    by_cases h : keyCode sc = 0x38
    · rw [if_pos h, if_pos h]
      rfl
    rw [if_neg h, if_neg h]
    by_cases h : keyCode sc = 0x3A ∧ (!released sc) = true
    · rw [if_pos h]
      exact (congrArg KbdDriver.keys (if_pos h)).trans rfl
    · rw [if_neg h]
      refine (congrArg KbdDriver.keys (if_neg h)).trans ?_
      split
      · rfl
      · exact keys_bufPush _ _

theorem kbdHandlerIsr_idle (hdata : status &&& 0x01#8 = 0#8) (sc : Byte) (s : KbdDriver) :
    kbdHandlerIsr status sc s = s := if_pos hdata

theorem agree_clear : Keys.Agree ⟨fun _ => false, ⟨false, false, false, false⟩⟩ := by
  rw [Keys.agree_iff]
  simp

theorem agree_kbdDriverOpStep (h : s.keys.Agree) (op : KbdDriverOp) :
    (kbdDriverOpStep s op).keys.Agree ↔ op.KeepsFlags s := by
  cases op with
  | init => exact iff_of_true agree_clear trivial
  | isr status sc =>
    dsimp only [kbdDriverOpStep, KbdDriverOp.KeepsFlags]
    by_cases hdata : status &&& 0x01#8 = 0#8
    · rw [kbdHandlerIsr_idle hdata]
      exact iff_of_true h fun hready => absurd hdata hready
    · rw [kbdHandlerIsr_keys hdata, h.scan_iff]
      exact ⟨fun hlast _ => hlast, fun hlast => hlast hdata⟩

/-- In each decoder the flags agree with the keys held exactly as long as no Shift key is released
while the other one is held and, in kbd.c, no initialisation falls on a held key. -/
theorem flags_agree_iff (ops : List KbdOp) (driverOps : List KbdDriverOp) :
    (Throughout kbdOpStep (fun s => s.keys.Agree) KbdState.boot ops ↔
      Allowed kbdOpStep KbdOp.KeepsFlags KbdState.boot ops) ∧
    (Throughout kbdDriverOpStep (fun s => s.keys.Agree) KbdDriver.boot driverOps ↔
      Allowed kbdDriverOpStep KbdDriverOp.KeepsFlags KbdDriver.boot driverOps) := by
  have hboot : KbdDriver.boot.keys.Agree := agree_clear
  refine ⟨kbdFlags_agree_iff ops, ?_⟩
  exact throughout_iff_allowed (Q := fun s : KbdDriver => s.keys.Agree) (fun _ h => h)
    (fun _ op h hop => (agree_kbdDriverOpStep h op).mpr hop)
    (fun _ op h hagree => (agree_kbdDriverOpStep h op).mp hagree) hboot driverOps

theorem flags_disagree :
    ¬ Throughout kbdOpStep (fun s => s.keys.Agree) KbdState.boot
      [.handler 0x2A#8, .handler 0x36#8, .handler 0xAA#8] ∧
    ¬ Throughout kbdDriverOpStep (fun s => s.keys.Agree) KbdDriver.boot
      [.isr 1#8 0x2A#8, .isr 1#8 0x36#8, .isr 1#8 0xAA#8] := by
  constructor
  · intro h
    have hshift := (h _ List.prefix_rfl).shift
    revert hshift
    decide
  · intro h
    have hshift := (h _ List.prefix_rfl).shift
    revert hshift
    decide

end FenwickOS.Drv
