import FenwickOS.Kbd.Kbd
import FenwickOS.Lib.Runs

/-! What a keyboard decoder knows: the keys held, and the state of Shift, Ctrl, Alt and Caps Lock.
Both decoders of the kernel refine it. -/
namespace FenwickOS.Kbd
open Machine

local instance neZero_keys : NeZero 128 := ⟨by decide⟩

structure Flags where
  shift : Bool
  ctrl : Bool
  alt : Bool
  caps : Bool
  deriving DecidableEq

structure Keys where
  pressed : Fin 128 → Bool
  flags : Flags

def keyCode (sc : Byte) : Fin 128 := Fin.ofNat 128 (sc &&& 0x7F#8).toNat

def released (sc : Byte) : Bool := sc &&& 0x80#8 != 0#8

def Flags.key (f : Flags) (code : Fin 128) (down : Bool) : Flags :=
  if isShiftKey code then { f with shift := down }
  else if code = 0x1D then { f with ctrl := down }
  else if code = 0x38 then { f with alt := down }
  else if code = 0x3A ∧ down = true then { f with caps := !f.caps }
  else f

/-- The prefix 0xE0 is no key and changes nothing. -/
def Flags.scan (f : Flags) (sc : Byte) : Flags :=
  if sc = 0xE0#8 then f else f.key (keyCode sc) (!released sc)

def Keys.scan (k : Keys) (sc : Byte) : Keys where
  pressed := if sc = 0xE0#8 then k.pressed
    else Function.update k.pressed (keyCode sc) (!released sc)
  flags := k.flags.scan sc

/-- Shift is on while one of its two keys is held, Ctrl and Alt while theirs is. -/
@[mk_iff]
structure Keys.Agree (k : Keys) : Prop where
  shift : k.flags.shift = true ↔ k.pressed 0x2A = true ∨ k.pressed 0x36 = true
  ctrl : k.flags.ctrl = true ↔ k.pressed 0x1D = true
  alt : k.flags.alt = true ↔ k.pressed 0x38 = true

/-- No Shift key is released while the other one is held. -/
@[mk_iff]
structure Keys.ReleasesLast (k : Keys) (sc : Byte) : Prop where
  left : sc = 0xAA#8 → k.pressed 0x36 = false
  right : sc = 0xB6#8 → k.pressed 0x2A = false

def hasModifier (modifiers flag : BitVec 32) : Bool := modifiers &&& flag != 0#32

def modifierFlags (modifiers : BitVec 32) : Flags where
  shift := hasModifier modifiers kbdModShift
  ctrl := hasModifier modifiers kbdModCtrl
  alt := hasModifier modifiers kbdModAlt
  caps := hasModifier modifiers kbdModCaps

def KbdState.flags (s : KbdState) : Flags := modifierFlags s.kbdModifiers

def KbdState.keys (s : KbdState) : Keys := ⟨s.kbdPressed, s.flags⟩

variable {s : KbdState} {k : Keys} {f : Flags} {sc : Byte} {m : BitVec 32}

theorem code_lt (sc : Byte) : (sc &&& 0x7F#8).toNat < 128 := by
  rw [BitVec.toNat_and]
  exact Nat.lt_succ_of_le Nat.and_le_right

theorem keyCode_eq (sc : Byte) (h : (sc &&& 0x7F#8).toNat < 128) :
    (⟨(sc &&& 0x7F#8).toNat, h⟩ : Fin 128) = keyCode sc :=
  Fin.ext (Nat.mod_eq_of_lt h).symm

/-! ### The bits of `kbd_modifiers` -/

theorem hasModifier_eq_getLsbD (m : BitVec 32) {k : Nat} (hk : k < 32) :
    hasModifier m (1#32 <<< k) = m.getLsbD k := by
  have hne : BitVec.twoPow 32 k ≠ 0#32 := by
    intro hzero
    have hbit := congrArg (fun v => BitVec.getLsbD v k) hzero
    simp [hk] at hbit
  rw [hasModifier, ← BitVec.twoPow_eq, BitVec.and_twoPow]
  cases m.getLsbD k
  · simp
  · simp [hne]

theorem hasModifier_or (m : BitVec 32) {j k : Nat} (hk : k < 32) :
    hasModifier (m ||| 1#32 <<< j) (1#32 <<< k) =
      if j = k then true else hasModifier m (1#32 <<< k) := by
  rw [hasModifier_eq_getLsbD _ hk, hasModifier_eq_getLsbD _ hk, ← BitVec.twoPow_eq,
    BitVec.getLsbD_or, BitVec.getLsbD_twoPow]
  split
  · simp [*]
  · simp [*]

theorem hasModifier_and_not (m : BitVec 32) {j k : Nat} (hk : k < 32) :
    hasModifier (m &&& ~~~(1#32 <<< j)) (1#32 <<< k) =
      if j = k then false else hasModifier m (1#32 <<< k) := by
  rw [hasModifier_eq_getLsbD _ hk, hasModifier_eq_getLsbD _ hk, ← BitVec.twoPow_eq,
    BitVec.getLsbD_and, BitVec.getLsbD_not, BitVec.getLsbD_twoPow]
  split
  · simp [*]
  · simp [*]

theorem hasModifier_xor (m : BitVec 32) {j k : Nat} (hk : k < 32) :
    hasModifier (m ^^^ 1#32 <<< j) (1#32 <<< k) =
      if j = k then !hasModifier m (1#32 <<< k) else hasModifier m (1#32 <<< k) := by
  rw [hasModifier_eq_getLsbD _ hk, hasModifier_eq_getLsbD _ hk, ← BitVec.twoPow_eq,
    BitVec.getLsbD_xor, BitVec.getLsbD_twoPow]
  split
  · simp [*]
  · simp [*]

theorem modifierFlags_set (m : BitVec 32) (j : Nat) : modifierFlags (m ||| 1#32 <<< j) =
    { shift := if j = 0 then true else (modifierFlags m).shift
      ctrl := if j = 1 then true else (modifierFlags m).ctrl
      alt := if j = 2 then true else (modifierFlags m).alt
      caps := if j = 3 then true else (modifierFlags m).caps } := by
  rw [modifierFlags, Flags.mk.injEq]
  exact ⟨hasModifier_or m (by omega), hasModifier_or m (by omega), hasModifier_or m (by omega),
    hasModifier_or m (by omega)⟩

theorem modifierFlags_clear (m : BitVec 32) (j : Nat) : modifierFlags (m &&& ~~~(1#32 <<< j)) =
    { shift := if j = 0 then false else (modifierFlags m).shift
      ctrl := if j = 1 then false else (modifierFlags m).ctrl
      alt := if j = 2 then false else (modifierFlags m).alt
      caps := if j = 3 then false else (modifierFlags m).caps } := by
  rw [modifierFlags, Flags.mk.injEq]
  exact ⟨hasModifier_and_not m (by omega), hasModifier_and_not m (by omega),
    hasModifier_and_not m (by omega), hasModifier_and_not m (by omega)⟩

theorem modifierFlags_toggle (m : BitVec 32) (j : Nat) : modifierFlags (m ^^^ 1#32 <<< j) =
    { shift := if j = 0 then !(modifierFlags m).shift else (modifierFlags m).shift
      ctrl := if j = 1 then !(modifierFlags m).ctrl else (modifierFlags m).ctrl
      alt := if j = 2 then !(modifierFlags m).alt else (modifierFlags m).alt
      caps := if j = 3 then !(modifierFlags m).caps else (modifierFlags m).caps } := by
  rw [modifierFlags, Flags.mk.injEq]
  exact ⟨hasModifier_xor m (by omega), hasModifier_xor m (by omega), hasModifier_xor m (by omega),
    hasModifier_xor m (by omega)⟩

/-! ### The handler -/

theorem kbdRelease_keys (code : Fin 128) (s : KbdState) : (kbdRelease code s).keys =
    ⟨Function.update s.kbdPressed code false, s.flags.key code false⟩ := by
  unfold kbdRelease Flags.key
  dsimp only
  split
  · exact congrArg (Keys.mk _) (modifierFlags_clear s.kbdModifiers 0)
  split
  · exact congrArg (Keys.mk _) (modifierFlags_clear s.kbdModifiers 1)
  split
  · exact congrArg (Keys.mk _) (modifierFlags_clear s.kbdModifiers 2)
  · simp [KbdState.keys, KbdState.flags]

theorem keys_kbdBufferPush (c : Byte) (s : KbdState) : (kbdBufferPush c s).keys = s.keys := by
  unfold kbdBufferPush
  split <;> rfl

theorem kbdPress_keys (code : Fin 128) (s : KbdState) : (kbdPress code s).keys =
    ⟨Function.update s.kbdPressed code true, s.flags.key code true⟩ := by
  unfold kbdPress Flags.key
  dsimp only
  split
  · exact congrArg (Keys.mk _) (modifierFlags_set s.kbdModifiers 0)
  split
  · exact congrArg (Keys.mk _) (modifierFlags_set s.kbdModifiers 1)
  split
  · exact congrArg (Keys.mk _) (modifierFlags_set s.kbdModifiers 2)
  split
  · rename_i hcaps
    rw [if_pos ⟨hcaps, rfl⟩]
    exact congrArg (Keys.mk _) (modifierFlags_toggle s.kbdModifiers 3)
  · rename_i hcaps
    rw [keys_kbdBufferPush, if_neg fun h => hcaps h.1]
    rfl

theorem kbdHandler_keys (sc : Byte) (s : KbdState) : (kbdHandler sc s).keys = s.keys.scan sc := by
  unfold kbdHandler Keys.scan Flags.scan
  dsimp only
  by_cases hextended : sc = 0xE0#8
  · rw [if_pos hextended, if_pos hextended, if_pos hextended]
    rfl
  · rw [if_neg hextended, if_neg hextended, if_neg hextended, dif_pos (code_lt sc), keyCode_eq]
    change (if released sc = true then _ else _ : KbdState).keys = _
    cases released sc with
    | true => exact kbdRelease_keys _ _
    | false => exact kbdPress_keys _ _

/-- `kbd_init` forgets the flags, but of the keys only Caps Lock. -/
theorem kbdInit_keys (s : KbdState) : (kbdInit s).keys =
    ⟨Function.update s.kbdPressed 0x3A false, ⟨false, false, false, false⟩⟩ := by
  have hnone : modifierFlags 0#32 = ⟨false, false, false, false⟩ := by decide
  exact congrArg (Keys.mk _) hnone

/-! ### Flags and held keys -/

theorem Keys.Agree.key_iff (h : k.Agree) (code : Fin 128) (down : Bool) :
    Keys.Agree ⟨Function.update k.pressed code down, k.flags.key code down⟩ ↔
      (down = false → (code = 0x2A → k.pressed 0x36 = false) ∧
        (code = 0x36 → k.pressed 0x2A = false)) := by
  obtain ⟨hshift, hctrl, halt⟩ := h
  rw [Keys.agree_iff]
  by_cases hleft : code = 0x2A
  · subst hleft
    cases down <;> simp [Flags.key, isShiftKey, hctrl, halt]
  by_cases hright : code = 0x36
  · subst hright
    cases down <;> simp [Flags.key, isShiftKey, hctrl, halt]
  -- any other key leaves Shift and its two keys alone
  have hother : ¬ isShiftKey code := not_or.mpr ⟨hleft, hright⟩
  refine iff_of_true ?_ fun _ => ⟨fun h => absurd h hleft, fun h => absurd h hright⟩
  have hsame (key : Fin 128) (hne : code ≠ key) :
      Function.update k.pressed code down key = k.pressed key := Function.update_of_ne hne.symm _ _
  dsimp only
  rw [Flags.key, if_neg hother, hsame _ hleft, hsame _ hright]
  by_cases hctrl' : code = 0x1D
  · subst hctrl'
    simp [hshift, halt]
  by_cases halt' : code = 0x38
  · subst halt'
    simp [hshift, hctrl]
  · rw [if_neg hctrl', if_neg halt', hsame _ hctrl', hsame _ halt']
    split
    · exact ⟨hshift, hctrl, halt⟩
    · exact ⟨hshift, hctrl, halt⟩

/-- A scancode keeps flags and keys in agreement exactly if it releases no Shift key while the
other one is held. -/
theorem Keys.Agree.scan_iff (h : k.Agree) : (k.scan sc).Agree ↔ k.ReleasesLast sc := by
  have hleft : sc = 0xAA#8 ↔ sc ≠ 0xE0#8 ∧ keyCode sc = 0x2A ∧ released sc = true := by
    revert sc
    decide
  have hright : sc = 0xB6#8 ↔ sc ≠ 0xE0#8 ∧ keyCode sc = 0x36 ∧ released sc = true := by
    revert sc
    decide
  rw [Keys.releasesLast_iff, hleft, hright]
  by_cases hextended : sc = 0xE0#8
  · subst hextended
    simpa [Keys.scan, Flags.scan] using h
  · rw [Keys.scan, Flags.scan, if_neg hextended, if_neg hextended, h.key_iff]
    cases released sc <;> simp [hextended]

def Keys.NoneHeld (k : Keys) : Prop :=
  k.pressed 0x2A = false ∧ k.pressed 0x36 = false ∧ k.pressed 0x1D = false ∧
    k.pressed 0x38 = false

theorem agree_kbdInit (s : KbdState) : (kbdInit s).keys.Agree ↔ s.keys.NoneHeld := by
  have hsame (key : Fin 128) (hne : key ≠ 0x3A) :
      Function.update s.kbdPressed 0x3A false key = s.kbdPressed key := Function.update_of_ne hne _ _
  rw [kbdInit_keys, Keys.agree_iff]
  dsimp only
  rw [hsame _ (by decide), hsame _ (by decide), hsame _ (by decide), hsame _ (by decide)]
  simp [Keys.NoneHeld, KbdState.keys]
  tauto

/-! ### Runs -/

inductive KbdOp
  | init
  | handler (scancode : Byte)

def kbdOpStep (s : KbdState) : KbdOp → KbdState
  | .init => kbdInit s
  | .handler sc => kbdHandler sc s

/-- No Shift key is released while the other is held, and the module is not initialised while a
Shift, Ctrl or Alt key is. -/
def KbdOp.KeepsFlags (s : KbdState) : KbdOp → Prop
  | .init => s.keys.NoneHeld
  | .handler sc => s.keys.ReleasesLast sc

theorem agree_kbdOpStep (h : s.keys.Agree) (op : KbdOp) :
    (kbdOpStep s op).keys.Agree ↔ op.KeepsFlags s := by
  cases op with
  | init => exact agree_kbdInit s
  | handler sc =>
    rw [kbdOpStep, kbdHandler_keys]
    exact h.scan_iff

theorem agree_boot : KbdState.boot.keys.Agree := by
  have hnone : KbdState.boot.flags = ⟨false, false, false, false⟩ := by decide
  rw [KbdState.keys, hnone, Keys.agree_iff]
  simp [KbdState.boot]

theorem kbdFlags_agree_iff (ops : List KbdOp) :
    Throughout kbdOpStep (fun s => s.keys.Agree) KbdState.boot ops ↔
      Allowed kbdOpStep KbdOp.KeepsFlags KbdState.boot ops :=
  throughout_iff_allowed (Q := fun s : KbdState => s.keys.Agree) (fun _ h => h)
    (fun _ op h hop => (agree_kbdOpStep h op).mpr hop)
    (fun _ op h hagree => (agree_kbdOpStep h op).mp hagree) agree_boot ops

end FenwickOS.Kbd
