import FenwickOS.Lib.Words
import Mathlib.Data.List.Basic
import Mathlib.Logic.Function.Basic

/-! Devices that hold their interrupt line up until they are answered: the output buffer of an 8042
keyboard controller, and the flags of an MC146818 clock. -/
namespace Machine

/-- The bytes that a keyboard holds for the controller. -/
def keyboardRoom : Nat := 16

/-- `queue` are the bytes that the keyboard has not handed over yet; an empty buffer reads as the
byte that was in it last. -/
structure OutputBuffer where
  byte : Option Byte
  last : Byte
  queue : List Byte
  room : queue.length ≤ keyboardRoom

namespace OutputBuffer

variable {k k' k'' : OutputBuffer} {c : Byte} {keys keys' : List Byte}

def line (k : OutputBuffer) : Bool := k.byte.isSome

/-- A keyboard that is full loses the key. -/
def key (c : Byte) (k : OutputBuffer) : OutputBuffer :=
  if h : k.queue.length < keyboardRoom then
    { k with queue := k.queue ++ [c], room := by rw [List.length_append]; exact h }
  else k

/-- The next byte comes once the buffer is empty. -/
def transfer (k : OutputBuffer) : OutputBuffer :=
  match k with
  | ⟨none, last, c :: queue, room⟩ => ⟨some c, last, queue, Nat.le_of_succ_le room⟩
  | k => k

def value (k : OutputBuffer) : Byte := k.byte.getD k.last

def read (k : OutputBuffer) : OutputBuffer := { k with byte := none, last := k.value }

def unread (k : OutputBuffer) : List Byte := k.byte.toList ++ k.queue

theorem unread_key (c : Byte) (k : OutputBuffer) :
    (k.key c).unread = k.unread ++ [c] ∨
      (keyboardRoom ≤ (k.key c).unread.length ∧ (k.key c).unread = k.unread) := by
  unfold key
  split
  · exact Or.inl (List.append_assoc _ _ _).symm
  · rename_i hfull
    refine Or.inr ⟨?_, rfl⟩
    rw [unread, List.length_append]
    omega

theorem unread_transfer (k : OutputBuffer) : k.transfer.unread = k.unread := by
  unfold transfer
  split
  · rfl
  · rfl

/-- One byte in the controller, and a keyboard full of them. -/
theorem length_unread_le (k : OutputBuffer) : k.unread.length ≤ keyboardRoom + 1 := by
  have hbyte : k.byte.toList.length ≤ 1 := by
    cases k.byte with
    | none => exact Nat.zero_le 1
    | some c => exact Nat.le_refl 1
  have hroom := k.room
  rw [unread, List.length_append]
  omega

/-- Of `keys` stand those for which there was room behind what was unread before, in order; none
is lost while fewer than the keyboard holds are unread. -/
def Takes (k : OutputBuffer) (keys : List Byte) (k' : OutputBuffer) : Prop :=
  ∃ kept, kept.Sublist keys ∧ k'.unread = k.unread ++ kept ∧
    (k'.unread.length < keyboardRoom → kept = keys)

theorem takes_nil (h : k'.unread = k.unread) : k.Takes [] k' :=
  ⟨[], List.Sublist.refl [], h.trans (List.append_nil _).symm, fun _ => rfl⟩

theorem takes_key (c : Byte) (k : OutputBuffer) : k.Takes [c] (k.key c) := by
  rcases unread_key c k with h | ⟨hfull, h⟩
  · exact ⟨[c], List.Sublist.refl _, h, fun _ => rfl⟩
  · refine ⟨[], List.nil_sublist _, h.trans (List.append_nil _).symm, fun hlt => ?_⟩
    omega

theorem Takes.trans (h : k.Takes keys k') (h' : k'.Takes keys' k'') :
    k.Takes (keys ++ keys') k'' := by
  obtain ⟨kept, hsub, hunread, hall⟩ := h
  obtain ⟨kept', hsub', hunread', hall'⟩ := h'
  refine ⟨kept ++ kept', hsub.append hsub', ?_, fun hlt => ?_⟩
  · rw [hunread', hunread, List.append_assoc]
  · rw [hall' hlt]
    rw [hunread', List.length_append] at hlt
    rw [hall (by omega)]

theorem line_key (h : k.line = true) (c : Byte) : (k.key c).line = true := by
  unfold key
  split
  · exact h
  · exact h

theorem line_transfer (h : k.line = true) : k.transfer.line = true := by
  unfold transfer
  split
  · rfl
  · exact h

end OutputBuffer

/-- `flags` are the bits of register C. -/
structure Mc146818 where
  registers : Byte → Byte
  flags : Byte

namespace Mc146818

variable {c : Mc146818} {bits f : Byte} {time : Byte → Byte}

/-- A flag whose interrupt is enabled in register B. -/
def line (c : Mc146818) : Bool := (c.flags &&& c.registers 0x0B#8 &&& 0x70#8) != 0#8

/-- The clock goes on, and flags come up; it leaves register B alone. -/
def signal (f : Byte) (time : Byte → Byte) (c : Mc146818) : Mc146818 where
  registers := Function.update time 0x0B#8 (c.registers 0x0B#8)
  flags := c.flags ||| (f &&& 0x70#8)

/-- Reading register C takes all flags back. -/
def read (reg : Byte) (c : Mc146818) : Byte × Mc146818 :=
  if reg = 0x0C#8 then
    (c.flags ||| (if c.line then 0x80#8 else 0#8), { c with flags := 0#8 })
  else (c.registers reg, c)

def write (reg v : Byte) (c : Mc146818) : Mc146818 :=
  if reg = 0x0C#8 ∨ reg = 0x0D#8 then c
  else { c with registers := Function.update c.registers reg v }

theorem and_mono {a b m x : Byte} (h : a &&& b &&& m ≠ 0#8) : a &&& (b ||| x) &&& m ≠ 0#8 := by
  intro hzero
  have hpart : a &&& b &&& m = (a &&& (b ||| x) &&& m) &&& b := by
    ext i
    simp only [BitVec.getElem_and, BitVec.getElem_or]
    cases a[i] <;> cases b[i] <;> simp
  rw [hzero, BitVec.zero_and] at hpart
  exact h hpart

theorem line_signal (h : c.line = true) : (c.signal f time).line = true := by
  have henabled : (c.signal f time).registers 0x0B#8 = c.registers 0x0B#8 := by
    simp [signal]
  unfold line at h ⊢
  rw [bne_iff_ne, BitVec.and_comm c.flags] at h
  rw [bne_iff_ne, henabled, BitVec.and_comm (c.signal f time).flags]
  exact and_mono h

/-- More interrupts enabled, and none disabled. -/
theorem line_enable (h : c.line = true) (bits : Byte) :
    (c.write 0x0B#8 (c.registers 0x0B#8 ||| bits)).line = true := by
  have henabled : (c.write 0x0B#8 (c.registers 0x0B#8 ||| bits)).registers 0x0B#8 =
      c.registers 0x0B#8 ||| bits := by
    simp [write]
  have hflags : (c.write 0x0B#8 (c.registers 0x0B#8 ||| bits)).flags = c.flags := by
    simp [write]
  unfold line at h ⊢
  rw [bne_iff_ne] at h ⊢
  rw [henabled, hflags]
  exact and_mono h

theorem line_read {reg : Byte} (h : c.line = true) (hreg : reg ≠ 0x0C#8) :
    (c.read reg).2.line = true := by
  rw [read, if_neg hreg]
  exact h

end Mc146818
end Machine
