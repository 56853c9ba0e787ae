import FenwickOS.Lib.Words

/-! `idt_install` of kernel/idt/idt.c: the gates it fills, and the controllers it sets up. -/
namespace FenwickOS.Idt
open Machine

local instance neZero_stubs : NeZero 32 := ⟨by decide⟩
local instance neZero_gates : NeZero 256 := ⟨by decide⟩

structure IdtEntry where
  offsetLow : BitVec 16
  selector : BitVec 16
  ist : Byte
  flags : Byte
  offsetMid : BitVec 16
  offsetHigh : BitVec 32
  reserved : BitVec 32
  deriving DecidableEq

structure IdtPtr where
  limit : BitVec 16
  base : Word

/-- The statics of the file, what `lidt` has loaded, the interrupt flag and the port accesses. -/
structure IdtState where
  idtEntries : Fin 256 → IdtEntry
  idtDescriptor : IdtPtr
  idtr : IdtPtr
  interruptFlag : Bool
  io : List IoEvent

def IdtEntry.zero : IdtEntry := ⟨0#16, 0#16, 0#8, 0#8, 0#16, 0#32, 0#32⟩

/-- The five assignments that fill a gate, the same in all three places. -/
def IdtEntry.fill (addr : Word) (e : IdtEntry) : IdtEntry :=
  { e with
    offsetLow := (addr &&& 0xFFFF#64).setWidth 16
    selector := 0x08#16
    flags := 0x8E#8
    offsetMid := ((addr >>> 16) &&& 0xFFFF#64).setWidth 16
    offsetHigh := ((addr >>> 32) &&& 0xFFFFFFFF#64).setWidth 32 }

def setGate (entries : Fin 256 → IdtEntry) (i : Fin 256) (addr : Word) : Fin 256 → IdtEntry :=
  Function.update entries i ((entries i).fill addr)

/-- The blocks written out one by one: there is none for gate 9. -/
def copiedGates : List (Fin 32) := [0, 1, 2, 3, 4, 5, 6, 7, 8, 10, 11, 12, 13, 14]

/-- The `switch` in the loop from 15 to 31. -/
def switchStub (isrStub : Fin 32 → Word) (i : Nat) : Word :=
  if 15 ≤ i ∧ i < 32 then isrStub (Fin.ofNat 32 i) else 0#64

def isrGate (n : Fin 32) : Fin 256 := Fin.ofNat 256 n.val

def irqGate (n : Fin 16) : Fin 256 := Fin.ofNat 256 (32 + n.val)

def ioWait : IoEvent := .outb 0x80#16 0#8

def picRemap : List IoEvent :=
  [.outb 0x20#16 0x11#8, ioWait, .outb 0xA0#16 0x11#8, ioWait,
    .outb 0x21#16 0x20#8, ioWait, .outb 0xA1#16 0x28#8, ioWait,
    .outb 0x21#16 0x04#8, ioWait, .outb 0xA1#16 0x02#8, ioWait,
    .outb 0x21#16 0x01#8, ioWait, .outb 0xA1#16 0x01#8, ioWait,
    .outb 0x21#16 0x00#8, ioWait, .outb 0xA1#16 0x00#8, ioWait]

def pitInit (frequency : BitVec 32) : List IoEvent :=
  let divisor := 1193180#32 / frequency
  [.outb 0x43#16 0x36#8, .outb 0x40#16 ((divisor &&& 0xFF#32).setWidth 8),
    .outb 0x40#16 (((divisor >>> 8) &&& 0xFF#32).setWidth 8)]

/-- `base` is the address of the static `idt_entries`. -/
def idtInstall (base : Word) (isrStub : Fin 32 → Word) (irqStub : Fin 16 → Word) (s : IdtState) :
    IdtState :=
  let entries := fun _ => IdtEntry.zero
  let entries := copiedGates.foldl (fun es n => setGate es (isrGate n) (isrStub n)) entries
  let entries := (List.range' 15 17).foldl
    (fun es i => setGate es (Fin.ofNat 256 i) (switchStub isrStub i)) entries
  let entries := (List.finRange 16).foldl
    (fun es n => setGate es (irqGate n) (irqStub n)) entries
  let descriptor := ⟨BitVec.ofNat 16 (16 * 256 - 1), base⟩
  { idtEntries := entries
    idtDescriptor := descriptor
    idtr := descriptor
    interruptFlag := true
    io := s.io ++ picRemap ++ [.outb 0x21#16 0xFF#8, .outb 0xA1#16 0xFF#8] ++ pitInit 100#32 ++
      [.outb 0x21#16 0x00#8, .outb 0xA1#16 0x00#8] }

/-! ### What the processor makes of a gate -/

def IdtEntry.offset (e : IdtEntry) : Word :=
  e.offsetLow.setWidth 64 ||| e.offsetMid.setWidth 64 <<< 16 ||| e.offsetHigh.setWidth 64 <<< 32

/-- A present interrupt gate of the kernel's code segment that leads to `addr`. -/
structure GateTo (e : IdtEntry) (addr : Word) : Prop where
  offset : e.offset = addr
  present : e.flags &&& 0x80#8 ≠ 0#8
  interruptGate : e.flags &&& 0x1F#8 = 0x0E#8
  selector : e.selector = 0x08#16

/-- Every exception and every interrupt line leads to its own stub, and nothing else leads
anywhere. -/
structure GateTable (isrStub : Fin 32 → Word) (irqStub : Fin 16 → Word)
    (entries : Fin 256 → IdtEntry) : Prop where
  exceptions : ∀ n, GateTo (entries (isrGate n)) (isrStub n)
  interrupts : ∀ n, GateTo (entries (irqGate n)) (irqStub n)
  rest : ∀ v : Fin 256, 48 ≤ v.val → entries v = .zero

variable {base : Word} {isrStub : Fin 32 → Word} {irqStub : Fin 16 → Word} {s : IdtState}
  {v : Fin 256} {addr : Word}

theorem field_toNat (addr : Word) (k : Nat) {n : Nat} (hn : n ≤ 64) :
    (((addr >>> k) &&& BitVec.ofNat 64 ((2 ^ n - 1) * 2 ^ 0)).setWidth n).toNat =
      addr.toNat / 2 ^ k % 2 ^ n := by
  rw [BitVec.toNat_setWidth, toNat_and_field _ (by omega), BitVec.toNat_ushiftRight,
    Nat.shiftRight_eq_div_pow]
  simp

theorem offset_fill (addr : Word) (e : IdtEntry) : (e.fill addr).offset = addr := by
  have hlow : (e.fill addr).offsetLow.toNat = addr.toNat / 2 ^ 0 % 2 ^ 16 :=
    field_toNat addr 0 (by omega)
  have hmid : (e.fill addr).offsetMid.toNat = addr.toNat / 2 ^ 16 % 2 ^ 16 :=
    field_toNat addr 16 (by omega)
  have hhigh : (e.fill addr).offsetHigh.toNat = addr.toNat / 2 ^ 32 % 2 ^ 32 :=
    field_toNat addr 32 (by omega)
  have hbound := addr.isLt
  rw [IdtEntry.offset]
  generalize (e.fill addr).offsetLow = low at hlow
  generalize (e.fill addr).offsetMid = mid at hmid
  generalize (e.fill addr).offsetHigh = high at hhigh
  have hlow' : (low.setWidth 64).toNat = low.toNat := by
    rw [BitVec.toNat_setWidth]
    omega
  have hmid' : (mid.setWidth 64 <<< 16).toNat = mid.toNat * 2 ^ 16 := by
    rw [BitVec.toNat_shiftLeft, BitVec.toNat_setWidth, Nat.shiftLeft_eq]
    omega
  have hhigh' : (high.setWidth 64 <<< 32).toNat = high.toNat * 2 ^ 32 := by
    rw [BitVec.toNat_shiftLeft, BitVec.toNat_setWidth, Nat.shiftLeft_eq]
    omega
  have hbelow : (mid.setWidth 64 <<< 16 ||| low.setWidth 64).toNat =
      mid.toNat * 2 ^ 16 + low.toNat := by
    rw [toNat_or_of_aligned (k := 16) (by omega) (by omega), hmid', hlow']
  apply BitVec.eq_of_toNat_eq
  rw [BitVec.or_comm (low.setWidth 64), BitVec.or_comm _ (high.setWidth 64 <<< 32),
    toNat_or_of_aligned (k := 32) (by omega) (by omega), hbelow, hhigh']
  omega

theorem gateTo_fill (addr : Word) (e : IdtEntry) : GateTo (e.fill addr) addr where
  offset := offset_fill addr e
  present := show (0x8E#8 : Byte) &&& 0x80#8 ≠ 0#8 by decide
  interruptGate := show (0x8E#8 : Byte) &&& 0x1F#8 = 0x0E#8 by decide
  selector := rfl

theorem not_gateTo_zero : ¬ GateTo .zero addr := by
  intro h
  exact h.present rfl

/-! ### What the three loops fill -/

theorem setGates_other {I : Type} {gates : List I} {gate : I → Fin 256} (addr : I → Word)
    (hv : ∀ i ∈ gates, v ≠ gate i) (entries : Fin 256 → IdtEntry) :
    gates.foldl (fun es i => setGate es (gate i) (addr i)) entries v = entries v :=
  foldl_modify_other (fun i => IdtEntry.fill (addr i)) hv entries

theorem setGates_cell {I : Type} {gates : List I} {gate : I → Fin 256} (addr : I → Word)
    (hgates : (gates.map gate).Nodup) {i : I} (hi : i ∈ gates) (entries : Fin 256 → IdtEntry) :
    gates.foldl (fun es i => setGate es (gate i) (addr i)) entries (gate i) =
      (entries (gate i)).fill (addr i) :=
  foldl_modify_cell (fun i => IdtEntry.fill (addr i)) hgates hi entries

theorem isrGate_val (n : Fin 32) : (isrGate n).val = n.val := Nat.mod_eq_of_lt (by omega)

theorem irqGate_val (n : Fin 16) : (irqGate n).val = 32 + n.val := Nat.mod_eq_of_lt (by omega)

theorem ne_copied (hv : ∀ n ∈ copiedGates, n.val ≠ v.val) : ∀ n ∈ copiedGates, v ≠ isrGate n := by
  rintro n hn rfl
  exact hv n hn (isrGate_val n).symm

theorem ne_switched (hv : v.val < 15 ∨ 32 ≤ v.val) :
    ∀ i ∈ List.range' 15 17, v ≠ Fin.ofNat 256 i := by
  rintro i hi rfl
  rw [List.mem_range'_1] at hi
  rw [Fin.val_ofNat, Nat.mod_eq_of_lt (by omega)] at hv
  omega

theorem ne_irq (hv : v.val < 32 ∨ 48 ≤ v.val) : ∀ n ∈ List.finRange 16, v ≠ irqGate n := by
  rintro n - rfl
  rw [irqGate_val] at hv
  omega

theorem gateTo_copied {n : Fin 32} (hn : n ∈ copiedGates) :
    GateTo ((idtInstall base isrStub irqStub s).idtEntries (isrGate n)) (isrStub n) := by
  have hlow : ∀ n ∈ copiedGates, n.val < 15 := by decide
  have hval := isrGate_val n
  have hn' := hlow n hn
  unfold idtInstall
  dsimp only
  rw [setGates_other _ (ne_irq (by omega)), setGates_other _ (ne_switched (by omega)),
    setGates_cell _ (by decide) hn]
  exact gateTo_fill _ _

theorem gateTo_switched {n : Fin 32} (hn : 15 ≤ n.val) :
    GateTo ((idtInstall base isrStub irqStub s).idtEntries (isrGate n)) (isrStub n) := by
  have hval := isrGate_val n
  have hstub : switchStub isrStub n.val = isrStub n := by
    rw [switchStub, if_pos ⟨hn, n.isLt⟩, Fin.ofNat_val_eq_self]
  unfold idtInstall
  dsimp only
  rw [setGates_other _ (ne_irq (by omega))]
  have hdistinct : ((List.range' 15 17).map (Fin.ofNat 256)).Nodup := by decide
  have hmem : n.val ∈ List.range' 15 17 := List.mem_range'_1.mpr ⟨hn, n.isLt⟩
  have hcell := fun entries => setGates_cell (switchStub isrStub) hdistinct hmem entries
  rw [isrGate, hcell, hstub]
  exact gateTo_fill _ _

theorem gateTo_irq (n : Fin 16) :
    GateTo ((idtInstall base isrStub irqStub s).idtEntries (irqGate n)) (irqStub n) := by
  unfold idtInstall
  dsimp only
  rw [setGates_cell _ (by decide) (List.mem_finRange n)]
  exact gateTo_fill _ _

theorem idtEntries_other (hcopied : ∀ n ∈ copiedGates, n.val ≠ v.val)
    (hv : v.val < 15 ∨ 48 ≤ v.val) :
    (idtInstall base isrStub irqStub s).idtEntries v = .zero := by
  unfold idtInstall
  dsimp only
  rw [setGates_other _ (ne_irq (by omega)), setGates_other _ (ne_switched (by omega)),
    setGates_other _ (ne_copied hcopied)]

theorem idtEntries_nine :
    (idtInstall base isrStub irqStub s).idtEntries (isrGate 9) = .zero :=
  idtEntries_other (by decide) (by decide)

/-- `idt_install` leaves gate 9 empty and fills every other one as it should. -/
theorem gate_nine_missing (base : Word) (isrStub : Fin 32 → Word) (irqStub : Fin 16 → Word)
    (s : IdtState) :
    let entries := (idtInstall base isrStub irqStub s).idtEntries
    ¬ GateTable isrStub irqStub entries ∧ entries (isrGate 9) = .zero ∧
      (∀ n, n ≠ 9 → GateTo (entries (isrGate n)) (isrStub n)) ∧
      (∀ n, GateTo (entries (irqGate n)) (irqStub n)) ∧
      ∀ v : Fin 256, 48 ≤ v.val → entries v = .zero := by
  intro entries
  have hnine : entries (isrGate 9) = .zero := idtEntries_nine
  refine ⟨fun h => ?_, hnine, fun n hn => ?_, fun n => gateTo_irq n, fun v hv => ?_⟩
  · have hgate := h.exceptions 9
    rw [hnine] at hgate
    exact not_gateTo_zero hgate
  · have hplace : n ∈ copiedGates ∨ n = 9 ∨ 15 ≤ n.val := by
      revert n
      decide
    rcases hplace with hcopied | rfl | hswitched
    · exact gateTo_copied hcopied
    · exact absurd rfl hn
    · exact gateTo_switched hswitched
  · have hlow : ∀ n ∈ copiedGates, n.val < 15 := by decide
    refine idtEntries_other (fun n hn => ?_) (Or.inr hv)
    have := hlow n hn
    omega

theorem gate_nine_missing_stubs :
    let isrStub (n : Fin 32) := BitVec.ofNat 64 (0x100000 + 16 * n.val)
    let irqStub (n : Fin 16) := BitVec.ofNat 64 (0x100200 + 16 * n.val)
    let boot : IdtState := ⟨fun _ => .zero, ⟨0#16, 0#64⟩, ⟨0#16, 0#64⟩, false, []⟩
    ¬ GateTable isrStub irqStub (idtInstall 0x110000#64 isrStub irqStub boot).idtEntries := by
  intro isrStub irqStub boot h
  have hgate := h.exceptions 9
  rw [idtEntries_nine] at hgate
  exact not_gateTo_zero hgate

end FenwickOS.Idt
