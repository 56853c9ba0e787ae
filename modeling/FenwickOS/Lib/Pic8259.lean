import FenwickOS.Lib.Runs
import FenwickOS.Lib.Slots
import FenwickOS.Lib.Words
import Mathlib.Data.List.Find

/-! The 8259A interrupt controller, and the usual pair of them whose second chip sits on line 2 of
the first. -/
namespace Machine.Pic

/-- What the next write to the data port is taken for. -/
inductive Expects
  | icw2 | icw3 | icw4 | mask
  deriving DecidableEq

/-- `irr` are the lines that request an interrupt, `isr` those in service, `imr` masks lines. -/
structure Chip where
  expects : Expects
  single : Bool
  needsIcw4 : Bool
  base : Byte
  cascade : Byte
  autoEoi : Bool
  imr : Byte
  irr : Fin 8 → Bool
  isr : Fin 8 → Bool

namespace Chip

/-- The first initialization word forgets masks and requests; what is in service stays so. -/
def icw1 (v : Byte) (c : Chip) : Chip :=
  { c with
    expects := .icw2
    single := v.getLsbD 1
    needsIcw4 := v.getLsbD 0
    autoEoi := v.getLsbD 0 && c.autoEoi
    imr := 0#8
    irr := fun _ => false }

/-- The non-specific command ends the interrupt of the highest priority. -/
def endOfInterrupt (c : Chip) : Chip :=
  match firstSlot c.isr with
  | some n => { c with isr := Function.update c.isr n false }
  | none => c

/-- A write to the command port. Rotating the priorities and choosing the register to read change
nothing here. -/
def command (v : Byte) (c : Chip) : Chip :=
  if v.getLsbD 4 then c.icw1 v
  else if v.getLsbD 3 then c
  else if v.extractLsb' 5 3 = 1#3 then c.endOfInterrupt
  else if v.extractLsb' 5 3 = 3#3 then
    { c with isr := Function.update c.isr (v.extractLsb' 0 3).toFin false }
  else c

/-- A write to the data port. -/
def data (v : Byte) (c : Chip) : Chip :=
  let afterIcw3 : Expects := if c.needsIcw4 then .icw4 else .mask
  match c.expects with
  | .icw2 =>
    { c with base := v &&& 0xF8#8, expects := if c.single then afterIcw3 else .icw3 }
  | .icw3 => { c with cascade := v, expects := afterIcw3 }
  | .icw4 => { c with autoEoi := v.getLsbD 1, expects := .mask }
  | .mask => { c with imr := v }

/-- The request of the highest priority among `requests`, unless a line of the same or a higher
priority is in service. -/
def selected (requests : Fin 8 → Bool) (c : Chip) : Option (Fin 8) :=
  (firstSlot fun n => requests n && !c.imr.getLsbD n).filter
    fun n => decide (∀ m ≤ n, c.isr m = false)

/-- The processor takes the selected request; if it has gone, the chip answers with line 7. -/
def acknowledge (requests : Fin 8 → Bool) (c : Chip) : Fin 8 × Chip :=
  match c.selected requests with
  | some n =>
    (n, { c with
          irr := Function.update c.irr n false
          isr := if c.autoEoi then c.isr else Function.update c.isr n true })
  | none => (7, c)

def vector (n : Fin 8) (c : Chip) : Byte := c.base ||| BitVec.ofNat 8 n.val

end Chip

structure Pair where
  master : Chip
  slave : Chip

namespace Pair

/-- The requests that the master sees. -/
def requests (p : Pair) : Fin 8 → Bool :=
  Function.update p.master.irr 2 (p.slave.selected p.slave.irr).isSome

def interrupts (p : Pair) : Bool := (p.master.selected p.requests).isSome

/-- The slave gives the vector when the line is its own. -/
def acknowledge (p : Pair) : Byte × Pair :=
  let (n, master) := p.master.acknowledge p.requests
  if p.master.cascade.getLsbD n && p.slave.cascade.toNat % 8 == n.val then
    let (m, slave) := p.slave.acknowledge p.slave.irr
    (p.slave.vector m, ⟨master, slave⟩)
  else (p.master.vector n, { p with master := master })

/-- The accesses to the ports of the two chips. -/
def write (p : Pair) : IoEvent → Pair
  | .outb port v =>
    if port = 0x20#16 then { p with master := p.master.command v }
    else if port = 0x21#16 then { p with master := p.master.data v }
    else if port = 0xA0#16 then { p with slave := p.slave.command v }
    else if port = 0xA1#16 then { p with slave := p.slave.data v }
    else p
  | .inb _ _ => p

/-- The interrupt lines 0 to 7 go to the master and 8 to 15 to the slave. -/
def setLine (n : Fin 16) (b : Bool) (p : Pair) : Pair :=
  if h : n.val < 8 then
    { p with master := { p.master with irr := Function.update p.master.irr ⟨n.val, h⟩ b } }
  else
    { p with slave := { p.slave with irr := Function.update p.slave.irr ⟨n.val - 8, by omega⟩ b } }

def pending (p : Pair) (n : Fin 16) : Bool :=
  if h : n.val < 8 then p.master.irr ⟨n.val, h⟩ else p.slave.irr ⟨n.val - 8, by omega⟩

/-- The lines from the highest priority to the lowest: those of the slave come in the place of the
master's line 2. -/
def ofMaster (k : Fin 8) : Fin 16 := ⟨k.val, by omega⟩
def ofSlave (k : Fin 8) : Fin 16 := ⟨8 + k.val, by omega⟩

def priority : List (Fin 16) :=
  [0, 1].map ofMaster ++ ((List.finRange 8).map ofSlave ++ [3, 4, 5, 6, 7].map ofMaster)

def next (p : Pair) : Option (Fin 16) := priority.find? p.pending

end Pair

/-! ### One chip -/

namespace Chip

/-- Initialized for `base`, with explicit ends of interrupt and no line masked. -/
structure Ready (base cascade : Byte) (c : Chip) : Prop where
  expects : c.expects = .mask
  base : c.base = base
  cascade : c.cascade = cascade
  autoEoi : c.autoEoi = false
  imr : c.imr = 0#8

/-- Only line `n` is in service, or none. -/
def Serves (c : Chip) (n : Option (Fin 8)) : Prop := ∀ k, c.isr k = true ↔ n = some k

variable {c : Chip} {base cascade : Byte} {o : Option (Fin 8)} {n : Fin 8}
  {requests : Fin 8 → Bool}

theorem Serves.isr_none (h : c.Serves none) (k : Fin 8) : c.isr k = false := by
  cases hk : c.isr k with
  | false => rfl
  | true => exact absurd ((h k).mp hk) (by simp)

/-- The four initialization words and two masks, from any state. -/
theorem ready_initialized (hbase : base &&& 0xF8#8 = base) (c : Chip) (mask mask' : Byte) :
    ((((((c.command 0x11#8).data base).data cascade).data 0x01#8).data mask).data mask' |>.data
      0#8).Ready base cascade where
  expects := rfl
  base := hbase
  cascade := rfl
  autoEoi := rfl
  imr := rfl

theorem Serves.endOfInterrupt (h : c.Serves o) : c.endOfInterrupt.Serves none := by
  intro k
  simp only [reduceCtorEq, iff_false, Bool.not_eq_true]
  unfold Chip.endOfInterrupt
  cases hslot : firstSlot c.isr with
  | none => exact firstSlot_eq_none_iff.mp hslot k
  | some n =>
    have hn := (h n).mp (firstSlot_eq_some_iff.mp hslot).1
    by_cases hk : k = n
    · simp [hk]
    · simp only [Function.update_of_ne hk]
      cases hisr : c.isr k with
      | false => rfl
      | true => exact absurd (Option.some.inj (((h k).mp hisr).symm.trans hn)) hk

theorem endOfInterrupt_irr (c : Chip) : c.endOfInterrupt.irr = c.irr := by
  unfold Chip.endOfInterrupt
  split <;> rfl

theorem Ready.endOfInterrupt (h : c.Ready base cascade) :
    c.endOfInterrupt.Ready base cascade := by
  unfold Chip.endOfInterrupt
  split
  · exact ⟨h.expects, h.base, h.cascade, h.autoEoi, h.imr⟩
  · exact h

theorem selected_idle (h : c.Ready base cascade) (hidle : c.Serves none) :
    c.selected requests = firstSlot requests := by
  unfold selected
  have hmask : (fun n : Fin 8 => requests n && !c.imr.getLsbD n) = requests := by
    funext n
    simp [h.imr]
  rw [hmask]
  cases hslot : firstSlot requests with
  | none => rfl
  | some n =>
    apply Option.filter_some_pos
    simpa using fun m (_ : m ≤ n) => hidle.isr_none m

theorem acknowledge_some (h : c.Ready base cascade) (hidle : c.Serves none)
    (hslot : firstSlot requests = some n) :
    (c.acknowledge requests).1 = n ∧ (c.acknowledge requests).2.Ready base cascade ∧
      (c.acknowledge requests).2.Serves (some n) ∧
      (c.acknowledge requests).2.irr = Function.update c.irr n false := by
  unfold acknowledge
  rw [selected_idle h hidle, hslot]
  refine ⟨rfl, ⟨h.expects, h.base, h.cascade, h.autoEoi, h.imr⟩, fun k => ?_, rfl⟩
  simp only [h.autoEoi, Bool.false_eq_true, if_false, Option.some.injEq]
  by_cases hk : k = n
  · simp [hk]
  · simp [Function.update_of_ne hk, hidle.isr_none k, Ne.symm hk]

theorem acknowledge_none (h : c.Ready base cascade) (hidle : c.Serves none)
    (hslot : firstSlot requests = none) : c.acknowledge requests = (7, c) := by
  unfold acknowledge
  rw [selected_idle h hidle, hslot]

end Chip

/-! ### The pair -/

namespace Pair

/-- Initialized for `base` and `base'`, each chip knowing where the other is. -/
structure Ready (base base' : Byte) (p : Pair) : Prop where
  master : p.master.Ready base 0x04#8
  slave : p.slave.Ready base' 0x02#8

/-- An interrupt of the slave is in service in both chips. -/
def masterLine (n : Fin 16) : Fin 8 := if h : n.val < 8 then ⟨n.val, h⟩ else 2

def slaveLine (n : Fin 16) : Option (Fin 8) :=
  if n.val < 8 then none else some ⟨n.val - 8, by omega⟩

structure Serves (p : Pair) (n : Option (Fin 16)) : Prop where
  master : p.master.Serves (n.map masterLine)
  slave : p.slave.Serves (n.bind slaveLine)

variable {p : Pair} {base base' : Byte} {n : Fin 16} {k : Fin 8} {o : Option (Fin 16)}

@[simp] theorem pending_ofMaster : p.pending (ofMaster k) = p.master.irr k := by
  simp [pending, ofMaster]

@[simp] theorem pending_ofSlave : p.pending (ofSlave k) = p.slave.irr k := by
  simp [pending, ofSlave]

@[simp] theorem masterLine_ofMaster : masterLine (ofMaster k) = k := by
  simp [masterLine, ofMaster]

@[simp] theorem masterLine_ofSlave : masterLine (ofSlave k) = 2 := dif_neg (by simp [ofSlave])

@[simp] theorem slaveLine_ofMaster : slaveLine (ofMaster k) = none := by
  simp [slaveLine, ofMaster]

@[simp] theorem slaveLine_ofSlave : slaveLine (ofSlave k) = some k := by
  simp [slaveLine, ofSlave]

@[simp] theorem ofMaster_inj {j : Fin 8} : ofMaster j = ofMaster k ↔ j = k := by
  simp [ofMaster, Fin.ext_iff]

@[simp] theorem ofSlave_inj {j : Fin 8} : ofSlave j = ofSlave k ↔ j = k := by
  simp [ofSlave, Fin.ext_iff]

@[simp] theorem ofMaster_ne_ofSlave (j k : Fin 8) : ofMaster j ≠ ofSlave k := by
  simp only [ofMaster, ofSlave, ne_eq, Fin.mk.injEq]
  omega

theorem eq_ofMaster_or_ofSlave (n : Fin 16) : (∃ k, n = ofMaster k) ∨ ∃ k, n = ofSlave k := by
  by_cases h : n.val < 8
  · exact Or.inl ⟨⟨n.val, h⟩, rfl⟩
  · refine Or.inr ⟨⟨n.val - 8, by omega⟩, Fin.ext ?_⟩
    simp only [ofSlave]
    omega

theorem next_eq : p.next = (([0, 1].find? p.master.irr).map ofMaster).or
    (((firstSlot p.slave.irr).map ofSlave).or
      (([3, 4, 5, 6, 7].find? p.master.irr).map ofMaster)) := by
  have hmaster : p.pending ∘ ofMaster = p.master.irr := funext fun _ => pending_ofMaster
  have hslave : p.pending ∘ ofSlave = p.slave.irr := funext fun _ => pending_ofSlave
  rw [next, priority, List.find?_append, List.find?_append, List.find?_map, List.find?_map,
    List.find?_map, hmaster, hslave, firstSlot]

theorem firstSlot_requests (hslave : p.slave.Ready base' 0x02#8)
    (hidle : p.slave.Serves none) : firstSlot p.requests = ([0, 1].find? p.master.irr).or
      (((firstSlot p.slave.irr).map fun _ => 2).or ([3, 4, 5, 6, 7].find? p.master.irr)) := by
  have hlines : List.finRange 8 = [0, 1] ++ ([2] ++ [3, 4, 5, 6, 7]) := rfl
  have hline : [2].find? p.requests = (firstSlot p.slave.irr).map fun _ => 2 := by
    rw [requests, Chip.selected_idle hslave hidle]
    cases firstSlot p.slave.irr <;> rfl
  have hother : ∀ ks : List (Fin 8), 2 ∉ ks → ks.find? p.requests = ks.find? p.master.irr := by
    intro ks hks
    refine List.find?_congr fun k hk => Function.update_of_ne ?_ _ _
    rintro rfl
    exact hks hk
  rw [firstSlot, hlines, List.find?_append, List.find?_append, hline, hother _ (by decide),
    hother _ (by decide)]

/-- The line whose vector the processor gets, and what is in service from then on. -/
structure Acknowledged (base base' : Byte) (p p' : Pair) (n : Fin 16) : Prop where
  ready : p'.Ready base base'
  serves : p'.Serves (some n)
  taken : p'.pending n = false
  rest : ∀ m, m ≠ 2 → m ≠ n → p'.pending m = p.pending m

def vector (base base' : Byte) (n : Fin 16) : Byte :=
  match slaveLine n with
  | some k => base' ||| BitVec.ofNat 8 k.val
  | none => base ||| BitVec.ofNat 8 (masterLine n).val

theorem not_cascade (hk : k ≠ 2) : (0x04#8 : Byte).getLsbD k = false := by
  revert k
  decide

theorem acknowledged_master (hready : p.Ready base base') (hidle : p.Serves none) (hk : k ≠ 2)
    (hslot : firstSlot p.requests = some k) :
    p.acknowledge.1 = vector base base' (ofMaster k) ∧
      Acknowledged base base' p p.acknowledge.2 (ofMaster k) := by
  obtain ⟨hn, hready', hserves, hirr⟩ := Chip.acknowledge_some hready.master hidle.master hslot
  have hpair : p.master.acknowledge p.requests = (k, (p.master.acknowledge p.requests).2) :=
    Prod.ext hn rfl
  have hresult : p.acknowledge =
      (p.master.vector k, ⟨(p.master.acknowledge p.requests).2, p.slave⟩) := by
    rw [acknowledge, hpair]
    simp only [hready.master.cascade, not_cascade hk, Bool.false_and, Bool.false_eq_true, if_false]
  rw [hresult]
  refine ⟨?_, ⟨hready', hready.slave⟩, ⟨?_, ?_⟩, ?_, ?_⟩
  · simp [vector, Chip.vector, hready.master.base]
  · simpa using hserves
  · simpa using hidle.slave
  · simp [hirr]
  · intro m _ hm
    rcases eq_ofMaster_or_ofSlave m with ⟨j, rfl⟩ | ⟨j, rfl⟩
    · have hj : j ≠ k := fun he => hm (he ▸ rfl)
      simp [hirr, Function.update_of_ne hj]
    · simp

theorem acknowledged_slave (hready : p.Ready base base') (hidle : p.Serves none)
    (hslot : firstSlot p.requests = some 2) (hslave : firstSlot p.slave.irr = some k) :
    p.acknowledge.1 = vector base base' (ofSlave k) ∧
      Acknowledged base base' p p.acknowledge.2 (ofSlave k) := by
  obtain ⟨hn, hready', hserves, hirr⟩ := Chip.acknowledge_some hready.master hidle.master hslot
  obtain ⟨hn', hready'', hserves', hirr'⟩ :=
    Chip.acknowledge_some hready.slave hidle.slave hslave
  have hpair : p.master.acknowledge p.requests = (2, (p.master.acknowledge p.requests).2) :=
    Prod.ext hn rfl
  have hpair' : p.slave.acknowledge p.slave.irr = (k, (p.slave.acknowledge p.slave.irr).2) :=
    Prod.ext hn' rfl
  have hresult : p.acknowledge = (p.slave.vector k,
      ⟨(p.master.acknowledge p.requests).2, (p.slave.acknowledge p.slave.irr).2⟩) := by
    rw [acknowledge, hpair, hpair']
    simp [hready.master.cascade, hready.slave.cascade]
  rw [hresult]
  refine ⟨?_, ⟨hready', hready''⟩, ⟨?_, ?_⟩, ?_, ?_⟩
  · simp [vector, Chip.vector, hready.slave.base]
  · simpa using hserves
  · simpa using hserves'
  · simp [hirr']
  · intro m htwo hm
    rcases eq_ofMaster_or_ofSlave m with ⟨j, rfl⟩ | ⟨j, rfl⟩
    · have hj : j ≠ 2 := fun he => htwo (he ▸ rfl)
      simp [hirr, Function.update_of_ne hj]
    · have hj : j ≠ k := fun he => hm (he ▸ rfl)
      simp [hirr', Function.update_of_ne hj]

/-- An idle pair hands out the pending line of the highest priority. -/
theorem acknowledge_next (hready : p.Ready base base') (hidle : p.Serves none)
    (hnext : p.next = some n) :
    p.acknowledge.1 = vector base base' n ∧ Acknowledged base base' p p.acknowledge.2 n := by
  have hslot := firstSlot_requests hready.slave hidle.slave
  rw [next_eq] at hnext
  cases hfirst : [0, 1].find? p.master.irr with
  | some k =>
    rw [hfirst] at hslot hnext
    obtain rfl : ofMaster k = n := Option.some.inj hnext
    have hk : k ∈ [0, 1] := List.mem_of_find?_eq_some hfirst
    exact acknowledged_master hready hidle (by rintro rfl; simp at hk) hslot
  | none =>
    rw [hfirst] at hslot hnext
    cases hslave : firstSlot p.slave.irr with
    | some k =>
      rw [hslave] at hslot hnext
      obtain rfl : ofSlave k = n := Option.some.inj hnext
      exact acknowledged_slave hready hidle hslot hslave
    | none =>
      rw [hslave] at hslot hnext
      cases hlast : [3, 4, 5, 6, 7].find? p.master.irr with
      | none =>
        rw [hlast] at hnext
        cases hnext
      | some k =>
        rw [hlast] at hslot hnext
        obtain rfl : ofMaster k = n := Option.some.inj hnext
        have hk : k ∈ [3, 4, 5, 6, 7] := List.mem_of_find?_eq_some hlast
        exact acknowledged_master hready hidle (by rintro rfl; simp at hk) hslot

/-- With nothing to hand out, it answers with the master's line 7 and stays as it is. -/
theorem acknowledge_spurious (hready : p.Ready base base') (hidle : p.Serves none)
    (hnext : p.next = none) : p.acknowledge = (vector base base' 7, p) := by
  have hslot : firstSlot p.requests = none := by
    rw [firstSlot_requests hready.slave hidle.slave]
    rw [next_eq] at hnext
    simpa using hnext
  rw [acknowledge, Chip.acknowledge_none hready.master hidle.master hslot]
  simp [hready.master.cascade, hready.master.base, Chip.vector, vector, masterLine, slaveLine]

theorem interrupts_iff (hready : p.Ready base base') (hidle : p.Serves none) :
    p.interrupts = true ↔ ∃ n ∈ priority, p.pending n = true := by
  have hnext : p.next.isSome = true ↔ ∃ n ∈ priority, p.pending n = true := by
    rw [next, List.find?_isSome]
  rw [← hnext, interrupts, Chip.selected_idle hready.master hidle.master,
    firstSlot_requests hready.slave hidle.slave, next_eq]
  simp

/-! ### Writes -/

theorem Serves.setLine (h : p.Serves o) (n : Fin 16) (b : Bool) : (p.setLine n b).Serves o := by
  unfold Pair.setLine
  split <;> exact ⟨h.master, h.slave⟩

theorem Ready.setLine (h : p.Ready base base') (n : Fin 16) (b : Bool) :
    (p.setLine n b).Ready base base' := by
  have hm := h.master
  have hs := h.slave
  unfold Pair.setLine
  split
  · exact ⟨⟨hm.expects, hm.base, hm.cascade, hm.autoEoi, hm.imr⟩, hs⟩
  · exact ⟨hm, ⟨hs.expects, hs.base, hs.cascade, hs.autoEoi, hs.imr⟩⟩

theorem setLine_ofMaster (b : Bool) : p.setLine (ofMaster k) b =
    { p with master := { p.master with irr := Function.update p.master.irr k b } } := by
  simp [setLine, ofMaster]

theorem setLine_ofSlave (b : Bool) : p.setLine (ofSlave k) b =
    { p with slave := { p.slave with irr := Function.update p.slave.irr k b } } := by
  simp [setLine, ofSlave]

theorem pending_setLine (n m : Fin 16) (b : Bool) :
    (p.setLine n b).pending m = if m = n then b else p.pending m := by
  rcases eq_ofMaster_or_ofSlave n with ⟨j, rfl⟩ | ⟨j, rfl⟩
  · rw [setLine_ofMaster]
    rcases eq_ofMaster_or_ofSlave m with ⟨k, rfl⟩ | ⟨k, rfl⟩
    · simp [Function.update_apply]
    · simp [Ne.symm (ofMaster_ne_ofSlave j k)]
  · rw [setLine_ofSlave]
    rcases eq_ofMaster_or_ofSlave m with ⟨k, rfl⟩ | ⟨k, rfl⟩
    · simp
    · simp [Function.update_apply]

/-! ### Masks -/

theorem interrupts_masked (h : p.master.imr = 0xFF#8) : p.interrupts = false := by
  have hmask : ∀ n : Fin 8, (0xFF#8 : Byte).getLsbD n = true := by decide
  have hnone : (fun n : Fin 8 => p.requests n && !p.master.imr.getLsbD n) = fun _ => false := by
    funext n
    rw [h, hmask n, Bool.not_true, Bool.and_false]
  have hslot : firstSlot (fun _ : Fin 8 => false) = none := firstSlot_eq_none_iff.mpr fun _ => rfl
  rw [interrupts, Chip.selected, hnone, hslot]
  rfl

theorem imr_setLine (n : Fin 16) (b : Bool) (p : Pair) :
    (p.setLine n b).master.imr = p.master.imr := by
  unfold setLine
  split <;> rfl

end Pair
end Machine.Pic
