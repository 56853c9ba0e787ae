import FenwickOS.Lib.Words

/-! Segment descriptors of an x86-64 processor in long mode, and the checks it makes when a
selector is loaded. Gates are left out: a table that holds any needs more than is here. -/
namespace Machine.Segments

abbrev Selector := BitVec 16

def Selector.rpl (s : Selector) : BitVec 2 := s.extractLsb' 0 2
def Selector.inLdt (s : Selector) : Bool := s.getLsbD 2
def Selector.index (s : Selector) : Nat := (s.extractLsb' 3 13).toNat
def Selector.isNull (s : Selector) : Bool := s &&& 0xFFFC#16 == 0#16

def Selector.errorCode (s : Selector) : BitVec 16 := s &&& 0xFFFC#16

/-! ### Descriptors -/

def isPresent (d : Word) : Bool := d.getLsbD 47
def dpl (d : Word) : BitVec 2 := d.extractLsb' 45 2
def isCode (d : Word) : Bool := d.getLsbD 44 && d.getLsbD 43
def isData (d : Word) : Bool := d.getLsbD 44 && !d.getLsbD 43

/-- Data that may be written, code that may be read. -/
def isOpen (d : Word) : Bool := d.getLsbD 41
def isConforming (d : Word) : Bool := d.getLsbD 42
def is64Bit (d : Word) : Bool := d.getLsbD 53
def is32Bit (d : Word) : Bool := d.getLsbD 54
def isFreeTss (d : Word) : Bool := !d.getLsbD 44 && d.extractLsb' 40 4 == 9#4

/-- A descriptor table, as `lgdt` finds it. -/
structure Table where
  limit : BitVec 16
  entry : Nat → Word

inductive Exception
  | invalidOpcode | notPresent | stack | protection | page
  deriving DecidableEq

def Exception.vector : Exception → Nat
  | .invalidOpcode => 6
  | .notPresent => 11
  | .stack => 12
  | .protection => 13
  | .page => 14

/-- An exception with its error code; 0 stands where there is none. -/
structure Fault where
  exception : Exception
  code : BitVec 16
  deriving DecidableEq

def protectionFault (code : BitVec 16) : Fault := ⟨.protection, code⟩

/-- There is no local table, so every selector into it is out of bounds. -/
def Table.find (t : Table) (s : Selector) (size : Nat) : Option Word :=
  if s.inLdt then none
  else if 8 * s.index + size ≤ t.limit.toNat + 1 then some (t.entry s.index)
  else none

inductive DataReg
  | ds | es | fs | gs | ss
  deriving DecidableEq

/-- A load of `ds`, `es`, `fs` or `gs`. -/
def checkData (t : Table) (cpl : BitVec 2) (s : Selector) : Option Fault :=
  if s.isNull then none
  else
    match t.find s 8 with
    | none => some (protectionFault s.errorCode)
    | some d =>
      if !(isData d || isCode d && isOpen d) then some (protectionFault s.errorCode)
      else if (isData d || !isConforming d) && (dpl d < s.rpl || dpl d < cpl) then
        some (protectionFault s.errorCode)
      else if !isPresent d then some ⟨.notPresent, s.errorCode⟩
      else none

def checkStack (t : Table) (cpl : BitVec 2) (s : Selector) : Option Fault :=
  if s.isNull then
    if cpl ≠ 3#2 ∧ s.rpl = cpl then none else some (protectionFault 0#16)
  else
    match t.find s 8 with
    | none => some (protectionFault s.errorCode)
    | some d =>
      if s.rpl ≠ cpl ∨ !(isData d && isOpen d) ∨ dpl d ≠ cpl then
        some (protectionFault s.errorCode)
      else if !isPresent d then some ⟨.stack, s.errorCode⟩
      else none

def checkLoad (t : Table) (cpl : BitVec 2) : DataReg → Selector → Option Fault
  | .ss, s => checkStack t cpl s
  | _, s => checkData t cpl s

/-- `ltr`: the descriptor takes sixteen bytes. -/
def checkTask (t : Table) (cpl : BitVec 2) (s : Selector) : Option Fault :=
  if cpl ≠ 0#2 ∨ s.isNull then some (protectionFault 0#16)
  else
    match t.find s 16 with
    | none => some (protectionFault s.errorCode)
    | some d =>
      if !isFreeTss d then some (protectionFault s.errorCode)
      else if !isPresent d then some ⟨.notPresent, s.errorCode⟩
      else none

/-- A far jump to a code segment. -/
def checkJump (t : Table) (cpl : BitVec 2) (s : Selector) : Option Fault :=
  if s.isNull then some (protectionFault 0#16)
  else
    match t.find s 8 with
    | none => some (protectionFault s.errorCode)
    | some d =>
      if !isCode d ∨ (is64Bit d && is32Bit d) then some (protectionFault s.errorCode)
      else if isConforming d ∧ cpl < dpl d then some (protectionFault s.errorCode)
      else if !isConforming d ∧ (cpl < s.rpl ∨ dpl d ≠ cpl) then
        some (protectionFault s.errorCode)
      else if !isPresent d then some ⟨.notPresent, s.errorCode⟩
      else none

/-- The code segment that `iretq` returns to. -/
def checkReturn (t : Table) (cpl : BitVec 2) (cs : Selector) : Option Fault :=
  if cs.isNull then some (protectionFault 0#16)
  else
    match t.find cs 8 with
    | none => some (protectionFault cs.errorCode)
    | some d =>
      if !isCode d ∨ cs.rpl < cpl ∨ (is64Bit d && is32Bit d) then
        some (protectionFault cs.errorCode)
      else if isConforming d ∧ cs.rpl < dpl d then some (protectionFault cs.errorCode)
      else if !isConforming d ∧ dpl d ≠ cs.rpl then some (protectionFault cs.errorCode)
      else if !isPresent d then some ⟨.notPresent, cs.errorCode⟩
      else none

/-! ### What a table without outer segments allows -/

/-- All code segments are for level 0, and no task state segment is described. -/
structure KernelOnly (t : Table) : Prop where
  code : ∀ i, isCode (t.entry i) = true → dpl (t.entry i) = 0#2 ∧ isConforming (t.entry i) = false
  task : ∀ i, isFreeTss (t.entry i) = false

variable {t : Table} {s cs : Selector} {cpl : BitVec 2} {d : Word} {size : Nat}

theorem Table.find_entry (h : t.find s size = some d) : d = t.entry s.index := by
  unfold Table.find at h
  split at h
  · cases h
  · split at h
    · exact (Option.some.inj h).symm
    · cases h

/-- Whatever the selector, a return stays at level 0. -/
theorem KernelOnly.checkReturn (h : KernelOnly t) (hok : checkReturn t cpl cs = none) :
    cs.rpl = 0#2 := by
  unfold Segments.checkReturn at hok
  split at hok
  · cases hok
  · cases hfind : t.find cs 8 with
    | none =>
      rw [hfind] at hok
      cases hok
    | some d =>
      rw [hfind] at hok
      dsimp only at hok
      have hentry := Table.find_entry hfind
      split at hok
      · cases hok
      · rename_i hcode
        simp only [not_or, Bool.not_eq_true', Bool.not_eq_false] at hcode
        obtain ⟨hdpl, hconforming⟩ := h.code cs.index (hentry ▸ hcode.1)
        rw [← hentry] at hdpl hconforming
        split at hok
        · cases hok
        · split at hok
          · cases hok
          · rename_i hlevel
            rw [hconforming, hdpl] at hlevel
            simpa [eq_comm] using hlevel

/-- Whatever the selector, no task register can be loaded. -/
theorem KernelOnly.checkTask (h : KernelOnly t) (s : Selector) :
    ∃ code, checkTask t 0#2 s = some (protectionFault code) := by
  unfold Segments.checkTask
  split
  · exact ⟨0#16, rfl⟩
  · cases hfind : t.find s 16 with
    | none => exact ⟨s.errorCode, rfl⟩
    | some d =>
      have hentry := Table.find_entry hfind
      have hfree := h.task s.index
      rw [← hentry] at hfree
      dsimp only
      rw [hfree]
      exact ⟨s.errorCode, rfl⟩

end Machine.Segments
