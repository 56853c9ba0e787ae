import FenwickOS.Lib.Words
import Mathlib.Logic.Function.Basic

/-! The system call table of kernel/syscall/syscall.c. A handler is known by the address of its
code; what the code there does is a parameter. -/
namespace FenwickOS.Syscall
open Machine

abbrev syscallMax : Nat := 32

/-- `syscalls`, with 0 for an empty slot, and `syscall_count`. -/
structure SyscallTable where
  syscalls : Fin syscallMax → Word
  syscallCount : Int

abbrev Handlers (σ : Type*) := Word → (Fin 6 → Word) → σ → Word × σ

/-- The table, the handler calls made so far with their arguments, and the rest of the kernel. -/
structure SyscallState (σ : Type*) where
  table : SyscallTable
  called : List (Word × (Fin 6 → Word))
  kernel : σ

def syscallRegister (num : BitVec 32) (fn : Word) (t : SyscallTable) : Int × SyscallTable :=
  if num.toInt < 0 ∨ num.toInt ≥ syscallMax ∨ fn = 0#64 then (-1, t)
  else if h : num.toInt.toNat < syscallMax then
    (0, { syscalls := Function.update t.syscalls ⟨num.toInt.toNat, h⟩ fn
          syscallCount :=
            if num.toInt ≥ t.syscallCount then num.toInt + 1 else t.syscallCount })
  else (-1, t)

/-- The slot of a call number, a signed `long`. -/
def slot (num : Word) : Option (Fin syscallMax) :=
  if h : 0 ≤ num.toInt ∧ num.toInt.toNat < syscallMax then some ⟨num.toInt.toNat, h.2⟩ else none

def registered (t : SyscallTable) (num : Word) : Option Word :=
  (slot num).bind fun i => if t.syscalls i = 0#64 then none else some (t.syscalls i)

variable {σ : Type*}

def syscallHandle (handlers : Handlers σ) (num : Word) (args : Fin 6 → Word) (s : SyscallState σ) :
    Word × SyscallState σ :=
  match registered s.table num with
  | none => (-1#64, s)
  | some fn =>
    let (result, kernel) := handlers fn args s.kernel
    (result, { s with called := s.called ++ [(fn, args)], kernel := kernel })

/-- `syscall_dispatcher`, whose body is empty. -/
def syscallDispatcher (s : SyscallState σ) : SyscallState σ := s

end FenwickOS.Syscall
