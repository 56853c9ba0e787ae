import FenwickOS.Vfs.Vfs

/-! The system calls of kernel/syscall/syscall.c that go through the node table. -/
namespace FenwickOS.Syscall
open Machine Drv Vfs

variable {σ : Type*}

/-- A null buffer is `none`. -/
def sysWrite (fd : Word) (buf : Option (Nat → Byte)) (len : Word) (k : Kernel σ) :
    Int × Kernel σ :=
  if fd = 1#64 ∨ fd = 2#64 then vfsWrite vfsNodeStdout buf len k else (-1, k)

def sysRead (fd buf len : Word) (k : Kernel σ) : Int × List Byte × Kernel σ :=
  if fd = 0#64 then vfsRead vfsNodeKbd buf len k else (-1, [], k)

def sysPutchar (c : Word) (k : Kernel σ) : Int × Kernel σ :=
  (1, (vfsWrite vfsNodeStdout (some fun _ => c.setWidth 8) 1#64 k).2)

end FenwickOS.Syscall
