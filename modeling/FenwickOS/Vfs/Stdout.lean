import FenwickOS.Vfs.Vfs

/-! Writes to standard output: which driver they reach, and what is handed to it. -/
namespace FenwickOS.Vfs
open Machine Drv

variable {σ : Type*} {r : Registry σ} {v : NodeTable σ} {k : Kernel σ}
  {write : Option (Fin maxDevices) → Option (Nat → Byte) → Word → σ → Int × σ}

/-- Standard output is a console whose display device is in slot `i` and is written by `write`, and
no serial device can be written. -/
structure StdoutTo (i : Fin maxDevices)
    (write : Option (Fin maxDevices) → Option (Nat → Byte) → Word → σ → Int × σ)
    (r : Registry σ) (v : NodeTable σ) : Prop where
  node : ∃ node, vfsGet vfsNodeStdout v = some node ∧ node.device.isSome = true ∧
    node.isConsole = true
  display : devGetByType .display r = some i
  displayWrite : (opsOf (some (.slot i)) r).bind DrvOps.write = some write
  serial : ∀ j, devGetByType .serial r = some j →
    (opsOf (some (.slot j)) r).bind DrvOps.write = none

theorem StdoutTo.vfsWrite {i : Fin maxDevices} (h : StdoutTo i write k.registry k.vfs)
    (buf : Option (Nat → Byte)) (len : Word) :
    vfsWrite vfsNodeStdout buf len k =
      let (n, world) := write (some i) buf len k.world
      (if n > 0 then n else 0, { k with world := world }) := by
  obtain ⟨node, hget, hdevice, hconsole⟩ := h.node
  have hsome : node.device.isNone = false := by simpa using hdevice
  have hfirst : writeFirst .display buf len 0 k =
      let (n, world) := write (some i) buf len k.world
      (if n > 0 then n else 0, { k with world := world }) := by
    simp [writeFirst, h.display, drvCallWrite, h.displayWrite, DevPtr.slot?]
  have hserial (total : Int) (k' : Kernel σ) (hk' : k'.registry = k.registry) :
      writeFirst .serial buf len total k' = (total, k') := by
    unfold writeFirst
    split
    · rfl
    · rename_i j hj
      have hnone : drvCallWrite (some (.slot j)) buf len k'.registry k'.world = (-1, k'.world) := by
        rw [hk'] at hj ⊢
        simp [drvCallWrite, h.serial j hj]
      rw [hnone]
      rfl
  simp only [Vfs.vfsWrite, hget, hsome, hconsole, hfirst, if_true]
  exact hserial _ _ rfl

end FenwickOS.Vfs
