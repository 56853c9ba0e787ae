import FenwickOS.Drv.SubsystemStdout
import FenwickOS.Syscall.Calls
import FenwickOS.Vfs.Tap

/-! What writes to standard output hand to the display and to the serial driver. -/
namespace FenwickOS.Syscall
open Machine Drv Vfs

/-- The calls that write to standard output; strings end at their NUL. -/
inductive ConsoleWrite
  | vfsWrite (buf : Option (Nat → Byte)) (len : Word)
  | vfsWriteStr (s : List Byte) (hs : 0#8 ∉ s)
  | sysWrite (fd : Word) (hfd : fd = 1#64 ∨ fd = 2#64) (buf : Option (Nat → Byte)) (len : Word)

def ConsoleWrite.buf : ConsoleWrite → Option (Nat → Byte)
  | .vfsWrite buf _ => buf
  | .vfsWriteStr s _ => some (charAt s)
  | .sysWrite _ _ buf _ => buf

def ConsoleWrite.len : ConsoleWrite → Word
  | .vfsWrite _ len => len
  | .vfsWriteStr s _ => (BitVec.ofNat 32 s.length).signExtend 64
  | .sysWrite _ _ _ len => len

def ConsoleWrite.bytes (call : ConsoleWrite) : List Byte := handed call.buf call.len

variable {σ : Type*}

def consoleWrite (k : Kernel σ) : ConsoleWrite → Kernel σ
  | .vfsWrite buf len => (vfsWrite vfsNodeStdout buf len k).2
  | .vfsWriteStr s _ => (vfsWriteStr vfsNodeStdout s k).2
  | .sysWrite fd _ buf len => (sysWrite fd buf len k).2

variable {stack : StackNames} {w : World} {k : Kernel σ} {i : Fin maxDevices}
  {write : Option (Fin maxDevices) → Option (Nat → Byte) → Word → σ → Int × σ}

theorem consoleWrite_eq (k : Kernel σ) (call : ConsoleWrite) :
    consoleWrite k call = (vfsWrite vfsNodeStdout call.buf call.len k).2 := by
  cases call with
  | vfsWrite buf len => rfl
  | vfsWriteStr s hs => rfl
  | sysWrite fd hfd buf len => exact congrArg Prod.snd (if_pos hfd)

theorem consoleWrite_stdoutTo (h : StdoutTo i write k.registry k.vfs) (call : ConsoleWrite) :
    consoleWrite k call = { k with world := (write (some i) call.buf call.len k.world).2 } := by
  rw [consoleWrite_eq, h.vfsWrite]

/-- The kernel after calls that all reached the one driver, from the state `w` on. -/
theorem run_consoleWrite (h : StdoutTo i write k.registry k.vfs) (calls : List ConsoleWrite) :
    run consoleWrite k calls =
      { k with
        world := run (fun w call => (write (some i) (ConsoleWrite.buf call) call.len w).2) k.world
          calls } := by
  induction calls generalizing k with
  | nil => rfl
  | cons call calls ih =>
    rw [run_cons, run_cons, consoleWrite_stdoutTo h]
    exact ih h

theorem subsystemInit_vga (stack : StackNames) (w : World) :
    ((subsystemInit stack (bootKernel w)).registry.devices 0).driver = some (.slot 0) := by
  rw [subsystemInit_eq]
  dsimp only
  exact probedTables_vga

theorem append_nil (d : Fin maxDrivers) (streams : Streams) : append d [] streams = streams := by
  rw [append, List.append_nil, Function.update_eq_self]

theorem append_append (d : Fin maxDrivers) (xs ys : List Byte) (streams : Streams) :
    append d ys (append d xs streams) = append d (xs ++ ys) streams := by
  simp [append]

/-- The tapped driver works as the driver does, and its stream is told of all that is written. -/
theorem run_tapWrite (d : Fin maxDrivers) (w : σ) (streams : Streams)
    (calls : List ConsoleWrite) :
    run (fun w call => (tapWrite d write (some i) (ConsoleWrite.buf call) call.len w).2)
        (w, streams) calls =
      (run (fun w call => (write (some i) (ConsoleWrite.buf call) call.len w).2) w calls,
        append d (calls.flatMap ConsoleWrite.bytes) streams) := by
  induction calls generalizing w streams with
  | nil => rw [List.flatMap_nil, append_nil]; rfl
  | cons call calls ih =>
    rw [run_cons, run_cons, List.flatMap_cons, ← append_append]
    exact ih _ _

/-- Only the display driver is handed anything, and it is handed everything. -/
theorem tap_run (stack : StackNames) (w : World) (calls : List ConsoleWrite) :
    let k := subsystemInit stack (bootKernel w)
    (run consoleWrite (tap k) calls).world =
      ((run consoleWrite k calls).world,
        append 0 (calls.flatMap ConsoleWrite.bytes) fun _ => []) := by
  have hk := stdoutTo_subsystemInit stack w
  have htap := hk.tap (subsystemInit_vga stack w)
  generalize subsystemInit stack (bootKernel w) = k at hk htap
  dsimp only
  rw [run_consoleWrite (k := tap k) htap, run_consoleWrite hk]
  exact run_tapWrite 0 k.world (fun _ => []) calls

/-- The serial driver is handed what the display driver is exactly if there is nothing to write:
its device is never bound. -/
theorem mirrored_iff (stack : StackNames) (w : World) (calls : List ConsoleWrite) :
    let k := run consoleWrite (tap (subsystemInit stack (bootKernel w))) calls
    k.world.2 1 = k.world.2 0 ↔ ∀ call ∈ calls, call.bytes = [] := by
  intro k
  have hstreams : k.world.2 = append 0 (calls.flatMap ConsoleWrite.bytes) fun _ => [] :=
    congrArg Prod.snd (tap_run stack w calls)
  have hserial : k.world.2 1 = [] := by
    rw [hstreams, append, Function.update_of_ne (by decide)]
  have hdisplay : k.world.2 0 = calls.flatMap ConsoleWrite.bytes := by
    rw [hstreams, append, Function.update_self, List.nil_append]
  rw [hserial, hdisplay, eq_comm, List.flatMap_eq_nil_iff]

def writeChar : ConsoleWrite := .vfsWriteStr [ascii 'A'] (by decide)

/-- The string `A` goes to the display only. -/
theorem not_mirrored_char :
    let k := run consoleWrite (tap (subsystemInit .zero (bootKernel zeroWorld)))
      [writeChar]
    k.world.2 0 = [ascii 'A'] ∧ k.world.2 1 ≠ k.world.2 0 := by
  dsimp only
  rw [tap_run .zero zeroWorld [writeChar]]
  exact ⟨by decide, by decide⟩

end FenwickOS.Syscall
