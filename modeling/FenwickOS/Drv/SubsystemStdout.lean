import FenwickOS.Drv.SubsystemTables
import FenwickOS.Vfs.Stdout

/-! Standard output as `subsystem_init` leaves it. -/
namespace FenwickOS.Drv
open Machine Vfs

variable {stack : StackNames} {w : World} {k : Kernel World}

/-- The write function of the display driver. -/
def vgaWrite (_ : Option (Fin maxDevices)) (buf : Option (Nat → Byte)) (len : Word) (w : World) :
    Int × World :=
  let (n, vga) := vgaDriverWrite buf len w.vga
  (n, { w with vga := vga })

theorem write_vgaOps : vgaOps.write = some vgaWrite := rfl

theorem probedTables_vga : ((probedTables stack w).devices 0).driver = some (.slot 0) := by
  rw [probedTables]
  exact drvProbeAll_binds_only registeredTables_probesSucceed w rfl
    (fun _ hreg htype => registered_type_inj hreg rfl htype) rfl rfl rfl rfl

/-- The serial device is bound to nothing: its driver has no probe function. -/
theorem probedTables_serial : ((probedTables stack w).devices 1).driver = none := by
  rw [probedTables]
  refine drvProbeAll_leaves w fun d hreg htype => ?_
  obtain rfl : d = 1 := registered_type_inj hreg rfl htype.symm
  rfl

theorem registered_vgaDriver :
    (registeredTables stack).drivers 0 = { vgaDriver with registered := true } := rfl

theorem ops_vga : ((probedTables stack w).drivers 0).ops = some vgaOps := by
  rw [probedTables, (probedTables_probed stack w).ops, registered_vgaDriver]
  rfl

theorem devGetByType_display : devGetByType .display (probedTables stack w) = some 0 := by
  have h := probedTables_probed stack w
  refine firstSlot_eq ?_ fun j hj => absurd hj (Fin.not_lt_zero j)
  rw [probedTables, h.active, h.deviceType]
  rfl

theorem devGetByType_serial : devGetByType .serial (probedTables stack w) = some 1 := by
  have h := probedTables_probed stack w
  refine firstSlot_eq ?_ fun j hj => ?_
  · rw [probedTables, h.active, h.deviceType]
    rfl
  · obtain rfl : j = 0 := Fin.ext (Nat.lt_one_iff.mp hj)
    rw [probedTables, h.active, h.deviceType]
    rfl

theorem named_vga : named vga0 (probedTables stack w) = some (.slot 0) := named_device 0

/-- The node of standard output is a console on the device named `vga0`. -/
theorem subsystemNodes_stdout (vga ser rtc kbd : Option (DevPtr World)) :
    ∃ node, vfsGet vfsNodeStdout (registerNodes (subsystemNodes vga ser rtc kbd)
        (vfsInit bootNodes)) = some node ∧ node.device = vga ∧ node.isConsole = true := by
  rw [registerNodes_eq (fun _ => rfl) (by simp [subsystemNodes, vfsNodeMax]), vfsGet]
  have hslot : (firstSlot fun i =>
      (filled nodeEntry (subsystemNodes vga ser rtc kbd) (vfsInit bootNodes).nodes i).active &&
        (filled nodeEntry (subsystemNodes vga ser rtc kbd) (vfsInit bootNodes).nodes i).id ==
          vfsNodeStdout) = some (4 : Fin vfsNodeMax) := by
    refine firstSlot_eq rfl fun j hj => ?_
    have hj : j.val < 4 := hj
    rcases j with ⟨_ | _ | _ | _ | j, hlt⟩
    iterate 4 rfl
    · dsimp only at hj
      omega
  simp only [hslot]
  exact ⟨_, rfl, rfl, rfl⟩

theorem namedNodes_stdout : ∃ node, vfsGet vfsNodeStdout (namedNodes (probedTables stack w)) =
    some node ∧ node.device.isSome = true ∧ node.isConsole = true := by
  have hnode := subsystemNodes_stdout (named vga0 (probedTables stack w))
    (named com1Name (probedTables stack w)) (named rtc0 (probedTables stack w))
    (named kbd0 (probedTables stack w))
  rcases hnode with ⟨node, hget, hdevice, hconsole⟩
  refine ⟨node, hget, ?_, hconsole⟩
  rw [hdevice, named_vga]
  rfl

theorem stdoutTo_subsystemInit (stack : StackNames) (w : World) :
    StdoutTo 0 vgaWrite (subsystemInit stack (bootKernel w)).registry
      (subsystemInit stack (bootKernel w)).vfs := by
  rw [subsystemInit_eq]
  dsimp only
  refine ⟨namedNodes_stdout, @devGetByType_display stack w, ?_, fun j hj => ?_⟩
  · simp [opsOf, DevPtr.get, probedTables_vga, DrvPtr.ops, ops_vga, write_vgaOps]
  · rw [devGetByType_serial] at hj
    cases hj
    simp [opsOf, DevPtr.get, probedTables_serial]

theorem initDevice_vga (w' : World) (i : Fin maxDevices) :
    (initDevice (probedTables stack w) w' i).vga = w'.vga ∨
    (initDevice (probedTables stack w) w' i).vga = (vgaDriverInit w'.vga).2 := by
  rcases @initDevice_cases stack w w' i with he | he | he | he | he
  · exact Or.inl (by rw [he])
  · exact Or.inr (by rw [he])
  · exact Or.inl (by rw [he])
  · exact Or.inl (by rw [he])
  · exact Or.inl (by rw [he])

theorem devGet_vga : devGet 1#32 (probedTables stack w) = some 0 := by
  have h := probedTables_probed stack w
  refine firstSlot_eq ?_ fun j hj => absurd hj (Fin.not_lt_zero j)
  rw [probedTables, h.active, h.id]
  rfl

theorem initDevice_zero (w' : World) :
    (initDevice (probedTables stack w) w' 0).vga = (vgaDriverInit w'.vga).2 := by
  have hactive : ((probedTables stack w).devices 0).active = true := by
    rw [probedTables, (probedTables_probed stack w).active]
    rfl
  have hbound : ((probedTables stack w).devices 0).driver.isSome = true := by
    rw [probedTables_vga]
    rfl
  have hops : opsOf (some (.slot 0)) (probedTables stack w) = some vgaOps := by
    simp [opsOf, DevPtr.get, probedTables_vga, DrvPtr.ops, ops_vga]
  have hget : devGet (BitVec.ofNat 32 ((0 : Fin maxDevices).val + 1)) (probedTables stack w) =
      some 0 := devGet_vga
  rw [initDevice_bound hget hactive hbound hops rfl]

/-- The driver's cursor is at the top left once `subsystem_init` is through. -/
theorem vgaCursor_subsystemInit :
    (subsystemInit stack (bootKernel w)).world.vga.vgaCursorX = 0 ∧
    (subsystemInit stack (bootKernel w)).world.vga.vgaCursorY = 0 := by
  rw [subsystemInit_eq]
  dsimp only
  refine run_establishes (P := fun w : World => w.vga.vgaCursorX = 0 ∧ w.vga.vgaCursorY = 0)
    (Q := fun _ => True) (fun _ _ _ => trivial) (fun w' i _ h => ?_) (fun w' _ => ?_)
    (List.mem_finRange (0 : Fin maxDevices)) trivial
  · rcases @initDevice_vga stack w w' i with he | he
    · rwa [he]
    · rw [he]
      exact ⟨rfl, rfl⟩
  · rw [initDevice_zero]
    exact ⟨rfl, rfl⟩

def zeroWorld : World where
  vga := ⟨fun _ => 0#8, 0, 0, defaultColor⟩
  serial := ⟨[]⟩
  rtc := ⟨fun _ _ => 0#8, 0, []⟩
  kbd := ⟨⟨fun _ => 0#8, 0, 0⟩, false, false, false, false, false, fun _ => false⟩

end FenwickOS.Drv
