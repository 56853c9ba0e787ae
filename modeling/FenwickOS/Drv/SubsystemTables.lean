import FenwickOS.Drv.Registry
import FenwickOS.Drv.Subsystem
import FenwickOS.Vfs.Names

/-! The tables and the keyboard driver as `subsystem_init` leaves them. -/
namespace FenwickOS.Drv
open Machine Vfs

variable {stack : StackNames} {w : World}

/-! ### The tables before and after probing -/

def registeredTables (stack : StackNames) : Registry World where
  drivers := filled driverEntry subsystemDrivers (drvInit bootRegistry).drivers
  devices := filled deviceEntry (subsystemDevices stack) (drvInit bootRegistry).devices
  driverCount := 4
  deviceCount := 4
  drvInitialized := true

theorem register_eq (stack : StackNames) :
    registerDevices (subsystemDevices stack)
      (registerDrivers subsystemDrivers (drvInit bootRegistry)) = registeredTables stack := by
  rw [registerDrivers_eq (fun _ => rfl) rfl (by decide) (by decide),
    registerDevices_eq (fun _ => rfl) rfl (by simp [subsystemDevices, stackDevice])
      (by simp [subsystemDevices, maxDevices])]
  rfl

theorem registeredTables_probesSucceed : ProbesSucceed (registeredTables stack) := by
  have hdriver (d : Fin maxDrivers) (probe) :
      ((registeredTables stack).drivers d).ops.bind DrvOps.probe = some probe →
      ∀ i w, probe i w = (0, w) := by
    refine @filled_forall _ _ _ driverEntry subsystemDrivers _
      (fun drv => drv.ops.bind DrvOps.probe = some probe → ∀ i w, probe i w = (0, w)) ?_ ?_ d
    · simp [subsystemDrivers, vgaDriver, serialDriver, rtcDriver, kbdDriver, driverObject, vgaOps,
        serialOps, rtcOps, kbdOps, driverEntry]
      rintro - rfl i w
      rfl
    · simp [drvInit, bootRegistry]
  exact hdriver

/-- The tables that `subsystem_init` leaves. -/
def probedTables (stack : StackNames) (w : World) : Registry World :=
  (drvProbeAll (registeredTables stack) w).registry

theorem probedTables_probed (stack : StackNames) (w : World) :
    Probed (registeredTables stack) w (drvProbeAll (registeredTables stack) w) :=
  probed_drvProbeAll registeredTables_probesSucceed w

/-- No two registered drivers are of one type. -/
theorem registered_type_inj {d d' : Fin maxDrivers}
    (hd : ((registeredTables stack).drivers d).registered = true)
    (hd' : ((registeredTables stack).drivers d').registered = true)
    (htype : ((registeredTables stack).drivers d).type = ((registeredTables stack).drivers d').type) :
    d = d' := by
  have h : ∀ d d' : Fin maxDrivers,
      (filled driverEntry subsystemDrivers (drvInit bootRegistry).drivers d).registered = true →
      (filled driverEntry subsystemDrivers (drvInit bootRegistry).drivers d').registered = true →
      (filled driverEntry subsystemDrivers (drvInit bootRegistry).drivers d).type =
        (filled driverEntry subsystemDrivers (drvInit bootRegistry).drivers d').type → d = d' := by
    decide +kernel
  exact h d d' hd hd' htype

theorem registered_kbdDriver :
    (registeredTables stack).drivers 3 = { kbdDriver with registered := true } := rfl

theorem probedTables_kbd :
    ((probedTables stack w).devices 3).driver = some (.slot 3) ∧
    ((probedTables stack w).drivers 3).ops = some kbdOps := by
  refine ⟨?_, ?_⟩
  · rw [probedTables]
    exact drvProbeAll_binds_only registeredTables_probesSucceed w rfl
      (fun _ hreg htype => registered_type_inj hreg rfl htype) rfl rfl rfl rfl
  · rw [probedTables, (probedTables_probed stack w).ops, registered_kbdDriver]
    rfl

theorem opsOf_kbd : opsOf (some (.slot 3)) (probedTables stack w) = some kbdOps := by
  simp [opsOf, DevPtr.get, DrvPtr.ops, probedTables_kbd]

theorem devGet_kbd : devGet 4#32 (probedTables stack w) = some 3 := by
  have h := probedTables_probed stack w
  refine firstSlot_eq ?_ fun j hj => ?_
  · rw [probedTables, h.active, h.id]
    rfl
  · rw [probedTables, h.active, h.id]
    match j, hj with
    | 0, _ => rfl
    | 1, _ => rfl
    | 2, _ => rfl

/-- The names of the devices, in the order of their slots. -/
def deviceNames : Fin 4 → List Byte
  | 0 => vga0
  | 1 => com1Name
  | 2 => rtc0
  | 3 => kbd0

def deviceSlot (j : Fin 4) : Fin maxDevices := j.castLE (by decide)

theorem probedTables_device (j : Fin 4) :
    ((probedTables stack w).devices (deviceSlot j)).active = true ∧
    ∃ old, ((probedTables stack w).devices (deviceSlot j)).name =
      storeName old (deviceNames j) := by
  have h := probedTables_probed stack w
  rw [probedTables, h.active, h.name]
  match j with
  | 0 | 1 | 2 | 3 => exact ⟨rfl, _, rfl⟩

theorem named_device (j : Fin 4) :
    named (deviceNames j) (probedTables stack w) = some (.slot (deviceSlot j)) := by
  have hnames : ∀ j, 0#8 ∉ deviceNames j ∧ (deviceNames j).length < vfsNameMax := by decide
  have hdistinct : ∀ j k, deviceNames j = deviceNames k → j = k := by decide
  have hfind : devGetByName (some (deviceNames j)) (probedTables stack w) = some (deviceSlot j) := by
    rw [devGetByName, Option.bind_some]
    refine firstSlot_eq ?_ fun k hk => ?_
    · obtain ⟨hactive, old, hname⟩ := @probedTables_device stack w j
      rw [hactive, hname]
      exact (nameMatches_storeName (hnames j).1 (hnames j).1 (hnames j).2).mpr rfl
    · obtain ⟨k, rfl⟩ : ∃ k', deviceSlot k' = k := by
        have hj : (deviceSlot j).val < 4 := j.isLt
        have hlt : k.val < (deviceSlot j).val := hk
        exact ⟨⟨k.val, by omega⟩, rfl⟩
      obtain ⟨hactive, old, hname⟩ := @probedTables_device stack w k
      rw [hactive, hname, Bool.true_and, Bool.eq_false_iff, Ne,
        nameMatches_storeName (hnames j).1 (hnames k).1 (hnames k).2]
      intro hsame
      exact absurd (hdistinct j k hsame) (fun hjk => by subst hjk; exact lt_irrefl _ hk)
  rw [named, hfind]
  rfl

theorem named_kbd : named kbd0 (probedTables stack w) = some (.slot 3) := named_device 3

/-! ### The state that `subsystem_init` leaves -/

/-- The nodes, each on the device of its name. -/
def namedNodes (r : Registry World) : NodeTable World :=
  registerNodes (subsystemNodes (named vga0 r) (named com1Name r) (named rtc0 r) (named kbd0 r))
    (vfsInit bootNodes)

theorem subsystemInit_eq (stack : StackNames) (w : World) :
    subsystemInit stack (bootKernel w) =
      ⟨probedTables stack w, namedNodes (probedTables stack w),
        run (initDevice (probedTables stack w)) w (List.finRange maxDevices)⟩ := by
  rw [subsystemInit]
  simp only [bootKernel, register_eq, (probedTables_probed stack w).world]
  rfl

theorem subsystemNodes_kbd (vga ser rtc kbd : Option (DevPtr World)) :
    (vfsGet vfsNodeKbd (registerNodes (subsystemNodes vga ser rtc kbd) (vfsInit bootNodes))).map
      VfsNode.device = some kbd := by
  rw [registerNodes_eq (fun _ => rfl) (by simp [subsystemNodes, vfsNodeMax]), vfsGet]
  have hslot : (firstSlot fun i =>
      (filled nodeEntry (subsystemNodes vga ser rtc kbd) (vfsInit bootNodes).nodes i).active &&
        (filled nodeEntry (subsystemNodes vga ser rtc kbd) (vfsInit bootNodes).nodes i).id ==
          vfsNodeKbd) = some (3 : Fin vfsNodeMax) := by
    have hbelow : ∀ j < (3 : Fin vfsNodeMax), j = 0 ∨ j = 1 ∨ j = 2 := by decide
    refine firstSlot_eq rfl fun j hj => ?_
    rcases hbelow j hj with rfl | rfl | rfl <;> rfl
  simp only [hslot]
  rfl

theorem opsOf_mem {i : Fin maxDevices} {o : DrvOps World}
    (h : opsOf (some (.slot i)) (probedTables stack w) = some o) :
    o ∈ [vgaOps, serialOps, rtcOps, kbdOps] := by
  have hops : ∀ d o, ((registeredTables stack).drivers d).ops = some o →
      o ∈ [vgaOps, serialOps, rtcOps, kbdOps] := by
    intro d o
    refine @filled_forall _ _ _ driverEntry subsystemDrivers _
      (fun drv => drv.ops = some o → o ∈ [vgaOps, serialOps, rtcOps, kbdOps]) ?_ ?_ d
    · intro drv hdrv _ ho
      have hmem : ∀ drv ∈ subsystemDrivers, ∀ o, drv.ops = some o →
          o ∈ [vgaOps, serialOps, rtcOps, kbdOps] := by
        simp [subsystemDrivers, vgaDriver, serialDriver, rtcDriver, kbdDriver, driverObject]
      exact hmem drv hdrv o ho
    · simp [drvInit, bootRegistry]
  have hp := probedTables_probed stack w
  simp only [opsOf, Option.bind_some, DevPtr.get] at h
  rcases hp.bound i with hnone | ⟨d, hslot, -, -⟩
  · have hfree : ((registeredTables stack).devices i).driver = none := by
      refine @filled_forall _ _ _ deviceEntry (subsystemDevices stack) _
        (fun dev => dev.driver = none) ?_ ?_ i
      · simp [subsystemDevices, stackDevice, deviceEntry]
      · simp [drvInit, bootRegistry]
    rw [probedTables, hnone, hfree] at h
    cases h
  · rw [probedTables, hslot] at h
    exact hops d o ((hp.ops d).symm.trans h)

theorem initDevice_cases (w' : World) (i : Fin maxDevices) :
    initDevice (probedTables stack w) w' i = w' ∨
    initDevice (probedTables stack w) w' i = { w' with vga := (vgaDriverInit w'.vga).2 } ∨
    initDevice (probedTables stack w) w' i = { w' with serial := (serialDriverInit w'.serial).2 } ∨
    initDevice (probedTables stack w) w' i = { w' with rtc := (rtcDriverInit w'.rtc).2 } ∨
    initDevice (probedTables stack w) w' i = { w' with kbd := (kbdDriverInit w'.kbd).2 } := by
  unfold initDevice
  split
  · exact Or.inl rfl
  · split
    · unfold drvCallInit
      split
      · exact Or.inl rfl
      · rename_i init hinit
        obtain ⟨o, ho, hinit⟩ := Option.bind_eq_some_iff.mp hinit
        have hmem := opsOf_mem ho
        simp only [List.mem_cons, List.not_mem_nil, or_false] at hmem
        rcases hmem with rfl | rfl | rfl | rfl <;> cases hinit
        · exact Or.inr (Or.inl rfl)
        · exact Or.inr (Or.inr (Or.inl rfl))
        · exact Or.inr (Or.inr (Or.inr (Or.inl rfl)))
        · exact Or.inr (Or.inr (Or.inr (Or.inr rfl)))
    · exact Or.inl rfl

theorem initDevice_bound {i : Fin maxDevices} {o : DrvOps World}
    {init : Option (Fin maxDevices) → World → Int × World}
    (hget : devGet (BitVec.ofNat 32 (i.val + 1)) (probedTables stack w) = some i)
    (hactive : ((probedTables stack w).devices i).active = true)
    (hbound : ((probedTables stack w).devices i).driver.isSome = true)
    (hops : opsOf (some (.slot i)) (probedTables stack w) = some o) (hinit : o.init = some init)
    (w' : World) : initDevice (probedTables stack w) w' i = (init (some i) w').2 := by
  rw [initDevice, hget]
  simp [hactive, hbound, drvCallInit, hops, hinit, DevPtr.slot?]

theorem initDevice_kbd (w' : World) (i : Fin maxDevices) :
    (initDevice (probedTables stack w) w' i).kbd = w'.kbd ∨
    (initDevice (probedTables stack w) w' i).kbd = (kbdDriverInit w'.kbd).2 := by
  rcases @initDevice_cases stack w w' i with he | he | he | he | he
  · exact Or.inl (by rw [he])
  · exact Or.inl (by rw [he])
  · exact Or.inl (by rw [he])
  · exact Or.inl (by rw [he])
  · exact Or.inr (by rw [he])

theorem initDevice_three (w' : World) :
    (initDevice (probedTables stack w) w' 3).kbd = (kbdDriverInit w'.kbd).2 := by
  have hactive : ((probedTables stack w).devices 3).active = true := by
    rw [probedTables, (probedTables_probed stack w).active]
    rfl
  have hbound : ((probedTables stack w).devices 3).driver.isSome = true := by
    rw [probedTables_kbd.1]
    rfl
  have hget : devGet (BitVec.ofNat 32 ((3 : Fin maxDevices).val + 1)) (probedTables stack w) =
      some 3 := devGet_kbd
  rw [initDevice_bound hget hactive hbound opsOf_kbd rfl]

/-- The driver's buffer is empty once `subsystem_init` is through. -/
theorem kbdBuffer_subsystemInit :
    (subsystemInit stack (bootKernel w)).world.kbd.kbdBuffer.contents = [] := by
  rw [subsystemInit_eq]
  dsimp only
  refine run_establishes (P := fun w : World => w.kbd.kbdBuffer.contents = []) (Q := fun _ => True)
    (fun _ _ _ => trivial) (fun w' i _ h => ?_) (fun w' _ => ?_)
    (List.mem_finRange (3 : Fin maxDevices)) trivial
  · rcases @initDevice_kbd stack w w' i with he | he
    · rw [he]
      exact h
    · rw [he]
      exact Ring.contents_clear _
  · rw [initDevice_three]
    exact Ring.contents_clear _

/-- The node `id` is there and its device has the driver with these operations. -/
def BoundTo (ops : DrvOps World) (id : NodeId) (k : Kernel World) : Prop :=
  ∃ node dev, vfsGet id k.vfs = some node ∧ node.device = some dev ∧
    opsOf (some dev) k.registry = some ops

theorem boundTo_kbd {k : Kernel World}
    (hr : k.registry = (subsystemInit stack (bootKernel w)).registry)
    (hv : k.vfs = (subsystemInit stack (bootKernel w)).vfs) : BoundTo kbdOps vfsNodeKbd k := by
  rw [subsystemInit_eq] at hr hv
  dsimp only at hr hv
  have hnode : (vfsGet vfsNodeKbd (namedNodes (probedTables stack w))).map VfsNode.device =
      some (named kbd0 (probedTables stack w)) := subsystemNodes_kbd _ _ _ _
  rw [← hv, named_kbd] at hnode
  obtain ⟨node, hget, hdevice⟩ := Option.map_eq_some_iff.mp hnode
  exact ⟨node, _, hget, hdevice, hr ▸ opsOf_kbd⟩

theorem vfsRead_kbd {k : Kernel World}
    (hr : k.registry = (subsystemInit stack (bootKernel w)).registry)
    (hv : k.vfs = (subsystemInit stack (bootKernel w)).vfs) (buf len : Word) :
    vfsRead vfsNodeKbd buf len k =
      let (n, bytes, kbd) := kbdDriverRead buf len k.world.kbd
      (n, bytes, { k with world := { k.world with kbd := kbd } }) := by
  obtain ⟨node, dev, hget, hdevice, hops⟩ := boundTo_kbd hr hv
  simp [vfsRead, hget, hdevice, drvCallRead, hops, kbdOps]

end FenwickOS.Drv
