import FenwickOS.Vfs.Stdout

/-! Observing what is handed to the write functions of the drivers: each driver of the table gets a
stream, to which a call of its write function adds. -/
namespace FenwickOS.Vfs
open Machine Drv

variable {σ : Type*}

abbrev Streams := Fin maxDrivers → List Byte

/-- The bytes that a call with this buffer and length hands over; a null buffer is `none`. -/
def handed (buf : Option (Nat → Byte)) (len : Word) : List Byte :=
  match buf with
  | none => []
  | some buf => (List.range len.toNat).map buf

/-- The operations, with `record` told of what is written. -/
def tapOps (record : List Byte → Streams → Streams) (ops : DrvOps σ) : DrvOps (σ × Streams) where
  init := ops.init.map fun init dev w => let (n, w') := init dev w.1; (n, w', w.2)
  probe := ops.probe.map fun probe dev w => let (n, w') := probe dev w.1; (n, w', w.2)
  read := ops.read.map fun read dev buf len w =>
    let (n, bytes, w') := read dev buf len w.1
    (n, bytes, w', w.2)
  write := ops.write.map fun write dev buf len w =>
    let (n, w') := write dev buf len w.1
    (n, w', record (handed buf len) w.2)
  ioctl := ops.ioctl.map fun ioctl dev cmd arg w =>
    (ioctl dev cmd arg w.1).map fun r => (r.1, r.2, w.2)
  shutdown := ops.shutdown.map fun shutdown dev w => (shutdown dev w.1, w.2)

def append (d : Fin maxDrivers) (bytes : List Byte) (streams : Streams) : Streams :=
  Function.update streams d (streams d ++ bytes)

def tapDriver (d : Fin maxDrivers) (drv : Driver σ) : Driver (σ × Streams) :=
  ⟨drv.type, drv.ops.map (tapOps (append d)), drv.registered, drv.probed, drv.attached⟩

/-- A driver outside the table has no stream. -/
def tapDrvPtr : DrvPtr σ → DrvPtr (σ × Streams)
  | .slot d => .slot d
  | .other ops => .other (ops.map (tapOps fun _ streams => streams))

def tapDevice (dev : Device σ) : Device (σ × Streams) :=
  ⟨dev.name, dev.type, dev.driver.map tapDrvPtr, dev.id, dev.active⟩

def tapRegistry (r : Registry σ) : Registry (σ × Streams) where
  drivers d := tapDriver d (r.drivers d)
  devices i := tapDevice (r.devices i)
  driverCount := r.driverCount
  deviceCount := r.deviceCount
  drvInitialized := r.drvInitialized

def tapDevPtr : DevPtr σ → DevPtr (σ × Streams)
  | .slot i => .slot i
  | .other dev => .other (tapDevice dev)

def tapNode (node : VfsNode σ) : VfsNode (σ × Streams) :=
  ⟨node.name, node.id, node.type, node.device.map tapDevPtr, node.active, node.isConsole⟩

def tapNodes (v : NodeTable σ) : NodeTable (σ × Streams) :=
  ⟨fun i => tapNode (v.nodes i), v.vfsInitialized⟩

/-- The kernel with all streams empty. -/
def tap (k : Kernel σ) : Kernel (σ × Streams) :=
  ⟨tapRegistry k.registry, tapNodes k.vfs, k.world, fun _ => []⟩

variable {r : Registry σ} {v : NodeTable σ} {i : Fin maxDevices} {d : Fin maxDrivers}
  {write : Option (Fin maxDevices) → Option (Nat → Byte) → Word → σ → Int × σ}

theorem vfsGet_tapNodes (id : NodeId) (v : NodeTable σ) :
    vfsGet id (tapNodes v) = (vfsGet id v).map tapNode := by
  unfold vfsGet
  rw [Option.map_map]
  rfl

/-- The operations of a device stay, tapped for the driver that it has. -/
theorem opsOf_tapRegistry (i : Fin maxDevices) (r : Registry σ) :
    ∃ record, opsOf (some (.slot i)) (tapRegistry r) =
        (opsOf (some (.slot i)) r).map (tapOps record) ∧
      ∀ d, (r.devices i).driver = some (.slot d) → record = append d := by
  cases hdriver : (r.devices i).driver with
  | none =>
    refine ⟨fun _ streams => streams, ?_, fun d hd => ?_⟩
    · simp [opsOf, DevPtr.get, tapRegistry, tapDevice, hdriver]
    · cases hd
  | some drv =>
    cases drv with
    | slot d =>
      refine ⟨append d, ?_, fun d' hd' => ?_⟩
      · simp [opsOf, DevPtr.get, tapRegistry, tapDevice, hdriver, tapDrvPtr, DrvPtr.ops, tapDriver]
      · cases hd'
        rfl
    | other ops =>
      refine ⟨fun _ streams => streams, ?_, fun d hd => ?_⟩
      · simp [opsOf, DevPtr.get, tapRegistry, tapDevice, hdriver, tapDrvPtr, DrvPtr.ops]
      · cases hd

def tapWrite (d : Fin maxDrivers)
    (write : Option (Fin maxDevices) → Option (Nat → Byte) → Word → σ → Int × σ)
    (dev : Option (Fin maxDevices)) (buf : Option (Nat → Byte)) (len : Word) (w : σ × Streams) :
    Int × σ × Streams :=
  let (n, w') := write dev buf len w.1
  (n, w', append d (handed buf len) w.2)

theorem StdoutTo.tap (h : StdoutTo i write r v) (hd : (r.devices i).driver = some (.slot d)) :
    StdoutTo i (tapWrite d write) (tapRegistry r) (tapNodes v) where
  node := by
    obtain ⟨node, hget, hdevice, hconsole⟩ := h.node
    refine ⟨tapNode node, ?_, ?_, hconsole⟩
    · rw [vfsGet_tapNodes, hget]
      rfl
    · simpa [tapNode] using hdevice
  display := h.display
  displayWrite := by
    obtain ⟨record, hops, hrecord⟩ := opsOf_tapRegistry i r
    obtain ⟨ops, hget, hwrite⟩ := Option.bind_eq_some_iff.mp h.displayWrite
    rw [hops, hget, hrecord d hd]
    simp [tapOps, hwrite]
    rfl
  serial j hj := by
    obtain ⟨record, hops, -⟩ := opsOf_tapRegistry j r
    have hnone := h.serial j hj
    rw [hops]
    cases hget : opsOf (some (.slot j)) r with
    | none => rfl
    | some ops =>
      rw [hget, Option.bind_some] at hnone
      simp [tapOps, hnone]

end FenwickOS.Vfs
