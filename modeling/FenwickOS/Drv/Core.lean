import FenwickOS.Lib.Runs
import FenwickOS.Lib.Slots
import FenwickOS.Lib.Words

/-! The driver and device tables of kernel/drv/drv.c. The drivers behind the operation tables work
on a state `σ` of their own. -/
namespace FenwickOS.Drv
open Machine

abbrev drvNameMax : Nat := 32
abbrev maxDrivers : Nat := 16
abbrev maxDevices : Nat := 32

inductive DrvType
  | unknown | keyboard | rtc | display | serial | timer | pic | ram
  deriving DecidableEq

abbrev Name := Fin drvNameMax → Byte

/-- The functions of a driver; `none` is a null pointer. Each gets the slot of its device, or
nothing when the device lies outside `devices`. -/
structure DrvOps (σ : Type*) where
  init : Option (Option (Fin maxDevices) → σ → Int × σ)
  probe : Option (Option (Fin maxDevices) → σ → Int × σ)
  /-- The result and the bytes stored from `buf` on. -/
  read : Option (Option (Fin maxDevices) → (buf len : Word) → σ → Int × List Byte × σ)
  /-- A null buffer is `none`. -/
  write : Option (Option (Fin maxDevices) → Option (Nat → Byte) → (len : Word) → σ → Int × σ)
  /-- The outer `none` result is an access outside the driver's arrays. -/
  ioctl : Option (Option (Fin maxDevices) → BitVec 32 → Word → σ → Option (Int × σ))
  shutdown : Option (Option (Fin maxDevices) → σ → σ)

structure Driver (σ : Type*) where
  type : DrvType
  ops : Option (DrvOps σ)
  registered : Bool
  probed : Bool
  attached : Bool

/-- A pointer to a slot of `drivers`, or to a driver elsewhere, of which only the operations are
ever read. -/
inductive DrvPtr (σ : Type*)
  | slot (d : Fin maxDrivers)
  | other (ops : Option (DrvOps σ))

structure Device (σ : Type*) where
  name : Name
  type : DrvType
  driver : Option (DrvPtr σ)
  id : BitVec 32
  active : Bool

structure Registry (σ : Type*) where
  drivers : Fin maxDrivers → Driver σ
  devices : Fin maxDevices → Device σ
  driverCount : Int
  deviceCount : Int
  drvInitialized : Bool

/-- A pointer to a slot of `devices` or to a device elsewhere. -/
inductive DevPtr (σ : Type*)
  | slot (i : Fin maxDevices)
  | other (dev : Device σ)

variable {σ : Type*}

def drvInit (r : Registry σ) : Registry σ :=
  if r.drvInitialized then r
  else
    { drivers := fun i =>
        { r.drivers i with registered := false, probed := false, attached := false }
      devices := fun i => { r.devices i with active := false, id := 0#32 }
      driverCount := 0
      deviceCount := 0
      drvInitialized := true }

def drvRegister (drv : Option (Driver σ)) (r : Registry σ) : Int × Registry σ :=
  match drv with
  | none => (-1, r)
  | some drv =>
    if drv.ops.isNone then (-1, r)
    else if r.driverCount ≥ maxDrivers then (-1, r)
    else
      match firstSlot fun i => !(r.drivers i).registered with
      | none => (-1, r)
      | some i =>
        (0, { r with
              drivers := Function.update r.drivers i { drv with registered := true }
              driverCount := r.driverCount + 1 })

/-- Successive calls of `drv_register`, whose results the caller ignores. -/
def registerDrivers (drvs : List (Driver σ)) (r : Registry σ) : Registry σ :=
  run (fun r drv => (drvRegister (some drv) r).2) r drvs

def drvUnregister (drv : Option (DrvPtr σ)) (r : Registry σ) : Int × Registry σ :=
  match drv with
  | some (.slot i) =>
    (0, { r with
          drivers := Function.update r.drivers i { r.drivers i with registered := false }
          driverCount := r.driverCount - 1 })
  | _ => (-1, r)

/-- The caller's `device_t` may get an id, so it is returned as well. -/
def devRegister (dev : Option (Device σ)) (r : Registry σ) : Int × Option (Device σ) × Registry σ :=
  match dev with
  | none => (-1, none, r)
  | some dev =>
    if r.deviceCount ≥ maxDevices then (-1, some dev, r)
    else
      match firstSlot fun i => !(r.devices i).active with
      | none => (-1, some dev, r)
      | some i =>
        let dev := if dev.id = 0#32 then { dev with id := BitVec.ofNat 32 (i.val + 1) } else dev
        (0, some dev, { r with
                        devices := Function.update r.devices i { dev with active := true }
                        deviceCount := r.deviceCount + 1 })

/-- Successive calls of `dev_register`, each with a device of its own. -/
def registerDevices (devs : List (Device σ)) (r : Registry σ) : Registry σ :=
  run (fun r dev => (devRegister (some dev) r).2.2) r devs

def devGet (id : BitVec 32) (r : Registry σ) : Option (Fin maxDevices) :=
  firstSlot fun i => (r.devices i).active && (r.devices i).id == id

def charAt (s : List Byte) (j : Nat) : Byte := s.getD j 0#8

/-- The name comparison of `dev_get_by_name` from position `j` on, `k` positions before the last
of `stored`. -/
def nameMatchesFrom (name : List Byte) (stored : Name) :
    (k j : Nat) → j + k + 1 = drvNameMax → Bool
  | 0, j, h => charAt name j == 0#8 && stored ⟨j, by omega⟩ == 0#8
  | k + 1, j, h =>
    if charAt name j ≠ 0#8 ∧ stored ⟨j, by omega⟩ = charAt name j then
      nameMatchesFrom name stored k (j + 1) (by omega)
    else charAt name j == 0#8 && stored ⟨j, by omega⟩ == 0#8

def nameMatches (name : List Byte) (stored : Name) : Bool :=
  nameMatchesFrom name stored (drvNameMax - 1) 0 (by decide)

def devGetByName (name : Option (List Byte)) (r : Registry σ) : Option (Fin maxDevices) :=
  name.bind fun name =>
    firstSlot fun i => (r.devices i).active && nameMatches name (r.devices i).name

def devGetByType (type : DrvType) (r : Registry σ) : Option (Fin maxDevices) :=
  firstSlot fun i => (r.devices i).active && (r.devices i).type == type

/-- `drv_attach` at a slot of each table, where neither pointer is null. -/
def drvAttach (i : Fin maxDevices) (d : Fin maxDrivers) (r : Registry σ) : Registry σ :=
  { r with
    devices := Function.update r.devices i { r.devices i with driver := some (.slot d) } }

/-- The count of `drv_probe_all`, the tables and the drivers' state while it runs. -/
structure Probing (σ : Type*) where
  count : Int
  registry : Registry σ
  world : σ

/-- The body of the inner loop of `drv_probe_all`. -/
def probeDevice (d : Fin maxDrivers) (s : Probing σ) (i : Fin maxDevices) : Probing σ :=
  let drv := s.registry.drivers d
  let dev := s.registry.devices i
  if !dev.active || dev.type != drv.type || dev.driver.isSome then s
  else
    match drv.ops.bind DrvOps.probe with
    | none => s
    | some probe =>
      let (result, world) := probe (some i) s.world
      if result = 0 then
        let r := drvAttach i d s.registry
        { count := s.count + 1
          registry :=
            { r with drivers := Function.update r.drivers d { r.drivers d with probed := true } }
          world := world }
      else { s with world := world }

def drvProbeAll (r : Registry σ) (w : σ) : Probing σ :=
  (List.finRange maxDrivers).foldl
    (fun s d =>
      if (s.registry.drivers d).registered then
        (List.finRange maxDevices).foldl (probeDevice d) s
      else s)
    ⟨0, r, w⟩

def DevPtr.slot? : DevPtr σ → Option (Fin maxDevices)
  | .slot i => some i
  | .other _ => none

def DevPtr.get (r : Registry σ) : DevPtr σ → Device σ
  | .slot i => r.devices i
  | .other dev => dev

def DrvPtr.ops (r : Registry σ) : DrvPtr σ → Option (DrvOps σ)
  | .slot d => (r.drivers d).ops
  | .other ops => ops

/-- The operations of a device's driver, when none of the pointers on the way is null. -/
def opsOf (dev : Option (DevPtr σ)) (r : Registry σ) : Option (DrvOps σ) :=
  dev.bind fun p => (p.get r).driver.bind fun drv => drv.ops r

def drvCallInit (dev : Option (DevPtr σ)) (r : Registry σ) (w : σ) : Int × σ :=
  match (opsOf dev r).bind DrvOps.init with
  | none => (-1, w)
  | some init => init (dev.bind DevPtr.slot?) w

def drvCallRead (dev : Option (DevPtr σ)) (buf len : Word) (r : Registry σ) (w : σ) :
    Int × List Byte × σ :=
  match (opsOf dev r).bind DrvOps.read with
  | none => (-1, [], w)
  | some read => read (dev.bind DevPtr.slot?) buf len w

def drvCallWrite (dev : Option (DevPtr σ)) (buf : Option (Nat → Byte)) (len : Word)
    (r : Registry σ) (w : σ) : Int × σ :=
  match (opsOf dev r).bind DrvOps.write with
  | none => (-1, w)
  | some write => write (dev.bind DevPtr.slot?) buf len w

def drvCallIoctl (dev : Option (DevPtr σ)) (cmd : BitVec 32) (arg : Word) (r : Registry σ)
    (w : σ) : Option (Int × σ) :=
  match (opsOf dev r).bind DrvOps.ioctl with
  | none => some (-1, w)
  | some ioctl => ioctl (dev.bind DevPtr.slot?) cmd arg w

end FenwickOS.Drv
