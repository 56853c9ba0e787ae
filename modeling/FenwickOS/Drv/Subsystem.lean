import FenwickOS.Drv.Devices
import FenwickOS.Drv.KbdDriver
import FenwickOS.Vfs.Vfs

/-! `subsystem_init` of kernel/drv/subsystem.c, which registers the four drivers and their devices
and names them in the node table. -/
namespace FenwickOS.Drv
open Machine Vfs

/-- The statics and ports of the four drivers. -/
structure World where
  vga : Vga
  serial : Serial
  rtc : Cmos
  kbd : KbdDriver

def vgaOps : DrvOps World where
  init := some fun _ w => let (n, vga) := vgaDriverInit w.vga; (n, { w with vga := vga })
  probe := some fun _ w => (0, w)
  read := some fun _ _ _ w => (-1, [], w)
  write := some fun _ buf len w =>
    let (n, vga) := vgaDriverWrite buf len w.vga
    (n, { w with vga := vga })
  ioctl := some fun _ cmd arg w =>
    let (n, vga) := vgaDriverIoctl cmd arg w.vga
    some (n, { w with vga := vga })
  shutdown := none

def serialOps : DrvOps World where
  init := some fun _ w =>
    let (n, serial) := serialDriverInit w.serial
    (n, { w with serial := serial })
  probe := none
  read := some fun _ _ _ w => (-1, [], w)
  write := some fun _ buf len w =>
    let (n, serial) := serialDriverWrite buf len w.serial
    (n, { w with serial := serial })
  ioctl := none
  shutdown := none

def rtcOps : DrvOps World where
  init := some fun _ w => let (n, rtc) := rtcDriverInit w.rtc; (n, { w with rtc := rtc })
  probe := some fun _ w => (0, w)
  read := some fun _ buf len w =>
    let (n, bytes, rtc) := rtcDriverRead buf len w.rtc
    (n, bytes, { w with rtc := rtc })
  write := none
  ioctl := some fun _ cmd _ w =>
    let (n, rtc) := rtcDriverIoctl cmd w.rtc
    some (n, { w with rtc := rtc })
  shutdown := none

def kbdOps : DrvOps World where
  init := some fun _ w => let (n, kbd) := kbdDriverInit w.kbd; (n, { w with kbd := kbd })
  probe := some fun _ w => (0, w)
  read := some fun _ buf len w =>
    let (n, bytes, kbd) := kbdDriverRead buf len w.kbd
    (n, bytes, { w with kbd := kbd })
  write := none
  ioctl := some fun _ cmd arg w =>
    (kbdDriverIoctl cmd arg w.kbd).map fun r => (r.1, { w with kbd := r.2 })
  shutdown := none

/-- A `driver_t` object as its initialiser leaves it. -/
def driverObject (type : DrvType) (ops : DrvOps World) : Driver World :=
  ⟨type, some ops, false, false, false⟩

def vgaDriver : Driver World := driverObject .display vgaOps
def serialDriver : Driver World := driverObject .serial serialOps
def rtcDriver : Driver World := driverObject .rtc rtcOps
def kbdDriver : Driver World := driverObject .keyboard kbdOps

def vga0 : List Byte := ['v', 'g', 'a', '0'].map ascii
def com1Name : List Byte := ['c', 'o', 'm', '1'].map ascii
def rtc0 : List Byte := ['r', 't', 'c', '0'].map ascii
def kbd0 : List Byte := ['k', 'b', 'd', '0'].map ascii
def stdoutName : List Byte := ['s', 't', 'd', 'o', 'u', 't'].map ascii
def kbdi : List Byte := ['k', 'b', 'd', 'i'].map ascii

/-- The same loop as in `vfs_register`: both name lengths are 32. -/
def copyName (dst : Name) (src : List Byte) : Name := storeName dst src

/-- What the stack holds where `subsystem_init` puts the names of its four devices. -/
structure StackNames where
  vgaDev : Name
  serialDev : Name
  rtcDev : Name
  kbdDev : Name

def StackNames.zero : StackNames := ⟨fun _ => 0#8, fun _ => 0#8, fun _ => 0#8, fun _ => 0#8⟩

/-- A `device_t` on the stack of `subsystem_init`; the bytes of `name` behind the stored string are
what the stack held. -/
def stackDevice (stack : Name) (type : DrvType) (name : List Byte) (id : BitVec 32) :
    Device World :=
  ⟨copyName stack name, type, none, id, false⟩

def subsystemDrivers : List (Driver World) := [vgaDriver, serialDriver, rtcDriver, kbdDriver]

def subsystemDevices (stack : StackNames) : List (Device World) :=
  [stackDevice stack.vgaDev .display vga0 1#32, stackDevice stack.serialDev .serial com1Name 2#32,
    stackDevice stack.rtcDev .rtc rtc0 3#32, stackDevice stack.kbdDev .keyboard kbd0 4#32]

def subsystemNodes (vga ser rtc kbd : Option (DevPtr World)) : List (NodeArgs World) :=
  [⟨vfsNodeDisplay, vga0, .display, vga⟩, ⟨vfsNodeSerial, com1Name, .serial, ser⟩,
    ⟨vfsNodeRtc, rtc0, .rtc, rtc⟩, ⟨vfsNodeKbd, kbd0, .keyboard, kbd⟩,
    ⟨vfsNodeStdout, stdoutName, .display, vga⟩, ⟨vfsNodeKbdin, kbdi, .keyboard, kbd⟩]

/-- One round of the loop that initialises the devices with a driver. -/
def initDevice (r : Registry World) (w : World) (i : Fin maxDevices) : World :=
  match devGet (BitVec.ofNat 32 (i.val + 1)) r with
  | none => w
  | some dev =>
    if (r.devices dev).active && (r.devices dev).driver.isSome then
      (drvCallInit (some (.slot dev)) r w).2
    else w

def named (name : List Byte) (r : Registry World) : Option (DevPtr World) :=
  (devGetByName (some name) r).map .slot

def subsystemInit (stack : StackNames) (k : Kernel World) : Kernel World :=
  let r := drvInit k.registry
  let v := vfsInit k.vfs
  let r := registerDrivers subsystemDrivers r
  let r := registerDevices (subsystemDevices stack) r
  let p := drvProbeAll r k.world
  let r := p.registry
  let w := run (initDevice r) p.world (List.finRange maxDevices)
  let v := registerNodes
    (subsystemNodes (named vga0 r) (named com1Name r) (named rtc0 r) (named kbd0 r)) v
  ⟨r, v, w⟩

def bootRegistry : Registry World where
  drivers := fun _ => ⟨.unknown, none, false, false, false⟩
  devices := fun _ => ⟨fun _ => 0#8, .unknown, none, 0#32, false⟩
  driverCount := 0
  deviceCount := 0
  drvInitialized := false

def bootNodes : NodeTable World :=
  ⟨fun _ => ⟨fun _ => 0#8, 0#32, .unknown, none, false, false⟩, false⟩

/-- The kernel before `subsystem_init`, with the devices in any state. -/
def bootKernel (w : World) : Kernel World := ⟨bootRegistry, bootNodes, w⟩

end FenwickOS.Drv
