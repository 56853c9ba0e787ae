import FenwickOS.Drv.Core

/-! The node table of kernel/vfs/vfs.c, through which the kernel and system calls reach devices. -/
namespace FenwickOS.Vfs
open Machine Drv

abbrev vfsNodeMax : Nat := 16
abbrev vfsNameMax : Nat := 32

abbrev NodeId := BitVec 32

def vfsNodeDisplay : NodeId := 1#32
def vfsNodeSerial : NodeId := 2#32
def vfsNodeKbd : NodeId := 3#32
def vfsNodeRtc : NodeId := 4#32
def vfsNodeConsole : NodeId := 7#32
def vfsNodeStdout : NodeId := 8#32
def vfsNodeStderr : NodeId := 9#32
def vfsNodeKbdin : NodeId := 10#32

structure VfsNode (σ : Type*) where
  name : Name
  id : NodeId
  type : DrvType
  device : Option (DevPtr σ)
  active : Bool
  isConsole : Bool

/-- The arguments of `vfs_register`. -/
structure NodeArgs (σ : Type*) where
  id : NodeId
  name : List Byte
  type : DrvType
  dev : Option (DevPtr σ)

structure NodeTable (σ : Type*) where
  nodes : Fin vfsNodeMax → VfsNode σ
  vfsInitialized : Bool

/-- The tables that the calls below go through, and the state of the drivers. -/
structure Kernel (σ : Type*) where
  registry : Registry σ
  vfs : NodeTable σ
  world : σ

variable {σ : Type*}

def vfsInit (v : NodeTable σ) : NodeTable σ :=
  if v.vfsInitialized then v
  else
    { nodes := fun i => { v.nodes i with active := false, id := 0#32, isConsole := false }
      vfsInitialized := true }

/-- The loops that store a name: at most 31 bytes and a NUL, the rest of `dst` as it was. -/
def storeName (dst : Name) (src : List Byte) : Name := fun j =>
  let stop := min src.length (vfsNameMax - 1)
  if j.val < stop then charAt src j.val else if j.val = stop then 0#8 else dst j

/-- The node that a registration makes of the slot `old`. -/
def nodeEntry (args : NodeArgs σ) (old : VfsNode σ) : VfsNode σ where
  name := storeName old.name args.name
  id := args.id
  type := args.type
  device := args.dev
  active := true
  isConsole := args.id == vfsNodeStdout || args.id == vfsNodeStderr || args.id == vfsNodeConsole

def vfsRegister (args : NodeArgs σ) (v : NodeTable σ) : Int × NodeTable σ :=
  match firstSlot fun i => !(v.nodes i).active with
  | none => (-1, v)
  | some i => (0, { v with nodes := Function.update v.nodes i (nodeEntry args (v.nodes i)) })

/-- Successive calls of `vfs_register`, whose results the caller ignores. -/
def registerNodes (calls : List (NodeArgs σ)) (v : NodeTable σ) : NodeTable σ :=
  run (fun v args => (vfsRegister args v).2) v calls

def vfsGet (id : NodeId) (v : NodeTable σ) : Option (VfsNode σ) :=
  (firstSlot fun i => (v.nodes i).active && (v.nodes i).id == id).map v.nodes

def vfsGetByName (name : Option (List Byte)) (v : NodeTable σ) : Option (VfsNode σ) :=
  name.bind fun name =>
    (firstSlot fun i => (v.nodes i).active && nameMatches name (v.nodes i).name).map v.nodes

/-- `drv_call_write` on the first device of a type, if there is one; `total` is the sum so far. -/
def writeFirst (type : DrvType) (buf : Option (Nat → Byte)) (len : Word) (total : Int)
    (k : Kernel σ) : Int × Kernel σ :=
  match devGetByType type k.registry with
  | none => (total, k)
  | some i =>
    let (n, world) := drvCallWrite (some (.slot i)) buf len k.registry k.world
    (if n > 0 then n else total, { k with world := world })

def vfsWrite (id : NodeId) (buf : Option (Nat → Byte)) (len : Word) (k : Kernel σ) :
    Int × Kernel σ :=
  match vfsGet id k.vfs with
  | none => (-1, k)
  | some node =>
    if node.device.isNone then (-1, k)
    else if node.isConsole then
      let (total, k) := writeFirst .display buf len 0 k
      writeFirst .serial buf len total k
    else
      let (n, world) := drvCallWrite node.device buf len k.registry k.world
      (n, { k with world := world })

/-- The result and the bytes stored from `buf` on. -/
def vfsRead (id : NodeId) (buf len : Word) (k : Kernel σ) : Int × List Byte × Kernel σ :=
  match vfsGet id k.vfs with
  | none => (-1, [], k)
  | some node =>
    if node.device.isNone then (-1, [], k)
    else
      let (n, bytes, world) := drvCallRead node.device buf len k.registry k.world
      (n, bytes, { k with world := world })

def vfsIoctl (id : NodeId) (cmd : BitVec 32) (arg : Word) (k : Kernel σ) :
    Option (Int × Kernel σ) :=
  match vfsGet id k.vfs with
  | none => some (-1, k)
  | some node =>
    if node.device.isNone then some (-1, k)
    else (drvCallIoctl node.device cmd arg k.registry k.world).map
      fun r => (r.1, { k with world := r.2 })

/-- The length is counted in an `int`. -/
def vfsWriteStr (id : NodeId) (s : List Byte) (k : Kernel σ) : Int × Kernel σ :=
  vfsWrite id (some (charAt s)) ((BitVec.ofNat 32 s.length).signExtend 64) k

/-- Nodes registered one after the other in an empty table stand in it in that order. -/
theorem registerNodes_eq {calls : List (NodeArgs σ)} {v : NodeTable σ}
    (hfree : ∀ i, (v.nodes i).active = false) (hlen : calls.length ≤ vfsNodeMax) :
    registerNodes calls v = { v with nodes := filled nodeEntry calls v.nodes } := by
  have h := @run_eq _ _ (fun v args => (vfsRegister args v).2)
    (fun calls => { v with nodes := filled nodeEntry calls v.nodes })
    (fun calls => calls.length ≤ vfsNodeMax) (fun calls args h => ?_) (fun calls args h => ?_)
    calls hlen
  · rwa [filled_nil] at h
  · rw [List.length_append] at h
    omega
  · have hlt : calls.length < vfsNodeMax := Nat.lt_of_lt_of_le (by simp) h
    have hslot : (firstSlot fun i => !(filled nodeEntry calls v.nodes i).active) =
        some ⟨calls.length, hlt⟩ :=
      @firstSlot_filled _ _ _ nodeEntry calls v.nodes VfsNode.active (fun _ _ _ => rfl) hfree hlt
    simp only [vfsRegister, hslot]
    rw [← update_filled hlt, filled_of_le (Nat.le_refl _)]

/-- A node found in such a table is the entry of one of the registrations. -/
theorem vfsGet_registerNodes {calls : List (NodeArgs σ)} {v : NodeTable σ} {id : NodeId}
    {node : VfsNode σ} (hfree : ∀ i, (v.nodes i).active = false)
    (hlen : calls.length ≤ vfsNodeMax) (h : vfsGet id (registerNodes calls v) = some node) :
    ∃ args ∈ calls, ∃ old, node = nodeEntry args old ∧ args.id = id := by
  rw [registerNodes_eq hfree hlen, vfsGet] at h
  obtain ⟨i, hi, rfl⟩ := Option.map_eq_some_iff.mp h
  have hhit := (firstSlot_eq_some_iff.mp hi).1
  dsimp only at hhit ⊢
  rcases Nat.lt_or_ge i.val calls.length with hlt | hge
  · rw [filled_of_lt hlt] at hhit ⊢
    refine ⟨_, List.getElem_mem hlt, _, rfl, ?_⟩
    simpa [nodeEntry] using hhit
  · rw [filled_of_le hge, hfree] at hhit
    cases hhit

end FenwickOS.Vfs
