import FenwickOS.Syscall.Mirror
import Mathlib.Algebra.BigOperators.Fin

/-! What writes return, against the bytes that they hand to the drivers. -/
namespace FenwickOS.Syscall
open Machine Drv Vfs

variable {σ : Type*} {k : Kernel σ} {r : Registry σ} {v : NodeTable σ} {id : NodeId}
  {i : Fin maxDevices} {d : Fin maxDrivers} {buf : Nat → Byte} {len : Word}
  {write : Option (Fin maxDevices) → Option (Nat → Byte) → Word → σ → Int × σ}

/-- A write to a standard descriptor, or to a display or serial node of the table. -/
inductive CountedCall (v : NodeTable World)
  | sysWrite (fd : Word) (hfd : fd = 1#64 ∨ fd = 2#64)
  | vfsWrite (id : NodeId) (node : VfsNode World) (hnode : vfsGet id v = some node)
    (htype : node.type = .display ∨ node.type = .serial)

variable {table : NodeTable World}

def CountedCall.perform (buf : Nat → Byte) (len : Word) (k : Kernel σ) :
    CountedCall table → Int × Kernel σ
  | .sysWrite fd _ => Syscall.sysWrite fd (some buf) len k
  | .vfsWrite id _ _ _ => Vfs.vfsWrite id (some buf) len k

def CountedCall.IsSerial : CountedCall table → Prop
  | .sysWrite _ _ => False
  | .vfsWrite _ node _ _ => node.type = .serial

/-- The bytes that the call emits on each driver. -/
def CountedCall.emitted (call : CountedCall table) (buf : Nat → Byte) (len : Word)
    (k : Kernel World) : Streams := (call.perform buf len (tap k)).2.world.2

/-- The call fails without emitting anything, or it returns the number of bytes emitted. -/
def CountsBytes (call : CountedCall table) (buf : Nat → Byte) (len : Word) (k : Kernel World) :
    Prop :=
  ((call.perform buf len k).1 < 0 ∧ ∀ d, call.emitted buf len k d = []) ∨
    (call.perform buf len k).1 = ∑ d, (call.emitted buf len k d).length

/-! ### What is handed over is what is put out -/

/-- The display driver puts out the bytes that it is handed, one by one. -/
theorem vgaDriverWrite_handed (buf : Option (Nat → Byte)) (len : Word) (s : Vga) :
    (vgaDriverWrite buf len s).2 = run (fun s c => vgaPutc c s) s (handed buf len) := by
  cases buf with
  | none => rfl
  | some buf =>
    rw [handed, run, List.foldl_map]
    rfl

theorem serialDriverWrite_handed (buf : Option (Nat → Byte)) (len : Word) (s : Serial) :
    (serialDriverWrite buf len s).2 = run (fun s c => serialPutc c s) s (handed buf len) := by
  cases buf with
  | none => rfl
  | some buf =>
    rw [handed, run, List.foldl_map]
    rfl

/-! ### Nodes that are no consoles -/

/-- The node is no console and its device is in slot `i`. -/
def NodeTo (id : NodeId) (i : Fin maxDevices) (v : NodeTable σ) : Prop :=
  ∃ node, vfsGet id v = some node ∧ node.device = some (.slot i) ∧ node.isConsole = false

theorem NodeTo.tap (h : NodeTo id i v) : NodeTo id i (tapNodes v) := by
  obtain ⟨node, hget, hdevice, hconsole⟩ := h
  refine ⟨tapNode node, ?_, ?_, hconsole⟩
  · rw [vfsGet_tapNodes, hget]
    rfl
  · simp [tapNode, hdevice, tapDevPtr]

theorem NodeTo.vfsWrite (h : NodeTo id i k.vfs) (buf : Option (Nat → Byte)) (len : Word) :
    Vfs.vfsWrite id buf len k =
      let (n, world) := drvCallWrite (some (.slot i)) buf len k.registry k.world
      (n, { k with world := world }) := by
  obtain ⟨node, hget, hdevice, hconsole⟩ := h
  simp [Vfs.vfsWrite, hget, hdevice, hconsole]

theorem drvCallWrite_tap (hd : (r.devices i).driver = some (.slot d))
    (hwrite : (opsOf (some (.slot i)) r).bind DrvOps.write = some write)
    (buf : Option (Nat → Byte)) (len : Word) (w : σ × Streams) :
    drvCallWrite (some (.slot i)) buf len (tapRegistry r) w = tapWrite d write (some i) buf len w := by
  obtain ⟨record, hops, hrecord⟩ := opsOf_tapRegistry i r
  obtain ⟨ops, hget, hsome⟩ := Option.bind_eq_some_iff.mp hwrite
  rw [drvCallWrite, hops, hget, hrecord d hd]
  simp [tapOps, hsome, tapWrite, DevPtr.slot?]

theorem drvCallWrite_tap_none (hnone : (opsOf (some (.slot i)) r).bind DrvOps.write = none)
    (buf : Option (Nat → Byte)) (len : Word) (w : σ × Streams) :
    drvCallWrite (some (.slot i)) buf len (tapRegistry r) w = (-1, w) := by
  obtain ⟨record, hops, -⟩ := opsOf_tapRegistry i r
  rw [drvCallWrite, hops]
  cases hget : opsOf (some (.slot i)) r with
  | none => rfl
  | some ops =>
    rw [hget, Option.bind_some] at hnone
    simp [tapOps, hnone]

/-! ### The nodes of `subsystem_init` -/

variable {stack : StackNames} {w₀ w : World}

/-- The display and serial nodes are those with the ids 1, 2 and 8. -/
theorem subsystemNodes_cases {node : VfsNode World}
    (h : vfsGet id (namedNodes (probedTables stack w)) = some node)
    (htype : node.type = .display ∨ node.type = .serial) :
    (NodeTo id 0 (namedNodes (probedTables stack w)) ∧ node.type = .display) ∨
    (NodeTo id 1 (namedNodes (probedTables stack w)) ∧ node.type = .serial) ∨
    (id = vfsNodeStdout ∧ node.type = .display) := by
  obtain ⟨args, hargs, old, rfl, rfl⟩ := vfsGet_registerNodes (fun _ => rfl)
    (by simp [subsystemNodes, vfsNodeMax]) h
  have hvga := @named_vga stack w
  have hser : named com1Name (probedTables stack w) = some (.slot 1) := named_device 1
  simp only [subsystemNodes, List.mem_cons, List.not_mem_nil, or_false] at hargs
  rcases hargs with rfl | rfl | rfl | rfl | rfl | rfl
  · refine Or.inl ⟨⟨_, h, ?_, rfl⟩, rfl⟩
    simp only [nodeEntry, hvga]
  · refine Or.inr (Or.inl ⟨⟨_, h, ?_, rfl⟩, rfl⟩)
    simp only [nodeEntry, hser]
  · simp [nodeEntry] at htype
  · simp [nodeEntry] at htype
  · exact Or.inr (Or.inr ⟨rfl, rfl⟩)
  · simp [nodeEntry] at htype

/-! ### Counting -/

theorem toInt32_eq_iff (len : Word) : toInt32 len = len.toNat ↔ len.toNat < 2 ^ 31 := by
  have hlen := len.isLt
  rw [toInt32, BitVec.toInt_eq_toNat_cond, BitVec.toNat_setWidth]
  split <;> omega

theorem length_handed (buf : Nat → Byte) (len : Word) :
    (handed (some buf) len).length = len.toNat := by
  simp [handed]

theorem countsBytes_of_append {call : CountedCall table} {k : Kernel World}
    (h : call.emitted buf len k = append d (handed (some buf) len) fun _ => []) :
    CountsBytes call buf len k ↔
      ((call.perform buf len k).1 < 0 ∧ len = 0#64) ∨ (call.perform buf len k).1 = len.toNat := by
  have hempty : (∀ d', call.emitted buf len k d' = []) ↔ len = 0#64 := by
    rw [h]
    constructor
    · intro hnone
      have hd := congrArg List.length (hnone d)
      rw [append, Function.update_self, List.nil_append, length_handed] at hd
      exact BitVec.eq_of_toNat_eq hd
    · rintro rfl d'
      simp [append, handed]
  have hsum : ∑ d', (call.emitted buf len k d').length = len.toNat := by
    rw [h, Finset.sum_eq_single d]
    · rw [append, Function.update_self, List.nil_append, length_handed]
    · intro d' _ hd'
      rw [append, Function.update_of_ne hd', List.length_nil]
    · simp
  rw [CountsBytes, hempty, ← hsum]

theorem countsBytes_display {call : CountedCall table} {k : Kernel World}
    (h : call.emitted buf len k = append d (handed (some buf) len) fun _ => [])
    (hresult : (call.perform buf len k).1 = toInt32 len ∨
      (call.perform buf len k).1 = if toInt32 len > 0 then toInt32 len else 0) :
    CountsBytes call buf len k ↔ len.toNat < 2 ^ 31 := by
  have hlen := len.isLt
  have hzero : len = 0#64 ↔ len.toNat = 0 := BitVec.toNat_inj.symm
  rw [countsBytes_of_append h, ← toInt32_eq_iff, hzero]
  have hint := toInt32_eq_iff len
  rcases hresult with he | he
  · rw [he]
    omega
  · rw [he]
    split <;> omega

/-- A console write hands everything to the display and returns a positive result of its driver. -/
theorem vfsWrite_stdout {k : Kernel World} (h : StdoutTo 0 vgaWrite k.registry k.vfs)
    (hd : (k.registry.devices 0).driver = some (.slot 0)) (buf : Nat → Byte) (len : Word) :
    (vfsWrite vfsNodeStdout (some buf) len k).1 = (if toInt32 len > 0 then toInt32 len else 0) ∧
    (vfsWrite vfsNodeStdout (some buf) len (tap k)).2.world.2 =
      append 0 (handed (some buf) len) fun _ => [] := by
  have htap : StdoutTo 0 (tapWrite 0 vgaWrite) (tap k).registry (tap k).vfs := h.tap hd
  rw [h.vfsWrite, htap.vfsWrite]
  exact ⟨rfl, rfl⟩

/-- So does a write to the display node, which returns the result as it is. -/
theorem vfsWrite_display {k : Kernel World} (h : NodeTo id 0 k.vfs)
    (hd : (k.registry.devices 0).driver = some (.slot 0))
    (hwrite : (opsOf (some (.slot 0)) k.registry).bind DrvOps.write = some vgaWrite)
    (buf : Nat → Byte) (len : Word) :
    (vfsWrite id (some buf) len k).1 = toInt32 len ∧
    (vfsWrite id (some buf) len (tap k)).2.world.2 =
      append 0 (handed (some buf) len) fun _ => [] := by
  have htap : NodeTo id 0 (tap k).vfs := h.tap
  have hcall : drvCallWrite (some (.slot 0)) (some buf) len (tap k).registry (tap k).world =
      tapWrite 0 vgaWrite (some 0) (some buf) len (tap k).world := drvCallWrite_tap hd hwrite _ _ _
  rw [h.vfsWrite, htap.vfsWrite, hcall, drvCallWrite, hwrite]
  exact ⟨rfl, rfl⟩

theorem vfsWrite_unbound {k : Kernel World} (h : NodeTo id i k.vfs)
    (hnone : (opsOf (some (.slot i)) k.registry).bind DrvOps.write = none)
    (buf : Nat → Byte) (len : Word) :
    (vfsWrite id (some buf) len k).1 = -1 ∧
    (vfsWrite id (some buf) len (tap k)).2.world.2 = fun _ => [] := by
  have htap : NodeTo id i (tap k).vfs := h.tap
  have hcall : drvCallWrite (some (.slot i)) (some buf) len (tap k).registry (tap k).world =
      (-1, (tap k).world) := drvCallWrite_tap_none hnone _ _ _
  rw [h.vfsWrite, htap.vfsWrite, hcall, drvCallWrite, hnone]
  exact ⟨rfl, rfl⟩

theorem countsBytes_sysWrite {k : Kernel World} (h : StdoutTo 0 vgaWrite k.registry k.vfs)
    (hd : (k.registry.devices 0).driver = some (.slot 0)) {fd : Word}
    (hfd : fd = 1#64 ∨ fd = 2#64) :
    CountsBytes (.sysWrite fd hfd : CountedCall table) buf len k ↔ len.toNat < 2 ^ 31 := by
  obtain ⟨hresult, hemitted⟩ := vfsWrite_stdout h hd buf len
  refine countsBytes_display (d := 0) ?_ (Or.inr ?_)
  · rwa [CountedCall.emitted, CountedCall.perform, sysWrite, if_pos hfd]
  · rwa [CountedCall.perform, sysWrite, if_pos hfd]

/-- The kernel after `subsystem_init`, with the drivers in any state. -/
def afterInit (stack : StackNames) (w₀ w : World) : Kernel World :=
  { subsystemInit stack (bootKernel w₀) with world := w }

/-- What the writes need to know of it: standard output and the display node lead to the display,
the serial node to a device without a driver. -/
structure AfterInit (r : Registry World) (v : NodeTable World) : Prop where
  stdout : StdoutTo 0 vgaWrite r v
  display : (r.devices 0).driver = some (.slot 0)
  serial : (opsOf (some (.slot 1)) r).bind DrvOps.write = none
  nodes : ∀ id node, vfsGet id v = some node → node.type = .display ∨ node.type = .serial →
    (NodeTo id 0 v ∧ node.type = .display) ∨ (NodeTo id 1 v ∧ node.type = .serial) ∨
      (id = vfsNodeStdout ∧ node.type = .display)

theorem afterInit_tables (stack : StackNames) (w₀ w : World) :
    AfterInit (afterInit stack w₀ w).registry (afterInit stack w₀ w).vfs := by
  have hto := stdoutTo_subsystemInit stack w₀
  rw [subsystemInit_eq] at hto
  rw [afterInit, subsystemInit_eq]
  dsimp only at hto ⊢
  refine ⟨hto, probedTables_vga, ?_, fun id node => subsystemNodes_cases⟩
  simp [opsOf, DevPtr.get, probedTables_serial]

theorem countsBytes_vfsWrite {k : Kernel World} (h : AfterInit k.registry k.vfs)
    {node : VfsNode World} (hnode : vfsGet id k.vfs = some node)
    (htype : node.type = .display ∨ node.type = .serial) :
    CountsBytes (.vfsWrite id node hnode htype) buf len k ↔
      node.type = .serial ∨ len.toNat < 2 ^ 31 := by
  rcases h.nodes id node hnode htype with ⟨hto, hdisplay⟩ | ⟨hto, hserial⟩ | ⟨rfl, hdisplay⟩
  · rw [hdisplay, or_iff_right (by decide)]
    obtain ⟨hresult, hemitted⟩ := vfsWrite_display hto h.display h.stdout.displayWrite buf len
    exact countsBytes_display (d := 0) hemitted (Or.inl hresult)
  · obtain ⟨hresult, hemitted⟩ := vfsWrite_unbound hto h.serial buf len
    refine iff_of_true (Or.inl ⟨?_, fun d => congrFun hemitted d⟩) (Or.inl hserial)
    rw [CountedCall.perform, hresult]
    decide
  · rw [hdisplay, or_iff_right (by decide)]
    obtain ⟨hresult, hemitted⟩ := vfsWrite_stdout h.stdout h.display buf len
    exact countsBytes_display (d := 0) hemitted (Or.inr hresult)

/-- A write counts right exactly if it goes to the serial node, which has no driver, or has fewer
than 2³¹ bytes. -/
theorem countsBytes_iff (stack : StackNames) (w₀ w : World) (buf : Nat → Byte) (len : Word)
    (call : CountedCall (afterInit stack w₀ w).vfs) :
    CountsBytes call buf len (afterInit stack w₀ w) ↔ call.IsSerial ∨ len.toNat < 2 ^ 31 := by
  have htables := afterInit_tables stack w₀ w
  revert call
  generalize afterInit stack w₀ w = k at htables
  intro call
  cases call with
  | sysWrite fd hfd =>
    rw [CountedCall.IsSerial, false_or]
    exact countsBytes_sysWrite htables.stdout htables.display hfd
  | vfsWrite id node hnode htype => exact countsBytes_vfsWrite htables hnode htype

/-- 2³¹ bytes to descriptor 1 are all emitted, and 0 is returned. -/
theorem not_countsBytes_long :
    ¬ CountsBytes (.sysWrite 1#64 (Or.inl rfl) :
        CountedCall (afterInit .zero zeroWorld zeroWorld).vfs)
      (fun _ => ascii 'A') 0x80000000#64 (afterInit .zero zeroWorld zeroWorld) := by
  have htables := afterInit_tables .zero zeroWorld zeroWorld
  rw [countsBytes_sysWrite htables.stdout htables.display]
  decide

end FenwickOS.Syscall
