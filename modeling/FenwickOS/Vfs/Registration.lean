import FenwickOS.Vfs.Names

/-! What a successful `vfs_register` of kernel/vfs/vfs.c makes of lookups by id and by name, after
any registrations before it. -/
namespace FenwickOS.Vfs
open Machine Drv

variable {σ : Type*} {v v₀ : NodeTable σ} {args : NodeArgs σ} {i j : Fin vfsNodeMax} {id : NodeId}

/-- A call whose name is a NUL-terminated string. -/
structure NodeCall (σ : Type*) extends NodeArgs σ where
  nul_free : 0#8 ∉ name

def tableAfter (v₀ : NodeTable σ) (calls : List (NodeCall σ)) : NodeTable σ :=
  registerNodes (calls.map NodeCall.toNodeArgs) (vfsInit v₀)

/-! ### One registration -/

/-- The free slot that the next node gets. -/
structure NextNode (v : NodeTable σ) (i : Fin vfsNodeMax) : Prop where
  free : (v.nodes i).active = false
  lowest : ∀ j < i, (v.nodes j).active = true

def storeNode (i : Fin vfsNodeMax) (args : NodeArgs σ) (v : NodeTable σ) : NodeTable σ :=
  { v with nodes := Function.update v.nodes i (nodeEntry args (v.nodes i)) }

theorem vfsRegister_spec (args : NodeArgs σ) (v : NodeTable σ) :
    (∃ i, NextNode v i ∧ vfsRegister args v = (0, storeNode i args v)) ∨
    ((∀ i, (v.nodes i).active = true) ∧ vfsRegister args v = (-1, v)) := by
  rcases firstSlot_free fun i => (v.nodes i).active with ⟨i, hfree, hlow, hslot⟩ | ⟨hall, hslot⟩
  · refine Or.inl ⟨i, ⟨hfree, hlow⟩, ?_⟩
    rw [vfsRegister, hslot]
    rfl
  · refine Or.inr ⟨hall, ?_⟩
    rw [vfsRegister, hslot]

theorem storeNode_self (i : Fin vfsNodeMax) (args : NodeArgs σ) (v : NodeTable σ) :
    (storeNode i args v).nodes i = nodeEntry args (v.nodes i) := Function.update_self ..

theorem storeNode_of_ne (h : j ≠ i) (args : NodeArgs σ) (v : NodeTable σ) :
    (storeNode i args v).nodes j = v.nodes j := Function.update_of_ne h ..

/-- The ids whose nodes are consoles. -/
def consoleId (id : NodeId) : Bool :=
  id == vfsNodeStdout || id == vfsNodeStderr || id == vfsNodeConsole

/-- What registrations keep of the table: the nodes stand in its lowest slots, each name ends, and
the consoles are known by their ids. -/
structure WellFilled (v : NodeTable σ) : Prop where
  packed : ∀ i j, j ≤ i → (v.nodes i).active = true → (v.nodes j).active = true
  nul : ∀ i, (v.nodes i).active = true → ∃ j, (v.nodes i).name j = 0#8
  console : ∀ i, (v.nodes i).active = true → (v.nodes i).isConsole = consoleId (v.nodes i).id

theorem wellFilled_vfsInit (h : v₀.vfsInitialized = false) : WellFilled (vfsInit v₀) := by
  have hfree (i) : ((vfsInit v₀).nodes i).active = false := by simp [vfsInit, h]
  refine ⟨fun i j _ hi => ?_, fun i hi => ?_, fun i hi => ?_⟩
  all_goals
    rw [hfree] at hi
    cases hi

theorem WellFilled.storeNode (h : WellFilled v) (hi : NextNode v i) (args : NodeArgs σ) :
    WellFilled (Vfs.storeNode i args v) := by
  have hactive (j) (hj : ((Vfs.storeNode i args v).nodes j).active = true) (hne : j ≠ i) :
      (v.nodes j).active = true := by
    rwa [storeNode_of_ne hne] at hj
  refine ⟨fun j k hkj hj => ?_, fun j hj => ?_, fun j hj => ?_⟩
  · by_cases hk : k = i
    · rw [hk, storeNode_self]
      rfl
    · rw [storeNode_of_ne hk]
      by_cases hji : j = i
      · subst hji
        exact hi.lowest k (lt_of_le_of_ne hkj hk)
      · exact h.packed j k hkj (hactive j hj hji)
  · by_cases hji : j = i
    · rw [hji, storeNode_self]
      exact ⟨_, storeName_stop _ _⟩
    · rw [storeNode_of_ne hji]
      exact h.nul j (hactive j hj hji)
  · by_cases hji : j = i
    · rw [hji, storeNode_self]
      rfl
    · rw [storeNode_of_ne hji]
      exact h.console j (hactive j hj hji)

theorem WellFilled.vfsRegister (h : WellFilled v) (args : NodeArgs σ) :
    WellFilled (Vfs.vfsRegister args v).2 := by
  rcases vfsRegister_spec args v with ⟨i, hi, he⟩ | ⟨-, he⟩
  · rw [he]
    exact h.storeNode hi args
  · rwa [he]

theorem wellFilled_tableAfter (h : v₀.vfsInitialized = false) (calls : List (NodeCall σ)) :
    WellFilled (tableAfter v₀ calls) :=
  run_invariant (fun _ args hv => hv.vfsRegister args) (wellFilled_vfsInit h) _

theorem WellFilled.lt_next (h : WellFilled v) (hi : NextNode v i) (hj : (v.nodes j).active = true) :
    j < i := by
  by_contra hge
  have hfree := h.packed j i (not_lt.mp hge) hj
  rw [hi.free] at hfree
  cases hfree

/-! ### Lookup by id -/

/-- The node that `vfs_get` finds is in slot `j`. -/
structure FirstNode (id : NodeId) (v : NodeTable σ) (j : Fin vfsNodeMax) : Prop where
  active : (v.nodes j).active = true
  sameId : (v.nodes j).id = id
  lowest : ∀ k < j, (v.nodes k).active = true → (v.nodes k).id ≠ id

def hasId (id : NodeId) (v : NodeTable σ) (j : Fin vfsNodeMax) : Bool :=
  (v.nodes j).active && (v.nodes j).id == id

theorem firstNode_iff : FirstNode id v j ↔ firstSlot (hasId id v) = some j := by
  have hid (k) : hasId id v k = false ↔ ((v.nodes k).active = true → (v.nodes k).id ≠ id) := by
    rw [hasId, ← Bool.not_eq_true, Bool.and_eq_true, beq_iff_eq, not_and]
  rw [firstSlot_eq_some_iff, hasId, Bool.and_eq_true, beq_iff_eq]
  constructor
  · intro h
    exact ⟨⟨h.active, h.sameId⟩, fun k hk => (hid k).mpr (h.lowest k hk)⟩
  · rintro ⟨⟨hactive, hsame⟩, hlow⟩
    exact ⟨hactive, hsame, fun k hk => (hid k).mp (hlow k hk)⟩

theorem FirstNode.vfsGet (h : FirstNode id v j) : Vfs.vfsGet id v = some (v.nodes j) :=
  congrArg (Option.map v.nodes) (firstNode_iff.mp h)

theorem FirstNode.unique (h : FirstNode id v j) (h' : FirstNode id v i) : i = j :=
  Option.some.inj ((firstNode_iff.mp h').symm.trans (firstNode_iff.mp h))

theorem vfsGet_vfsRegister_of_ne (h : args.id ≠ id) (v : NodeTable σ) :
    vfsGet id (vfsRegister args v).2 = vfsGet id v := by
  rcases vfsRegister_spec args v with ⟨i, hi, he⟩ | ⟨-, he⟩
  · rw [he]
    have hsame : hasId id (storeNode i args v) = hasId id v := by
      funext j
      by_cases hj : j = i
      · subst hj
        rw [hasId, storeNode_self, hasId, hi.free]
        simpa [nodeEntry] using h
      · rw [hasId, storeNode_of_ne hj, hasId]
    change (firstSlot (hasId id (storeNode i args v))).map _ = (firstSlot (hasId id v)).map _
    rw [hsame]
    refine Option.map_congr fun j hj => storeNode_of_ne ?_ args v
    rintro rfl
    have hactive := (firstNode_iff.mpr hj).active
    rw [hi.free] at hactive
    cases hactive
  · rw [he]

/-- The id leads to a node with this device and this name. -/
def Resolves (id : NodeId) (dev : Option (DevPtr σ)) (name : List Byte) (v : NodeTable σ) : Prop :=
  ∃ node, vfsGet id v = some node ∧ node.device = dev ∧ storedString node.name = name

/-- Reads, controls and non-console writes of the id are calls of the device. -/
structure Reaches (id : NodeId) (dev : Option (DevPtr σ)) (v : NodeTable σ) : Prop where
  read : ∀ k : Kernel σ, k.vfs = v → ∀ buf len, vfsRead id buf len k =
    let (n, bytes, world) := drvCallRead dev buf len k.registry k.world
    (n, bytes, { k with world := world })
  ioctl : ∀ k : Kernel σ, k.vfs = v → ∀ cmd arg, vfsIoctl id cmd arg k =
    (drvCallIoctl dev cmd arg k.registry k.world).map fun r => (r.1, { k with world := r.2 })
  write : consoleId id = false → ∀ k : Kernel σ, k.vfs = v → ∀ buf len, vfsWrite id buf len k =
    let (n, world) := drvCallWrite dev buf len k.registry k.world
    (n, { k with world := world })

theorem FirstNode.reaches (h : FirstNode id v j) (hv : WellFilled v) :
    Reaches id (v.nodes j).device v := by
  have hconsole : (v.nodes j).isConsole = consoleId id := by rw [hv.console j h.active, h.sameId]
  refine ⟨?_, ?_, ?_⟩
  · rintro k rfl buf len
    rw [vfsRead, h.vfsGet]
    cases hdev : (k.vfs.nodes j).device with
    | none => simp [hdev, drvCallRead, opsOf]
    | some dev => simp [hdev]
  · rintro k rfl cmd arg
    rw [vfsIoctl, h.vfsGet]
    cases hdev : (k.vfs.nodes j).device with
    | none => simp [hdev, drvCallIoctl, opsOf]
    | some dev => simp [hdev]
  · rintro hid k rfl buf len
    rw [vfsWrite, h.vfsGet]
    cases hdev : (k.vfs.nodes j).device with
    | none => simp [hdev, drvCallWrite, opsOf]
    | some dev => simp [hdev, hconsole, hid]

/-- If the registration returns 0, the id leads to its device, and keeps doing so when other ids
are registered. -/
def TakesEffect (v : NodeTable σ) (args : NodeArgs σ) : Prop :=
  (vfsRegister args v).1 = 0 →
    Resolves args.id args.dev (args.name.take (vfsNameMax - 1)) (vfsRegister args v).2 ∧
    Reaches args.id args.dev (vfsRegister args v).2 ∧
    ∀ later other, other.id ≠ args.id →
      vfsGet args.id (registerNodes (later ++ [other]) (vfsRegister args v).2) =
        vfsGet args.id (registerNodes later (vfsRegister args v).2)

theorem vfsGet_later {other : NodeArgs σ} (h : other.id ≠ id) (later : List (NodeArgs σ))
    (v : NodeTable σ) :
    vfsGet id (registerNodes (later ++ [other]) v) = vfsGet id (registerNodes later v) := by
  unfold registerNodes
  rw [run_snoc]
  exact vfsGet_vfsRegister_of_ne h _

/-- The node found after a registration: an older one, or the new one. -/
theorem firstNode_storeNode (hv : WellFilled v) (hi : NextNode v i) (args : NodeArgs σ) :
    (∃ j, FirstNode args.id v j ∧ FirstNode args.id (storeNode i args v) j ∧
      (storeNode i args v).nodes j = v.nodes j) ∨
    ((∀ j, ¬ FirstNode args.id v j) ∧ FirstNode args.id (storeNode i args v) i) := by
  have hactive (j) (hj : hasId args.id v j = true) : (v.nodes j).active = true :=
    (Bool.and_eq_true_iff.mp hj).1
  have hnew : hasId args.id (storeNode i args v) i = true := by
    rw [hasId, storeNode_self]
    simp [nodeEntry]
  have hold (j) (hj : j ≠ i) : hasId args.id (storeNode i args v) j = hasId args.id v j := by
    rw [hasId, storeNode_of_ne hj, hasId]
  have hadd := firstSlot_add hold fun j hj => hv.lt_next hi (hactive j hj)
  rw [if_pos hnew] at hadd
  cases hold : firstSlot (hasId args.id v) with
  | some j =>
    rw [hold, Option.some_or] at hadd
    have hj := firstNode_iff.mpr hold
    exact Or.inl ⟨j, hj, firstNode_iff.mpr hadd,
      storeNode_of_ne (ne_of_lt (hv.lt_next hi hj.active)) args v⟩
  | none =>
    rw [hold, Option.none_or] at hadd
    refine Or.inr ⟨fun j hj => ?_, firstNode_iff.mpr hadd⟩
    rw [firstNode_iff.mp hj] at hold
    cases hold

/-- A registration takes effect exactly if the table is full, no node has its id, or the first that
has it already has its device and its name. -/
theorem takesEffect_iff (h : v₀.vfsInitialized = false) (calls : List (NodeCall σ))
    (call : NodeCall σ) :
    TakesEffect (tableAfter v₀ calls) call.toNodeArgs ↔
      (∀ i, ((tableAfter v₀ calls).nodes i).active = true) ∨
      ∀ j, FirstNode call.id (tableAfter v₀ calls) j →
        ((tableAfter v₀ calls).nodes j).device = call.dev ∧
        storedString ((tableAfter v₀ calls).nodes j).name = call.name.take (vfsNameMax - 1) := by
  have hv := wellFilled_tableAfter h calls
  generalize tableAfter v₀ calls = v at hv
  rcases vfsRegister_spec call.toNodeArgs v with ⟨i, hi, he⟩ | ⟨hfull, he⟩
  · have hroom : ¬ ∀ i, (v.nodes i).active = true := by
      intro hfull
      have hactive := hfull i
      rw [hi.free] at hactive
      cases hactive
    have hstored := hv.storeNode hi call.toNodeArgs
    rw [TakesEffect, he, or_iff_right hroom]
    rcases firstNode_storeNode hv hi call.toNodeArgs with ⟨j, hold, hnew, hsame⟩ | ⟨hnone, hnew⟩
    · have hget := hnew.vfsGet
      have hreaches := hnew.reaches hstored
      rw [hsame] at hget hreaches
      constructor
      · intro heffect j' hj'
        obtain rfl := hold.unique hj'
        obtain ⟨⟨node, hnode, hdev, hname⟩, -, -⟩ := heffect rfl
        obtain rfl := Option.some.inj (hget.symm.trans hnode)
        exact ⟨hdev, hname⟩
      · intro halready _
        obtain ⟨hdev, hname⟩ := halready j hold
        rw [hdev] at hreaches
        exact ⟨⟨_, hget, hdev, hname⟩, hreaches, fun later other hne => vfsGet_later hne later _⟩
    · refine iff_of_true (fun _ => ⟨⟨_, hnew.vfsGet, ?_, ?_⟩, ?_, fun later other hne => ?_⟩)
        fun j hj => absurd hj (hnone j)
      · rw [storeNode_self]
        rfl
      · rw [storeNode_self]
        exact storedString_storeName call.nul_free
      · have hreaches := hnew.reaches hstored
        rwa [storeNode_self] at hreaches
      · exact vfsGet_later hne later _
  · refine iff_of_true ?_ (Or.inl hfull)
    rw [TakesEffect, he]
    intro hzero
    cases hzero

/-- The node table as a zeroed static. -/
def staticNodes : NodeTable σ :=
  ⟨fun _ => ⟨fun _ => 0#8, 0#32, .unknown, none, false, false⟩, false⟩

def serialNode (i : Fin maxDevices) : NodeCall Unit :=
  ⟨⟨vfsNodeSerial, [ascii 'c'], .serial, some (.slot i)⟩, by simp [ascii]⟩

def displayNode (i : Fin maxDevices) : NodeCall Unit :=
  ⟨⟨vfsNodeDisplay, [ascii 'd'], .display, some (.slot i)⟩, by simp [ascii]⟩

/-- Behind an earlier node a node with another id takes effect, and so does the earlier one again. -/
theorem takesEffect_later :
    TakesEffect (tableAfter staticNodes [serialNode 0]) (displayNode 1).toNodeArgs ∧
    TakesEffect (tableAfter staticNodes [serialNode 0, displayNode 1])
      (serialNode 0).toNodeArgs := by
  refine ⟨(takesEffect_iff rfl [serialNode 0] (displayNode 1)).mpr (Or.inr fun j hj => ?_),
    (takesEffect_iff rfl [serialNode 0, displayNode 1] (serialNode 0)).mpr (Or.inr fun j hj => ?_)⟩
  · have hnone : firstSlot (hasId vfsNodeDisplay (tableAfter staticNodes [serialNode 0])) = none := by
      decide +kernel
    cases (firstNode_iff.mp hj).symm.trans hnone
  · have hfirst : firstSlot
        (hasId vfsNodeSerial (tableAfter staticNodes [serialNode 0, displayNode 1])) = some 0 := by
      decide +kernel
    obtain rfl := Option.some.inj ((firstNode_iff.mp hj).symm.trans hfirst)
    exact ⟨rfl, by decide +kernel⟩

/-- A second device under the same id is registered, and the id leads to the first. -/
theorem not_takesEffect_twice :
    ¬ TakesEffect (tableAfter staticNodes [serialNode 0]) (serialNode 1).toNodeArgs := by
  intro h
  obtain ⟨⟨node, hget, hdev, -⟩, -⟩ := h (by decide +kernel)
  have hfirst : (vfsGet vfsNodeSerial (vfsRegister (serialNode 1).toNodeArgs
      (tableAfter staticNodes [serialNode 0])).2).bind VfsNode.device = some (.slot 0) := rfl
  change vfsGet vfsNodeSerial _ = some node at hget
  rw [hget, Option.bind_some, hdev] at hfirst
  cases hfirst

end FenwickOS.Vfs
