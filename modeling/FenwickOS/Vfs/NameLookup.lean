import FenwickOS.Vfs.Registration

/-! Lookup by name in the node table of kernel/vfs/vfs.c, after any registrations. -/
namespace FenwickOS.Vfs
open Machine Drv

variable {σ : Type*} {v v₀ : NodeTable σ} {args : NodeArgs σ} {i j : Fin vfsNodeMax}
  {calls : List (NodeCall σ)} {call : NodeCall σ} {name : List Byte}

/-- The slot of the node that `vfs_get_by_name` returns a pointer to. -/
def nodeByName (name : List Byte) (v : NodeTable σ) : Option (Fin vfsNodeMax) :=
  firstSlot fun i => (v.nodes i).active && nameMatches name (v.nodes i).name

theorem vfsGetByName_eq (name : List Byte) (v : NodeTable σ) :
    vfsGetByName (some name) v = (nodeByName name v).map v.nodes := rfl

/-- If the registration returns 0, its name leads to the slot just filled. -/
def NameFound (v : NodeTable σ) (args : NodeArgs σ) : Prop :=
  (vfsRegister args v).1 = 0 →
    ∃ i, (v.nodes i).active = false ∧ ((vfsRegister args v).2.nodes i).active = true ∧
      nodeByName args.name (vfsRegister args v).2 = some i

/-- The names of earlier calls lead to the nodes that they led to. -/
def NamesKept (calls : List (NodeCall σ)) (v : NodeTable σ) (args : NodeArgs σ) : Prop :=
  ∀ c ∈ calls, nodeByName c.name (vfsRegister args v).2 = nodeByName c.name v ∧
    vfsGetByName (some c.name) (vfsRegister args v).2 = vfsGetByName (some c.name) v

/-- What a name is cut down to when it is stored. -/
def stored (name : List Byte) : List Byte := name.take (vfsNameMax - 1)

theorem stored_eq_self : stored name = name ↔ name.length < vfsNameMax := by
  rw [stored, List.take_eq_self_iff]
  exact Nat.lt_succ_iff.symm

/-- The stored names are those of the calls, cut down; a call may be missing when the table is
full. -/
structure NamesOf (calls : List (NodeCall σ)) (v : NodeTable σ) : Prop where
  sound : ∀ i, (v.nodes i).active = true →
    ∃ c ∈ calls, storedString (v.nodes i).name = stored c.name
  complete : (∃ i, (v.nodes i).active = false) → ∀ c ∈ calls,
    ∃ i, (v.nodes i).active = true ∧ storedString (v.nodes i).name = stored c.name

theorem NamesOf.storeNode (h : NamesOf calls v) (hi : NextNode v i) (call : NodeCall σ) :
    NamesOf (calls ++ [call]) (Vfs.storeNode i call.toNodeArgs v) := by
  have hnew : storedString ((Vfs.storeNode i call.toNodeArgs v).nodes i).name = stored call.name := by
    rw [storeNode_self]
    exact storedString_storeName call.nul_free
  refine ⟨fun j hj => ?_, fun _ c hc => ?_⟩
  · by_cases hji : j = i
    · rw [hji]
      exact ⟨call, by simp, hnew⟩
    · rw [storeNode_of_ne hji] at hj ⊢
      obtain ⟨c, hc, hname⟩ := h.sound j hj
      exact ⟨c, List.mem_append_left _ hc, hname⟩
  · rcases List.mem_append.mp hc with hc | hc
    · obtain ⟨j, hj, hname⟩ := h.complete ⟨i, hi.free⟩ c hc
      have hji : j ≠ i := by
        rintro rfl
        rw [hi.free] at hj
        cases hj
      exact ⟨j, by rwa [storeNode_of_ne hji], by rwa [storeNode_of_ne hji]⟩
    · obtain rfl := List.mem_singleton.mp hc
      exact ⟨i, by rw [storeNode_self]; rfl, hnew⟩

theorem tableAfter_snoc (v₀ : NodeTable σ) (calls : List (NodeCall σ)) (call : NodeCall σ) :
    tableAfter v₀ (calls ++ [call]) = (vfsRegister call.toNodeArgs (tableAfter v₀ calls)).2 := by
  rw [tableAfter, List.map_append, registerNodes]
  exact run_snoc _ _ _

theorem namesOf_tableAfter (h : v₀.vfsInitialized = false) (calls : List (NodeCall σ)) :
    NamesOf calls (tableAfter v₀ calls) := by
  induction calls using List.reverseRecOn with
  | nil =>
    refine ⟨fun i hi => ?_, fun _ c hc => by cases hc⟩
    simp [tableAfter, registerNodes, vfsInit, h] at hi
  | append_singleton calls call ih =>
    rw [tableAfter_snoc]
    rcases vfsRegister_spec call.toNodeArgs (tableAfter v₀ calls) with ⟨i, hi, he⟩ | ⟨hfull, he⟩
    · rw [he]
      exact ih.storeNode hi call
    · rw [he]
      refine ⟨fun i hi => ?_, ?_⟩
      · obtain ⟨c, hc, hname⟩ := ih.sound i hi
        exact ⟨c, List.mem_append_left _ hc, hname⟩
      · rintro ⟨i, hi⟩
        rw [hfull i] at hi
        cases hi

/-- A lookup after one more node: it finds what it found before, or the new node. -/
theorem nodeByName_storeNode (hv : WellFilled v) (hi : NextNode v i) (call : NodeCall σ)
    (hname : 0#8 ∉ name) : nodeByName name (storeNode i call.toNodeArgs v) =
      (nodeByName name v).or (if stored call.name = name then some i else none) := by
  have hsame (j) (hj : j ≠ i) :
      (((storeNode i call.toNodeArgs v).nodes j).active &&
        nameMatches name ((storeNode i call.toNodeArgs v).nodes j).name) =
      ((v.nodes j).active && nameMatches name (v.nodes j).name) := by
    rw [storeNode_of_ne hj]
  have hbelow (j) (hj : ((v.nodes j).active && nameMatches name (v.nodes j).name) = true) : j < i :=
    hv.lt_next hi (Bool.and_eq_true_iff.mp hj).1
  have hnew : nameMatches name (storeName (v.nodes i).name call.name) = true ↔
      stored call.name = name := by
    rw [nameMatches_iff ⟨_, storeName_stop _ _⟩ hname, storedString_storeName call.nul_free, stored]
  rw [nodeByName, firstSlot_add hsame hbelow, storeNode_self]
  simp only [nodeEntry, Bool.true_and, hnew]
  rfl

/-- A name is found exactly if it is the stored form of some call's name. -/
theorem nodeByName_eq_none_iff (hv : WellFilled v) (hnames : NamesOf calls v)
    (hroom : ∃ i, (v.nodes i).active = false) (hname : 0#8 ∉ name) :
    nodeByName name v = none ↔ ∀ c ∈ calls, stored c.name ≠ name := by
  have hmatch (j) (hj : (v.nodes j).active = true) :
      nameMatches name (v.nodes j).name = true ↔ storedString (v.nodes j).name = name :=
    nameMatches_iff (hv.nul j hj) hname
  rw [nodeByName, firstSlot_eq_none_iff]
  constructor
  · intro hnone c hc hstored
    obtain ⟨j, hj, hstring⟩ := hnames.complete hroom c hc
    have hfound := (hmatch j hj).mpr (hstring.trans hstored)
    simpa [hj, hfound] using hnone j
  · intro hnone j
    rw [Bool.and_eq_false_iff, ← Bool.not_eq_true, ← Bool.not_eq_true]
    refine not_and_or.mp ?_
    rintro ⟨hj, hfound⟩
    obtain ⟨c, hc, hstring⟩ := hnames.sound j hj
    exact hnone c hc (hstring.symm.trans ((hmatch j hj).mp hfound))

theorem nameFound_iff (hv : WellFilled v) (hnames : NamesOf calls v)
    (hroom : ∃ i, (v.nodes i).active = false) (call : NodeCall σ) :
    NameFound v call.toNodeArgs ↔
      call.name.length < vfsNameMax ∧ ∀ c ∈ calls, stored c.name ≠ call.name := by
  rcases vfsRegister_spec call.toNodeArgs v with ⟨i, hi, he⟩ | ⟨hfull, -⟩
  · rw [NameFound, he, ← stored_eq_self,
      ← nodeByName_eq_none_iff hv hnames hroom call.nul_free,
      nodeByName_storeNode hv hi call call.nul_free]
    constructor
    · intro hfound
      obtain ⟨j, hfree, hactive, hget⟩ := hfound rfl
      have hji : j = i := by
        by_contra hne
        rw [storeNode_of_ne hne, hfree] at hactive
        cases hactive
      subst hji
      cases hold : nodeByName call.name v with
      | some k =>
        rw [hold, Option.some_or] at hget
        obtain rfl := Option.some.inj hget
        have hhit := (firstSlot_eq_some_iff.mp hold).1
        simp [hfree] at hhit
      | none =>
        rw [hold, Option.none_or] at hget
        split at hget
        · rename_i hfits
          exact ⟨hfits, rfl⟩
        · cases hget
    · rintro ⟨hfits, hold⟩ _
      refine ⟨i, hi.free, ?_, ?_⟩
      · rw [storeNode_self]
        rfl
      · rw [hold, if_pos hfits]
        rfl
  · obtain ⟨i, hi⟩ := hroom
    rw [hfull i] at hi
    cases hi

theorem namesKept (hv : WellFilled v) (hnames : NamesOf calls v) (call : NodeCall σ) :
    NamesKept calls v call.toNodeArgs := by
  intro c hc
  rcases vfsRegister_spec call.toNodeArgs v with ⟨i, hi, he⟩ | ⟨-, he⟩
  · have hroom : ∃ i, (v.nodes i).active = false := ⟨i, hi.free⟩
    have hslot : nodeByName c.name (storeNode i call.toNodeArgs v) = nodeByName c.name v := by
      rw [nodeByName_storeNode hv hi call c.nul_free]
      cases hold : nodeByName c.name v with
      | some j => rfl
      | none =>
        -- the name is too long to be stored, so the new node does not have it either
        have hlong := (nodeByName_eq_none_iff hv hnames hroom c.nul_free).mp hold c hc
        rw [if_neg, Option.none_or]
        intro hnew
        refine hlong (stored_eq_self.mpr ?_)
        rw [← hnew, stored, List.length_take]
        exact Nat.lt_of_le_of_lt (Nat.min_le_left _ _) (by decide)
    rw [he]
    refine ⟨hslot, ?_⟩
    rw [vfsGetByName_eq, vfsGetByName_eq, hslot]
    refine Option.map_congr fun j hj => storeNode_of_ne ?_ _ v
    rintro rfl
    have hhit := (firstSlot_eq_some_iff.mp hj).1
    simp [hi.free] at hhit
  · rw [he]
    exact ⟨rfl, rfl⟩

/-- While the table has room, a new name leads to its node exactly if it fits and no earlier name
was stored as it; the earlier names lead where they did. -/
theorem namesFound_iff (h : v₀.vfsInitialized = false) (calls : List (NodeCall σ))
    (call : NodeCall σ) (hroom : ∃ i, ((tableAfter v₀ calls).nodes i).active = false) :
    (NameFound (tableAfter v₀ calls) call.toNodeArgs ↔
      call.name.length < vfsNameMax ∧ ∀ c ∈ calls, stored c.name ≠ call.name) ∧
    NamesKept calls (tableAfter v₀ calls) call.toNodeArgs := by
  have hv := wellFilled_tableAfter h calls
  have hnames := namesOf_tableAfter h calls
  exact ⟨nameFound_iff hv hnames hroom call, namesKept hv hnames call⟩

def longName : NodeCall Unit :=
  ⟨⟨vfsNodeRtc, List.replicate 32 (ascii 'r'), .rtc, none⟩, by decide⟩

/-- A name of one byte is found beside it. -/
theorem nameFound_short : NameFound (tableAfter staticNodes [longName]) (serialNode 0).toNodeArgs :=
  (namesFound_iff rfl [longName] (serialNode 0) ⟨1, rfl⟩).1.mpr
    ⟨by decide, by decide⟩

/-- The long name itself is registered in an empty table and not found. -/
theorem not_nameFound_long : ¬ NameFound (tableAfter staticNodes []) longName.toNodeArgs := by
  intro h
  have hlen := ((nameFound_iff (wellFilled_tableAfter rfl []) (namesOf_tableAfter rfl [])
    ⟨0, rfl⟩ longName).mp h).1
  exact absurd hlen (by decide)

end FenwickOS.Vfs
