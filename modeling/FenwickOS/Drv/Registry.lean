import FenwickOS.Drv.Core

/-! What registering and probing make of the driver and device tables. -/
namespace FenwickOS.Drv
open Machine

variable {σ : Type*} {r r₀ : Registry σ} {w : σ} {s : Probing σ} {d : Fin maxDrivers}
  {i : Fin maxDevices} {drv : Driver σ} {dev : Device σ}

/-! ### Registering into empty tables -/

def driverEntry (drv _ : Driver σ) : Driver σ := { drv with registered := true }

def deviceEntry (dev _ : Device σ) : Device σ := { dev with active := true }

/-- Drivers registered one after the other in an empty table stand in it in that order. -/
theorem registerDrivers_eq {drvs : List (Driver σ)} (hfree : ∀ d, (r.drivers d).registered = false)
    (hcount : r.driverCount = 0) (hops : ∀ drv ∈ drvs, drv.ops.isSome)
    (hlen : drvs.length ≤ maxDrivers) :
    registerDrivers drvs r =
      { r with drivers := filled driverEntry drvs r.drivers, driverCount := drvs.length } := by
  have h := @run_eq _ _ (fun r drv => (drvRegister (some drv) r).2)
    (fun drvs =>
      { r with drivers := filled driverEntry drvs r.drivers, driverCount := drvs.length })
    (fun drvs => (∀ drv ∈ drvs, drv.ops.isSome) ∧ drvs.length ≤ maxDrivers)
    (fun drvs drv h => ?_) (fun drvs drv h => ?_) drvs ⟨hops, hlen⟩
  · rwa [filled_nil, List.length_nil, Int.natCast_zero, ← hcount] at h
  · rw [List.length_append] at h
    exact ⟨fun drv' hmem => h.1 drv' (List.mem_append_left _ hmem), by omega⟩
  · have hlt : drvs.length < maxDrivers := Nat.lt_of_lt_of_le (by simp) h.2
    have hops' : drv.ops.isNone = false := by simpa using h.1 drv (by simp)
    have hroom : ¬ (drvs.length : Int) ≥ maxDrivers := by omega
    have hslot : (firstSlot fun d => !(filled driverEntry drvs r.drivers d).registered) =
        some ⟨drvs.length, hlt⟩ :=
      @firstSlot_filled _ _ _ driverEntry drvs r.drivers Driver.registered (fun _ _ _ => rfl) hfree
        hlt
    simp only [drvRegister, hops', hroom, hslot, Bool.false_eq_true, if_false]
    rw [← update_filled hlt]
    simp [driverEntry]

/-- So do devices, which keep the ids they come with. -/
theorem registerDevices_eq {devs : List (Device σ)} (hfree : ∀ i, (r.devices i).active = false)
    (hcount : r.deviceCount = 0) (hid : ∀ dev ∈ devs, dev.id ≠ 0#32)
    (hlen : devs.length ≤ maxDevices) :
    registerDevices devs r =
      { r with devices := filled deviceEntry devs r.devices, deviceCount := devs.length } := by
  have h := @run_eq _ _ (fun r dev => (devRegister (some dev) r).2.2)
    (fun devs =>
      { r with devices := filled deviceEntry devs r.devices, deviceCount := devs.length })
    (fun devs => (∀ dev ∈ devs, dev.id ≠ 0#32) ∧ devs.length ≤ maxDevices)
    (fun devs dev h => ?_) (fun devs dev h => ?_) devs ⟨hid, hlen⟩
  · rwa [filled_nil, List.length_nil, Int.natCast_zero, ← hcount] at h
  · rw [List.length_append] at h
    exact ⟨fun dev' hmem => h.1 dev' (List.mem_append_left _ hmem), by omega⟩
  · have hlt : devs.length < maxDevices := Nat.lt_of_lt_of_le (by simp) h.2
    have hroom : ¬ (devs.length : Int) ≥ maxDevices := by omega
    have hslot : (firstSlot fun i => !(filled deviceEntry devs r.devices i).active) =
        some ⟨devs.length, hlt⟩ :=
      @firstSlot_filled _ _ _ deviceEntry devs r.devices Device.active (fun _ _ _ => rfl) hfree hlt
    simp only [devRegister, hroom, hslot, h.1 dev (by simp), if_false]
    rw [← update_filled hlt]
    simp [deviceEntry]

/-! ### Registering one more -/

def storeDriver (d : Fin maxDrivers) (drv : Driver σ) (r : Registry σ) : Registry σ :=
  { r with
    drivers := Function.update r.drivers d { drv with registered := true }
    driverCount := r.driverCount + 1 }

/-- There is room for one more driver, and `d` is the slot that it gets. -/
structure NextSlot (r : Registry σ) (d : Fin maxDrivers) : Prop where
  room : r.driverCount < maxDrivers
  free : (r.drivers d).registered = false
  lowest : ∀ d' < d, (r.drivers d').registered = true

/-- A driver with operations takes the next slot, or is refused for lack of one. -/
theorem drvRegister_spec (h : drv.ops.isSome) (r : Registry σ) :
    (∃ d, NextSlot r d ∧ drvRegister (some drv) r = (0, storeDriver d drv r)) ∨
    ((r.driverCount ≥ maxDrivers ∨ ∀ d, (r.drivers d).registered = true) ∧
      drvRegister (some drv) r = (-1, r)) := by
  have hops : drv.ops.isNone = false := by simpa using h
  simp only [drvRegister, hops, Bool.false_eq_true, if_false]
  by_cases hroom : r.driverCount ≥ maxDrivers
  · exact Or.inr ⟨Or.inl hroom, if_pos hroom⟩
  · rw [if_neg hroom]
    rcases firstSlot_free fun d => (r.drivers d).registered with
      ⟨d, hfree, hlow, hslot⟩ | ⟨hall, hslot⟩
    · rw [hslot]
      exact Or.inl ⟨d, ⟨by omega, hfree, hlow⟩, rfl⟩
    · rw [hslot]
      exact Or.inr ⟨Or.inr hall, rfl⟩

theorem drvRegister_of_no_ops (h : ¬ drv.ops.isSome) (r : Registry σ) :
    drvRegister (some drv) r = (-1, r) := by
  have hnone : drv.ops.isNone = true := by simpa using h
  rw [drvRegister, if_pos hnone]

theorem NextSlot.unique (h : NextSlot r d) {d' : Fin maxDrivers} (h' : NextSlot r d') : d' = d :=
  lowest_unique h.free h.lowest h'.free h'.lowest

/-- The id of a device once it is in slot `i`. -/
def assignedId (dev : Device σ) (i : Fin maxDevices) : BitVec 32 :=
  if dev.id = 0#32 then BitVec.ofNat 32 (i.val + 1) else dev.id

def storeDevice (i : Fin maxDevices) (dev : Device σ) (r : Registry σ) : Registry σ :=
  { r with
    devices := Function.update r.devices i { dev with id := assignedId dev i, active := true }
    deviceCount := r.deviceCount + 1 }

/-- There is room for one more device, and `i` is the slot that it gets. -/
structure NextDevice (r : Registry σ) (i : Fin maxDevices) : Prop where
  room : r.deviceCount < maxDevices
  free : (r.devices i).active = false
  lowest : ∀ j < i, (r.devices j).active = true

/-- A device takes the next slot and tells its caller its id, or is refused for lack of a slot. -/
theorem devRegister_spec (dev : Device σ) (r : Registry σ) :
    (∃ i, NextDevice r i ∧ devRegister (some dev) r =
      (0, some { dev with id := assignedId dev i }, storeDevice i dev r)) ∨
    ((∀ i, ¬ NextDevice r i) ∧ devRegister (some dev) r = (-1, some dev, r)) := by
  simp only [devRegister]
  by_cases hroom : r.deviceCount ≥ maxDevices
  · refine Or.inr ⟨fun i hi => ?_, if_pos hroom⟩
    have := hi.room
    omega
  · rw [if_neg hroom]
    rcases firstSlot_free fun i => (r.devices i).active with
      ⟨i, hfree, hlow, hslot⟩ | ⟨hall, hslot⟩
    · have hid : (if dev.id = 0#32 then { dev with id := BitVec.ofNat 32 (i.val + 1) } else dev) =
          { dev with id := assignedId dev i } := by
        unfold assignedId
        split <;> rfl
      refine Or.inl ⟨i, ⟨by omega, hfree, hlow⟩, ?_⟩
      rw [hslot]
      dsimp only
      rw [hid]
      rfl
    · rw [hslot]
      refine Or.inr ⟨fun i hi => ?_, rfl⟩
      have hfree := hi.free
      rw [hall i] at hfree
      cases hfree

theorem storeDevice_self (i : Fin maxDevices) (dev : Device σ) (r : Registry σ) :
    (storeDevice i dev r).devices i = { dev with id := assignedId dev i, active := true } :=
  Function.update_self ..

theorem storeDevice_of_ne {j : Fin maxDevices} (h : j ≠ i) (dev : Device σ) (r : Registry σ) :
    (storeDevice i dev r).devices j = r.devices j :=
  Function.update_of_ne h ..

/-! ### Probing -/

def ProbesSucceed (r : Registry σ) : Prop :=
  ∀ d probe, (r.drivers d).ops.bind DrvOps.probe = some probe → ∀ i w, probe i w = (0, w)

/-- Probing device `i` for driver `d` finds the device unbound and the driver fit for it. -/
structure Bindable (r : Registry σ) (d : Fin maxDrivers) (i : Fin maxDevices) : Prop where
  active : (r.devices i).active = true
  type : (r.devices i).type = (r.drivers d).type
  unbound : (r.devices i).driver = none
  probe : ((r.drivers d).ops.bind DrvOps.probe).isSome

def bindDevice (d : Fin maxDrivers) (i : Fin maxDevices) (r : Registry σ) : Registry σ :=
  { drvAttach i d r with
    drivers := Function.update r.drivers d { r.drivers d with probed := true } }

/-- The probe function of driver `d`, if it has one, returns 0 for device `i`. -/
def Answers (s : Probing σ) (d : Fin maxDrivers) (i : Fin maxDevices) : Prop :=
  ∀ probe, (s.registry.drivers d).ops.bind DrvOps.probe = some probe →
    (probe (some i) s.world).1 = 0

/-- What one probe does: it skips the device, binds it, or is told that the driver is not for it. -/
theorem probeDevice_spec (s : Probing σ) (d : Fin maxDrivers) (i : Fin maxDevices) :
    (¬ Bindable s.registry d i ∧ probeDevice d s i = s) ∨
    (Bindable s.registry d i ∧ ∃ probe, (s.registry.drivers d).ops.bind DrvOps.probe = some probe ∧
      (((probe (some i) s.world).1 = 0 ∧ probeDevice d s i =
          ⟨s.count + 1, bindDevice d i s.registry, (probe (some i) s.world).2⟩) ∨
        ((probe (some i) s.world).1 ≠ 0 ∧
          probeDevice d s i = { s with world := (probe (some i) s.world).2 }))) := by
  unfold probeDevice
  dsimp only
  split
  · rename_i hskip
    refine Or.inl ⟨fun hb => ?_, rfl⟩
    simp [hb.active, hb.type, hb.unbound] at hskip
  · rename_i hgo
    split
    · rename_i hnone
      exact Or.inl ⟨fun hb => by simpa [hnone] using hb.probe, rfl⟩
    · rename_i probe hprobe
      simp only [Bool.or_eq_true, Bool.not_eq_true', bne_iff_ne, ne_eq, Option.isSome_iff_ne_none,
        not_or, not_not, Bool.not_eq_false] at hgo
      refine Or.inr ⟨⟨hgo.1.1, hgo.1.2, hgo.2, by simp [hprobe]⟩, probe, hprobe, ?_⟩
      split
      · rename_i hzero
        exact Or.inl ⟨hzero, by simp [bindDevice, drvAttach]⟩
      · rename_i hzero
        exact Or.inr ⟨hzero, rfl⟩

/-- What it does to the tables: it binds the device, or changes nothing. -/
theorem probeDevice_registry (s : Probing σ) (d : Fin maxDrivers) (i : Fin maxDevices) :
    (Bindable s.registry d i ∧ Answers s d i ∧
      (probeDevice d s i).registry = bindDevice d i s.registry) ∨
    (¬ (Bindable s.registry d i ∧ Answers s d i) ∧
      (probeDevice d s i).registry = s.registry) := by
  rcases probeDevice_spec s d i with ⟨hskip, he⟩ | ⟨hb, probe, hprobe, ⟨hzero, he⟩ | ⟨hne, he⟩⟩
  · exact Or.inr ⟨fun h => hskip h.1, by rw [he]⟩
  · refine Or.inl ⟨hb, fun probe' hprobe' => ?_, by rw [he]⟩
    obtain rfl := Option.some.inj (hprobe.symm.trans hprobe')
    exact hzero
  · exact Or.inr ⟨fun ⟨_, hanswers⟩ => hne (hanswers probe hprobe), by rw [he]⟩

theorem bindDevice_driver (d d' : Fin maxDrivers) (i : Fin maxDevices) (r : Registry σ) :
    ((bindDevice d i r).drivers d').ops = (r.drivers d').ops ∧
    ((bindDevice d i r).drivers d').type = (r.drivers d').type ∧
    ((bindDevice d i r).drivers d').registered = (r.drivers d').registered := by
  by_cases h : d' = d
  · subst h
    simp [bindDevice]
  · simp [bindDevice, h]

theorem bindDevice_device (d : Fin maxDrivers) (i i' : Fin maxDevices) (r : Registry σ) :
    (bindDevice d i r).devices i' =
      { r.devices i' with
        driver := if i' = i then some (.slot d) else (r.devices i').driver } := by
  by_cases h : i' = i
  · subst h
    simp [bindDevice, drvAttach]
  · simp [bindDevice, drvAttach, h]

/-- The round of the outer loop for driver `d`. -/
def probeDriver (s : Probing σ) (d : Fin maxDrivers) : Probing σ :=
  if (s.registry.drivers d).registered then run (probeDevice d) s (List.finRange maxDevices)
  else s

theorem drvProbeAll_eq (r : Registry σ) (w : σ) :
    drvProbeAll r w = run probeDriver ⟨0, r, w⟩ (List.finRange maxDrivers) := rfl

/-! ### What probing never changes -/

structure SameTables (r₀ r : Registry σ) : Prop where
  ops : ∀ d, (r.drivers d).ops = (r₀.drivers d).ops
  driverType : ∀ d, (r.drivers d).type = (r₀.drivers d).type
  registered : ∀ d, (r.drivers d).registered = (r₀.drivers d).registered
  name : ∀ i, (r.devices i).name = (r₀.devices i).name
  deviceType : ∀ i, (r.devices i).type = (r₀.devices i).type
  id : ∀ i, (r.devices i).id = (r₀.devices i).id
  active : ∀ i, (r.devices i).active = (r₀.devices i).active

theorem SameTables.refl (r : Registry σ) : SameTables r r :=
  ⟨fun _ => rfl, fun _ => rfl, fun _ => rfl, fun _ => rfl, fun _ => rfl, fun _ => rfl, fun _ => rfl⟩

theorem SameTables.probeDevice (h : SameTables r₀ s.registry) (d : Fin maxDrivers)
    (i : Fin maxDevices) : SameTables r₀ (Drv.probeDevice d s i).registry := by
  rcases probeDevice_registry s d i with ⟨-, -, he⟩ | ⟨-, he⟩
  · rw [he]
    refine ⟨fun d' => ?_, fun d' => ?_, fun d' => ?_, fun i' => ?_, fun i' => ?_, fun i' => ?_,
      fun i' => ?_⟩
    · exact (bindDevice_driver d d' i s.registry).1.trans (h.ops d')
    · exact (bindDevice_driver d d' i s.registry).2.1.trans (h.driverType d')
    · exact (bindDevice_driver d d' i s.registry).2.2.trans (h.registered d')
    · rw [bindDevice_device]
      exact h.name i'
    · rw [bindDevice_device]
      exact h.deviceType i'
    · rw [bindDevice_device]
      exact h.id i'
    · rw [bindDevice_device]
      exact h.active i'
  · rwa [he]

theorem SameTables.probeDriver (h : SameTables r₀ s.registry) (d : Fin maxDrivers) :
    SameTables r₀ (Drv.probeDriver s d).registry := by
  unfold Drv.probeDriver
  split
  · exact run_invariant (P := fun s : Probing σ => SameTables r₀ s.registry)
      (fun s i hs => hs.probeDevice d i) h _
  · exact h

theorem sameTables_drvProbeAll (r : Registry σ) (w : σ) :
    SameTables r (drvProbeAll r w).registry := by
  rw [drvProbeAll_eq]
  exact run_invariant (P := fun s : Probing σ => SameTables r s.registry)
    (fun _ d hs => hs.probeDriver d) (SameTables.refl r) _

/-! ### Whose turn it is -/

def beforeDriver (r : Registry σ) (w : σ) (d : Fin maxDrivers) : Probing σ :=
  run probeDriver ⟨0, r, w⟩ ((List.finRange maxDrivers).take d.val)

def beforeProbe (r : Registry σ) (w : σ) (d : Fin maxDrivers) (i : Fin maxDevices) : Probing σ :=
  run (probeDevice d) (beforeDriver r w d) ((List.finRange maxDevices).take i.val)

theorem sameTables_beforeDriver (r : Registry σ) (w : σ) (d : Fin maxDrivers) :
    SameTables r (beforeDriver r w d).registry :=
  run_invariant (P := fun s : Probing σ => SameTables r s.registry)
    (fun _ d hs => hs.probeDriver d) (SameTables.refl r) _

theorem sameTables_beforeProbe (r : Registry σ) (w : σ) (d : Fin maxDrivers)
    (i : Fin maxDevices) : SameTables r (beforeProbe r w d i).registry :=
  run_invariant (P := fun s : Probing σ => SameTables r s.registry)
    (fun _ i hs => hs.probeDevice d i) (sameTables_beforeDriver r w d) _

/-- The two loops as one: an invariant that each probe of a registered driver keeps. -/
theorem drvProbeAll_invariant {P : Probing σ → Prop} (hstart : P ⟨0, r, w⟩)
    (hstep : ∀ d i, (r.drivers d).registered = true → P (beforeProbe r w d i) →
      P (probeDevice d (beforeProbe r w d i) i)) : P (drvProbeAll r w) := by
  rw [drvProbeAll_eq]
  refine run_invariant_take hstart fun k hk hbefore => ?_
  rw [List.length_finRange] at hk
  rw [List.getElem_finRange]
  change P (probeDriver (beforeDriver r w ⟨k, hk⟩) ⟨k, hk⟩)
  unfold probeDriver
  split
  · rename_i hreg
    rw [(sameTables_beforeDriver r w _).registered] at hreg
    refine run_invariant_take hbefore fun j hj hprobe => ?_
    rw [List.length_finRange] at hj
    rw [List.getElem_finRange]
    exact hstep ⟨k, hk⟩ ⟨j, hj⟩ hreg hprobe
  · exact hbefore

/-! ### What a device gets bound to -/

/-- A registered driver of the device's type whose probe function, if it has one, returns 0 when it
is the device's turn. -/
structure Usable (r : Registry σ) (w : σ) (d : Fin maxDrivers) (i : Fin maxDevices) : Prop where
  registered : (r.drivers d).registered = true
  type : (r.drivers d).type = (r.devices i).type
  ops : (r.drivers d).ops.isSome
  answers : ∀ probe, (r.drivers d).ops.bind DrvOps.probe = some probe →
    (probe (some i) (beforeProbe r w d i).world).1 = 0

def HasProbe (r : Registry σ) (d : Fin maxDrivers) : Prop :=
  ((r.drivers d).ops.bind DrvOps.probe).isSome

/-- The pointer of device `i` is what it was, or it leads to a usable driver that has a probe
function. -/
def BoundWell (r₀ : Registry σ) (w : σ) (i : Fin maxDevices) (r : Registry σ) : Prop :=
  (r.devices i).driver = (r₀.devices i).driver ∨
    ∃ d, (r.devices i).driver = some (.slot d) ∧ Usable r₀ w d i ∧ HasProbe r₀ d

theorem boundWell_drvProbeAll (r : Registry σ) (w : σ) (i : Fin maxDevices) :
    BoundWell r w i (drvProbeAll r w).registry := by
  refine drvProbeAll_invariant (P := fun s : Probing σ => BoundWell r w i s.registry)
    (Or.inl rfl) fun d i' hreg hs => ?_
  have htables := sameTables_beforeProbe r w d i'
  rcases probeDevice_registry (beforeProbe r w d i') d i' with ⟨hb, hanswers, he⟩ | ⟨-, he⟩
  · rw [he, BoundWell, bindDevice_device]
    by_cases hi : i = i'
    · subst hi
      have hprobe : HasProbe r d := by
        have hprobe := hb.probe
        rwa [htables.ops] at hprobe
      refine Or.inr ⟨d, if_pos rfl, ⟨hreg, ?_, ?_, fun probe hp => ?_⟩, hprobe⟩
      · rw [← htables.driverType, ← htables.deviceType, hb.type]
      · exact Option.isSome_of_isSome_bind hprobe
      · rw [← htables.ops] at hp
        exact hanswers probe hp
    · simpa [BoundWell, hi] using hs
  · rwa [he]

theorem probeDevice_keeps (h : (s.registry.devices i).driver.isSome) (d : Fin maxDrivers)
    (i' : Fin maxDevices) : ((probeDevice d s i').registry.devices i).driver.isSome := by
  rcases probeDevice_registry s d i' with ⟨-, -, he⟩ | ⟨-, he⟩
  · rw [he, bindDevice_device]
    by_cases hi : i = i' <;> simp [hi, h]
  · rwa [he]

theorem probeDriver_keeps (h : (s.registry.devices i).driver.isSome) (d : Fin maxDrivers) :
    ((probeDriver s d).registry.devices i).driver.isSome := by
  unfold probeDriver
  split
  · exact run_invariant (P := fun s : Probing σ => (s.registry.devices i).driver.isSome)
      (fun s i' hs => probeDevice_keeps hs d i') h _
  · exact h

/-- When it is the device's turn, a usable driver that has a probe function leaves it bound. -/
theorem Usable.binds (hu : Usable r w d i) (hprobe : HasProbe r d)
    (hactive : (r.devices i).active = true) :
    ((probeDevice d (beforeProbe r w d i) i).registry.devices i).driver.isSome := by
  have htables := sameTables_beforeProbe r w d i
  rcases probeDevice_registry (beforeProbe r w d i) d i with ⟨-, -, he⟩ | ⟨hskip, he⟩
  · rw [he, bindDevice_device]
    simp
  · rw [he]
    by_contra hnone
    refine hskip ⟨⟨?_, ?_, by simpa using hnone, ?_⟩, fun probe hp => ?_⟩
    · rw [htables.active, hactive]
    · rw [htables.deviceType, htables.driverType, hu.type]
    · rwa [htables.ops]
    · rw [htables.ops] at hp
      exact hu.answers probe hp

theorem Usable.drvProbeAll (hu : Usable r w d i) (hprobe : HasProbe r d)
    (hactive : (r.devices i).active = true) :
    ((Drv.drvProbeAll r w).registry.devices i).driver.isSome := by
  rw [drvProbeAll_eq]
  refine run_establishes_take (P := fun s : Probing σ => (s.registry.devices i).driver.isSome)
    (Q := fun s : Probing σ => SameTables r s.registry) d.val (by simp)
    (fun _ d' hs => hs.probeDriver d') (fun _ d' _ hs => probeDriver_keeps hs d')
    (SameTables.refl r) fun hs => ?_
  rw [List.getElem_finRange]
  change ((probeDriver (beforeDriver r w d) d).registry.devices i).driver.isSome = true
  rw [probeDriver, (sameTables_beforeDriver r w d).registered, hu.registered, if_pos rfl]
  refine run_establishes_take (P := fun s : Probing σ => (s.registry.devices i).driver.isSome)
    (Q := fun s : Probing σ => SameTables r s.registry) i.val (by simp)
    (fun _ i' hs => hs.probeDevice d i') (fun _ i' _ hs => probeDevice_keeps hs d i')
    (sameTables_beforeDriver r w d) fun _ => ?_
  rw [List.getElem_finRange]
  exact hu.binds hprobe hactive

/-! ### When every probe succeeds -/

/-- Probing from the tables `r₀`: only `probed` marks and bindings have changed, and each new
binding is to a registered driver of the device's type. -/
structure Probed (r₀ : Registry σ) (w : σ) (s : Probing σ) : Prop where
  world : s.world = w
  ops : ∀ d, (s.registry.drivers d).ops = (r₀.drivers d).ops
  driverType : ∀ d, (s.registry.drivers d).type = (r₀.drivers d).type
  registered : ∀ d, (s.registry.drivers d).registered = (r₀.drivers d).registered
  name : ∀ i, (s.registry.devices i).name = (r₀.devices i).name
  deviceType : ∀ i, (s.registry.devices i).type = (r₀.devices i).type
  id : ∀ i, (s.registry.devices i).id = (r₀.devices i).id
  active : ∀ i, (s.registry.devices i).active = (r₀.devices i).active
  bound : ∀ i, (s.registry.devices i).driver = (r₀.devices i).driver ∨
    ∃ d, (s.registry.devices i).driver = some (.slot d) ∧ (r₀.drivers d).registered = true ∧
      (r₀.devices i).type = (r₀.drivers d).type

theorem world_drvProbeAll (hp : ProbesSucceed r) (w : σ) : (drvProbeAll r w).world = w := by
  refine drvProbeAll_invariant (P := fun s : Probing σ => s.world = w) rfl fun d i _ hs => ?_
  have htables := sameTables_beforeProbe r w d i
  rcases probeDevice_spec (beforeProbe r w d i) d i with
    ⟨-, he⟩ | ⟨-, probe, hprobe, ⟨-, he⟩ | ⟨-, he⟩⟩
  · rwa [he]
  all_goals
    rw [htables.ops] at hprobe
    rw [he, hp d probe hprobe]
    exact hs

/-- After `drv_probe_all` only bindings and `probed` marks have changed. -/
theorem probed_drvProbeAll (hp : ProbesSucceed r) (w : σ) : Probed r w (drvProbeAll r w) := by
  have hsame := sameTables_drvProbeAll r w
  refine ⟨world_drvProbeAll hp w, hsame.ops, hsame.driverType, hsame.registered, hsame.name,
    hsame.deviceType, hsame.id, hsame.active, fun i => ?_⟩
  rcases boundWell_drvProbeAll r w i with hkept | ⟨d, hslot, hu, -⟩
  · exact Or.inl hkept
  · exact Or.inr ⟨d, hslot, hu.registered, hu.type.symm⟩

theorem drvProbeAll_binds (hp : ProbesSucceed r) (w : σ) (hd : (r.drivers d).registered = true)
    (hprobe : ((r.drivers d).ops.bind DrvOps.probe).isSome) (hi : (r.devices i).active = true)
    (htype : (r.devices i).type = (r.drivers d).type) :
    (((drvProbeAll r w).registry).devices i).driver.isSome := by
  have hu : Usable r w d i := by
    refine ⟨hd, htype.symm, Option.isSome_of_isSome_bind hprobe, fun probe hprobe' => ?_⟩
    rw [hp d probe hprobe']
  exact hu.drvProbeAll hprobe hi

/-- Such a driver, if it is the only one of its type, is the one that a device gets. -/
theorem drvProbeAll_binds_only (hp : ProbesSucceed r) (w : σ)
    (hd : (r.drivers d).registered = true)
    (honly : ∀ d', (r.drivers d').registered = true → (r.drivers d').type = (r.drivers d).type →
      d' = d)
    (hprobe : ((r.drivers d).ops.bind DrvOps.probe).isSome) (hi : (r.devices i).active = true)
    (htype : (r.devices i).type = (r.drivers d).type) (hunbound : (r.devices i).driver = none) :
    ((drvProbeAll r w).registry.devices i).driver = some (.slot d) := by
  have hbound := drvProbeAll_binds hp w hd hprobe hi htype
  rcases boundWell_drvProbeAll r w i with h | ⟨d', hslot, hu, -⟩
  · rw [h, hunbound] at hbound
    cases hbound
  · rw [hslot, honly d' hu.registered (hu.type.trans htype)]

/-- A device stays as it is when no registered driver of its type can probe it. -/
theorem drvProbeAll_leaves (w : σ)
    (hnone : ∀ d, (r.drivers d).registered = true → (r.devices i).type = (r.drivers d).type →
      (r.drivers d).ops.bind DrvOps.probe = none) :
    ((drvProbeAll r w).registry.devices i).driver = (r.devices i).driver := by
  rcases boundWell_drvProbeAll r w i with hkept | ⟨d, -, hu, hprobe⟩
  · exact hkept
  · rw [HasProbe, hnone d hu.registered hu.type.symm] at hprobe
    cases hprobe

end FenwickOS.Drv
