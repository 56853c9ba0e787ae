import FenwickOS.Drv.Registry

/-! Which driver a device is bound to, over runs of registrations, unregistrations and probing. -/
namespace FenwickOS.Drv
open Machine

variable {σ : Type*}

/-- The calls that change the tables. `drv_probe_all` may find the drivers' state as anything, so
its probe functions may answer anything. -/
inductive RegistryOp (σ : Type*)
  | drvRegister (drv : Option (Driver σ))
  | drvUnregister (drv : Option (DrvPtr σ))
  | devRegister (dev : Option (Device σ)) (hdriver : ∀ d ∈ dev, d.driver = none)
  | drvProbeAll (world : σ)

/-- The tables as zeroed statics. -/
def staticTables : Registry σ where
  drivers := fun _ => ⟨.unknown, none, false, false, false⟩
  devices := fun _ => ⟨fun _ => 0#8, .unknown, none, 0#32, false⟩
  driverCount := 0
  deviceCount := 0
  drvInitialized := false

def registryStep (r : Registry σ) : RegistryOp σ → Registry σ
  | .drvRegister drv => (Drv.drvRegister drv r).2
  | .drvUnregister drv => (Drv.drvUnregister drv r).2
  | .devRegister dev _ => (Drv.devRegister dev r).2.2
  | .drvProbeAll world => (Drv.drvProbeAll r world).registry

/-- The driver pointer of each active device is null or designates a registered driver of the
device's type. -/
def Bindings (r : Registry σ) : Prop :=
  ∀ i, (r.devices i).active = true → ∀ drv, (r.devices i).driver = some drv →
    ∃ d, drv = .slot d ∧ (r.drivers d).registered = true ∧ (r.drivers d).type = (r.devices i).type

/-- An active device has a pointer to slot `d`. -/
def InUse (d : Fin maxDrivers) (r : Registry σ) : Prop :=
  ∃ i, (r.devices i).active = true ∧ (r.devices i).driver = some (.slot d)

def DrvPtr.slot? : DrvPtr σ → Option (Fin maxDrivers)
  | .slot d => some d
  | .other _ => none

/-- The call unregisters no driver in use. -/
def SparesUsed (r : Registry σ) : RegistryOp σ → Prop
  | .drvUnregister (some (.slot d)) => ¬ InUse d r
  | _ => True

variable {r : Registry σ} {d : Fin maxDrivers} {i : Fin maxDevices}

theorem inUse_iff : InUse d r ↔
    ∃ i, (r.devices i).active = true ∧ (r.devices i).driver.bind DrvPtr.slot? = some d := by
  refine exists_congr fun i => and_congr_right fun _ => ?_
  match (r.devices i).driver with
  | none => simp
  | some (.slot d') => simp [DrvPtr.slot?]
  | some (.other _) => simp [DrvPtr.slot?]

instance : Decidable (InUse d r) := decidable_of_iff _ inUse_iff.symm

theorem bindings_drvInit (h : r.drvInitialized = false) : Bindings (drvInit r) := by
  intro i hactive
  simp [drvInit, h] at hactive

/-- A registration overwrites a slot that no device is bound to. -/
theorem Bindings.drvRegister (h : Bindings r) (drv : Option (Driver σ)) :
    Bindings (Drv.drvRegister drv r).2 := by
  cases drv with
  | none => exact h
  | some drv =>
    by_cases hops : drv.ops.isSome
    · rcases drvRegister_spec hops r with ⟨slot, hslot, he⟩ | ⟨-, he⟩
      · rw [he]
        intro i hactive ptr hptr
        obtain ⟨d, rfl, hreg, htype⟩ := h i hactive ptr hptr
        have hne : d ≠ slot := by
          rintro rfl
          simp [hslot.free] at hreg
        refine ⟨d, rfl, ?_, ?_⟩
        · simpa [storeDriver, hne] using hreg
        · simpa [storeDriver, hne] using htype
      · rwa [he]
    · rwa [drvRegister_of_no_ops hops]

theorem Bindings.devRegister (h : Bindings r) {dev : Option (Device σ)}
    (hdriver : ∀ d ∈ dev, d.driver = none) : Bindings (Drv.devRegister dev r).2.2 := by
  cases dev with
  | none => exact h
  | some dev =>
    rcases devRegister_spec dev r with ⟨slot, -, he⟩ | ⟨-, he⟩
    · rw [he]
      intro i hactive drv hdrv
      by_cases hi : i = slot
      · subst hi
        rw [storeDevice_self, hdriver dev rfl] at hdrv
        cases hdrv
      · rw [storeDevice_of_ne hi] at hactive hdrv ⊢
        exact h i hactive drv hdrv
    · rwa [he]

/-! ### Probing -/

theorem Bindings.bindDevice (h : Bindings r) (hb : Bindable r d i)
    (hd : (r.drivers d).registered = true) : Bindings (Drv.bindDevice d i r) := by
  intro i' hactive drv hdrv
  rw [bindDevice_device] at hactive hdrv ⊢
  dsimp only at hactive hdrv ⊢
  by_cases hi : i' = i
  · subst hi
    rw [if_pos rfl] at hdrv
    obtain rfl := Option.some.inj hdrv
    refine ⟨d, rfl, ?_, ?_⟩
    · exact (bindDevice_driver d d i' r).2.2.trans hd
    · exact (bindDevice_driver d d i' r).2.1.trans hb.type.symm
  · rw [if_neg hi] at hdrv
    obtain ⟨d', rfl, hreg, htype⟩ := h i' hactive drv hdrv
    refine ⟨d', rfl, ?_, ?_⟩
    · exact (bindDevice_driver d d' i r).2.2.trans hreg
    · exact (bindDevice_driver d d' i r).2.1.trans htype

theorem Bindings.probeDriver {s : Probing σ} (h : Bindings s.registry) (d : Fin maxDrivers) :
    Bindings (Drv.probeDriver s d).registry := by
  unfold Drv.probeDriver
  split
  · rename_i hreg
    have hround (s : Probing σ) (i : Fin maxDevices)
        (hs : Bindings s.registry ∧ (s.registry.drivers d).registered = true) :
        Bindings (probeDevice d s i).registry ∧
          ((probeDevice d s i).registry.drivers d).registered = true := by
      rcases probeDevice_registry s d i with ⟨hb, -, he⟩ | ⟨-, he⟩
      · rw [he]
        exact ⟨hs.1.bindDevice hb hs.2, (bindDevice_driver d d i s.registry).2.2.trans hs.2⟩
      · rwa [he]
    exact (run_invariant hround ⟨h, hreg⟩ (List.finRange maxDevices)).1
  · exact h

theorem Bindings.drvProbeAll (h : Bindings r) (w : σ) :
    Bindings (Drv.drvProbeAll r w).registry := by
  rw [drvProbeAll_eq]
  exact run_invariant (P := fun s : Probing σ => Bindings s.registry)
    (fun s d hs => hs.probeDriver d) h _

/-! ### Unregistering -/

theorem InUse.not_bindings (h : InUse d r) :
    ¬ Bindings (Drv.drvUnregister (some (.slot d)) r).2 := by
  obtain ⟨i, hactive, hdriver⟩ := h
  intro hafter
  obtain ⟨d', hslot, hreg, -⟩ := hafter i hactive _ hdriver
  obtain rfl := DrvPtr.slot.inj hslot
  simp [Drv.drvUnregister] at hreg

theorem bindings_drvUnregister (h : Bindings r) (d : Fin maxDrivers) :
    Bindings (Drv.drvUnregister (some (.slot d)) r).2 ↔ ¬ InUse d r := by
  constructor
  · intro hafter huse
    exact huse.not_bindings hafter
  · intro hfree i hactive drv hdrv
    obtain ⟨d', rfl, hreg, htype⟩ := h i hactive drv hdrv
    have hne : d' ≠ d := by
      rintro rfl
      exact hfree ⟨i, hactive, hdrv⟩
    exact ⟨d', rfl, by simpa [Drv.drvUnregister, hne] using hreg,
      by simpa [Drv.drvUnregister, hne] using htype⟩

theorem bindings_registryStep (r : Registry σ) (op : RegistryOp σ) (h : Bindings r) :
    Bindings (registryStep r op) ↔ SparesUsed r op := by
  cases op with
  | drvRegister drv => exact iff_of_true (h.drvRegister drv) trivial
  | drvUnregister drv =>
    match drv with
    | none => exact iff_of_true h trivial
    | some (.slot d) => exact bindings_drvUnregister h d
    | some (.other _) => exact iff_of_true h trivial
  | devRegister dev hdriver => exact iff_of_true (h.devRegister hdriver) trivial
  | drvProbeAll world => exact iff_of_true (h.drvProbeAll world) trivial

/-- The bindings stay sound throughout a run exactly if it unregisters no driver in use. -/
theorem bindings_iff (h : r.drvInitialized = false) (ops : List (RegistryOp σ)) :
    Throughout registryStep Bindings (drvInit r) ops ↔
      Allowed registryStep SparesUsed (drvInit r) ops :=
  throughout_iff_allowed (fun _ h => h) (fun r op h => (bindings_registryStep r op h).mpr)
    (fun r op h => (bindings_registryStep r op h).mp) (bindings_drvInit h) ops

/-- A display device gets its driver, then an empty slot is unregistered. -/
theorem bindings_spare_slot :
    Throughout registryStep Bindings (drvInit (staticTables (σ := Unit)))
      [.drvRegister (some ⟨.display, some ⟨none, some fun _ _ => (0, ()), none, none, none, none⟩,
          false, false, false⟩),
        .devRegister (some ⟨fun _ => 0#8, .display, none, 1#32, false⟩) (by simp),
        .drvProbeAll (), .drvUnregister (some (.slot 1))] := by
  refine (bindings_iff rfl _).mpr ⟨trivial, trivial, trivial, ?_, trivial⟩
  change ¬ InUse _ _
  decide +kernel

/-- The same, but the slot unregistered is the one that the device is bound to. -/
theorem bindings_used_slot :
    ¬ Throughout registryStep Bindings (drvInit (staticTables (σ := Unit)))
      [.drvRegister (some ⟨.display, some ⟨none, some fun _ _ => (0, ()), none, none, none, none⟩,
          false, false, false⟩),
        .devRegister (some ⟨fun _ => 0#8, .display, none, 1#32, false⟩) (by simp),
        .drvProbeAll (), .drvUnregister (some (.slot 0))] := by
  intro h
  refine InUse.not_bindings ?_ (h _ (List.prefix_refl _))
  decide +kernel

end FenwickOS.Drv
