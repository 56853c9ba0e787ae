import FenwickOS.Drv.SubsystemStdout

/-! Which devices `drv_probe_all` of kernel/drv/drv.c binds, whatever the tables hold and the probe
functions answer. -/
namespace FenwickOS.Drv
open Machine

variable {σ : Type*}

/-- An active device without a driver. -/
structure Unbound (r : Registry σ) (i : Fin maxDevices) : Prop where
  active : (r.devices i).active = true
  driver : (r.devices i).driver = none

/-- Each unbound device for which there is a usable driver is bound to one of its type. -/
def BindsAll (r : Registry σ) (w : σ) : Prop :=
  ∀ i, Unbound r i → (∃ d, Usable r w d i) →
    ∃ d, ((drvProbeAll r w).registry.devices i).driver = some (.slot d) ∧
      (r.drivers d).type = (r.devices i).type

/-- Probing binds every device that it should exactly if no device depends on a driver without a
probe function. -/
theorem bindsAll_iff (r : Registry σ) (w : σ) :
    BindsAll r w ↔ ∀ i d, Unbound r i → Usable r w d i → ¬ HasProbe r d →
      ∃ d', Usable r w d' i ∧ HasProbe r d' := by
  constructor
  · intro h i d hi hu _
    obtain ⟨d₁, hslot, -⟩ := h i hi ⟨d, hu⟩
    rcases boundWell_drvProbeAll r w i with hkept | ⟨d', -, hu', hprobe⟩
    · rw [hkept, hi.driver] at hslot
      cases hslot
    · exact ⟨d', hu', hprobe⟩
  · rintro h i hi ⟨d, hu⟩
    have hprobed : ∃ d', Usable r w d' i ∧ HasProbe r d' := by
      by_cases hprobe : HasProbe r d
      · exact ⟨d, hu, hprobe⟩
      · exact h i d hi hu hprobe
    obtain ⟨d', hu', hprobe⟩ := hprobed
    have hbound := hu'.drvProbeAll hprobe hi.active
    rcases boundWell_drvProbeAll r w i with hkept | ⟨d₁, hslot, hu₁, -⟩
    · rw [hkept, hi.driver] at hbound
      cases hbound
    · exact ⟨d₁, hslot, hu₁.type⟩

/-- The tables of `subsystem_init` leave the serial device out, whose driver has no probe
function. -/
theorem not_bindsAll_registered :
    ¬ BindsAll (registeredTables .zero) zeroWorld := by
  intro h
  obtain ⟨d, hslot, -⟩ := h 1 ⟨rfl, rfl⟩ ⟨1, rfl, rfl, rfl, fun probe hprobe => by cases hprobe⟩
  have hnone := @probedTables_serial .zero zeroWorld
  rw [probedTables, hslot] at hnone
  cases hnone

end FenwickOS.Drv
