import FenwickOS.Drv.Binding

/-! The ids of devices, which `dev_register` of kernel/drv/drv.c assigns or takes from its caller. -/
namespace FenwickOS.Drv
open Machine

variable {σ : Type*} {r : Registry σ} {dev : Device σ} {i : Fin maxDevices}

def deviceStep (r : Registry σ) (dev : Device σ) : Registry σ := (devRegister (some dev) r).2.2

def activeSlots (r : Registry σ) : Finset (Fin maxDevices) := takenSlots Device.active r.devices

/-- No two active devices share an id, and `device_count` is their number. -/
structure IdsUnique (r : Registry σ) : Prop where
  distinct : ∀ i j, (r.devices i).active = true → (r.devices j).active = true →
    (r.devices i).id = (r.devices j).id → i = j
  count : r.deviceCount = (activeSlots r).card

def FindsNew (r : Registry σ) (dev : Device σ) : Prop :=
  (devRegister (some dev) r).1 = 0 →
    ∃ dev' i, (devRegister (some dev) r).2.1 = some dev' ∧ (r.devices i).active = false ∧
      ((deviceStep r dev).devices i).active = true ∧ devGet dev'.id (deviceStep r dev) = some i

/-- No active device has the id that the device would get. -/
def FreshId (r : Registry σ) (dev : Device σ) : Prop :=
  ∀ i, NextDevice r i → ∀ j, (r.devices j).active = true → (r.devices j).id ≠ assignedId dev i

theorem idsUnique_drvInit (h : r.drvInitialized = false) : IdsUnique (drvInit r) := by
  refine ⟨fun i j hi => ?_, ?_⟩
  · simp [drvInit, h] at hi
  · have hempty : activeSlots (drvInit r) = ∅ :=
      takenSlots_eq_empty fun i => by simp [drvInit, h]
    rw [hempty]
    simp [drvInit, h]

theorem IdsUnique.storeDevice (h : IdsUnique r) (hi : NextDevice r i)
    (hfresh : ∀ j, (r.devices j).active = true → (r.devices j).id ≠ assignedId dev i) :
    IdsUnique (Drv.storeDevice i dev r) := by
  refine ⟨fun j k hj hk hid => ?_, ?_⟩
  · by_cases hji : j = i
    · by_cases hki : k = i
      · rw [hji, hki]
      · subst hji
        rw [storeDevice_of_ne hki] at hk hid
        rw [storeDevice_self] at hid
        exact absurd hid.symm (hfresh k hk)
    · rw [storeDevice_of_ne hji] at hj hid
      by_cases hki : k = i
      · subst hki
        rw [storeDevice_self] at hid
        exact absurd hid (hfresh j hj)
      · rw [storeDevice_of_ne hki] at hk hid
        exact h.distinct j k hj hk hid
  · have hcard : (activeSlots (Drv.storeDevice i dev r)).card = (activeSlots r).card + 1 :=
      card_takenSlots_take rfl hi.free
    rw [hcard, Drv.storeDevice, h.count]
    rfl

theorem idsUnique_step (h : IdsUnique r) (dev : Device σ) :
    IdsUnique (deviceStep r dev) ↔ FreshId r dev := by
  unfold deviceStep
  rcases devRegister_spec dev r with ⟨i, hi, he⟩ | ⟨hfull, he⟩
  · rw [he]
    constructor
    · intro hafter i' hi' j hj hid
      obtain rfl := lowest_unique hi.free hi.lowest hi'.free hi'.lowest
      have hne : j ≠ i' := by
        rintro rfl
        rw [hi.free] at hj
        cases hj
      refine hne (hafter.distinct j i' ?_ ?_ ?_)
      · rwa [storeDevice_of_ne hne]
      · rw [storeDevice_self]
      · rw [storeDevice_of_ne hne, storeDevice_self, hid]
    · intro hfresh
      exact h.storeDevice hi (hfresh i hi)
  · rw [he]
    exact iff_of_true h fun i hi => absurd hi (hfull i)

theorem findsNew_of_freshId (hfresh : FreshId r dev) : FindsNew r dev := by
  intro hzero
  rcases devRegister_spec dev r with ⟨i, hi, he⟩ | ⟨-, he⟩
  · unfold deviceStep
    rw [he]
    refine ⟨_, i, rfl, hi.free, ?_, firstSlot_eq ?_ fun j hj => ?_⟩
    · rw [storeDevice_self]
    · rw [storeDevice_self]
      simp
    · rw [storeDevice_of_ne (ne_of_lt hj)]
      simpa [hi.lowest j hj] using hfresh i hi j (hi.lowest j hj)
  · rw [he] at hzero
    cases hzero

/-- Ids stay distinct and lead to their devices exactly if each new one is fresh. -/
theorem idsUnique_iff (h : r.drvInitialized = false) (devs : List (Device σ)) :
    (Throughout deviceStep IdsUnique (drvInit r) devs ∧
      Allowed deviceStep FindsNew (drvInit r) devs) ↔
    Allowed deviceStep FreshId (drvInit r) devs := by
  have hthrough : Throughout deviceStep IdsUnique (drvInit r) devs ↔
      Allowed deviceStep FreshId (drvInit r) devs :=
    throughout_iff_allowed (P := IdsUnique) (fun _ h => h) (fun r dev h => (idsUnique_step h dev).mpr)
      (fun r dev h => (idsUnique_step h dev).mp) (idsUnique_drvInit h) devs
  constructor
  · rintro ⟨hunique, -⟩
    exact hthrough.mp hunique
  · intro hfresh
    exact ⟨hthrough.mpr hfresh, hfresh.mono_invariant (Q := fun _ => True)
      (fun _ _ _ => findsNew_of_freshId) (fun _ _ _ _ => trivial) trivial⟩

theorem idsUnique_assigned :
    let dev : Device Unit := ⟨fun _ => 0#8, .display, none, 0#32, false⟩
    Throughout deviceStep IdsUnique (drvInit staticTables) [dev, dev] ∧
      Allowed deviceStep FindsNew (drvInit staticTables) [dev, dev] := by
  intro dev
  have hfresh : ∀ i j, ((deviceStep (drvInit staticTables) dev).devices i).active = false →
      ((deviceStep (drvInit staticTables) dev).devices j).active = true →
      ((deviceStep (drvInit staticTables) dev).devices j).id ≠ assignedId dev i := by
    decide +kernel
  refine (idsUnique_iff rfl _).mpr ⟨fun i _ j hj => ?_, fun i hi j => hfresh i j hi.free, trivial⟩
  simp [drvInit, staticTables] at hj

/-- A device that chooses id 2, then one whose id is assigned. -/
theorem not_idsUnique_mixed :
    let dev (id : BitVec 32) : Device Unit := ⟨fun _ => 0#8, .display, none, id, false⟩
    ¬ Throughout deviceStep IdsUnique (drvInit staticTables) [dev 2#32, dev 0#32] := by
  intro dev h
  have hdistinct := (h _ (List.prefix_refl _)).distinct 0 1
  exact absurd (hdistinct (by decide +kernel) (by decide +kernel) (by decide +kernel)) (by decide)

end FenwickOS.Drv
