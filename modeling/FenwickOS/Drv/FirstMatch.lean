import FenwickOS.Drv.SubsystemStdout
import Mathlib.Data.Fintype.Card

/-! Which driver `drv_probe_all` of kernel/drv/drv.c gives each device, how many it counts, and what
a second call finds. -/
namespace FenwickOS.Drv
open Machine

variable {σ : Type*} {r r₀ : Registry σ} {w : σ} {s : Probing σ} {d : Fin maxDrivers}
  {i : Fin maxDevices} {accepts : Fin maxDrivers → Fin maxDevices → Bool} {dev : Device σ}

/-- The probe functions answer as `accepts` says, in whatever state the drivers are. -/
def Decided (accepts : Fin maxDrivers → Fin maxDevices → Bool) (r : Registry σ) : Prop :=
  ∀ d probe, (r.drivers d).ops.bind DrvOps.probe = some probe →
    ∀ i w, (probe (some i) w).1 = 0 ↔ accepts d i = true

/-- A registered driver of the device's type has a probe function that accepts the device. -/
def fits (accepts : Fin maxDrivers → Fin maxDevices → Bool) (r : Registry σ) (i : Fin maxDevices)
    (d : Fin maxDrivers) : Bool :=
  (r.drivers d).registered && (r.devices i).type == (r.drivers d).type &&
    ((r.drivers d).ops.bind DrvOps.probe).isSome && accepts d i

def unbound (dev : Device σ) : Bool := dev.active && dev.driver.isNone

/-- The device once it has been bound to the lowest driver that fits. -/
def firstMatch (accepts : Fin maxDrivers → Fin maxDevices → Bool) (r : Registry σ)
    (i : Fin maxDevices) : Device σ :=
  if unbound (r.devices i) then
    { r.devices i with driver := (firstSlot (fits accepts r i)).map .slot }
  else r.devices i

/-- The devices that have a driver in `r` and had none in `r₀`. -/
def newlyBound (r₀ r : Registry σ) : Finset (Fin maxDevices) :=
  Finset.univ.filter fun i => (r₀.devices i).driver.isNone ∧ (r.devices i).driver.isSome

/-- Every device gets its first match and the result counts the new bindings; a second call counts
nothing and rebinds nothing. -/
structure ProbesFirstMatch (accepts : Fin maxDrivers → Fin maxDevices → Bool) (r : Registry σ)
    (w : σ) : Prop where
  devices : (drvProbeAll r w).registry.devices = firstMatch accepts r
  count : (drvProbeAll r w).count = (newlyBound r (drvProbeAll r w).registry).card
  again_count : (drvProbeAll (drvProbeAll r w).registry (drvProbeAll r w).world).count = 0
  again_devices : (drvProbeAll (drvProbeAll r w).registry (drvProbeAll r w).world).registry.devices =
    (drvProbeAll r w).registry.devices

/-! ### One device -/

/-- What driver `d` does to a device that it fits or not. -/
def offer (fit : Bool) (d : Fin maxDrivers) (dev : Device σ) : Device σ :=
  if unbound dev && fit then { dev with driver := some (.slot d) } else dev

theorem offer_of_bound (h : unbound dev = false) (fit : Bool) (d : Fin maxDrivers) :
    offer fit d dev = dev := by
  simp [offer, h]

theorem offer_offer (fit : Bool) (d : Fin maxDrivers) (dev : Device σ) :
    offer fit d (offer fit d dev) = offer fit d dev := by
  by_cases h : (unbound dev && fit) = true
  · have hbound : unbound (offer fit d dev) = false := by
      rw [offer, if_pos h]
      simp [unbound]
    rw [offer_of_bound hbound]
  · have hsame : offer fit d dev = dev := if_neg h
    rw [hsame, hsame]

/-- Offers from a list of drivers: the first that fits is taken. -/
theorem run_offer (fit : Fin maxDrivers → Bool) (ds : List (Fin maxDrivers)) (dev : Device σ) :
    run (fun dev d => offer (fit d) d dev) dev ds =
      if unbound dev then { dev with driver := (ds.find? fit).map .slot } else dev := by
  by_cases hdev : unbound dev = true
  · have hnone : dev.driver = none := by
      simp only [unbound, Bool.and_eq_true, Option.isNone_iff_eq_none] at hdev
      exact hdev.2
    rw [if_pos hdev]
    induction ds with
    | nil => simp [← hnone]
    | cons d ds ih =>
      rw [run_cons, List.find?_cons]
      by_cases hfit : fit d = true
      · have htaken : unbound (offer (fit d) d dev) = false := by
          rw [offer, if_pos (by simp [hdev, hfit])]
          simp [unbound]
        have hkept : run (fun dev d => offer (fit d) d dev) (offer (fit d) d dev) ds =
            offer (fit d) d dev :=
          run_invariant (P := fun dev' => dev' = offer (fit d) d dev)
            (fun dev' d' h => by rw [h, offer_of_bound htaken]) rfl ds
        rw [hkept, hfit]
        simp [offer, hdev]
      · have hsame : offer (fit d) d dev = dev := by simp [offer, hfit]
        rw [hsame, ih, Bool.eq_false_iff.mpr hfit]
  · rw [if_neg hdev]
    exact run_invariant (P := fun dev' => dev' = dev)
      (fun dev' d h => by rw [h, offer_of_bound (Bool.eq_false_iff.mpr hdev)]) rfl ds

/-! ### The two loops -/

theorem Decided.congr (h : Decided accepts r₀) (ht : SameTables r₀ r) : Decided accepts r := by
  intro d probe hprobe
  rw [ht.ops] at hprobe
  exact h d probe hprobe

theorem fits_congr (ht : SameTables r₀ r) : fits accepts r = fits accepts r₀ := by
  funext i d
  rw [fits, fits, ht.registered, ht.deviceType, ht.driverType, ht.ops]

/-- One probe is an offer to the device probed. -/
theorem probeDevice_devices (h : Decided accepts s.registry)
    (hd : (s.registry.drivers d).registered = true) (i i' : Fin maxDevices) :
    (probeDevice d s i).registry.devices i' =
      if i' = i then offer (fits accepts s.registry i d) d (s.registry.devices i)
      else s.registry.devices i' := by
  have hiff : (unbound (s.registry.devices i) && fits accepts s.registry i d) = true ↔
      Bindable s.registry d i ∧ Answers s d i := by
    constructor
    · intro hoffer
      simp only [unbound, fits, hd, Bool.and_eq_true, Option.isNone_iff_eq_none, beq_iff_eq,
        true_and] at hoffer
      obtain ⟨⟨hactive, hnone⟩, ⟨htype, hprobe⟩, haccepts⟩ := hoffer
      exact ⟨⟨hactive, htype, hnone, hprobe⟩,
        fun probe hp => (h d probe hp i s.world).mpr haccepts⟩
    · rintro ⟨hb, hanswers⟩
      obtain ⟨probe, hp⟩ := Option.isSome_iff_exists.mp hb.probe
      have haccepts := (h d probe hp i s.world).mp (hanswers probe hp)
      simp [unbound, fits, hd, hb.active, hb.type, hb.unbound, hb.probe, haccepts]
  rcases probeDevice_registry s d i with ⟨hb, hanswers, he⟩ | ⟨hskip, he⟩
  · rw [he, bindDevice_device, offer, if_pos (hiff.mpr ⟨hb, hanswers⟩)]
    by_cases hi : i' = i
    · subst hi
      simp
    · simp [hi]
  · rw [he, offer, if_neg (fun hoffer => hskip (hiff.mp hoffer))]
    split
    · rename_i hi
      rw [hi]
    · rfl

theorem probeDriver_devices (h : Decided accepts s.registry) (d : Fin maxDrivers)
    (i : Fin maxDevices) : (probeDriver s d).registry.devices i =
      offer (fits accepts s.registry i d) d (s.registry.devices i) := by
  unfold probeDriver
  split
  · rename_i hreg
    have hround (is : List (Fin maxDevices)) :
        SameTables s.registry (run (probeDevice d) s is).registry ∧
        (run (probeDevice d) s is).registry.devices i =
          if i ∈ is then offer (fits accepts s.registry i d) d (s.registry.devices i)
          else s.registry.devices i := by
      induction is using List.reverseRecOn with
      | nil => exact ⟨SameTables.refl _, rfl⟩
      | append_singleton is i' ih =>
        obtain ⟨htables, hdevices⟩ := ih
        rw [run_snoc]
        refine ⟨htables.probeDevice d i', ?_⟩
        rw [probeDevice_devices (h.congr htables) ((htables.registered d).trans hreg),
          fits_congr htables, hdevices]
        by_cases hi : i = i'
        · subst hi
          by_cases hmem : i ∈ is
          · simp [hdevices, hmem, offer_offer]
          · simp [hdevices, hmem]
        · simp [hi]
    exact (hround _).2.trans (if_pos (List.mem_finRange i))
  · rename_i hreg
    have hfit : fits accepts s.registry i d = false := by simp [fits, hreg]
    rw [hfit, offer, Bool.and_false]
    rfl

theorem drvProbeAll_devices (h : Decided accepts r) (w : σ) :
    (drvProbeAll r w).registry.devices = firstMatch accepts r := by
  funext i
  have hrounds (ds : List (Fin maxDrivers)) :
      SameTables r (run probeDriver ⟨0, r, w⟩ ds).registry ∧
      (run probeDriver ⟨0, r, w⟩ ds).registry.devices i =
        run (fun dev d => offer (fits accepts r i d) d dev) (r.devices i) ds := by
    induction ds using List.reverseRecOn with
    | nil => exact ⟨SameTables.refl _, rfl⟩
    | append_singleton ds d ih =>
      obtain ⟨htables, hdevices⟩ := ih
      rw [run_snoc, run_snoc]
      refine ⟨htables.probeDriver d, ?_⟩
      rw [probeDriver_devices (h.congr htables), fits_congr htables, hdevices]
  rw [drvProbeAll_eq, (hrounds _).2, run_offer]
  rfl

/-! ### The count -/

/-- The count so far is the number of new bindings, and no device has lost its driver. -/
structure Counted (r₀ : Registry σ) (s : Probing σ) : Prop where
  count : s.count = (newlyBound r₀ s.registry).card
  kept : ∀ i, (r₀.devices i).driver.isSome → (s.registry.devices i).driver.isSome

theorem mem_newlyBound : i ∈ newlyBound r₀ r ↔
    (r₀.devices i).driver.isNone ∧ (r.devices i).driver.isSome := by
  simp [newlyBound]

theorem newlyBound_bindDevice (hnew : (r₀.devices i).driver.isNone) (d : Fin maxDrivers) :
    newlyBound r₀ (bindDevice d i r) = insert i (newlyBound r₀ r) := by
  ext i'
  rw [mem_newlyBound, bindDevice_device, Finset.mem_insert, mem_newlyBound]
  by_cases hi : i' = i
  · subst hi
    simp [hnew]
  · simp [hi]

theorem Counted.probeDevice (h : Counted r₀ s) (d : Fin maxDrivers) (i : Fin maxDevices) :
    Counted r₀ (Drv.probeDevice d s i) := by
  have hkept (i') (hi : (r₀.devices i').driver.isSome) :=
    probeDevice_keeps (i := i') (h.kept i' hi) d i
  refine ⟨?_, hkept⟩
  rcases probeDevice_spec s d i with ⟨-, he⟩ | ⟨hb, probe, -, ⟨-, he⟩ | ⟨-, he⟩⟩
  · rw [he, h.count]
  · have hnew : (r₀.devices i).driver.isNone := by
      cases hold : (r₀.devices i).driver with
      | none => rfl
      | some drv => simpa [hb.unbound] using h.kept i (by simp [hold])
    have hfresh : i ∉ newlyBound r₀ s.registry := by simp [mem_newlyBound, hb.unbound]
    rw [he]
    dsimp only
    rw [newlyBound_bindDevice hnew, Finset.card_insert_of_notMem hfresh, h.count]
    push_cast
    rfl
  · rw [he]
    exact h.count

theorem drvProbeAll_count (r : Registry σ) (w : σ) :
    (drvProbeAll r w).count = (newlyBound r (drvProbeAll r w).registry).card := by
  have hstart : Counted r ⟨0, r, w⟩ := by
    refine ⟨?_, fun _ hi => hi⟩
    have hempty : newlyBound r r = ∅ := by
      ext i
      simp [mem_newlyBound]
    rw [hempty]
    rfl
  exact (drvProbeAll_invariant (P := Counted r) hstart fun d i _ hs => hs.probeDevice d i).count

/-! ### The second call -/

theorem firstMatch_again (h : Decided accepts r) (w : σ) :
    firstMatch accepts (drvProbeAll r w).registry = (drvProbeAll r w).registry.devices := by
  funext i
  rw [firstMatch, fits_congr (sameTables_drvProbeAll r w), drvProbeAll_devices h]
  split
  · rename_i hi
    rw [firstMatch] at hi ⊢
    split
    · rfl
    · rename_i hbound
      rw [if_neg hbound] at hi
      exact absurd hi hbound
  · rfl

/-- Probing binds each device to the first driver that accepts it, counts what it binds, and a
second call leaves all as it is. -/
theorem probesFirstMatch (h : Decided accepts r) (w : σ) : ProbesFirstMatch accepts r w := by
  have hagain : ∀ w', (drvProbeAll (drvProbeAll r w).registry w').registry.devices =
      (drvProbeAll r w).registry.devices := by
    intro w'
    rw [drvProbeAll_devices (h.congr (sameTables_drvProbeAll r w)), firstMatch_again h]
  refine ⟨drvProbeAll_devices h w, drvProbeAll_count r w, ?_, hagain _⟩
  have hnone : newlyBound (drvProbeAll r w).registry
      (drvProbeAll (drvProbeAll r w).registry (drvProbeAll r w).world).registry = ∅ := by
    ext i
    simp [mem_newlyBound, hagain]
  rw [drvProbeAll_count, hnone]
  rfl

/-- The tables of `subsystem_init`, whose probe functions accept every device. -/
theorem probesFirstMatch_registered :
    ProbesFirstMatch (fun _ _ => true) (registeredTables .zero) zeroWorld := by
  refine probesFirstMatch (fun d probe hprobe i w => ?_) zeroWorld
  rw [registeredTables_probesSucceed d probe hprobe]
  exact iff_of_true rfl rfl

end FenwickOS.Drv
