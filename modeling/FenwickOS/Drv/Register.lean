import FenwickOS.Drv.Binding

/-! `drv_register` and `drv_unregister` of kernel/drv/drv.c: the count that they keep of the
registered drivers, and whether the second undoes the first. -/
namespace FenwickOS.Drv
open Machine

variable {σ : Type*} {r : Registry σ} {d : Fin maxDrivers}

/-! ### The count -/

inductive TableCall (σ : Type*)
  | drvRegister (drv : Option (Driver σ))
  | drvUnregister (drv : Option (DrvPtr σ))

def tableStep (r : Registry σ) : TableCall σ → Registry σ
  | .drvRegister drv => (Drv.drvRegister drv r).2
  | .drvUnregister drv => (Drv.drvUnregister drv r).2

def registeredSlots (r : Registry σ) : Finset (Fin maxDrivers) :=
  takenSlots Driver.registered r.drivers

/-- `driver_count` is what it should be, and decides rightly whether another driver fits. -/
structure CountExact (r : Registry σ) : Prop where
  count : r.driverCount = (registeredSlots r).card
  bounds : 0 ≤ r.driverCount ∧ r.driverCount ≤ maxDrivers
  succeeds : ∀ drv : Driver σ, drv.ops.isSome →
    ((drvRegister (some drv) r).1 = 0 ↔ ∃ d, (r.drivers d).registered = false)

/-- The call does not unregister a slot that is not registered. -/
def RemovesRegistered (r : Registry σ) : TableCall σ → Prop
  | .drvUnregister (some (.slot d)) => (r.drivers d).registered = true
  | _ => True

/-- The rest follows from the count. -/
theorem countExact_of_count (h : r.driverCount = (registeredSlots r).card) : CountExact r := by
  have hle : (registeredSlots r).card ≤ maxDrivers := card_takenSlots_le
  refine ⟨h, ⟨by omega, by omega⟩, fun drv hops => ?_⟩
  rcases drvRegister_spec hops r with ⟨d, hd, he⟩ | ⟨hfull, he⟩
  · rw [he]
    exact iff_of_true rfl ⟨d, hd.free⟩
  · rw [he]
    refine iff_of_false (by simp) ?_
    rintro ⟨d, hd⟩
    have hall : ∀ d, (r.drivers d).registered = true := by
      rcases hfull with hcount | hall
      · have hge : maxDrivers ≤ (registeredSlots r).card := by omega
        exact card_takenSlots_eq_iff.mp (Nat.le_antisymm hle hge)
      · exact hall
    rw [hall d] at hd
    cases hd

theorem countExact_drvInit (h : r.drvInitialized = false) : CountExact (drvInit r) := by
  have hempty : registeredSlots (drvInit r) = ∅ :=
    takenSlots_eq_empty fun d => by simp [drvInit, h]
  refine countExact_of_count ?_
  rw [hempty]
  simp [drvInit, h]

theorem CountExact.drvRegister (h : CountExact r) (drv : Option (Driver σ)) :
    CountExact (Drv.drvRegister drv r).2 := by
  cases drv with
  | none => exact h
  | some drv =>
    by_cases hops : drv.ops.isSome
    · rcases drvRegister_spec hops r with ⟨d, hd, he⟩ | ⟨-, he⟩
      · rw [he]
        refine countExact_of_count ?_
        have hcard : (registeredSlots (storeDriver d drv r)).card = (registeredSlots r).card + 1 :=
          card_takenSlots_take rfl hd.free
        rw [hcard, storeDriver, h.count]
        rfl
      · rwa [he]
    · rwa [drvRegister_of_no_ops hops]

theorem CountExact.drvUnregister (h : CountExact r) (d : Fin maxDrivers) :
    CountExact (Drv.drvUnregister (some (.slot d)) r).2 ↔ (r.drivers d).registered = true := by
  constructor
  · intro hafter
    by_contra hfree
    have hsame : registeredSlots (Drv.drvUnregister (some (.slot d)) r).2 = registeredSlots r :=
      takenSlots_free_of_free rfl (by simpa using hfree)
    have hcount := hafter.count
    rw [hsame, ← h.count] at hcount
    simp only [Drv.drvUnregister] at hcount
    omega
  · intro htaken
    refine countExact_of_count ?_
    have hcard : (registeredSlots (Drv.drvUnregister (some (.slot d)) r).2).card + 1 =
        (registeredSlots r).card := card_takenSlots_free rfl htaken
    have hcount := h.count
    simp only [Drv.drvUnregister] at hcard ⊢
    omega

theorem countExact_step (r : Registry σ) (call : TableCall σ) (h : CountExact r) :
    CountExact (tableStep r call) ↔ RemovesRegistered r call := by
  cases call with
  | drvRegister drv => exact iff_of_true (h.drvRegister drv) trivial
  | drvUnregister drv =>
    match drv with
    | none => exact iff_of_true h trivial
    | some (.slot d) => exact h.drvUnregister d
    | some (.other _) => exact iff_of_true h trivial

/-- The count is exact throughout exactly if no slot is unregistered that is not registered. -/
theorem countExact_iff (h : r.drvInitialized = false) (calls : List (TableCall σ)) :
    Throughout tableStep CountExact (drvInit r) calls ↔
      Allowed tableStep RemovesRegistered (drvInit r) calls :=
  throughout_iff_allowed (fun _ h => h) (fun r call h => (countExact_step r call h).mpr)
    (fun r call h => (countExact_step r call h).mp) (countExact_drvInit h) calls

/-- A driver is registered and unregistered again. -/
theorem countExact_removed_once :
    Throughout tableStep CountExact (drvInit (staticTables (σ := Unit)))
      [.drvRegister (some ⟨.display, some ⟨none, none, none, none, none, none⟩, false, false,
        false⟩), .drvUnregister (some (.slot 0))] :=
  (countExact_iff rfl _).mpr ⟨trivial, rfl, trivial⟩

/-- The second time the count falls below zero. -/
theorem not_countExact_removed_twice :
    ¬ Throughout tableStep CountExact (drvInit (staticTables (σ := Unit)))
      [.drvRegister (some ⟨.display, some ⟨none, none, none, none, none, none⟩, false, false,
        false⟩), .drvUnregister (some (.slot 0)), .drvUnregister (some (.slot 0))] := by
  intro h
  have hcount := (h _ (List.prefix_refl _)).bounds.1
  exact absurd hcount (by decide +kernel)

/-! ### Undoing a registration -/

/-- The `driver_t` that a caller passes: a slot of the table, or an object of its own. -/
inductive DriverArg (σ : Type*)
  | slot (d : Fin maxDrivers)
  | own (drv : Driver σ)

def DriverArg.get (r : Registry σ) : DriverArg σ → Driver σ
  | .slot d => r.drivers d
  | .own drv => drv

def DriverArg.ptr : DriverArg σ → DrvPtr σ
  | .slot d => .slot d
  | .own drv => .other drv.ops

def registeredDrivers (r : Registry σ) (d : Fin maxDrivers) : Option (Driver σ) :=
  if (r.drivers d).registered then some (r.drivers d) else none

/-- If registering the object succeeds, unregistering it succeeds as well and brings the registered
drivers and their count back. -/
def Undone (r : Registry σ) (arg : DriverArg σ) : Prop :=
  (drvRegister (some (arg.get r)) r).1 = 0 →
    let (n, after) := drvUnregister (some arg.ptr) (drvRegister (some (arg.get r)) r).2
    n = 0 ∧ registeredDrivers after = registeredDrivers r ∧ after.driverCount = r.driverCount

/-- Unregistering finds the driver only if the object was the slot that it was copied into. -/
theorem undone_nextSlot (hd : NextSlot r d) (arg : DriverArg σ)
    (he : drvRegister (some (arg.get r)) r = (0, storeDriver d (arg.get r) r)) :
    Undone r arg ↔ arg = .slot d := by
  rw [Undone, he]
  cases arg with
  | own drv => simp [DriverArg.ptr, drvUnregister]
  | slot d' =>
    simp only [DriverArg.ptr, DriverArg.get, drvUnregister, storeDriver, true_implies, true_and,
      DriverArg.slot.injEq]
    constructor
    · rintro ⟨hdrivers, -⟩
      by_contra hne
      have hslot := congrFun hdrivers d
      simp [registeredDrivers, hd.free, Ne.symm hne] at hslot
    · rintro rfl
      refine ⟨funext fun d => ?_, by omega⟩
      by_cases hslot : d = d'
      · subst hslot
        simp [registeredDrivers, hd.free]
      · simp [registeredDrivers, hslot]

/-- Registering is undone exactly if it is refused, or the object is the free slot itself. -/
theorem undone_iff {arg : DriverArg σ} (h : (arg.get r).ops.isSome) :
    Undone r arg ↔ r.driverCount ≥ maxDrivers ∨ (∀ d, (r.drivers d).registered = true) ∨
      ∃ d, arg = .slot d ∧ NextSlot r d := by
  rcases drvRegister_spec h r with ⟨d, hd, he⟩ | ⟨hfull, he⟩
  · rw [undone_nextSlot hd arg he]
    constructor
    · intro harg
      exact Or.inr (Or.inr ⟨d, harg, hd⟩)
    · rintro (hcount | hall | ⟨d', harg, hd'⟩)
      · exact absurd hd.room (by omega)
      · exact absurd (hall d) (by simp [hd.free])
      · rw [harg, hd.unique hd']
  · refine iff_of_true ?_ (hfull.elim Or.inl fun hall => Or.inr (Or.inl hall))
    rw [Undone, he]
    intro hzero
    cases hzero

/-- A driver that was registered and unregistered still stands in its slot, and is registered from
there. -/
theorem undone_free_slot :
    Undone (run tableStep (drvInit (staticTables (σ := Unit)))
      [.drvRegister (some ⟨.display, some ⟨none, none, none, none, none, none⟩, false, false,
        false⟩), .drvUnregister (some (.slot 0))]) (.slot 0) :=
  (undone_iff rfl).mpr (Or.inr (Or.inr ⟨0, rfl, by decide +kernel, rfl,
    fun d hd => absurd hd (by simp)⟩))

/-- An object of the caller's own is never found in the table. -/
theorem not_undone_own :
    ¬ Undone (drvInit (staticTables (σ := Unit)))
      (.own ⟨.display, some ⟨none, none, none, none, none, none⟩, false, false, false⟩) := by
  intro h
  exact absurd (h rfl).1 (by decide)

end FenwickOS.Drv
