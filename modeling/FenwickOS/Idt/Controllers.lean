import FenwickOS.Idt.Install
import FenwickOS.Idt.Routing
import FenwickOS.Lib.Pic8259

/-! The interrupt controllers from `idt_install` on: the vectors they hand out, the handlers these
lead to, and the end-of-interrupt commands that come back. -/
namespace FenwickOS.Idt
open Machine Pic

/-- The kernel and the controllers. `serving` is the vector whose handler is running, with
interrupts disabled by its gate; `taken` are all vectors so far. -/
structure Controlled where
  pics : Pair
  serving : Option Byte
  taken : List Byte
  kernel : Routing

/-- Devices raise and withdraw their lines at any moment; line 2 is not a device's. -/
inductive LineEvent
  | raise (n : Fin 16)
  | withdraw (n : Fin 16)
  | take
  | handle (d : Delivery)

def lineVector (n : Fin 16) : Byte := BitVec.ofNat 8 (32 + n.val)

/-- The line whose stub the gate of vector `v` leads to. -/
def vectorLine (v : Byte) : Option (Fin 16) :=
  if h : 32 ≤ v.toNat ∧ v.toNat < 48 then some ⟨v.toNat - 32, by omega⟩ else none

/-- The processor asks for a vector; no handler is interrupted by another. -/
def takeVector (c : Controlled) : Controlled :=
  match c.serving with
  | some _ => c
  | none =>
    let (v, pics) := c.pics.acknowledge
    { c with pics := pics, serving := some v, taken := c.taken ++ [v] }

/-- The handler runs through its stub to `iretq`, and the controllers see what it writes. -/
def handleVector (d : Delivery) (c : Controlled) : Controlled :=
  match c.serving.bind vectorLine with
  | none => c
  | some n =>
    let kernel := deliver c.kernel { d with irq := n }
    { c with
      pics := run Pair.write c.pics (kernel.state.io.drop c.kernel.state.io.length)
      serving := none
      kernel := kernel }

def lineStep (c : Controlled) : LineEvent → Controlled
  | .raise n => { c with pics := c.pics.setLine n true }
  | .withdraw n => { c with pics := c.pics.setLine n false }
  | .take => takeVector c
  | .handle d => handleVector d c

/-- The controllers after the port writes of `idt_install`, and the kernel about to go on. -/
def installed (base : Word) (isrStub : Fin 32 → Word) (irqStub : Fin 16 → Word) (s : IdtState)
    (p : Pair) (w : Routing) : Controlled :=
  ⟨run Pair.write p ((idtInstall base isrStub irqStub s).io.drop s.io.length), none, [], w⟩

/-! ### One interrupt -/

/-- The controllers are set up, and in service is what the kernel is at, if that was no spurious
interrupt. -/
structure InStep (c : Controlled) : Prop where
  ready : c.pics.Ready 0x20#8 0x28#8
  idle : c.serving = none → c.pics.Serves none
  busy : ∀ v, c.serving = some v →
    ∃ n, v = lineVector n ∧ (c.pics.Serves (some n) ∨ (n = 7 ∧ c.pics.Serves none))
  taken : ∀ v ∈ c.taken, ∃ n, v = lineVector n

variable {base : Word} {isrStub : Fin 32 → Word} {irqStub : Fin 16 → Word} {s : IdtState}
  {p : Pair} {w : Routing} {c : Controlled} {n : Fin 16} {d : Delivery}

theorem vector_eq (n : Fin 16) : Pair.vector 0x20#8 0x28#8 n = lineVector n := by
  revert n
  decide

theorem vectorLine_lineVector (n : Fin 16) : vectorLine (lineVector n) = some n := by
  revert n
  decide

theorem lineVector_injective : Function.Injective lineVector := by
  intro n m h
  have := congrArg vectorLine h
  rw [vectorLine_lineVector, vectorLine_lineVector] at this
  exact Option.some.inj this

/-- The writes of `pic_remap` and the masks around it, from any state of the controllers. -/
theorem installed_pics : (installed base isrStub irqStub s p w).pics =
    ⟨((((((p.master.command 0x11#8).data 0x20#8).data 0x04#8).data 0x01#8).data 0x00#8).data
        0xFF#8).data 0x00#8,
      ((((((p.slave.command 0x11#8).data 0x28#8).data 0x02#8).data 0x01#8).data 0x00#8).data
        0xFF#8).data 0x00#8⟩ := by
  simp only [installed, idtInstall, List.append_assoc, List.drop_left]
  rfl

theorem inStep_installed (hidle : p.Serves none) :
    InStep (installed base isrStub irqStub s p w) where
  ready := by
    rw [installed_pics]
    exact ⟨Chip.ready_initialized rfl _ _ _, Chip.ready_initialized rfl _ _ _⟩
  idle := by
    intro _
    rw [installed_pics]
    exact ⟨hidle.master, hidle.slave⟩
  busy := by
    rintro v ⟨⟩
  taken := by
    rintro v ⟨⟩

theorem InStep.setLine (h : InStep c) (n : Fin 16) (b : Bool) :
    InStep { c with pics := c.pics.setLine n b } where
  ready := h.ready.setLine n b
  idle hs := (h.idle hs).setLine n b
  busy := by
    intro v hv
    obtain ⟨m, hm, hserves⟩ := h.busy v hv
    refine ⟨m, hm, ?_⟩
    rcases hserves with hserves | ⟨hseven, hserves⟩
    · exact Or.inl (hserves.setLine n b)
    · exact Or.inr ⟨hseven, hserves.setLine n b⟩
  taken := h.taken

/-- A vector taken by an idle kernel is that of the pending line of the highest priority. -/
theorem takeVector_next (h : InStep c) (hs : c.serving = none) (hnext : c.pics.next = some n) :
    ∃ pics, takeVector c =
        { c with pics := pics, serving := some (lineVector n), taken := c.taken ++ [lineVector n] } ∧
      Pair.Acknowledged 0x20#8 0x28#8 c.pics pics n := by
  obtain ⟨hvector, hack⟩ := Pair.acknowledge_next h.ready (h.idle hs) hnext
  refine ⟨c.pics.acknowledge.2, ?_, hack⟩
  simp only [takeVector, hs, hvector, vector_eq]

theorem takeVector_spurious (h : InStep c) (hs : c.serving = none) (hnext : c.pics.next = none) :
    takeVector c =
      { c with serving := some (lineVector 7), taken := c.taken ++ [lineVector 7] } := by
  simp only [takeVector, hs, Pair.acknowledge_spurious h.ready (h.idle hs) hnext, vector_eq]

theorem takeVector_busy {v : Byte} (hs : c.serving = some v) : takeVector c = c := by
  simp only [takeVector, hs]

theorem taken_snoc (h : InStep c) (n : Fin 16) :
    ∀ v ∈ c.taken ++ [lineVector n], ∃ n, v = lineVector n := by
  intro v hv
  rcases List.mem_append.mp hv with hold | hnew
  · exact h.taken v hold
  · exact ⟨n, List.mem_singleton.mp hnew⟩

theorem InStep.takeVector (h : InStep c) : InStep (takeVector c) := by
  cases hs : c.serving with
  | some v =>
    rw [takeVector_busy hs]
    exact h
  | none =>
    cases hnext : c.pics.next with
    | some n =>
      obtain ⟨pics, heq, hack⟩ := takeVector_next h hs hnext
      rw [heq]
      refine ⟨hack.ready, by simp, ?_, taken_snoc h n⟩
      rintro v ⟨⟩
      exact ⟨n, rfl, Or.inl hack.serves⟩
    | none =>
      rw [takeVector_spurious h hs hnext]
      refine ⟨h.ready, by simp, ?_, taken_snoc h 7⟩
      rintro v ⟨⟩
      exact ⟨7, rfl, Or.inr ⟨rfl, h.idle hs⟩⟩

/-- Whatever the handler was told, it sends both controllers an end-of-interrupt command. -/
theorem handleVector_eq (hs : c.serving = some (lineVector n)) (d : Delivery) :
    handleVector d c =
      { c with
        pics := ⟨c.pics.master.endOfInterrupt, c.pics.slave.endOfInterrupt⟩
        serving := none
        kernel := deliver c.kernel { d with irq := n } } := by
  simp only [handleVector, hs, Option.bind_some, vectorLine_lineVector, deliver_eq,
    List.drop_left]
  rfl

theorem handleVector_idle (hs : c.serving = none) (d : Delivery) : handleVector d c = c := by
  simp only [handleVector, hs, Option.bind_none]

theorem InStep.handleVector (h : InStep c) (d : Delivery) : InStep (handleVector d c) := by
  cases hs : c.serving with
  | none =>
    rw [handleVector_idle hs]
    exact h
  | some v =>
    obtain ⟨n, rfl, hserves⟩ := h.busy v hs
    rw [handleVector_eq hs]
    refine ⟨⟨h.ready.master.endOfInterrupt, h.ready.slave.endOfInterrupt⟩, fun _ => ?_, ?_, h.taken⟩
    · rcases hserves with hserves | ⟨-, hserves⟩ <;>
        exact ⟨hserves.master.endOfInterrupt, hserves.slave.endOfInterrupt⟩
    · rintro v ⟨⟩

theorem InStep.lineStep (h : InStep c) (e : LineEvent) : InStep (lineStep c e) := by
  cases e with
  | raise n => exact h.setLine n true
  | withdraw n => exact h.setLine n false
  | take => exact h.takeVector
  | handle d => exact h.handleVector d

theorem inStep_run (hidle : p.Serves none) (events : List LineEvent) :
    InStep (run lineStep (installed base isrStub irqStub s p w) events) :=
  run_invariant (fun _ e h => h.lineStep e) (inStep_installed hidle) events

/-! ### What holds in every run -/

/-- Every vector leads through its gate to the stub of its line; between two handlers no line is
in service, so that every request of a device is passed on; and a handler is running for the line
in service, or for a request that was withdrawn. -/
structure Protocol (irqStub : Fin 16 → Word) (entries : Fin 256 → IdtEntry) (c : Controlled) :
    Prop where
  gates : ∀ v ∈ c.taken, ∃ n, v = lineVector n ∧
    GateTo (entries (Fin.ofNat 256 v.toNat)) (irqStub n)
  ended : c.serving = none → c.pics.Serves none
  heard : c.serving = none → (c.pics.interrupts = true ↔ ∃ n, n ≠ 2 ∧ c.pics.pending n = true)
  serving : ∀ v, c.serving = some v →
    ∃ n, v = lineVector n ∧ (c.pics.Serves (some n) ∨ (n = 7 ∧ c.pics.Serves none))

theorem mem_priority : n ∈ Pair.priority ↔ n ≠ 2 := by
  revert n
  decide

theorem gate_lineVector (n : Fin 16) : Fin.ofNat 256 (lineVector n).toNat = irqGate n := by
  revert n
  decide

/-- From the port writes of `idt_install` on, controllers and kernel stay in step, whenever
devices raise and withdraw their lines. -/
theorem controllers_in_step (base : Word) (isrStub : Fin 32 → Word) (irqStub : Fin 16 → Word)
    (s : IdtState) (p : Pair) (hidle : p.Serves none) (w : Routing) (events : List LineEvent) :
    Protocol irqStub (idtInstall base isrStub irqStub s).idtEntries
      (run lineStep (installed base isrStub irqStub s p w) events) := by
  have h : InStep (run lineStep (installed base isrStub irqStub s p w) events) :=
    inStep_run hidle events
  refine ⟨fun v hv => ?_, h.idle, fun hs => ?_, h.busy⟩
  · obtain ⟨n, rfl⟩ := h.taken v hv
    refine ⟨n, rfl, ?_⟩
    rw [gate_lineVector]
    exact gateTo_irq n
  · rw [Pair.interrupts_iff h.ready (h.idle hs)]
    simp only [mem_priority]

/-- Controllers that have never been set up, and a kernel that has not run yet. -/
def coldPair : Pair :=
  let chip : Chip :=
    ⟨.mask, false, false, 0#8, 0#8, false, 0xFF#8, fun _ => false, fun _ => false⟩
  ⟨chip, chip⟩

def coldIdt : IdtState := ⟨fun _ => .zero, ⟨0#16, 0#64⟩, ⟨0#16, 0#64⟩, false, []⟩

def coldRouting : Routing := ⟨[], ⟨0#64, Kbd.KbdState.boot, []⟩⟩

def quietDelivery : Delivery :=
  ⟨⟨0, by decide⟩, fun _ => 0#64, fun _ => 0#64, ⟨fun _ => 0#64, fun _ => 0#64⟩, 0#8⟩

theorem coldPair_serves : coldPair.Serves none :=
  ⟨fun k => by simp [coldPair], fun k => by simp [coldPair]⟩

theorem controllers_in_step_timer :
    Protocol (fun _ => 0x100200#64)
      (idtInstall 0x110000#64 (fun _ => 0x100000#64) (fun _ => 0x100200#64) coldIdt).idtEntries
      (run lineStep (installed 0x110000#64 (fun _ => 0x100000#64) (fun _ => 0x100200#64) coldIdt
        coldPair coldRouting) [.raise 0, .take, .handle quietDelivery]) :=
  controllers_in_step _ _ _ _ _ coldPair_serves _ _

/-! ### Requests are served, in the order of their priority -/

/-- The line is pending, or its vector has been taken since `old`. -/
def Owed (n : Fin 16) (old : List Byte) (c : Controlled) : Prop :=
  ∃ since, c.taken = old ++ since ∧ (c.pics.pending n = true ∨ lineVector n ∈ since)

variable {old : List Byte} {ys : List LineEvent}

theorem Owed.setLine (h : Owed n old c) {m : Fin 16} {b : Bool} (hm : m = n → b = true) :
    Owed n old { c with pics := c.pics.setLine m b } := by
  obtain ⟨since, htaken, hpending | hmem⟩ := h
  · refine ⟨since, htaken, Or.inl ?_⟩
    rw [Pair.pending_setLine]
    split
    · rename_i he
      exact hm he.symm
    · exact hpending
  · exact ⟨since, htaken, Or.inr hmem⟩

theorem Owed.takeVector (h : Owed n old c) (hstep : InStep c) (hn : n ≠ 2) :
    Owed n old (takeVector c) := by
  obtain ⟨since, htaken, hcase⟩ := h
  cases hs : c.serving with
  | some v =>
    rw [takeVector_busy hs]
    exact ⟨since, htaken, hcase⟩
  | none =>
    cases hnext : c.pics.next with
    | some m =>
      obtain ⟨pics, heq, hack⟩ := takeVector_next hstep hs hnext
      rw [heq]
      refine ⟨since ++ [lineVector m], by simp [htaken], ?_⟩
      rcases hcase with hpending | hmem
      · by_cases hm : n = m
        · exact Or.inr (by simp [hm])
        · exact Or.inl ((hack.rest n hn hm).trans hpending)
      · exact Or.inr (List.mem_append_left _ hmem)
    | none =>
      rw [takeVector_spurious hstep hs hnext]
      refine ⟨since ++ [lineVector 7], by simp [htaken], ?_⟩
      rcases hcase with hpending | hmem
      · exact Or.inl hpending
      · exact Or.inr (List.mem_append_left _ hmem)

theorem pending_endOfInterrupt (p : Pair) (n : Fin 16) :
    Pair.pending ⟨p.master.endOfInterrupt, p.slave.endOfInterrupt⟩ n = p.pending n := by
  simp only [Pair.pending, Chip.endOfInterrupt_irr]

theorem handleVector_frame (hstep : InStep c) (d : Delivery) :
    (handleVector d c).taken = c.taken ∧
      ∀ n, (handleVector d c).pics.pending n = c.pics.pending n := by
  cases hs : c.serving with
  | none =>
    rw [handleVector_idle hs]
    exact ⟨rfl, fun _ => rfl⟩
  | some v =>
    obtain ⟨m, rfl, -⟩ := hstep.busy v hs
    rw [handleVector_eq hs]
    exact ⟨rfl, pending_endOfInterrupt c.pics⟩

theorem Owed.handleVector (h : Owed n old c) (hstep : InStep c) (d : Delivery) :
    Owed n old (handleVector d c) := by
  obtain ⟨since, htaken, hcase⟩ := h
  obtain ⟨htaken', hpending'⟩ := handleVector_frame hstep d
  refine ⟨since, htaken'.trans htaken, ?_⟩
  rw [hpending']
  exact hcase

/-- A raised line that is not withdrawn is served or still pending. -/
theorem owed_run (hstep : InStep c) (hn : n ≠ 2) (howed : Owed n old c)
    (hys : LineEvent.withdraw n ∉ ys) : Owed n old (run lineStep c ys) := by
  induction ys generalizing c with
  | nil => exact howed
  | cons e ys ih =>
    obtain ⟨he, hys⟩ := not_or.mp (List.mem_cons.not.mp hys)
    refine ih (hstep.lineStep e) ?_ hys
    cases e with
    | raise m => exact howed.setLine fun _ => rfl
    | withdraw m => exact howed.setLine fun hm => absurd (congrArg LineEvent.withdraw hm.symm) he
    | take => exact howed.takeVector hstep hn
    | handle d => exact howed.handleVector hstep d

def rounds (ds : List Delivery) : List LineEvent := ds.flatMap fun d => [.take, .handle d]

/-- The lines that wait, in the order in which they will be served. -/
def waiting (p : Pair) : List (Fin 16) := Pair.priority.filter p.pending

theorem filter_clear {xs : List (Fin 16)} {q q' : Fin 16 → Bool} {rest : List (Fin 16)}
    (hxs : xs.Nodup) (hn : xs.filter q = n :: rest) (hclear : q' n = false)
    (hsame : ∀ m ∈ xs, m ≠ n → q' m = q m) : xs.filter q' = rest := by
  have hnodup : (n :: rest).Nodup := hn ▸ hxs.filter q
  have hqn : q n = true := (List.mem_filter.mp (hn ▸ List.mem_cons_self)).2
  have hboth : xs.filter q' = (xs.filter q).filter fun m => decide (m ≠ n) := by
    rw [List.filter_filter]
    refine List.filter_congr fun m hm => ?_
    by_cases he : m = n
    · simp [he, hclear]
    · simp [he, hsame m hm he]
  rw [hboth, hn, List.filter_cons_of_neg (by simp), List.filter_eq_self]
  intro m hm
  have : m ≠ n := fun he => (List.nodup_cons.mp hnodup).1 (he ▸ hm)
  simpa using this

theorem round_serves (hstep : InStep c) (hs : c.serving = none) {rest : List (Fin 16)}
    (hwaiting : waiting c.pics = n :: rest) (d : Delivery) :
    let c' := handleVector d (takeVector c)
    c'.serving = none ∧ c'.taken = c.taken ++ [lineVector n] ∧ waiting c'.pics = rest := by
  have hnext : c.pics.next = some n := by
    rw [Pair.next, ← List.head?_filter]
    exact congrArg List.head? hwaiting
  obtain ⟨pics, heq, hack⟩ := takeVector_next hstep hs hnext
  intro c'
  have hc' : c' = { c with
      pics := ⟨pics.master.endOfInterrupt, pics.slave.endOfInterrupt⟩
      serving := none
      taken := c.taken ++ [lineVector n]
      kernel := deliver c.kernel { d with irq := n } } := by
    simp only [c', heq]
    exact handleVector_eq rfl d
  rw [hc']
  refine ⟨rfl, rfl, filter_clear (by decide) hwaiting ?_ fun m hm hne => ?_⟩
  · rw [pending_endOfInterrupt]
    exact hack.taken
  · rw [pending_endOfInterrupt]
    exact hack.rest m (mem_priority.mp hm) hne

/-- As many rounds as lines are waiting serve each of them once, and leave none. -/
theorem rounds_serve (hstep : InStep c) (hs : c.serving = none) {ds : List Delivery}
    (hds : ds.length = (waiting c.pics).length) :
    let c' := run lineStep c (rounds ds)
    c'.serving = none ∧ c'.taken = c.taken ++ (waiting c.pics).map lineVector ∧
      waiting c'.pics = [] := by
  induction ds generalizing c with
  | nil =>
    have hnone : waiting c.pics = [] := List.length_eq_zero_iff.mp hds.symm
    simp [rounds, hs, hnone]
  | cons d ds ih =>
    cases hwaiting : waiting c.pics with
    | nil =>
      rw [hwaiting] at hds
      cases hds
    | cons n rest =>
      rw [hwaiting] at hds
      obtain ⟨hs', htaken, hrest⟩ := round_serves hstep hs hwaiting d
      obtain ⟨hserving, htaken', hnone⟩ :=
        ih (hstep.takeVector.handleVector d) hs' (by rw [hrest]; exact Nat.succ.inj hds)
      refine ⟨hserving, ?_, hnone⟩
      refine htaken'.trans ?_
      rw [htaken, hrest, List.append_assoc]
      rfl

/-- In every run, a line that a device has raised and not withdrawn is pending until its vector
has been taken; and as soon as devices are quiet, all pending lines are served, one interrupt for
each, in the order of their priority. -/
theorem requests_served (base : Word) (isrStub : Fin 32 → Word) (irqStub : Fin 16 → Word)
    (s : IdtState) (p : Pair) (hidle : p.Serves none) (w : Routing) (events : List LineEvent) :
    let c := run lineStep (installed base isrStub irqStub s p w) events
    (∀ n ys, n ≠ 2 → LineEvent.withdraw n ∉ ys →
      Owed n c.taken (run lineStep c (.raise n :: ys))) ∧
    (c.serving = none → ∀ ds : List Delivery, ds.length = (waiting c.pics).length →
      (run lineStep c (rounds ds)).taken = c.taken ++ (waiting c.pics).map lineVector ∧
      ∀ n, n ≠ 2 → (run lineStep c (rounds ds)).pics.pending n = false) := by
  intro c
  have hstep : InStep c := inStep_run hidle events
  constructor
  · intro n ys hn hys
    have hraised : Owed n c.taken (lineStep c (.raise n)) := by
      refine ⟨[], (List.append_nil _).symm, Or.inl ?_⟩
      simp only [lineStep, Pair.pending_setLine, if_pos]
    rw [run_cons]
    exact owed_run (hstep.setLine n true) hn hraised hys
  · intro hs ds hds
    obtain ⟨-, htaken, hnone⟩ := rounds_serve hstep hs hds
    refine ⟨htaken, fun n hn => ?_⟩
    have := List.filter_eq_nil_iff.mp hnone n (mem_priority.mpr hn)
    simpa using this

/-- The clock's line 8 is raised before the timer's line 0, and served after it. -/
theorem requests_served_timer_first :
    let c := run lineStep (installed 0x110000#64 (fun _ => 0x100000#64) (fun _ => 0x100200#64)
      coldIdt coldPair coldRouting) [.raise 8, .raise 0]
    (run lineStep c (rounds [quietDelivery, quietDelivery])).taken = [32#8, 40#8] := by
  intro c
  obtain ⟨-, hrounds⟩ := requests_served 0x110000#64 (fun _ => 0x100000#64)
    (fun _ => 0x100200#64) coldIdt coldPair coldPair_serves coldRouting [.raise 8, .raise 0]
  have hwaiting : waiting c.pics = [0, 8] := by decide
  have htaken := (hrounds rfl [quietDelivery, quietDelivery] (congrArg List.length hwaiting.symm)).1
  rw [hwaiting] at htaken
  exact htaken

end FenwickOS.Idt
