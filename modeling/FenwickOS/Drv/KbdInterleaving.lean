import FenwickOS.Drv.KbdDriver
import FenwickOS.Kbd.Interleaving

/-! The consumers of kernel/drv/drv_kbd.c statement by statement, with interrupts in between. -/
namespace FenwickOS.Drv
open Machine Kbd

/-- `ioctl` is `kbd_driver_ioctl` with command 5. -/
inductive DriverCall
  | read (buf len : Word)
  | ioctl

/-- The next statement of `kbd_driver_read`, and what it has written to `dst`. -/
inductive DriverPc
  | idle
  | test (len : Word) (dst : List Byte)
  | store (len : Word) (dst : List Byte)
  | advance (len : Word) (dst : List Byte) (c : Byte)
  | ret (len : Word) (dst : List Byte)

inductive DriverResult
  | read (len : Word) (value : Int) (dst : List Byte)
  | ioctl (value : Int) (empty : Bool)

/-- An interrupt with the bytes on ports 0x64 and 0x60, or the next statement of the consumer. -/
inductive DriverEvent
  | irq (status sc : Byte)
  | consumer (call : DriverCall)

/-- `fifo` is no part of the source: it is what the buffer is meant to hold. -/
structure DriverRun where
  kbd : KbdDriver
  pc : DriverPc
  results : List DriverResult
  fifo : Fifo Byte

/-- The character that the interrupt handler makes of a scancode, 0 if none. -/
def isrDecode (status sc : Byte) (s : KbdDriver) : Byte :=
  let code := sc &&& 0x7F#8
  if status &&& 0x01#8 = 0#8 ∨ sc = 0xE0#8 ∨ sc &&& 0x80#8 ≠ 0#8 then 0#8
  else if code = 0x2A#8 ∨ code = 0x36#8 ∨ code = 0x1D#8 ∨ code = 0x38#8 ∨ code = 0x3A#8 then 0#8
  else scancodeToAscii code s.shift s.caps

def driverConsumerStep (call : DriverCall) (r : DriverRun) : DriverRun :=
  let start := r.kbd.kbdBuffer.start
  let stop := r.kbd.kbdBuffer.stop
  match r.pc with
  | .idle =>
    match call with
    | .read buf len =>
      if buf = 0#64 ∨ len = 0#64 then { r with results := r.results ++ [.read len (-1) []] }
      else { r with pc := .test len [] }
    | .ioctl =>
      let value := (start != stop).toInt
      { r with results := r.results ++ [.ioctl value r.fifo.queue.isEmpty] }
  | .test len dst =>
    if dst.length < len.toNat ∧ start ≠ stop then { r with pc := .store len dst }
    else { r with pc := .ret len dst }
  | .store len dst => { r with pc := .advance len dst (r.kbd.kbdBuffer.cells start) }
  | .advance len dst c =>
    { r with
      kbd := { r.kbd with kbdBuffer := r.kbd.kbdBuffer.advance }
      fifo := r.fifo.pop
      pc := .test len (dst ++ [c]) }
  | .ret len dst =>
    { r with
      pc := .idle
      results := r.results ++ [.read len (BitVec.ofNat 32 dst.length).toInt dst] }

def driverStep (r : DriverRun) : DriverEvent → DriverRun
  | .irq status sc =>
    { r with
      kbd := kbdHandlerIsr status sc r.kbd
      fifo := enqueue (isrDecode status sc r.kbd) r.fifo }
  | .consumer call => driverConsumerStep call r

def DriverRun.start (s : KbdDriver) : DriverRun := ⟨(kbdDriverInit s).2, .idle, [], ⟨[], []⟩⟩

def DriverResult.chars : DriverResult → List Byte
  | .read _ _ dst => dst
  | .ioctl _ _ => []

/-- The characters that a read has taken out of the buffer and not yet returned. -/
def DriverPc.inHand : DriverPc → List Byte
  | .idle => []
  | .test _ dst | .store _ dst | .advance _ dst _ | .ret _ dst => dst

/-- A read returns at most `len` characters, `kbd_driver_ioctl` whether there are any. -/
def DriverResult.Correct : DriverResult → Prop
  | .read len value dst => dst.length ≤ len.toNat ∧ value ≤ len.toNat ∧
      (value = (BitVec.ofNat 32 dst.length).toInt ∨ value = -1 ∧ dst = [])
  | .ioctl value empty => value = if empty then 0 else 1

/-- What the consumer has seen still holds. -/
def DriverPc.Fits (queue : List Byte) : DriverPc → Prop
  | .idle => True
  | .test len dst | .ret len dst => dst.length ≤ len.toNat
  | .store len dst => dst.length < len.toNat ∧ queue ≠ []
  | .advance len dst c => dst.length < len.toNat ∧ queue.head? = some c

/-- The driver refines its queue. -/
structure DriverRefines (r : DriverRun) : Prop where
  holds : r.kbd.kbdBuffer.Holds (fun c => c ≠ 0#8) r.fifo
  fits : r.pc.Fits r.fifo.queue
  received : r.fifo.received = r.results.flatMap DriverResult.chars ++ r.pc.inHand
  correct : ∀ result ∈ r.results, result.Correct

variable {s : KbdDriver} {r : DriverRun} {c : Byte} {f : Fifo Byte} {pc : DriverPc} {len : Word}

theorem bufPush_buffer (c : Byte) (s : KbdDriver) : (bufPush c s).kbdBuffer =
    if c = 0#8 then s.kbdBuffer else s.kbdBuffer.push c := by
  unfold bufPush
  split <;> rfl

/-- To the buffer an interrupt is a push of the character it decodes. -/
theorem kbdHandlerIsr_buffer (status sc : Byte) (s : KbdDriver) :
    (kbdHandlerIsr status sc s).kbdBuffer =
      if isrDecode status sc s = 0#8 then s.kbdBuffer
      else s.kbdBuffer.push (isrDecode status sc s) := by
  have hcode : (sc &&& 0x7F#8).toNat < 128 := by
    rw [BitVec.toNat_and]
    exact Nat.lt_succ_of_le Nat.and_le_right
  unfold kbdHandlerIsr isrDecode
  dsimp only
  by_cases hdata : status &&& 0x01#8 = 0#8
  · simp [hdata]
  by_cases hext : sc = 0xE0#8
  · simp [hdata, hext]
  rw [if_neg hdata, if_neg hext, dif_pos hcode]
  generalize sc &&& 0x7F#8 = code at hcode ⊢
  by_cases hreleased : sc &&& 0x80#8 = 0#8
  · have hmake : ¬ (status &&& 0x01#8 = 0#8 ∨ sc = 0xE0#8 ∨ sc &&& 0x80#8 ≠ 0#8) := by
      simp [hdata, hext, hreleased]
    rw [if_neg hmake, hreleased]
    by_cases hmodifier : code = 0x2A#8 ∨ code = 0x36#8 ∨ code = 0x1D#8 ∨ code = 0x38#8 ∨
        code = 0x3A#8
    · rw [if_pos hmodifier, if_pos rfl]
      rcases hmodifier with rfl | rfl | rfl | rfl | rfl <;> rfl
    · rw [if_neg hmodifier]
      simp only [not_or] at hmodifier
      obtain ⟨hshift, hshift', hctrl, halt, hcaps⟩ := hmodifier
      rw [if_neg (not_or.mpr ⟨hshift, hshift'⟩), if_neg hctrl, if_neg halt,
        if_neg (not_and.mpr fun h => (hcaps h).elim)]
      exact bufPush_buffer _ _
  · rw [if_pos (Or.inr (Or.inr hreleased)), bne_iff_ne.mpr hreleased, if_pos rfl]
    repeat' split
    all_goals first | rfl | contradiction

theorem DriverPc.Fits.enqueue (h : pc.Fits f.queue) (c : Byte) :
    pc.Fits (enqueue c f).queue := by
  cases pc with
  | idle => trivial
  | test len dst => exact h
  | store len dst => exact ⟨h.1, enqueue_ne_nil h.2 c⟩
  | advance len dst d => exact ⟨h.1, head?_enqueue h.2 c⟩
  | ret len dst => exact h

theorem DriverRefines.irq (h : DriverRefines r) (status sc : Byte) :
    DriverRefines (driverStep r (.irq status sc)) := by
  refine ⟨?_, h.fits.enqueue _, ?_, h.correct⟩
  · dsimp only [driverStep]
    rw [kbdHandlerIsr_buffer]
    exact enqueue_holds h.holds _
  · exact (enqueue_received _ _).trans h.received

theorem toInt_ofNat_le (n : Nat) : (BitVec.ofNat 32 n).toInt ≤ n := by
  have hmod := Nat.mod_le n (2 ^ 32)
  rw [BitVec.toInt_eq_toNat_bmod, BitVec.toNat_ofNat, Int.bmod]
  split <;> omega

theorem DriverRefines.call (h : DriverRefines r) (hpc : r.pc = .idle) (call : DriverCall) :
    DriverRefines (driverStep r (.consumer call)) := by
  have hreceived := h.received
  rw [hpc, DriverPc.inHand, List.append_nil] at hreceived
  cases call with
  | read buf len =>
    simp only [driverStep, driverConsumerStep, hpc]
    split
    · refine ⟨h.holds, trivial, ?_, ?_⟩
      · simpa [DriverResult.chars, DriverPc.inHand] using hreceived
      · exact forall_mem_snoc h.correct ⟨Nat.zero_le _, by omega, Or.inr ⟨rfl, rfl⟩⟩
    · refine ⟨h.holds, Nat.zero_le _, ?_, h.correct⟩
      simpa [DriverPc.inHand] using hreceived
  | ioctl =>
    simp only [driverStep, driverConsumerStep, hpc]
    refine ⟨h.holds, trivial, ?_, ?_⟩
    · simpa [DriverResult.chars, DriverPc.inHand] using hreceived
    · refine forall_mem_snoc h.correct ?_
      have hempty : r.fifo.queue.isEmpty = true ↔
          r.kbd.kbdBuffer.start = r.kbd.kbdBuffer.stop := h.holds.isEmpty_iff
      dsimp only [DriverResult.Correct]
      split
      · rename_i h0
        rw [hempty.mp h0]
        simp
      · rename_i h0
        rw [bne_iff_ne.mpr (mt hempty.mpr h0)]
        rfl

theorem DriverRefines.consumer (h : DriverRefines r) (call : DriverCall) :
    DriverRefines (driverStep r (.consumer call)) := by
  have hreceived := h.received
  have hfits := h.fits
  cases hpc : r.pc with
  | idle => exact h.call hpc call
  | test len dst =>
    rw [hpc] at hfits hreceived
    simp only [driverStep, driverConsumerStep, hpc]
    split
    · rename_i hmore
      refine ⟨h.holds, ⟨hmore.1, ?_⟩, hreceived, h.correct⟩
      rw [← h.holds.queue]
      exact Ring.contents_ne_nil.mpr hmore.2
    · exact ⟨h.holds, hfits, hreceived, h.correct⟩
  | store len dst =>
    rw [hpc] at hfits hreceived
    simp only [driverStep, driverConsumerStep, hpc]
    exact ⟨h.holds, ⟨hfits.1, h.holds.head hfits.2⟩, hreceived, h.correct⟩
  | advance len dst c =>
    rw [hpc] at hfits hreceived
    obtain ⟨hroom, hhead⟩ := hfits
    simp only [driverStep, driverConsumerStep, hpc]
    refine ⟨h.holds.advance ?_, ?_, ?_, h.correct⟩
    · intro hnil
      rw [hnil] at hhead
      cases hhead
    · rw [DriverPc.Fits, List.length_append]
      exact hroom
    · rw [Fifo.pop, hreceived, hhead, DriverPc.inHand, DriverPc.inHand, ← List.append_assoc]
      rfl
  | ret len dst =>
    rw [hpc] at hfits hreceived
    simp only [driverStep, driverConsumerStep, hpc]
    refine ⟨h.holds, trivial, ?_, ?_⟩
    · simpa [DriverResult.chars, DriverPc.inHand] using hreceived
    · have hle := toInt_ofNat_le dst.length
      rw [DriverPc.Fits] at hfits
      exact forall_mem_snoc h.correct ⟨hfits, by omega, Or.inl rfl⟩

theorem DriverRefines.step (h : DriverRefines r) (event : DriverEvent) :
    DriverRefines (driverStep r event) := by
  cases event with
  | irq status sc => exact h.irq status sc
  | consumer call => exact h.consumer call

theorem driverRefines_start (s : KbdDriver) : DriverRefines (.start s) := by
  refine ⟨⟨?_, by simp [DriverRun.start]⟩, trivial, rfl, by simp [DriverRun.start]⟩
  exact Ring.contents_eq_nil.mpr rfl

/-- The driver's buffer is a queue whose characters reads receive in order and once. -/
structure DriverFifo (r : DriverRun) : Prop where
  queue : CharQueue r.kbd.kbdBuffer r.fifo (fun port => isrDecode port.1 port.2 r.kbd)
    (fun port : Byte × Byte => (kbdHandlerIsr port.1 port.2 r.kbd).kbdBuffer)
  received : r.results.flatMap DriverResult.chars ++ r.pc.inHand = r.fifo.received
  correct : ∀ result ∈ r.results, result.Correct

theorem DriverRefines.driverFifo (h : DriverRefines r) : DriverFifo r :=
  ⟨charQueue_of_holds h.holds fun port => kbdHandlerIsr_buffer port.1 port.2 r.kbd,
    h.received.symm, h.correct⟩

theorem read_stops {dst : List Byte} (call : DriverCall) (hpc : r.pc = .test len dst)
    (hstop : ¬ (dst.length < len.toNat ∧ r.kbd.kbdBuffer.start ≠ r.kbd.kbdBuffer.stop)) :
    run driverStep r (List.replicate 2 (.consumer call)) =
      { r with
        pc := .idle
        results := r.results ++ [.read len (BitVec.ofNat 32 dst.length).toInt dst] } := by
  simp only [List.replicate, run_cons, run_nil, driverStep, driverConsumerStep, hpc, if_neg hstop]

theorem read_takes {dst : List Byte} (call : DriverCall) (hpc : r.pc = .test len dst)
    (hmore : dst.length < len.toNat ∧ r.kbd.kbdBuffer.start ≠ r.kbd.kbdBuffer.stop) :
    run driverStep r (List.replicate 3 (.consumer call)) =
      { r with
        kbd := { r.kbd with kbdBuffer := r.kbd.kbdBuffer.advance }
        fifo := r.fifo.pop
        pc := .test len (dst ++ [r.kbd.kbdBuffer.cells r.kbd.kbdBuffer.start]) } := by
  simp only [List.replicate, run_cons, run_nil, driverStep, driverConsumerStep, hpc, if_pos hmore]

/-- Without interrupts the rest of a read computes `drain`. -/
theorem drain_uninterrupted {rounds : Nat} {dst : List Byte} (call : DriverCall)
    (hpc : r.pc = .test len dst) (hrounds : r.kbd.kbdBuffer.contents.length ≤ rounds) :
    ∃ k, let r' := run driverStep r (List.replicate k (.consumer call))
      let (cs, s) := drain rounds (len.toNat - dst.length) r.kbd
      r'.kbd = s ∧ r'.pc = .idle ∧ r'.results = r.results ++
        [.read len (BitVec.ofNat 32 (dst ++ cs).length).toInt (dst ++ cs)] := by
  induction rounds generalizing r dst with
  | zero =>
    have hempty := List.length_eq_zero_iff.mp (Nat.le_zero.mp hrounds)
    refine ⟨2, ?_⟩
    rw [read_stops call hpc fun h => Ring.contents_ne_nil.mpr h.2 hempty]
    simp [drain]
  | succ rounds ih =>
    by_cases hmore : dst.length < len.toNat ∧ r.kbd.kbdBuffer.start ≠ r.kbd.kbdBuffer.stop
    · have hlen : len.toNat - dst.length =
          len.toNat - (dst ++ [r.kbd.kbdBuffer.cells r.kbd.kbdBuffer.start]).length + 1 := by
        rw [List.length_append, List.length_singleton]
        omega
      have hcons := Ring.cons_contents_advance hmore.2
      rw [hcons, List.length_cons] at hrounds
      obtain ⟨k, hk⟩ := ih (congrArg DriverRun.pc (read_takes call hpc hmore))
        (by rw [read_takes call hpc hmore]; exact Nat.le_of_succ_le_succ hrounds)
      refine ⟨3 + k, ?_⟩
      rw [List.replicate_add, run_append, hlen, drain, Ring.pop, if_neg hmore.2]
      rw [read_takes call hpc hmore] at hk ⊢
      simpa [Ring.advance] using hk
    · refine ⟨2, ?_⟩
      rw [read_stops call hpc hmore]
      have hdrain : drain (rounds + 1) (len.toNat - dst.length) r.kbd = ([], r.kbd) := by
        by_cases hempty : r.kbd.kbdBuffer.contents = []
        · exact drain_empty hempty
        · have hfull : len.toNat - dst.length = 0 := by
            have hlen : ¬ dst.length < len.toNat :=
              fun hlt => hmore ⟨hlt, Ring.contents_ne_nil.mp hempty⟩
            omega
          rw [hfull, drain]
      rw [hdrain]
      simp

/-- Without interrupts the statements compute `kbdDriverRead`. -/
theorem read_uninterrupted {buf : Word} (hpc : r.pc = .idle) :
    ∃ k, let r' := run driverStep r (List.replicate k (.consumer (.read buf len)))
      let (value, dst, s) := kbdDriverRead buf len r.kbd
      r'.kbd = s ∧ r'.pc = .idle ∧ r'.results = r.results ++ [.read len value dst] := by
  by_cases hrefused : buf = 0#64 ∨ len = 0#64
  · refine ⟨1, ?_⟩
    simp [driverStep, driverConsumerStep, hpc, kbdDriverRead, hrefused]
  · have hcall : driverStep r (.consumer (.read buf len)) = { r with pc := .test len [] } := by
      simp only [driverStep, driverConsumerStep, hpc, if_neg hrefused]
    obtain ⟨k, hk⟩ := drain_uninterrupted (.read buf len) (congrArg DriverRun.pc hcall)
      (Nat.le_of_lt (Ring.length_contents_lt _))
    refine ⟨k + 1, ?_⟩
    rw [List.replicate_succ, run_cons, kbdDriverRead, if_neg hrefused]
    rw [hcall] at hk ⊢
    simpa using hk

def driverAccepts (r : DriverRun) : DriverEvent → List Byte
  | .irq status sc => accepts r.kbd.kbdBuffer (isrDecode status sc r.kbd)
  | .consumer _ => []

theorem DriverRefines.accepted (h : DriverRefines r) (event : DriverEvent) :
    (driverStep r event).fifo.accepted = r.fifo.accepted ++ driverAccepts r event := by
  cases event with
  | irq status sc => exact accepted_enqueue h.holds _
  | consumer call =>
    rw [driverAccepts, List.append_nil]
    dsimp only [driverStep]
    unfold driverConsumerStep
    dsimp only
    split
    · cases call <;> (dsimp only; try split) <;> rfl
    · split <;> rfl
    · rfl
    · exact Fifo.accepted_pop
    · rfl

theorem driverFifo_run (s : KbdDriver) (events : List DriverEvent) :
    let r := run driverStep (.start s) events
    DriverFifo r ∧
      r.results.flatMap DriverResult.chars ++ r.pc.inHand ++ r.kbd.kbdBuffer.contents =
        outputs driverStep driverAccepts (.start s) events := by
  intro r
  have hr : DriverRefines r :=
    run_invariant (fun _ event h => h.step event) (driverRefines_start s) events
  have haccepted : r.fifo.accepted = outputs driverStep driverAccepts (.start s) events :=
    run_outputs (f := fun r => r.fifo.accepted) (fun _ event h => h.step event)
      (fun _ event h => h.accepted event) (driverRefines_start s) events
  refine ⟨hr.driverFifo, ?_⟩
  rw [← hr.received, hr.holds.queue, ← haccepted, Fifo.accepted]

end FenwickOS.Drv
