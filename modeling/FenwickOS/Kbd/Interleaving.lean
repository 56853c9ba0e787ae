import FenwickOS.Kbd.Kbd
import FenwickOS.Lib.Fifo
import FenwickOS.Lib.Runs

/-! The consumers of kernel/kbd/kbd.c statement by statement, with interrupts in between. -/
namespace FenwickOS.Kbd
open Machine

/-- What a decoded character is meant to do to the queue; 0 is none. -/
def enqueue (c : Byte) (f : Fifo Byte) : Fifo Byte := if c = 0#8 then f else f.push 255 c

def accepts (buffer : Ring Byte 256) (c : Byte) : List Byte :=
  if c = 0#8 ∨ buffer.contents.length = 255 then [] else [c]

/-- The buffer is a queue of at most 255 nonzero characters. An interrupt `i`, which decodes to
`decode i` and leaves the buffer `after i`, appends its character if it is one, and changes nothing
when 255 are queued. -/
structure CharQueue {ι : Type} (buffer : Ring Byte 256) (f : Fifo Byte) (decode : ι → Byte)
    (after : ι → Ring Byte 256) : Prop where
  contents : buffer.contents = f.queue
  bounded : f.queue.length ≤ 255
  nonzero : ∀ c ∈ f.queue, c ≠ 0#8
  appends : ∀ i, decode i ≠ 0#8 → f.queue.length < 255 →
    (after i).contents = f.queue ++ [decode i]
  drops : ∀ i, decode i = 0#8 ∨ f.queue.length = 255 → after i = buffer
  indices : buffer.start.val < 256 ∧ buffer.stop.val < 256

section
variable {ι : Type} {buffer : Ring Byte 256} {f : Fifo Byte} {decode : ι → Byte}
  {after : ι → Ring Byte 256} {d : Byte}

theorem enqueue_holds (h : buffer.Holds (fun c => c ≠ 0#8) f) (c : Byte) :
    Ring.Holds (fun c => c ≠ 0#8) (if c = 0#8 then buffer else buffer.push c) (enqueue c f) := by
  unfold enqueue
  split
  · exact h
  · rename_i hc
    exact h.push hc

theorem enqueue_received (c : Byte) (f : Fifo Byte) : (enqueue c f).received = f.received := by
  unfold enqueue
  split
  · rfl
  · exact Fifo.push_received

theorem accepted_enqueue (h : buffer.Holds (fun c => c ≠ 0#8) f) (c : Byte) :
    (enqueue c f).accepted = f.accepted ++ accepts buffer c := by
  have hlt := h.length_lt
  rw [enqueue, accepts, h.queue]
  split
  · rename_i hzero
    rw [if_pos (Or.inl hzero), List.append_nil]
  · rename_i hc
    by_cases hfull : f.queue.length = 255
    · rw [if_pos (Or.inr hfull), Fifo.push, if_neg (by omega), List.append_nil]
    · rw [if_neg (not_or.mpr ⟨hc, hfull⟩), Fifo.accepted_push (by omega)]

theorem enqueue_ne_nil (h : f.queue ≠ []) (c : Byte) : (enqueue c f).queue ≠ [] := by
  unfold enqueue
  split
  · exact h
  · exact Fifo.push_ne_nil h

theorem head?_enqueue (h : f.queue.head? = some d) (c : Byte) :
    (enqueue c f).queue.head? = some d := by
  unfold enqueue
  split
  · exact h
  · exact Fifo.head?_push h

theorem charQueue_of_holds (h : buffer.Holds (fun c => c ≠ 0#8) f)
    (hafter : ∀ i, after i = if decode i = 0#8 then buffer else buffer.push (decode i)) :
    CharQueue buffer f decode after where
  contents := h.queue
  bounded := Nat.le_of_lt_succ h.length_lt
  nonzero := h.all
  appends i hi hroom := by
    have hholds := enqueue_holds h (decode i)
    rw [hafter, hholds.queue, enqueue, if_neg hi, Fifo.push, if_pos hroom]
  drops i hi := by
    rw [hafter]
    split
    · rfl
    · rename_i hc
      rcases hi with hzero | hfull
      · exact (hc hzero).elim
      · apply Ring.push_of_full
        rw [h.queue, hfull]
        omega
  indices := ⟨Fin.isLt _, Fin.isLt _⟩

end

inductive KbdCall
  | getchar
  | hasInput

/-- The next statement of `kbd_getchar`; `idle` is outside it. -/
inductive KbdPc
  | idle
  | load
  | advance (c : Byte)
  | ret (c : Byte)

/-- What a call has returned, and whether the queue was empty when it looked. -/
inductive KbdResult
  | getchar (c : Byte) (empty : Bool)
  | hasInput (value empty : Bool)

/-- An interrupt, or the next statement of the consumer; outside a call it starts one. -/
inductive KbdEvent
  | irq (scancode : Byte)
  | consumer (call : KbdCall)

/-- The module and its consumer. `fifo` and `emptyAtCheck` are no part of the source: they say what
the buffer is meant to hold, and what the call in progress has found. -/
structure KbdRun where
  kbd : KbdState
  pc : KbdPc
  results : List KbdResult
  fifo : Fifo Byte
  emptyAtCheck : Bool

/-- The character that the interrupt handler makes of a scancode, 0 if none. -/
def kbdDecode (scancode : Byte) (s : KbdState) : Byte :=
  if scancode = 0xE0#8 ∨ scancode &&& 0x80#8 ≠ 0#8 then 0#8
  else if h : (scancode &&& 0x7F#8).toNat < 128 then
    let code : Fin 128 := ⟨_, h⟩
    if isModifierKey code then 0#8
    else kbdTranslate code s.kbdModifiers
  else 0#8

def consumerStep (call : KbdCall) (r : KbdRun) : KbdRun :=
  match r.pc with
  | .idle =>
    match call with
    | .getchar =>
      let r := { r with emptyAtCheck := r.fifo.queue.isEmpty }
      if r.kbd.kbdBuffer.start = r.kbd.kbdBuffer.stop then
        { r with results := r.results ++ [.getchar 0#8 r.emptyAtCheck] }
      else { r with pc := .load }
    | .hasInput =>
      { r with results := r.results ++ [.hasInput (kbdHasInput r.kbd) r.fifo.queue.isEmpty] }
  | .load => { r with pc := .advance (r.kbd.kbdBuffer.cells r.kbd.kbdBuffer.start) }
  | .advance c =>
    { r with
      kbd := { r.kbd with kbdBuffer := r.kbd.kbdBuffer.advance }
      fifo := r.fifo.pop
      pc := .ret c }
  | .ret c => { r with pc := .idle, results := r.results ++ [.getchar c r.emptyAtCheck] }

def kbdStep (r : KbdRun) : KbdEvent → KbdRun
  | .irq scancode =>
    { r with kbd := kbdHandler scancode r.kbd, fifo := enqueue (kbdDecode scancode r.kbd) r.fifo }
  | .consumer call => consumerStep call r

def KbdRun.start (s : KbdState) : KbdRun := ⟨kbdInit s, .idle, [], ⟨[], []⟩, true⟩

def KbdResult.chars : KbdResult → List Byte
  | .getchar c _ => if c = 0#8 then [] else [c]
  | .hasInput _ _ => []

/-- The character that a call has taken out of the buffer and not yet returned. -/
def KbdPc.inHand : KbdPc → List Byte
  | .idle | .load | .advance _ => []
  | .ret c => [c]

/-- `kbd_getchar` returns 0 exactly if it found the queue empty, `kbd_has_input` likewise. -/
def KbdResult.Correct : KbdResult → Prop
  | .getchar c empty => c = 0#8 ↔ empty = true
  | .hasInput value empty => value = !empty

/-- What the consumer has seen still holds. -/
def KbdPc.Fits (queue : List Byte) : KbdPc → Prop
  | .idle => True
  | .load => queue ≠ []
  | .advance c => queue.head? = some c
  | .ret c => c ≠ 0#8

structure KbdRefines (r : KbdRun) : Prop where
  holds : r.kbd.kbdBuffer.Holds (fun c => c ≠ 0#8) r.fifo
  fits : r.pc.Fits r.fifo.queue
  checked : r.pc = .idle ∨ r.emptyAtCheck = false
  received : r.fifo.received = r.results.flatMap KbdResult.chars ++ r.pc.inHand
  correct : ∀ result ∈ r.results, result.Correct

variable {s : KbdState} {r : KbdRun} {c scancode : Byte} {f : Fifo Byte} {pc : KbdPc}
  {queue : List Byte}

theorem kbdBufferPush_buffer (c : Byte) (s : KbdState) : (kbdBufferPush c s).kbdBuffer =
    if c = 0#8 then s.kbdBuffer else s.kbdBuffer.push c := by
  unfold kbdBufferPush
  split <;> rfl

theorem kbdRelease_buffer (code : Fin 128) (s : KbdState) :
    (kbdRelease code s).kbdBuffer = s.kbdBuffer := by
  unfold kbdRelease
  dsimp only
  repeat' split
  all_goals rfl

/-- A modifier key is no character; any other key is the character that `kbdDecode` gives. -/
theorem kbdPress_buffer (code : Fin 128) (s : KbdState) :
    let c := if isModifierKey code then 0#8 else kbdTranslate code s.kbdModifiers
    (kbdPress code s).kbdBuffer = if c = 0#8 then s.kbdBuffer else s.kbdBuffer.push c := by
  intro c
  unfold kbdPress
  by_cases hmodifier : isModifierKey code
  · have hc : c = 0#8 := if_pos hmodifier
    rw [if_pos hc]
    dsimp only
    repeat' split
    iterate 4 rfl
    exact absurd hmodifier (by simp [isModifierKey, *])
  · have hc : c = kbdTranslate code s.kbdModifiers := if_neg hmodifier
    simp only [isModifierKey, not_or] at hmodifier
    obtain ⟨hshift, hctrl, halt, hcaps⟩ := hmodifier
    dsimp only
    rw [if_neg hshift, if_neg hctrl, if_neg halt, if_neg hcaps, kbdBufferPush_buffer, hc]

theorem kbdHandler_buffer (scancode : Byte) (s : KbdState) : (kbdHandler scancode s).kbdBuffer =
    if kbdDecode scancode s = 0#8 then s.kbdBuffer
    else s.kbdBuffer.push (kbdDecode scancode s) := by
  unfold kbdHandler kbdDecode
  by_cases hext : scancode = 0xE0#8
  · rw [if_pos hext, if_pos (Or.inl hext)]
    rfl
  rw [if_neg hext]
  by_cases hreleased : scancode &&& 0x80#8 = 0#8
  · have hmake : ¬ (scancode = 0xE0#8 ∨ scancode &&& 0x80#8 ≠ 0#8) :=
      not_or.mpr ⟨hext, not_not.mpr hreleased⟩
    dsimp only
    rw [if_neg hmake, hreleased]
    split
    · exact kbdPress_buffer _ _
    · rfl
  · rw [if_pos (Or.inr hreleased)]
    dsimp only
    rw [bne_iff_ne.mpr hreleased]
    split
    · exact kbdRelease_buffer _ _
    · rfl

theorem KbdPc.Fits.enqueue (h : pc.Fits f.queue) (c : Byte) : pc.Fits (enqueue c f).queue := by
  cases pc with
  | idle => trivial
  | load => exact enqueue_ne_nil h c
  | advance d => exact head?_enqueue h c
  | ret d => exact h

theorem KbdRefines.irq (h : KbdRefines r) (scancode : Byte) :
    KbdRefines (kbdStep r (.irq scancode)) := by
  refine ⟨?_, h.fits.enqueue _, h.checked, ?_, h.correct⟩
  · dsimp only [kbdStep]
    rw [kbdHandler_buffer]
    exact enqueue_holds h.holds _
  · exact (enqueue_received _ _).trans h.received

theorem KbdRefines.check (h : KbdRefines r) (hpc : r.pc = .idle) (call : KbdCall) :
    KbdRefines (kbdStep r (.consumer call)) := by
  have hreceived := h.received
  rw [hpc] at hreceived
  cases call with
  | getchar =>
    simp only [kbdStep, consumerStep, hpc]
    split
    · rename_i hempty
      refine ⟨h.holds, trivial, Or.inl rfl, ?_, ?_⟩
      · simpa [KbdResult.chars] using hreceived
      · exact forall_mem_snoc h.correct (iff_of_true rfl (h.holds.isEmpty_iff.mpr hempty))
    · rename_i hsome
      have hne : ¬ r.fifo.queue.isEmpty = true := fun hempty => hsome (h.holds.isEmpty_iff.mp hempty)
      refine ⟨h.holds, fun hnil => hne (List.isEmpty_iff.mpr hnil), ?_, hreceived, h.correct⟩
      exact Or.inr (Bool.not_eq_true _ ▸ hne)
  | hasInput =>
    simp only [kbdStep, consumerStep, hpc]
    refine ⟨h.holds, trivial, Or.inl rfl, ?_, ?_⟩
    · simpa [KbdResult.chars] using hreceived
    · refine forall_mem_snoc h.correct ?_
      have hempty := h.holds.isEmpty_iff
      rw [KbdResult.Correct, kbdHasInput, Bool.eq_iff_iff, bne_iff_ne, Bool.not_eq_true']
      rw [Ne, ← hempty, Bool.not_eq_true]

theorem KbdRefines.consumer (h : KbdRefines r) (call : KbdCall) :
    KbdRefines (kbdStep r (.consumer call)) := by
  cases hpc : r.pc with
  | idle => exact h.check hpc call
  | load =>
    have hfits := h.fits
    have hreceived := h.received
    rw [hpc] at hfits hreceived
    simp only [kbdStep, consumerStep, hpc]
    exact ⟨h.holds, h.holds.head hfits, Or.inr (h.checked.resolve_left (by simp [hpc])),
      hreceived, h.correct⟩
  | advance c =>
    have hhead : r.fifo.queue.head? = some c := by simpa only [hpc, KbdPc.Fits] using h.fits
    have hreceived := h.received
    rw [hpc, KbdPc.inHand, List.append_nil] at hreceived
    simp only [kbdStep, consumerStep, hpc]
    refine ⟨h.holds.advance ?_, ?_, Or.inr (h.checked.resolve_left (by simp [hpc])), ?_, h.correct⟩
    · intro hnil
      rw [hnil] at hhead
      cases hhead
    · exact h.holds.all c (List.mem_of_head? hhead)
    · rw [Fifo.pop, hreceived, hhead]
      rfl
  | ret c =>
    have hc := h.fits
    have hreceived := h.received
    rw [hpc] at hc hreceived
    simp only [kbdStep, consumerStep, hpc]
    refine ⟨h.holds, trivial, Or.inl rfl, ?_, ?_⟩
    · rw [hreceived]
      simp [KbdPc.inHand, KbdResult.chars, show c ≠ 0#8 from hc]
    · have hchecked := h.checked.resolve_left (by simp [hpc])
      exact forall_mem_snoc h.correct (iff_of_false hc (by simp [hchecked]))

theorem KbdRefines.step (h : KbdRefines r) (event : KbdEvent) : KbdRefines (kbdStep r event) := by
  cases event with
  | irq scancode => exact h.irq scancode
  | consumer call => exact h.consumer call

theorem kbdRefines_start (s : KbdState) : KbdRefines (.start s) := by
  refine ⟨⟨?_, by simp [KbdRun.start]⟩, trivial, Or.inl rfl, rfl, by simp [KbdRun.start]⟩
  exact Ring.contents_eq_nil.mpr rfl

/-- The consumers receive what has left the queue, in order and once, and see it when it is
empty. -/
structure KbdFifo (r : KbdRun) : Prop where
  queue : CharQueue r.kbd.kbdBuffer r.fifo (fun scancode => kbdDecode scancode r.kbd)
    (fun scancode => (kbdHandler scancode r.kbd).kbdBuffer)
  received : r.results.flatMap KbdResult.chars ++ r.pc.inHand = r.fifo.received
  correct : ∀ result ∈ r.results, result.Correct

theorem KbdRefines.kbdFifo (h : KbdRefines r) : KbdFifo r :=
  ⟨charQueue_of_holds h.holds fun scancode => kbdHandler_buffer scancode r.kbd, h.received.symm,
    h.correct⟩

def kbdAccepts (r : KbdRun) : KbdEvent → List Byte
  | .irq scancode => accepts r.kbd.kbdBuffer (kbdDecode scancode r.kbd)
  | .consumer _ => []

theorem KbdRefines.accepted (h : KbdRefines r) (event : KbdEvent) :
    (kbdStep r event).fifo.accepted = r.fifo.accepted ++ kbdAccepts r event := by
  cases event with
  | irq scancode => exact accepted_enqueue h.holds _
  | consumer call =>
    rw [kbdAccepts, List.append_nil]
    dsimp only [kbdStep]
    unfold consumerStep
    split
    · cases call <;> (dsimp only; try split) <;> rfl
    · rfl
    · exact Fifo.accepted_pop
    · rfl

/-- In every run the buffer is a bounded queue; what has been received, is about to be returned and
is still queued is together what the buffer has accepted, in order. -/
theorem kbdFifo_run (s : KbdState) (events : List KbdEvent) :
    let r := run kbdStep (.start s) events
    KbdFifo r ∧ r.results.flatMap KbdResult.chars ++ r.pc.inHand ++ r.kbd.kbdBuffer.contents =
      outputs kbdStep kbdAccepts (.start s) events := by
  intro r
  have hr : KbdRefines r := run_invariant (fun _ event h => h.step event) (kbdRefines_start s) events
  have haccepted : r.fifo.accepted = outputs kbdStep kbdAccepts (.start s) events :=
    run_outputs (f := fun r => r.fifo.accepted) (fun _ event h => h.step event)
      (fun _ event h => h.accepted event) (kbdRefines_start s) events
  refine ⟨hr.kbdFifo, ?_⟩
  rw [← hr.received, hr.holds.queue, ← haccepted, Fifo.accepted]

/-- Without interrupts the statements compute `kbdGetchar`. -/
theorem getchar_uninterrupted (hpc : r.pc = .idle) :
    ∃ k, let r' := run kbdStep r (List.replicate k (.consumer .getchar))
      r'.kbd = (kbdGetchar r.kbd).2 ∧ r'.pc = .idle ∧
      r'.results = r.results ++ [.getchar (kbdGetchar r.kbd).1 r.fifo.queue.isEmpty] := by
  by_cases hempty : r.kbd.kbdBuffer.start = r.kbd.kbdBuffer.stop
  · refine ⟨1, ?_⟩
    simp [kbdStep, consumerStep, hpc, kbdGetchar, Ring.pop, hempty]
  · refine ⟨4, ?_⟩
    simp [List.replicate, kbdStep, consumerStep, hpc, kbdGetchar, Ring.pop, Ring.advance, hempty]

end FenwickOS.Kbd
