import FenwickOS.Kbd.Characters

/-! What the scancodes behind the prefix 0xE0 do to Shift, Caps Lock and the case of letters. Both
decoders note the prefix and forget it again, but no branch of theirs asks for it. -/
namespace FenwickOS.Kbd
open Machine

/-- A decoder as far as Shift and Caps Lock go: `α` is what an interrupt finds on its ports. -/
structure Decoder (α σ : Type*) where
  scancode : α → Byte
  step : σ → α → σ
  flags : σ → Flags
  decode : α → σ → Byte
  table : KeyTable
  flags_step : ∀ s a, flags (step s a) = (flags s).scan (scancode a)
  decode_eq : ∀ s a, decode a s = (flags s).decode table (scancode a)

def kbdDecoder : Decoder Byte KbdState where
  scancode := id
  step := fun s sc => kbdHandler sc s
  flags := KbdState.flags
  decode := kbdDecode
  table := kbdTable
  flags_step := fun s sc => congrArg Keys.flags (kbdHandler_keys sc s)
  decode_eq := fun s sc => kbdDecode_eq sc s

variable {α σ : Type*} {scancode : α → Byte} {D : Decoder α σ} {s : σ} {f g : Flags} {b : Byte}
  {x y : α} {u v w : List α}

/-- The stream without its pairs of the prefix and another byte. -/
def dropExtended (scancode : α → Byte) : List α → List α
  | [] => []
  | [x] => [x]
  | x :: y :: w =>
    if scancode x = 0xE0#8 ∧ scancode y ≠ 0xE0#8 then dropExtended scancode w
    else x :: dropExtended scancode (y :: w)

/-- The byte after `v` has the prefix before it. -/
def EndsExtended (scancode : α → Byte) (v : List α) : Prop :=
  ∃ u x, v = u ++ [x] ∧ scancode x = 0xE0#8

structure Flags.SameCase (f g : Flags) : Prop where
  shift : f.shift = g.shift
  caps : f.caps = g.caps

/-- With its extended pairs dropped the stream leads to the same Shift and Caps Lock, and each
letter key without a prefix gives the same character. -/
structure Decoder.Undisturbed (D : Decoder α σ) (s : σ) (w : List α) : Prop where
  flags : (D.flags (run D.step s w)).SameCase
    (D.flags (run D.step s (dropExtended D.scancode w)))
  letters : ∀ v x rest, w = v ++ x :: rest → ¬ EndsExtended D.scancode v →
    isLetterKey (D.scancode x) →
    D.decode x (run D.step s v) = D.decode x (run D.step s (dropExtended D.scancode v))

/-- The byte is no make code of Caps Lock, presses Shift only where it is on and releases it only
where it is off. -/
structure Flags.Harmless (f : Flags) (b : Byte) : Prop where
  press : b = 0x2A#8 ∨ b = 0x36#8 → f.shift = true
  release : b = 0xAA#8 ∨ b = 0xB6#8 → f.shift = false
  caps : b ≠ 0x3A#8

/-! ### Dropping the pairs of a longer stream -/

theorem EndsExtended.cons (h : EndsExtended scancode w) (x : α) :
    EndsExtended scancode (x :: w) := by
  obtain ⟨u, y, rfl, hy⟩ := h
  exact ⟨x :: u, y, rfl, hy⟩

theorem dropExtended_snoc (h : EndsExtended scancode w → scancode x = 0xE0#8) :
    dropExtended scancode (w ++ [x]) = dropExtended scancode w ++ [x] := by
  induction w using dropExtended.induct scancode with
  | case1 => rfl
  | case2 y =>
    have hkeep : ¬ (scancode y = 0xE0#8 ∧ scancode x ≠ 0xE0#8) :=
      fun ⟨hy, hx⟩ => hx (h ⟨[], y, rfl, hy⟩)
    simp [dropExtended, hkeep]
  | case3 y z w hpair ih =>
    have hrest := ih fun hw => h ((hw.cons z).cons y)
    simpa [dropExtended, hpair] using hrest
  | case4 y z w hpair ih =>
    have hrest := ih fun hw => h (hw.cons y)
    simpa [dropExtended, hpair] using hrest

theorem dropExtended_pair (hx : scancode x = 0xE0#8) (hy : scancode y ≠ 0xE0#8) (w : List α) :
    dropExtended scancode (w ++ [x, y]) = dropExtended scancode w := by
  induction w using dropExtended.induct scancode with
  | case1 => simp [dropExtended, hx, hy]
  | case2 z => simp [dropExtended, hx, hy]
  | case3 z z' w hpair ih => simpa [dropExtended, hpair] using ih
  | case4 z z' w hpair ih => simpa [dropExtended, hpair] using ih

/-! ### Shift and Caps Lock -/

theorem shift_scan (f : Flags) (b : Byte) : (f.scan b).shift =
    if b = 0x2A#8 ∨ b = 0x36#8 then true
    else if b = 0xAA#8 ∨ b = 0xB6#8 then false else f.shift := by
  have hmake : (b = 0x2A#8 ∨ b = 0x36#8) ↔
      b ≠ 0xE0#8 ∧ isShiftKey (keyCode b) ∧ released b = false := by
    revert b
    decide
  have hbreak : (b = 0xAA#8 ∨ b = 0xB6#8) ↔
      b ≠ 0xE0#8 ∧ isShiftKey (keyCode b) ∧ released b = true := by
    revert b
    decide
  simp only [hmake, hbreak]
  unfold Flags.scan Flags.key
  split
  · rename_i hextended
    simp [hextended]
  · rename_i hextended
    split
    · rename_i hkey
      cases released b <;> simp [hextended, hkey]
    · rename_i hkey
      simp only [hkey, false_and, and_false, if_false]
      repeat' split
      all_goals rfl

theorem Flags.SameCase.scan (h : f.SameCase g) (b : Byte) : (f.scan b).SameCase (g.scan b) := by
  refine ⟨?_, ?_⟩
  · rw [shift_scan, shift_scan, h.shift]
  · rw [caps_scan, caps_scan, h.caps]

theorem Flags.SameCase.trans {k : Flags} (h : f.SameCase g) (h' : g.SameCase k) : f.SameCase k :=
  ⟨h.shift.trans h'.shift, h.caps.trans h'.caps⟩

theorem Flags.SameCase.symm (h : f.SameCase g) : g.SameCase f := ⟨h.shift.symm, h.caps.symm⟩

/-- Exactly a harmless byte leaves Shift and Caps Lock as they are. -/
theorem scan_sameCase_iff (f : Flags) (b : Byte) : (f.scan b).SameCase f ↔ f.Harmless b := by
  constructor
  · rintro ⟨hshift, hcaps⟩
    rw [shift_scan] at hshift
    rw [caps_scan] at hcaps
    refine ⟨fun hpress => ?_, fun hrelease => ?_, fun hb => ?_⟩
    · rw [if_pos hpress] at hshift
      exact hshift.symm
    · have hmake : ¬ (b = 0x2A#8 ∨ b = 0x36#8) := by
        rcases hrelease with rfl | rfl <;> decide
      rw [if_neg hmake, if_pos hrelease] at hshift
      exact hshift.symm
    · rw [if_pos hb] at hcaps
      exact Bool.not_ne_self _ hcaps
  · rintro ⟨hpress, hrelease, hcaps⟩
    refine ⟨?_, ?_⟩
    · rw [shift_scan]
      split
      · rename_i hb
        exact (hpress hb).symm
      split
      · rename_i hb
        exact (hrelease hb).symm
      · rfl
    · rw [caps_scan, if_neg hcaps]

theorem harmless_prefix (f : Flags) : f.Harmless 0xE0#8 :=
  ⟨fun h => absurd h (by decide), fun h => absurd h (by decide), by decide⟩

namespace Decoder

theorem flags_snoc (D : Decoder α σ) (s : σ) (w : List α) (x : α) :
    D.flags (run D.step s (w ++ [x])) = (D.flags (run D.step s w)).scan (D.scancode x) := by
  rw [run_snoc, D.flags_step]

theorem flags_snoc_prefix (s : σ) (w : List α) (hx : D.scancode x = 0xE0#8) :
    D.flags (run D.step s (w ++ [x])) = D.flags (run D.step s w) := by
  rw [D.flags_snoc, hx]
  rfl

/-- Letters are in the same case as long as Shift and Caps Lock are the same. -/
theorem undisturbed_prefixes_iff (D : Decoder α σ) (s : σ) (w : List α) :
    (∀ u, u <+: w → D.Undisturbed s u) ↔
      ∀ u, u <+: w → (D.flags (run D.step s u)).SameCase
        (D.flags (run D.step s (dropExtended D.scancode u))) := by
  constructor
  · exact fun h u hu => (h u hu).flags
  · intro h u hu
    refine ⟨h u hu, fun v x rest hv _ hletter => ?_⟩
    have hsame := h v ((List.prefix_append v (x :: rest)).trans (hv ▸ hu))
    rw [D.decode_eq, D.decode_eq, decode_letterKey hletter, decode_letterKey hletter, hsame.shift,
      hsame.caps]

theorem sameCase_snoc (D : Decoder α σ) (s : σ) (w : List α) (y : α)
    (h : ∀ u, u <+: w → (D.flags (run D.step s u)).SameCase
      (D.flags (run D.step s (dropExtended D.scancode u)))) :
    (D.flags (run D.step s (w ++ [y]))).SameCase
        (D.flags (run D.step s (dropExtended D.scancode (w ++ [y])))) ↔
      ∀ v x, w = v ++ [x] → D.scancode x = 0xE0#8 →
        (D.flags (run D.step s v)).Harmless (D.scancode y) := by
  by_cases hkeep : EndsExtended D.scancode w → D.scancode y = 0xE0#8
  · refine iff_of_true ?_ fun v x hw hx => ?_
    · rw [dropExtended_snoc hkeep, D.flags_snoc, D.flags_snoc]
      exact (h w List.prefix_rfl).scan _
    · rw [hkeep ⟨v, x, hw, hx⟩]
      exact harmless_prefix _
  · obtain ⟨⟨v, x, rfl, hx⟩, hy⟩ := Classical.not_imp.mp hkeep
    have hv := h v (List.prefix_append v [x])
    have hpair : dropExtended D.scancode (v ++ [x] ++ [y]) = dropExtended D.scancode v := by
      rw [List.append_assoc]
      exact dropExtended_pair hx hy v
    rw [hpair, D.flags_snoc, flags_snoc_prefix s v hx]
    constructor
    · intro hsame v' x' hw _
      obtain ⟨rfl, -⟩ := List.append_inj' hw rfl
      exact (scan_sameCase_iff _ _).mp (hsame.trans hv.symm)
    · intro hharmless
      exact ((scan_sameCase_iff _ _).mpr (hharmless v x rfl hx)).trans hv

/-- Extended scancodes disturb nothing along a stream exactly if each byte behind a prefix is
harmless where it comes. -/
theorem undisturbed_iff (D : Decoder α σ) (s : σ) (w : List α) :
    (∀ u, u <+: w → D.Undisturbed s u) ↔
      ∀ v x y, v ++ [x, y] <+: w → D.scancode x = 0xE0#8 →
        (D.flags (run D.step s v)).Harmless (D.scancode y) := by
  rw [undisturbed_prefixes_iff]
  induction w using List.reverseRecOn with
  | nil =>
    refine iff_of_true (fun u hu => ?_) fun v x y h => ?_
    · rw [List.prefix_nil.mp hu]
      exact ⟨rfl, rfl⟩
    · simp at h
  | append_singleton w z ih =>
    constructor
    · intro h v x y hpre hx
      have hw : ∀ u, u <+: w → (D.flags (run D.step s u)).SameCase
          (D.flags (run D.step s (dropExtended D.scancode u))) :=
        fun u hu => h u (hu.trans (List.prefix_append w [z]))
      rcases List.prefix_concat_iff.mp hpre with heq | hpre
      · have heq : v ++ [x] ++ [y] = w ++ [z] := by
          rw [List.append_assoc]
          exact heq
        obtain ⟨hv, hy⟩ := List.append_inj' heq rfl
        obtain rfl := List.singleton_inj.mp hy
        exact (D.sameCase_snoc s w y hw).mp (h _ List.prefix_rfl) v x hv.symm hx
      · exact ih.mp hw v x y hpre hx
    · intro h u hu
      have hw := ih.mpr fun v x y hpre hx => h v x y (hpre.trans (List.prefix_append w [z])) hx
      rcases List.prefix_concat_iff.mp hu with rfl | hu
      · refine (D.sameCase_snoc s w z hw).mpr fun v x hv hx => h v x z ?_ hx
        rw [hv, List.append_assoc]
        exact List.prefix_rfl
      · exact hw u hu

end Decoder

end FenwickOS.Kbd
