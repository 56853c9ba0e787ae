import FenwickOS.Libk.Printf
import Mathlib.Data.Fintype.EquivFin
import Mathlib.Data.Fintype.Lattice

/-! `kprintf` of lib/libk/src/libk_shim.c, which hands its `va_list` to `kprintf_va` as if it were
the array of arguments. -/
namespace FenwickOS.Libk
open Machine

/-- The x86-64 System V `va_list`: four bookkeeping fields, no argument among them. -/
structure VaList where
  gpOffset : BitVec 32
  fpOffset : BitVec 32
  overflowArgArea : Word
  regSaveArea : Word

/-- What a call leaves in the frame of `kprintf`: two addresses and the words behind the
`va_list`. -/
structure Frame where
  overflowArgArea : Word
  regSaveArea : Word
  beyond : Nat → Word

/-- `va_start` after one named argument: the next one is at offset 8, the first vector register
at offset 48. -/
def vaStart (f : Frame) : VaList := ⟨8#32, 48#32, f.overflowArgArea, f.regSaveArea⟩

/-- The `va_list` read as eight-byte words. -/
def VaList.words (ap : VaList) (beyond : Nat → Word) : Nat → Word
  | 0 => (ap.fpOffset ++ ap.gpOffset : BitVec (32 + 32))
  | 1 => ap.overflowArgArea
  | 2 => ap.regSaveArea
  | n + 3 => beyond n

/-- `frame args` is the frame that the call with the arguments `args` sets up. -/
def kprintf (m : Memory) (frame : List Word → Frame) (fmt : Word) (args : List Word) :
    Option (List Byte) :=
  let ap := vaStart (frame args)
  kprintfVa m fmt (ap.words (frame args).beyond)

def HoldsArgs (p : Nat → Word) (args : List Word) : Prop :=
  ∀ k (h : k < args.length), p k = args[k]

/-- `kprintf` prints what `kprintf_va` prints from an array of the same arguments, whatever the
at most five arguments that serve the format. -/
def Agrees (m : Memory) (frame : List Word → Frame) (fmt : Word) (pieces : List Piece) : Prop :=
  ∀ args p, (convs pieces).length ≤ args.length → args.length ≤ 5 → HoldsArgs p args →
    kprintf m frame fmt args = kprintfVa m fmt p

def offsetsWord : Word := 0x3000000008#64

variable {m : Memory} {frame : List Word → Frame} {fmt a : Word} {pieces : List Piece}
  {conv : Conv} {cs : List Conv} {w p : Nat → Word} {j k : Nat}

theorem words_zero (f : Frame) : (vaStart f).words f.beyond 0 = offsetsWord := by
  change (48#32 ++ 8#32 : BitVec (32 + 32)) = 0x3000000008#64
  decide

theorem kprintfVa_format (h : cstring m fmt = formatText pieces) (p : Nat → Word) :
    kprintfVa m fmt p = some (outs m p 0 pieces) := by
  rw [kprintfVa, h, kprintfLoop_format]
  rfl

theorem outs_eq_of_convs_nil (h : convs pieces = []) : outs m w j pieces = outs m p k pieces := by
  induction pieces generalizing j k with
  | nil => rfl
  | cons q pieces ih =>
    obtain ⟨hq, hrest⟩ := List.append_eq_nil_iff.mp (h : q.convs ++ convs pieces = [])
    have hout : q.out m w j = q.out m p k := by
      cases q with
      | text c h => rfl
      | percent => rfl
      | spec sp =>
        have hp : ¬ sp.Plain := fun hp => by simp [Piece.convs, hp] at hq
        simp [Piece.out, hp]
    rw [outs, outs, hout, ih hrest]

/-- What the first conversion contributes, between text and the work of the others. -/
theorem outs_first (h : convs pieces = conv :: cs) :
    ∃ text rest, convs rest = cs ∧ ∀ p k, outs m p k pieces =
      text ++ (conv.bytes m (p k) ++ outs m p (k + 1) rest) := by
  induction pieces with
  | nil => simp [convs] at h
  | cons q pieces ih =>
    have hsplit : q.convs ++ convs pieces = conv :: cs := h
    have htext (hq : q.convs = []) (t : List Byte) (ht : ∀ p k, q.out m p k = t) :
        ∃ text rest, convs rest = cs ∧ ∀ p k, outs m p k (q :: pieces) =
          text ++ (conv.bytes m (p k) ++ outs m p (k + 1) rest) := by
      rw [hq, List.nil_append] at hsplit
      obtain ⟨text, rest, hrest, hout⟩ := ih hsplit
      refine ⟨t ++ text, rest, hrest, fun p k => ?_⟩
      rw [outs, ht, hq, List.length_nil, Nat.add_zero, hout, List.append_assoc]
    cases q with
    | text c h => exact htext rfl [c] fun _ _ => rfl
    | percent => exact htext rfl [ascii '%'] fun _ _ => rfl
    | spec sp =>
      by_cases hp : sp.Plain
      · simp only [Piece.convs, hp, if_true, List.singleton_append, List.cons.injEq] at hsplit
        obtain ⟨rfl, hcs⟩ := hsplit
        exact ⟨[], pieces, hcs, fun p k => by simp [outs, Piece.out, Piece.convs, hp]⟩
      · exact htext (by simp [Piece.convs, hp]) sp.bytes fun _ _ => by simp [Piece.out, hp]

theorem outs_length_le
    (h : ∀ i (conv : Conv), (convs pieces)[i]? = some conv →
      (conv.bytes m (p (k + i))).length ≤ (conv.bytes m (w (k + i))).length) :
    (outs m p k pieces).length ≤ (outs m w k pieces).length := by
  induction hc : convs pieces generalizing pieces k with
  | nil => rw [outs_eq_of_convs_nil hc]
  | cons conv cs ih =>
    obtain ⟨text, rest, hrest, hout⟩ := outs_first (m := m) hc
    have hhead := h 0 conv (by simp [hc])
    have htail : (outs m p (k + 1) rest).length ≤ (outs m w (k + 1) rest).length := by
      refine ih (fun i conv hi => ?_) hrest
      have := h (i + 1) conv (by simpa [hc, hrest] using hi)
      rwa [Nat.add_comm i 1, ← Nat.add_assoc] at this
    rw [hout, hout]
    simp only [List.length_append, Nat.add_zero] at hhead ⊢
    omega

/-- No choice of arguments hides the bookkeeping word behind the first conversion: some argument
prints differently at the same length, or some prints shorter, or some prints longer. -/
theorem offsetsWord_differs (hs : cstring m a ≠ []) (conv : Conv) :
    (∃ w, (∀ u v, (conv.bytes m u).length = (conv.bytes m v).length) ∧
      conv.bytes m w ≠ conv.bytes m offsetsWord) ∨
    (∃ w, (conv.bytes m w).length < (conv.bytes m offsetsWord).length) ∨
    (∃ w, (conv.bytes m offsetsWord).length < (conv.bytes m w).length) := by
  cases conv with
  | c => exact Or.inl ⟨0#64, fun _ _ => rfl, by simp [Conv.bytes, Conv.emit, offsetsWord]⟩
  | p =>
    refine Or.inl ⟨0#64, fun u v => by simp [Conv.bytes, Conv.emit], ?_⟩
    simp only [Conv.bytes, Conv.emit, Option.getD_some]
    decide
  | d =>
    refine Or.inr (Or.inl ⟨0#64, ?_⟩)
    simp only [Conv.bytes, Conv.emit]
    decide
  | x =>
    refine Or.inr (Or.inl ⟨0#64, ?_⟩)
    simp only [Conv.bytes, Conv.emit]
    decide
  | s =>
    obtain ⟨z, hz⟩ := m.nul
    simp only [Conv.bytes, Conv.emit, kputs, Option.getD_some]
    by_cases ho : cstring m offsetsWord = []
    · refine Or.inr (Or.inr ⟨a, ?_⟩)
      rw [ho]
      exact List.length_pos_iff.mpr hs
    · refine Or.inr (Or.inl ⟨z, ?_⟩)
      rw [cstring_of_nul hz]
      exact List.length_pos_iff.mpr ho

theorem outs_length_lt (hc : convs pieces = conv :: cs)
    (hhead : (conv.bytes m (p k)).length < (conv.bytes m (w k)).length)
    (h : ∀ i (conv : Conv), (convs pieces)[i]? = some conv →
      (conv.bytes m (p (k + i))).length ≤ (conv.bytes m (w (k + i))).length) :
    (outs m p k pieces).length < (outs m w k pieces).length := by
  obtain ⟨text, rest, hrest, hout⟩ := outs_first (m := m) hc
  have htail : (outs m p (k + 1) rest).length ≤ (outs m w (k + 1) rest).length := by
    refine outs_length_le fun i conv hi => ?_
    have := h (i + 1) conv (by simpa [hc, hrest] using hi)
    rwa [Nat.add_comm i 1, ← Nat.add_assoc] at this
  rw [hout, hout]
  simp only [List.length_append]
  omega

/-- Words are finitely many, so each conversion has a longest and a shortest output. -/
theorem exists_extremes (m : Memory) :
    ∃ long short : Conv → Word, ∀ (conv : Conv) w,
      (conv.bytes m w).length ≤ (conv.bytes m (long conv)).length ∧
      (conv.bytes m (short conv)).length ≤ (conv.bytes m w).length := by
  have : Finite Word := Finite.of_injective BitVec.toFin fun _ _ h => BitVec.toFin_inj.mp h
  choose long hlong using fun conv : Conv =>
    Finite.exists_max fun w : Word => (conv.bytes m w).length
  choose short hshort using fun conv : Conv =>
    Finite.exists_min fun w : Word => (conv.bytes m w).length
  exact ⟨long, short, fun conv w => ⟨hlong conv w, hshort conv w⟩⟩

/-- Agreement for the arguments that `f` picks for each conversion. -/
theorem Agrees.choose (h : Agrees m frame fmt pieces) (hfmt : cstring m fmt = formatText pieces)
    (hcount : (convs pieces).length ≤ 5) (f : Conv → Word) :
    ∃ w p, w 0 = offsetsWord ∧ (∀ i conv, (convs pieces)[i]? = some conv → p i = f conv) ∧
      outs m w 0 pieces = outs m p 0 pieces := by
  have hholds : HoldsArgs (fun k => ((convs pieces).map f).getD k 0#64)
      ((convs pieces).map f) := by
    intro k hk
    dsimp only
    rw [List.getD_eq_getElem?_getD, List.getElem?_eq_getElem hk, Option.getD_some]
  have hagree := h _ _ (by simp) (by simpa using hcount) hholds
  rw [kprintf, kprintfVa_format hfmt, kprintfVa_format hfmt] at hagree
  exact ⟨_, _, words_zero _, fun i conv hi => by simp [hi], Option.some.inj hagree⟩

theorem formatText_ne_nil (h : convs pieces = conv :: cs) : formatText pieces ≠ [] := by
  cases pieces with
  | nil => simp [convs] at h
  | cons q pieces => cases q <;> simp [formatText, Piece.bytes, Spec.bytes]

/-- The two agree on a format, whatever the memory and the frames, exactly when it takes no
argument. -/
theorem agrees_iff (m : Memory) (frame : List Word → Frame) {fmt : Word} {pieces : List Piece}
    (hfmt : cstring m fmt = formatText pieces) (hcount : (convs pieces).length ≤ 5) :
    Agrees m frame fmt pieces ↔ convs pieces = [] := by
  constructor
  · intro h
    cases hc : convs pieces with
    | nil => rfl
    | cons conv cs =>
      exfalso
      obtain ⟨long, short, hext⟩ := exists_extremes m
      have hs : cstring m fmt ≠ [] := hfmt ▸ formatText_ne_nil hc
      rcases offsetsWord_differs hs conv with ⟨a, hlen, hne⟩ | ⟨a, hlt⟩ | ⟨a, hlt⟩
      · obtain ⟨w, p, hw, hp, heq⟩ := h.choose hfmt hcount fun _ => a
        obtain ⟨text, rest, -, hout⟩ := outs_first (m := m) hc
        rw [hout, hout, List.append_right_inj] at heq
        have hhead := (List.append_inj heq (hlen _ _)).1
        rw [hw, hp 0 conv (by simp [hc])] at hhead
        exact hne hhead.symm
      · obtain ⟨w, p, hw, hp, heq⟩ := h.choose hfmt hcount short
        refine absurd (congrArg List.length heq) (outs_length_lt hc ?_ fun i conv hi => ?_).ne'
        · rw [hw, hp 0 conv (by simp [hc])]
          exact ((hext conv a).2).trans_lt hlt
        · rw [Nat.zero_add, hp i conv hi]
          exact (hext conv _).2
      · obtain ⟨w, p, hw, hp, heq⟩ := h.choose hfmt hcount long
        refine absurd (congrArg List.length heq) (outs_length_lt hc ?_ fun i conv hi => ?_).ne
        · rw [hw, hp 0 conv (by simp [hc])]
          exact hlt.trans_le (hext conv a).1
        · rw [Nat.zero_add, hp i conv hi]
          exact (hext conv _).1
  · intro hc args p _ _ _
    rw [kprintf, kprintfVa_format hfmt, kprintfVa_format hfmt, outs_eq_of_convs_nil hc]

def percentD : Memory where
  byte a := if a = 0x1000#64 then ascii '%' else if a = 0x1001#64 then ascii 'd' else 0#8
  nul := ⟨0#64, by decide⟩

theorem cstring_percentD :
    cstring percentD 0x1000#64 = formatText [.spec ⟨false, [], .none, .d⟩] := by
  rw [cstring_cons (by decide), cstring_cons (by decide), cstring_of_nul (by decide)]
  decide

theorem agrees_iff_percentD :
    ¬ Agrees percentD (fun _ => ⟨0#64, 0#64, fun _ => 0#64⟩) 0x1000#64
      [.spec ⟨false, [], .none, .d⟩] := by
  rw [agrees_iff percentD _ cstring_percentD (by decide)]
  decide

/-- `kprintf("%d", 5)` prints the two offsets of the `va_list`. -/
theorem kprintf_percentD :
    kprintf percentD (fun _ => ⟨0#64, 0#64, fun _ => 0#64⟩) 0x1000#64 [5#64] ≠
      kprintfVa percentD 0x1000#64 (fun _ => 5#64) := by
  rw [kprintf, kprintfVa_format cstring_percentD, kprintfVa_format cstring_percentD]
  decide

end FenwickOS.Libk
