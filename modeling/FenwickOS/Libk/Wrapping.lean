import FenwickOS.Libk.HeapSafety

/-! When the sum that aligns a block in lib/libk/src/memory.rs wraps, on heaps anywhere in the
address space. -/
namespace FenwickOS.Libk
open Machine

/-- The size and alignment that a call passes on to the bump of `HEAP_CURRENT`, if it gets there. -/
def HeapOp.request : HeapOp → Option (Word × Word)
  | .kmalloc size => some (size, 8#64)
  | .kmallocAligned size align => if isPowerOfTwo align then some (size, align) else none
  | .kfree _ => none
  | .krealloc ptr _ newSize =>
    if ptr ≠ 0#64 ∧ newSize = 0#64 then none else some (newSize, 8#64)

def callStep (h : Heap) (op : HeapOp) : Heap := (op.call h).2

/-- `HEAP_CURRENT` is between the ends of a heap that is set up. -/
structure InRange (h : Heap) : Prop where
  initialized : h.heapInitialized = true
  start_pos : 0 < h.heapStart.toNat
  start_le : h.heapStart ≤ h.heapCurrent
  le_end : h.heapCurrent ≤ h.heapEnd

/-- A block starts at `HEAP_CURRENT` rounded up, and `HEAP_CURRENT` only moves upwards, within the
heap, and not at all when the call returns null. -/
structure Sound (h : Heap) (op : HeapOp) : Prop where
  rounded : (op.call h).1 ≠ 0#64 →
    (op.call h).1.toNat = alignUp h.heapCurrent.toNat op.align.toNat
  grows : h.heapCurrent ≤ (op.call h).2.heapCurrent
  start_le : h.heapStart ≤ (op.call h).2.heapCurrent
  le_end : (op.call h).2.heapCurrent ≤ h.heapEnd
  null : (op.call h).1 = 0#64 → (op.call h).2.heapCurrent = h.heapCurrent

/-- Rounding up stays in the address space, or the block at the wrapped address, which is 0, would
not end in the heap, or it would end where `HEAP_CURRENT` is. -/
def NoWrap (h : Heap) (op : HeapOp) : Prop :=
  ∀ size align, op.request = some (size, align) →
    alignUp h.heapCurrent.toNat align.toNat < 2 ^ 64 ∨ h.heapEnd < size ∨ size = h.heapCurrent

variable {h t : Heap} {size align start : Word} {op : HeapOp}

/-- What wraps comes out as address 0. -/
theorem alignUp_wraps (ha : isPowerOfTwo align = true) (c : Word)
    (hwrap : 2 ^ 64 ≤ alignUp c.toNat align.toNat) : alignUp c.toNat align.toNat = 2 ^ 64 := by
  have hpos := (toNat_pos_of_isPowerOfTwo ha).1
  have hc := c.isLt
  have hdvd : align.toNat ∣ 2 ^ 64 := by
    obtain ⟨k, rfl⟩ := of_decide_eq_true ha
    rw [BitVec.toNat_twoPow, Nat.mod_eq_of_lt (Nat.pow_lt_pow_right (by omega) k.isLt)]
    exact Nat.pow_dvd_pow 2 (by omega)
  exact Nat.le_antisymm (alignUp_le hpos hdvd (by omega)) hwrap

theorem bump_cases_wrap (ha : isPowerOfTwo align = true) (h : Heap) :
    (alignUp h.heapCurrent.toNat align.toNat < 2 ^ 64 ∧
      alignUp h.heapCurrent.toNat align.toNat + size.toNat ≤ h.heapEnd.toNat ∧
      ∃ p e : Word, bump size align h = (p, { h with heapCurrent := e }) ∧
        p.toNat = alignUp h.heapCurrent.toNat align.toNat ∧ e.toNat = p.toNat + size.toNat) ∨
    (2 ^ 64 ≤ alignUp h.heapCurrent.toNat align.toNat ∧ size ≤ h.heapEnd ∧
      bump size align h = (0#64, { h with heapCurrent := size })) ∨
    bump size align h = (0#64, h) ∧
      (2 ^ 64 ≤ alignUp h.heapCurrent.toNat align.toNat → h.heapEnd < size) := by
  have haligned := toNat_aligned_mod ha h.heapCurrent
  unfold bump
  dsimp only
  generalize h.heapCurrent + (align - h.heapCurrent % align) % align = aligned at haligned
  rcases Nat.lt_or_ge (alignUp h.heapCurrent.toNat align.toNat) (2 ^ 64) with hlt | hwrap
  · rw [Nat.mod_eq_of_lt hlt] at haligned
    cases hadd : checkedAdd aligned size with
    | none => exact Or.inr (Or.inr ⟨rfl, fun hge => absurd hlt (by omega)⟩)
    | some e =>
      have he := checkedAdd_eq_some hadd
      by_cases hle : e ≤ h.heapEnd
      · have hend : e.toNat ≤ h.heapEnd.toNat := hle
        exact Or.inl ⟨hlt, by omega, aligned, e, if_pos hle, haligned, he⟩
      · exact Or.inr (Or.inr ⟨if_neg hle, fun hge => absurd hlt (by omega)⟩)
  · rw [alignUp_wraps ha _ hwrap, Nat.mod_self] at haligned
    obtain rfl : aligned = 0#64 := BitVec.eq_of_toNat_eq haligned
    have hadd : checkedAdd 0#64 size = some size := by
      have hsize := size.isLt
      rw [checkedAdd, if_pos (by simpa using hsize), BitVec.zero_add]
    rw [hadd]
    by_cases hle : size ≤ h.heapEnd
    · exact Or.inr (Or.inl ⟨hwrap, hle, if_pos hle⟩)
    · exact Or.inr (Or.inr ⟨if_neg hle, fun _ => BitVec.not_le.mp hle⟩)

/-! ### The calls -/

theorem InRange.start_ne (hr : InRange h) : h.heapStart ≠ 0#64 := by
  intro hz
  have hpos := hr.start_pos
  rw [hz] at hpos
  exact absurd hpos (by decide)

theorem kmalloc_bump (hr : InRange h) (size : Word) : kmalloc size h = bump size 8#64 h := by
  rw [kmalloc, if_neg]
  simp [hr.initialized, hr.start_ne]

theorem kmallocAligned_bump (hr : InRange h) (ha : isPowerOfTwo align = true) (size : Word) :
    kmallocAligned size align h = bump size align h := by
  have hone : ¬ align < 1#64 := by
    have hpos := (toNat_pos_of_isPowerOfTwo ha).1
    rw [BitVec.lt_def]
    exact Nat.not_lt.mpr hpos
  rw [kmallocAligned, if_neg (by simp [hr.initialized, hr.start_ne]), if_neg (by simp [hone, ha])]

/-- A call bumps `HEAP_CURRENT` for its request; only `krealloc` also changes memory. -/
theorem call_request (hr : InRange h) (hop : op.request = some (size, align)) :
    isPowerOfTwo align = true ∧ op.align = align ∧
    ∃ mem, op.call h = ((bump size align h).1, { (bump size align h).2 with mem := mem }) := by
  cases op with
  | kmalloc n =>
    obtain ⟨rfl, rfl⟩ := Prod.mk.inj (Option.some.inj hop)
    exact ⟨isPowerOfTwo_eight, rfl, _, kmalloc_bump hr n⟩
  | kmallocAligned n a =>
    rw [HeapOp.request] at hop
    split at hop
    · rename_i ha
      obtain ⟨rfl, rfl⟩ := Prod.mk.inj (Option.some.inj hop)
      exact ⟨ha, rfl, _, kmallocAligned_bump hr ha n⟩
    · cases hop
  | kfree ptr => cases hop
  | krealloc ptr oldSize n =>
    rw [HeapOp.request] at hop
    split at hop
    · cases hop
    · rename_i hgo
      obtain ⟨rfl, rfl⟩ := Prod.mk.inj (Option.some.inj hop)
      refine ⟨isPowerOfTwo_eight, rfl, ?_⟩
      rw [HeapOp.call, krealloc, ← kmalloc_bump hr n]
      by_cases hnull : ptr = 0#64
      · exact ⟨_, if_pos hnull⟩
      · rw [if_neg hnull, if_neg fun hz => hgo ⟨hnull, hz⟩]
        dsimp only
        split
        · exact ⟨_, rfl⟩
        · exact ⟨_, rfl⟩

theorem call_none (hop : op.request = none) (h : Heap) : op.call h = (0#64, h) := by
  cases op with
  | kmalloc n => cases hop
  | kmallocAligned n a =>
    have ha : ¬ isPowerOfTwo a = true := by
      intro ha
      rw [HeapOp.request, if_pos ha] at hop
      cases hop
    rw [HeapOp.call, kmallocAligned]
    simp [ha]
  | kfree ptr => rfl
  | krealloc ptr oldSize n =>
    have hnone : ptr ≠ 0#64 ∧ n = 0#64 := by
      by_contra hgo
      rw [HeapOp.request, if_neg hgo] at hop
      cases hop
    rw [HeapOp.call, krealloc, if_neg hnone.1, if_pos hnone.2]
    rfl

theorem noWrap_iff (hop : op.request = some (size, align)) : NoWrap h op ↔
    alignUp h.heapCurrent.toNat align.toNat < 2 ^ 64 ∨ h.heapEnd < size ∨ size = h.heapCurrent := by
  rw [NoWrap, hop]
  constructor
  · exact fun hall => hall size align rfl
  · rintro hone _ _ ⟨rfl, rfl⟩
    exact hone

theorem InRange.sound_null (hr : InRange h) (hcall : (op.call h).1 = 0#64)
    (hcur : (op.call h).2.heapCurrent = h.heapCurrent) : Sound h op :=
  ⟨fun hne => absurd hcall hne, hcur ▸ BitVec.le_refl _, hcur ▸ hr.start_le, hcur ▸ hr.le_end,
    fun _ => hcur⟩

theorem InRange.sound_block (hr : InRange h) {p e : Word} {mem : Word → Byte}
    (hcall : op.call h = (p, { h with heapCurrent := e, mem := mem }))
    (hp : p.toNat = alignUp h.heapCurrent.toNat op.align.toNat)
    (he : e.toNat = p.toNat + size.toNat)
    (hend : alignUp h.heapCurrent.toNat op.align.toNat + size.toNat ≤ h.heapEnd.toNat) :
    Sound h op := by
  have habove := @le_alignUp op.align.toNat h.heapCurrent.toNat
  have hstart : h.heapStart.toNat ≤ h.heapCurrent.toNat := hr.start_le
  have hpos := hr.start_pos
  refine ⟨?_, ?_, ?_, ?_, ?_⟩
  · intro _
    rw [hcall, hp]
  · rw [hcall, BitVec.le_def]
    dsimp only
    omega
  · rw [hcall, BitVec.le_def]
    dsimp only
    omega
  · rw [hcall, BitVec.le_def]
    dsimp only
    omega
  · intro hnull
    rw [hcall] at hnull
    dsimp only at hnull
    rw [hnull] at hp
    simp only [BitVec.toNat_ofNat, Nat.zero_mod] at hp
    omega

/-- A call does what it should exactly if its sum does not wrap, or the wrap leaves no trace. -/
theorem sound_iff (hr : InRange h) (op : HeapOp) : Sound h op ↔ NoWrap h op := by
  cases hop : op.request with
  | none =>
    have hcall := call_none hop h
    refine iff_of_true (hr.sound_null (by rw [hcall]) (by rw [hcall])) ?_
    rw [NoWrap, hop]
    exact fun _ _ hsome => by cases hsome
  | some request =>
    obtain ⟨size, align⟩ := request
    obtain ⟨ha, rfl, mem, hcall⟩ := call_request hr hop
    rw [noWrap_iff hop]
    rcases @bump_cases_wrap size op.align ha h with ⟨hlt, hend, p, e, hbump, hp, he⟩ |
      ⟨hwrap, hfits, hbump⟩ | ⟨hbump, hbig⟩
    · rw [hbump] at hcall
      exact iff_of_true (hr.sound_block hcall hp he hend) (Or.inl hlt)
    · rw [hbump] at hcall
      constructor
      · intro hsound
        have hnull := hsound.null (by rw [hcall])
        rw [hcall] at hnull
        exact Or.inr (Or.inr hnull)
      · rintro (hlt | hbig | hsame)
        · omega
        · exact absurd hfits (BitVec.not_le.mpr hbig)
        · exact hr.sound_null (by rw [hcall]) (by rw [hcall]; exact hsame)
    · rw [hbump] at hcall
      refine iff_of_true (hr.sound_null (by rw [hcall]) (by rw [hcall])) ?_
      rcases Nat.lt_or_ge (alignUp h.heapCurrent.toNat op.align.toNat) (2 ^ 64) with hlt | hwrap
      · exact Or.inl hlt
      · exact Or.inr (Or.inl (hbig hwrap))

theorem bump_statics (size align : Word) (h : Heap) :
    ∃ e, (bump size align h).2 = { h with heapCurrent := e } := by
  unfold bump
  dsimp only
  split
  · split
    · exact ⟨_, rfl⟩
    · exact ⟨_, rfl⟩
  · exact ⟨_, rfl⟩

theorem call_statics (hr : InRange h) (op : HeapOp) :
    (callStep h op).heapInitialized = h.heapInitialized ∧ (callStep h op).heapStart = h.heapStart ∧
    (callStep h op).heapEnd = h.heapEnd := by
  rw [callStep]
  cases hop : op.request with
  | none =>
    rw [call_none hop h]
    exact ⟨rfl, rfl, rfl⟩
  | some request =>
    obtain ⟨size, align⟩ := request
    obtain ⟨-, -, mem, hcall⟩ := call_request hr hop
    obtain ⟨e, hbump⟩ := bump_statics size align h
    rw [hcall, hbump]
    exact ⟨rfl, rfl, rfl⟩

theorem Sound.inRange (hs : Sound h op) (hr : InRange h) : InRange (callStep h op) := by
  obtain ⟨hinit, hstart, hend⟩ := call_statics hr op
  exact ⟨hinit.trans hr.initialized, hstart ▸ hr.start_pos, hstart ▸ hs.start_le, hend ▸ hs.le_end⟩

theorem inRange_kheapInit (hpos : 0#64 < start) (hend : start.toNat + size.toNat < 2 ^ 64)
    (h : Heap) : InRange (kheapInit start size h) := by
  refine ⟨rfl, hpos, BitVec.le_refl _, ?_⟩
  rw [BitVec.le_def]
  dsimp only [kheapInit]
  rw [BitVec.toNat_add, Nat.mod_eq_of_lt hend]
  exact Nat.le_add_right _ _

/-- On a heap anywhere in the address space all calls of a run do what they should exactly if no
sum wraps and leaves a trace. -/
theorem calls_sound_iff (hpos : 0#64 < start) (hend : start.toNat + size.toNat < 2 ^ 64) (h : Heap)
    (ops : List HeapOp) :
    Allowed callStep Sound (kheapInit start size h) ops ↔
      Allowed callStep NoWrap (kheapInit start size h) ops :=
  Allowed.congr_invariant (Q := InRange) (fun _ op hr => sound_iff hr op)
    (fun _ _ hr hs => hs.inRange hr) (inRange_kheapInit hpos hend h)

/-- A heap at `KERNEL_BASE` that nothing asks to align beyond it. -/
theorem calls_sound_page :
    Allowed callStep Sound
      (kheapInit 0xFFFFFFFF80000000#64 0x100000#64 ⟨0#64, 0#64, 0#64, false, fun _ => 0#8⟩)
      [.kmallocAligned 16#64 0x1000#64] := by
  refine (calls_sound_iff (by decide) (by decide) _ _).mpr ⟨?_, trivial⟩
  rintro size align ⟨rfl, rfl⟩
  exact Or.inl (by decide)

/-- The next multiple of 4 GiB after `KERNEL_BASE` is the end of the address space. -/
theorem calls_not_sound_kernel_base :
    ¬ Allowed callStep Sound
      (kheapInit 0xFFFFFFFF80000000#64 0x100000#64 ⟨0#64, 0#64, 0#64, false, fun _ => 0#8⟩)
      [.kmallocAligned 16#64 0x100000000#64] := by
  rintro ⟨hsound, -⟩
  have hnull := hsound.null (by decide +kernel)
  revert hnull
  decide +kernel

end FenwickOS.Libk
