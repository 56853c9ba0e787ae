import FenwickOS.Lib.Runs
import FenwickOS.Mm.BlockList
import Mathlib.Algebra.BigOperators.Group.List.Basic

/-! What `heap_free_bytes` of kernel/mm/paging.c counts while blocks are found and split. -/
namespace FenwickOS.Mm
open Machine

/-- More rounds than the region has room for blocks. -/
def searchRounds : Nat := 209716

/-- `carved` is no part of the source: the block that was cut last. -/
structure Carving where
  heap : BlockHeap
  carved : Option Word

/-- `heap_find_best_fit`, and `heap_split_block` if it finds a block. -/
def carvingStep (s : Carving) (n : Word) : Carving :=
  match heapFindBestFit searchRounds n s.heap with
  | none => s
  | some b =>
    if b = 0#64 then s
    else
      { heap := heapSplitBlock b n s.heap
        carved :=
          if HeapBlock.size s.heap.mem b ≤ n + sizeofHeapBlock + 16#64 then s.carved else some b }

def freeSum (m : Word → Byte) (bs : List Word) : Nat :=
  ((bs.filter fun b => HeapBlock.isFree m b != 0#8).map (blockSize m)).sum

/-- `heap_free_bytes` is the size of the free blocks on the list, with the block cut last or without
it. -/
def CountsFree (s : Carving) : Prop :=
  ∃ bs, Linked s.heap.mem s.heap.heapHead bs ∧
    (s.heap.heapFreeBytes.toNat = freeSum s.heap.mem bs ∨
      ∃ b ∈ s.carved, s.heap.heapFreeBytes.toNat = freeSum s.heap.mem (bs.erase b))

/-- If the block that fits best is large enough to be cut, every other block is empty. -/
def CutsLastSpace (s : Carving) (n : Word) : Prop :=
  ∀ bs b, Linked s.heap.mem s.heap.heapHead bs →
    FirstLeast (Suits s.heap.mem n) (blockSize s.heap.mem) bs b →
    n.toNat + 56 < blockSize s.heap.mem b → ∀ c ∈ bs, c ≠ b → blockSize s.heap.mem c = 0

/-- Every block of the heap is marked free, as nothing here marks one used. -/
structure AllFree (s : BlockHeap) (sizes : List Nat) : Prop where
  blocks : BlockInvariant s sizes
  free : ∀ b ∈ blockAddrs 0x100000 sizes, HeapBlock.isFree s.mem b ≠ 0#8

variable {m : Word → Byte} {a b k size : Nat} {prev p next n v cur : Word}
  {sizes pre post : List Nat} {bs bs' : List Word} {s : BlockHeap} {c : Byte}

/-! ### The list and its sizes -/

theorem blockAddrs_append (a : Nat) (pre sizes : List Nat) : blockAddrs a (pre ++ sizes) =
    blockAddrs a pre ++ blockAddrs (a + 40 * pre.length + pre.sum) sizes := by
  induction pre generalizing a with
  | nil => simp [blockAddrs]
  | cons size pre ih =>
    have hstart : a + 40 * (size :: pre).length + (size :: pre).sum =
        a + 40 + size + 40 * pre.length + pre.sum := by
      rw [List.length_cons, List.sum_cons]
      omega
    rw [List.cons_append, blockAddrs, blockAddrs, List.cons_append, ih, hstart]

theorem BlocksFrom.map_blockSize (h : BlocksFrom m prev a sizes) :
    (blockAddrs a sizes).map (blockSize m) = sizes := by
  induction sizes generalizing prev a with
  | nil => rfl
  | cons size sizes ih =>
    obtain ⟨hhead, htail⟩ := h
    have hle := htail.le
    rw [blockAddrs, List.map_cons, ih htail, blockSize, hhead.size, addr_toNat (by omega)]

theorem BlocksFrom.end_eq (h : BlocksFrom m prev a sizes) :
    a + 40 * sizes.length + sizes.sum = heapEnd := by
  induction sizes generalizing prev a with
  | nil => exact h
  | cons size sizes ih =>
    have hend := ih h.2
    rw [List.length_cons, List.sum_cons]
    omega

theorem blockAddrs_bounds {b : Word} (hb : b ∈ blockAddrs a sizes) :
    ∃ n, b = addr n ∧ (n = a ∨ a + 40 ≤ n) ∧ n + 40 ≤ a + 40 * sizes.length + sizes.sum := by
  induction sizes generalizing a with
  | nil => simp [blockAddrs] at hb
  | cons size sizes ih =>
    rw [List.length_cons, List.sum_cons]
    rcases List.mem_cons.mp hb with rfl | hb
    · exact ⟨a, rfl, Or.inl rfl, by omega⟩
    · obtain ⟨n, rfl, hn, hend⟩ := ih hb
      exact ⟨n, rfl, Or.inr (by omega), by omega⟩

/-! ### The marks -/

theorem isFree_addr : HeapBlock.isFree m (addr a) = m (addr (a + 16)) := by
  rw [HeapBlock.isFree, addr_add]

theorem putWord_apply (ha : a + 8 ≤ heapEnd) (hb : b ≤ heapEnd) (h : b < a ∨ a + 8 ≤ b) :
    putWord m a v (addr b) = m (addr b) := by
  have hta : (addr a).toNat = a := addr_toNat (by omega)
  have htb : (addr b).toNat = b := addr_toNat hb
  unfold heapEnd at ha hb
  exact store64_of_apart (by omega) (by omega)

theorem putByte_apply (ha : a ≤ heapEnd) (hb : b ≤ heapEnd) (h : b ≠ a) :
    putByte m a c (addr b) = m (addr b) := by
  refine Function.update_of_ne (fun heq => h ?_) _ _
  rw [← addr_toNat ha, ← addr_toNat hb, heq]

theorem isFree_newHeader (ha : a + 40 ≤ heapEnd) :
    HeapBlock.isFree (newHeader m a size prev next) (addr a) = 1#8 := by
  rw [isFree_addr]
  unfold newHeader
  simp (disch := omega) only [putWord_apply]
  exact Function.update_self _ _ _

theorem newHeader_apply (ha : a + 40 ≤ heapEnd) (hb : b ≤ heapEnd) (h : b < a ∨ a + 40 ≤ b) :
    newHeader m a size prev next (addr b) = m (addr b) := by
  unfold newHeader
  simp (disch := omega) only [putWord_apply, putByte_apply]

theorem relinked_apply (ha : a + 40 * sizes.length ≤ heapEnd) (hb : b ≤ heapEnd)
    (h : b < a + 32 ∨ a + 40 ≤ b) : relinked m a p sizes (addr b) = m (addr b) := by
  cases sizes with
  | nil => rfl
  | cons size sizes =>
    rw [List.length_cons] at ha
    exact putWord_apply (by omega) hb (by omega)

/-- A split changes no mark but that of the block it cuts off. -/
theorem isFree_splitMem (hle : a + 40 + size + 40 * sizes.length ≤ heapEnd) (hk : k + 56 < size)
    (hb : b + 40 ≤ a ∨ b = a ∨ b = a + 40 + size ∨ a + 40 + size + 40 ≤ b)
    (hend : b + 40 ≤ heapEnd) :
    HeapBlock.isFree (splitMem m a size k sizes) (addr b) = HeapBlock.isFree m (addr b) := by
  rw [isFree_addr, isFree_addr]
  unfold splitMem
  simp (disch := omega) only [putWord_apply, relinked_apply, newHeader_apply]

theorem isFree_splitMem_new (hle : a + 40 + size + 40 * sizes.length ≤ heapEnd)
    (hk : k + 56 < size) :
    HeapBlock.isFree (splitMem m a size k sizes) (addr (a + 40 + k)) = 1#8 := by
  have hnew := @isFree_newHeader m (a + 40 + k) (size - k - 40) (addr a)
    (startOf (a + 40 + size) sizes) (by omega)
  rw [isFree_addr] at hnew ⊢
  unfold splitMem
  simp (disch := omega) only [putWord_apply, relinked_apply]
  exact hnew

theorem BlocksFrom.free_splitMem (h : BlocksFrom m prev a (pre ++ size :: post))
    (hfree : ∀ b ∈ blockAddrs a (pre ++ size :: post), HeapBlock.isFree m b ≠ 0#8)
    (hk : k + 56 < size) :
    ∀ b ∈ blockAddrs a (pre ++ k :: (size - k - 40) :: post),
      HeapBlock.isFree (Mm.splitMem m (a + 40 * pre.length + pre.sum) size k post) b ≠ 0#8 := by
  obtain ⟨p, hp⟩ := h.drop
  have hle := hp.2.le
  have hsum := hp.2.end_eq
  have hstart : a + 40 * pre.length + pre.sum + 40 + k + 40 + (size - k - 40) =
      a + 40 * pre.length + pre.sum + 40 + size := by omega
  intro b hb
  rw [blockAddrs_append] at hb hfree
  simp only [blockAddrs, List.mem_append, List.mem_cons] at hb hfree
  rw [hstart] at hb
  rcases hb with hb | rfl | rfl | hb
  · have hold := hfree b (Or.inl hb)
    obtain ⟨j, rfl, -, hend⟩ := blockAddrs_bounds hb
    rwa [isFree_splitMem hle hk (Or.inl hend) (by omega)]
  · rw [isFree_splitMem hle hk (Or.inr (Or.inl rfl)) (by omega)]
    exact hfree _ (Or.inr (Or.inl rfl))
  · rw [isFree_splitMem_new hle hk]
    decide
  · have hold := hfree b (Or.inr (Or.inr hb))
    obtain ⟨j, rfl, hj, hend⟩ := blockAddrs_bounds hb
    rwa [isFree_splitMem hle hk (by omega) (by omega)]

/-! ### What one step does -/

theorem heapSplitBlock_eq {b : Word}
    (hbig : ¬ HeapBlock.size s.mem b ≤ n + sizeofHeapBlock + 16#64) :
    (heapSplitBlock b n s).heapHead = s.heapHead ∧
    (heapSplitBlock b n s).heapFreeBytes =
      HeapBlock.size (heapSplitBlock b n s).mem (b + sizeofHeapBlock + n) := by
  rw [heapSplitBlock, if_neg hbig]
  exact ⟨rfl, rfl⟩

/-- Cutting a block leaves every block free and sets the count to what is left of it. -/
theorem AllFree.carve (h : AllFree s (pre ++ size :: post)) (hn : n.toNat + 56 < size) :
    let s' := heapSplitBlock (addr (0x100000 + 40 * pre.length + pre.sum)) n s
    AllFree s' (pre ++ n.toNat :: (size - n.toNat - 40) :: post) ∧
      s'.heapFreeBytes.toNat = size - n.toNat - 40 := by
  intro s'
  obtain ⟨p, hp⟩ := h.blocks.blocks.drop
  have hle := hp.2.le
  have hbig : ¬ HeapBlock.size s.mem (addr (0x100000 + 40 * pre.length + pre.sum)) ≤
      n + sizeofHeapBlock + 16#64 := by
    rw [hp.1.size, split_keeps_iff (by omega) (by omega)]
    omega
  obtain ⟨hhead, hcount⟩ := heapSplitBlock_eq hbig
  have hblocks := h.blocks.blocks.carve hn
  have hmem := heapSplitBlock_mem (s := s) hp hn
  rw [← eq_addr n] at hblocks hmem
  refine ⟨⟨⟨hhead.trans h.blocks.head, hblocks⟩, ?_⟩, ?_⟩
  · rw [hmem]
    exact h.blocks.blocks.free_splitMem h.free hn
  · obtain ⟨q, hq⟩ := hblocks.drop
    have hnew : addr (0x100000 + 40 * pre.length + pre.sum) + sizeofHeapBlock + n =
        addr (0x100000 + 40 * pre.length + pre.sum + 40 + n.toNat) := by
      conv_lhs => rw [eq_addr n, sizeofHeapBlock, addr_add]
      exact addr_add
    rw [hcount, hnew, hq.2.1.size, addr_toNat (by omega)]

variable {t : Carving}

theorem carvingStep_cut {b : Word} (hfit : heapFindBestFit searchRounds n t.heap = some b)
    (hb : b ≠ 0#64) (hbig : ¬ HeapBlock.size t.heap.mem b ≤ n + sizeofHeapBlock + 16#64) :
    carvingStep t n = ⟨heapSplitBlock b n t.heap, some b⟩ := by
  unfold carvingStep
  rw [hfit]
  dsimp only
  rw [if_neg hb, if_neg hbig]

/-- A step leaves the heap alone, or it cuts the block that fits best. -/
theorem carvingStep_cases (h : AllFree t.heap sizes) (n : Word) :
    (carvingStep t n = t ∧ ∀ b,
      FirstLeast (Suits t.heap.mem n) (blockSize t.heap.mem) (blockAddrs 0x100000 sizes) b →
        blockSize t.heap.mem b ≤ n.toNat + 56) ∨
    ∃ pre size post, sizes = pre ++ size :: post ∧ n.toNat + 56 < size ∧
      FirstLeast (Suits t.heap.mem n) (blockSize t.heap.mem) (blockAddrs 0x100000 sizes)
        (addr (0x100000 + 40 * pre.length + pre.sum)) ∧
      carvingStep t n =
        ⟨heapSplitBlock (addr (0x100000 + 40 * pre.length + pre.sum)) n t.heap,
          some (addr (0x100000 + 40 * pre.length + pre.sum))⟩ := by
  have hrounds : (blockAddrs 0x100000 sizes).length < searchRounds := by
    have hle := h.blocks.blocks.le
    unfold heapEnd at hle
    rw [length_blockAddrs, searchRounds]
    omega
  obtain ⟨b, hfound⟩ := bestFitFrom_isSome h.blocks.linked hrounds n 0#64
  have hfit : heapFindBestFit searchRounds n t.heap = some b := hfound
  rcases bestFitFrom_bestOf h.blocks.linked bestOf_nil hfound with ⟨rfl, hnone⟩ | ⟨hne, hleast⟩
  · refine Or.inl ⟨?_, fun b hb => absurd hb.holds (hnone b hb.mem)⟩
    unfold carvingStep
    rw [hfit]
    exact if_pos rfl
  · obtain ⟨size, pre, post, rfl, rfl⟩ := isBlock_of_mem hleast.mem
    obtain ⟨p, hp⟩ := h.blocks.blocks.drop
    have hle := hp.2.le
    have hsize := h.blocks.blocks.blockSize_eq ⟨pre, post, rfl, rfl⟩
    have hfits : n.toNat ≤ size := hsize ▸ BitVec.le_def.mp hleast.holds.2
    have hkeeps := @split_keeps_iff size n (by omega) hfits
    rw [← hp.1.size] at hkeeps
    by_cases hcut : n.toNat + 56 < size
    · refine Or.inr ⟨pre, size, post, rfl, hcut, hleast, carvingStep_cut hfit hne ?_⟩
      rw [hkeeps]
      omega
    · have hwhole := hkeeps.mpr (by omega)
      refine Or.inl ⟨?_, fun b hb => ?_⟩
      · unfold carvingStep
        rw [hfit]
        dsimp only
        rw [if_neg hne, if_pos hwhole, heapSplitBlock, if_pos hwhole]
      · obtain rfl := hb.unique hleast
        omega

/-! ### The count -/

theorem freeSum_eq (h : ∀ b ∈ bs, HeapBlock.isFree m b ≠ 0#8) :
    freeSum m bs = (bs.map (blockSize m)).sum := by
  have hall : (bs.filter fun b => HeapBlock.isFree m b != 0#8) = bs :=
    List.filter_eq_self.mpr fun b hb => bne_iff_ne.mpr (h b hb)
  rw [freeSum, hall]

theorem BlocksFrom.sum_erase (h : BlocksFrom m prev a (pre ++ size :: post)) :
    (((blockAddrs a (pre ++ size :: post)).erase (addr (a + 40 * pre.length + pre.sum))).map
      (blockSize m)).sum = pre.sum + post.sum := by
  have hmem : addr (a + 40 * pre.length + pre.sum) ∈ blockAddrs a (pre ++ size :: post) := by
    simp [blockAddrs_append, blockAddrs]
  have hall := List.sum_map_erase (blockSize m) hmem
  rw [h.map_blockSize, h.blockSize_eq ⟨pre, post, rfl, rfl⟩, List.sum_append,
    List.sum_cons] at hall
  omega

/-- After a cut the count is right exactly if all other blocks are empty. -/
theorem AllFree.countsFree_carve (h : AllFree s (pre ++ size :: post))
    (hn : n.toNat + 56 < size) :
    CountsFree ⟨heapSplitBlock (addr (0x100000 + 40 * pre.length + pre.sum)) n s,
        some (addr (0x100000 + 40 * pre.length + pre.sum))⟩ ↔ pre.sum + post.sum = 0 := by
  obtain ⟨hall, hcount⟩ := h.carve hn
  have hblocks := hall.blocks.blocks
  have hwith := freeSum_eq hall.free
  have hwithout := @freeSum_eq _ ((blockAddrs 0x100000 (pre ++ n.toNat :: _ :: post)).erase
    (addr (0x100000 + 40 * pre.length + pre.sum)))
    fun b hb => hall.free b (List.mem_of_mem_erase hb)
  rw [hblocks.map_blockSize, List.sum_append, List.sum_cons, List.sum_cons] at hwith
  rw [hblocks.sum_erase, List.sum_cons] at hwithout
  constructor
  · rintro ⟨bs, hlist, hfree⟩
    obtain rfl := hlist.unique hall.blocks.linked
    dsimp only at hfree
    rw [hcount] at hfree
    rcases hfree with hfree | ⟨b, ⟨rfl⟩, hfree⟩
    · omega
    · omega
  · intro hzero
    refine ⟨_, hall.blocks.linked, Or.inr ⟨_, rfl, ?_⟩⟩
    dsimp only
    omega

theorem AllFree.empty_iff (h : AllFree s (pre ++ size :: post)) :
    (∀ c ∈ blockAddrs 0x100000 (pre ++ size :: post),
      c ≠ addr (0x100000 + 40 * pre.length + pre.sum) → blockSize s.mem c = 0) ↔
      pre.sum + post.sum = 0 := by
  have hblocks := h.blocks.blocks
  rw [← hblocks.sum_erase, List.sum_eq_zero_iff_forall_eq_nat, List.forall_mem_map]
  constructor
  · intro hempty c hc
    obtain ⟨hne, hc⟩ := hblocks.nodup.mem_erase_iff.mp hc
    exact hempty c hc hne
  · intro hempty c hc hne
    exact hempty c (hblocks.nodup.mem_erase_iff.mpr ⟨hne, hc⟩)

/-- One step: all blocks stay free, and the count stays right exactly if the step cuts nothing or
the only space there is. -/
theorem carvingStep_counts (h : AllFree t.heap sizes) (hcounts : CountsFree t) (n : Word) :
    (∃ sizes', AllFree (carvingStep t n).heap sizes') ∧
      (CountsFree (carvingStep t n) ↔ CutsLastSpace t n) := by
  rcases carvingStep_cases h n with ⟨he, hsmall⟩ | ⟨pre, size, post, rfl, hcut, hleast, he⟩
  · rw [he]
    refine ⟨⟨sizes, h⟩, iff_of_true hcounts ?_⟩
    intro bs b hlist hb hlarge
    obtain rfl := hlist.unique h.blocks.linked
    exact absurd (hsmall b hb) (by omega)
  · rw [he]
    refine ⟨⟨_, (h.carve hcut).1⟩, ?_⟩
    rw [h.countsFree_carve hcut, ← h.empty_iff]
    have hsize : n.toNat + 56 <
        blockSize t.heap.mem (addr (0x100000 + 40 * pre.length + pre.sum)) := by
      rwa [h.blocks.blocks.blockSize_eq ⟨pre, post, rfl, rfl⟩]
    constructor
    · intro hempty bs b hlist hb _
      obtain rfl := hlist.unique h.blocks.linked
      obtain rfl := hb.unique hleast
      exact hempty
    · exact fun h' => h' _ _ h.blocks.linked hleast hsize

/-! ### Runs -/

def carvingStart (s : BlockHeap) : Carving := ⟨heapInit s, none⟩

theorem allFree_heapInit (s : BlockHeap) : AllFree (heapInit s) [0x7FFFD8] := by
  refine ⟨blockInvariant_heapInit s, fun b hb => ?_⟩
  obtain rfl := List.mem_singleton.mp hb
  rw [heapInit_mem, isFree_newHeader (by simp [heapEnd])]
  decide

theorem countsFree_start (s : BlockHeap) : CountsFree (carvingStart s) := by
  have hall := allFree_heapInit s
  refine ⟨_, hall.blocks.linked, Or.inl ?_⟩
  rw [carvingStart, freeSum_eq hall.free, hall.blocks.blocks.map_blockSize]
  exact congrArg BitVec.toNat hall.blocks.blocks.1.size

/-- `heap_free_bytes` stays right along a run exactly if each block that is cut is the only one that
is not empty. -/
theorem countsFree_iff (s : BlockHeap) (ns : List Word) :
    Throughout carvingStep CountsFree (carvingStart s) ns ↔
      Allowed carvingStep CutsLastSpace (carvingStart s) ns :=
  throughout_iff_allowed (Q := fun t => (∃ sizes, AllFree t.heap sizes) ∧ CountsFree t)
    (fun _ h => h.2)
    (fun _ n ⟨⟨_, h⟩, hcounts⟩ hcut =>
      ⟨(carvingStep_counts h hcounts n).1, (carvingStep_counts h hcounts n).2.mpr hcut⟩)
    (fun _ n ⟨⟨_, h⟩, hcounts⟩ hafter => (carvingStep_counts h hcounts n).2.mp hafter)
    ⟨⟨_, allFree_heapInit s⟩, countsFree_start s⟩ ns

def zeroHeap : BlockHeap := ⟨0#64, 0#64, 0#64, 0#64, fun _ => 0#8⟩

/-- Two requests are cut from the fresh heap: the count misses the block of the first, which is
still marked free. -/
theorem countsFree_lost_second :
    ¬ Throughout carvingStep CountsFree (carvingStart zeroHeap) [0x100#64, 0x1000#64] := by
  intro h
  have hfirst : carvingStep (carvingStart zeroHeap) 0x100#64 =
      ⟨heapSplitBlock (addr 0x100000) 0x100#64 (heapInit zeroHeap), some (addr 0x100000)⟩ :=
    carvingStep_cut (by decide +kernel) (by decide +kernel) (by decide +kernel)
  have hall := (@AllFree.carve 0x7FFFD8 0x100#64 [] [] _ (allFree_heapInit zeroHeap)
    (by decide)).1
  have hcount := @AllFree.countsFree_carve _ 0x1000#64 [0x100] [] _ hall (by decide)
  have hsecond : carvingStep
      ⟨heapSplitBlock (addr 0x100000) 0x100#64 (heapInit zeroHeap), some (addr 0x100000)⟩
        0x1000#64 =
      ⟨heapSplitBlock (addr 0x100128) 0x1000#64
        (heapSplitBlock (addr 0x100000) 0x100#64 (heapInit zeroHeap)), some (addr 0x100128)⟩ :=
    carvingStep_cut (by decide +kernel) (by decide +kernel) (by decide +kernel)
  have hafter := h _ List.prefix_rfl
  rw [run_cons, hfirst, run_cons, hsecond] at hafter
  exact absurd (hcount.mp hafter) (by decide)

end FenwickOS.Mm
