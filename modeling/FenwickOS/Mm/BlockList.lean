import FenwickOS.Mm.BestFit
import Mathlib.Data.List.Chain
import Mathlib.Logic.Relation

/-! The blocks of the free-list heap tile its region, in every reachable state. -/
namespace FenwickOS.Mm
open Machine

/-- A block that the links from `heap_head` lead to. -/
inductive Listed (s : BlockHeap) : Word → Prop
  | head (h : s.heapHead ≠ 0#64) : Listed s s.heapHead
  | next {b : Word} (hb : Listed s b) (h : HeapBlock.next s.mem b ≠ 0#64) :
    Listed s (HeapBlock.next s.mem b)

def setFree (b : Word) (v : Byte) (s : BlockHeap) : BlockHeap :=
  { s with mem := HeapBlock.setIsFree s.mem b v }

inductive BlockStep : BlockHeap → BlockHeap → Prop
  | noFit {s : BlockHeap} {rounds : Nat} {n : Word}
      (h : heapFindBestFit rounds n s = some 0#64) : BlockStep s s
  | split {s : BlockHeap} {rounds : Nat} {n b : Word}
      (h : heapFindBestFit rounds n s = some b) (hb : b ≠ 0#64) :
    BlockStep s (heapSplitBlock b n s)
  | setFree {s : BlockHeap} {b : Word} (v : Byte) (hb : Listed s b) : BlockStep s (setFree b v s)

/-- Any memory and statics before `heap_init`. -/
def BlockReachable (s : BlockHeap) : Prop :=
  ∃ s₀, Relation.ReflTransGen BlockStep (heapInit s₀) s

/-- The list from `heap_head` is `bs`, doubly linked, and its blocks follow each other without a
gap from one end of the region to the other. -/
structure BlockList (s : BlockHeap) (bs : List Word) : Prop where
  head : bs.head? = some s.heapHead
  acyclic : bs.Nodup
  linked : bs.IsChain fun b c => HeapBlock.next s.mem b = c ∧ HeapBlock.prev s.mem c = b
  head_prev : HeapBlock.prev s.mem s.heapHead = 0#64
  last_next : ∀ b ∈ bs.getLast?, HeapBlock.next s.mem b = 0#64
  nonnull : ∀ b ∈ bs, b ≠ 0#64
  magic : ∀ b ∈ bs, HeapBlock.magic s.mem b = heapBlockMagic
  start : s.heapHead = heapStart
  tile : bs.IsChain fun b c =>
    c.toNat = b.toNat + sizeofHeapBlock.toNat + (HeapBlock.size s.mem b).toNat
  stop : ∀ b ∈ bs.getLast?,
    b.toNat + sizeofHeapBlock.toNat + (HeapBlock.size s.mem b).toNat =
      heapStart.toNat + heapSize.toNat

/-! ### Blocks by their sizes

The region is tiled, so a block's address follows from the sizes before it. -/

def addr (a : Nat) : Word := BitVec.ofNat 64 a

/-- The first byte behind the region. -/
abbrev heapEnd : Nat := 0x900000

/-- The pointer to a list of blocks that starts at `a`. -/
def startOf (a : Nat) : List Nat → Word
  | [] => 0#64
  | _ :: _ => addr a

structure Header (m : Word → Byte) (a : Nat) (size : Nat) (prev next : Word) : Prop where
  magic : HeapBlock.magic m (addr a) = heapBlockMagic
  size : HeapBlock.size m (addr a) = addr size
  prev : HeapBlock.prev m (addr a) = prev
  next : HeapBlock.next m (addr a) = next

/-- From address `a` to the end of the region, blocks of these sizes follow each other. -/
def BlocksFrom (m : Word → Byte) : (prev : Word) → (a : Nat) → List Nat → Prop
  | _, a, [] => a = heapEnd
  | prev, a, size :: sizes =>
    Header m a size prev (startOf (a + 40 + size) sizes) ∧
      BlocksFrom m (addr a) (a + 40 + size) sizes

def blockAddrs : (a : Nat) → List Nat → List Word
  | _, [] => []
  | a, size :: sizes => addr a :: blockAddrs (a + 40 + size) sizes

variable {m m' : Word → Byte} {a b k size : Nat} {prev prev' next n p q v best : Word}
  {sizes pre : List Nat} {s t : BlockHeap} {c : Byte}

theorem addr_toNat (h : a ≤ heapEnd) : (addr a).toNat = a := by
  unfold heapEnd at h
  rw [addr, BitVec.toNat_ofNat]
  omega

theorem eq_addr (n : Word) : n = addr n.toNat := by simp [addr]

theorem addr_ne_zero (hpos : 0 < a) (h : a ≤ heapEnd) : addr a ≠ 0#64 := by
  intro hz
  have := addr_toNat h
  rw [hz] at this
  simp at this
  omega

theorem BlocksFrom.le (h : BlocksFrom m prev a sizes) : a + 40 * sizes.length ≤ heapEnd := by
  induction sizes generalizing prev a with
  | nil => exact Nat.le_of_eq h
  | cons size sizes ih =>
    have := ih h.2
    rw [List.length_cons]
    omega

/-! ### Words at addresses of the region -/

def wordAt (m : Word → Byte) (a : Nat) : Word := load64 m (addr a)

def putWord (m : Word → Byte) (a : Nat) (v : Word) : Word → Byte := store64 m (addr a) v

def putByte (m : Word → Byte) (a : Nat) (c : Byte) : Word → Byte := store8 m (addr a) c

theorem addr_add : addr a + BitVec.ofNat 64 k = addr (a + k) := (BitVec.ofNat_add _ _).symm

theorem magic_addr : HeapBlock.magic m (addr a) = wordAt m a := rfl

theorem size_addr : HeapBlock.size m (addr a) = wordAt m (a + 8) := by
  rw [HeapBlock.size, addr_add, wordAt]

theorem next_addr : HeapBlock.next m (addr a) = wordAt m (a + 24) := by
  rw [HeapBlock.next, addr_add, wordAt]

theorem prev_addr : HeapBlock.prev m (addr a) = wordAt m (a + 32) := by
  rw [HeapBlock.prev, addr_add, wordAt]

theorem setMagic_addr : HeapBlock.setMagic m (addr a) v = putWord m a v := rfl

theorem setSize_addr : HeapBlock.setSize m (addr a) v = putWord m (a + 8) v := by
  rw [HeapBlock.setSize, addr_add, putWord]

theorem setIsFree_addr : HeapBlock.setIsFree m (addr a) c = putByte m (a + 16) c := by
  rw [HeapBlock.setIsFree, addr_add, putByte]

theorem setNext_addr : HeapBlock.setNext m (addr a) v = putWord m (a + 24) v := by
  rw [HeapBlock.setNext, addr_add, putWord]

theorem setPrev_addr : HeapBlock.setPrev m (addr a) v = putWord m (a + 32) v := by
  rw [HeapBlock.setPrev, addr_add, putWord]

theorem wordAt_putWord : wordAt (putWord m a v) a = v := load64_store64

theorem wordAt_putWord_of_apart (ha : a + 8 ≤ heapEnd) (hb : b + 8 ≤ heapEnd)
    (h : a + 8 ≤ b ∨ b + 8 ≤ a) : wordAt (putWord m a v) b = wordAt m b := by
  have hta : (addr a).toNat = a := addr_toNat (by omega)
  have htb : (addr b).toNat = b := addr_toNat (by omega)
  unfold heapEnd at ha hb
  exact load64_store64_of_apart (by omega) (by omega) (by omega)

theorem wordAt_putByte_of_apart (ha : a + 8 ≤ heapEnd) (hb : b + 8 ≤ heapEnd)
    (h : a < b ∨ b + 8 ≤ a) : wordAt (putByte m a c) b = wordAt m b := by
  have hta : (addr a).toNat = a := addr_toNat (by omega)
  have htb : (addr b).toNat = b := addr_toNat (by omega)
  unfold heapEnd at hb
  exact load64_store8_of_apart (by omega) (by omega)

theorem header_iff : Header m a size prev next ↔
    wordAt m a = heapBlockMagic ∧ wordAt m (a + 8) = addr size ∧ wordAt m (a + 32) = prev ∧
      wordAt m (a + 24) = next := by
  rw [← magic_addr, ← size_addr, ← prev_addr, ← next_addr]
  exact ⟨fun ⟨h1, h2, h3, h4⟩ => ⟨h1, h2, h3, h4⟩, fun ⟨h1, h2, h3, h4⟩ => ⟨h1, h2, h3, h4⟩⟩

/-! ### Changes of memory -/

/-- `m'` holds the same header fields as `m` from address `a` to the end, `is_free` apart. -/
theorem BlocksFrom.congr (h : BlocksFrom m prev a sizes)
    (hsame : ∀ b, a ≤ b → b + 8 ≤ heapEnd → wordAt m' b = wordAt m b) :
    BlocksFrom m' prev a sizes := by
  induction sizes generalizing prev a with
  | nil => exact h
  | cons size sizes ih =>
    obtain ⟨hhead, htail⟩ := h
    have hle := htail.le
    refine ⟨?_, ih htail fun b hb => hsame b (by omega)⟩
    rw [header_iff] at hhead ⊢
    rwa [hsame a (by omega) (by omega), hsame (a + 8) (by omega) (by omega),
      hsame (a + 32) (by omega) (by omega), hsame (a + 24) (by omega) (by omega)]

/-- Memory that changes only from some block of the list on leaves the blocks before it alone. -/
theorem BlocksFrom.replace {sizes' : List Nat} (h : BlocksFrom m prev a (pre ++ sizes))
    (hne : sizes ≠ []) (hne' : sizes' ≠ [])
    (hsame : ∀ b', b' + 8 ≤ a + 40 * pre.length + pre.sum → wordAt m' b' = wordAt m b')
    (hnew : ∀ p, BlocksFrom m p (a + 40 * pre.length + pre.sum) sizes →
      BlocksFrom m' p (a + 40 * pre.length + pre.sum) sizes') :
    BlocksFrom m' prev a (pre ++ sizes') := by
  induction pre generalizing prev a with
  | nil => simpa using hnew prev h
  | cons size pre ih =>
    rw [List.cons_append] at h ⊢
    obtain ⟨hhead, htail⟩ := h
    simp only [List.length_cons, List.sum_cons] at hsame hnew
    have hstart : a + 40 * (pre.length + 1) + (size + pre.sum) =
        a + 40 + size + 40 * pre.length + pre.sum := by omega
    rw [hstart] at hsame hnew
    refine ⟨?_, ih htail hsame hnew⟩
    have hnext : startOf (a + 40 + size) (pre ++ sizes') =
        startOf (a + 40 + size) (pre ++ sizes) := by
      cases pre with
      | nil =>
        obtain ⟨_, _, rfl⟩ := List.exists_cons_of_ne_nil hne
        obtain ⟨_, _, rfl⟩ := List.exists_cons_of_ne_nil hne'
        rfl
      | cons _ _ => rfl
    rw [header_iff] at hhead ⊢
    rwa [hnext, hsame a (by omega), hsame (a + 8) (by omega), hsame (a + 32) (by omega),
      hsame (a + 24) (by omega)]

theorem BlocksFrom.relink (h : BlocksFrom m prev a (size :: sizes)) :
    BlocksFrom (putWord m (a + 32) p) p a (size :: sizes) := by
  obtain ⟨hhead, htail⟩ := h
  have hle := htail.le
  refine ⟨?_, htail.congr fun b hb hend =>
    wordAt_putWord_of_apart (by omega) hend (by omega)⟩
  rw [header_iff] at hhead ⊢
  obtain ⟨hmagic, hsize, -, hnext⟩ := hhead
  simp (disch := omega) only [wordAt_putWord_of_apart, wordAt_putWord]
  exact ⟨hmagic, hsize, trivial, hnext⟩

/-! ### Blocks in the list -/

theorem BlocksFrom.drop (h : BlocksFrom m prev a (pre ++ sizes)) :
    ∃ p, BlocksFrom m p (a + 40 * pre.length + pre.sum) sizes := by
  induction pre generalizing prev a with
  | nil => exact ⟨prev, by simpa using h⟩
  | cons size pre ih =>
    rw [List.cons_append] at h
    obtain ⟨p, hp⟩ := ih h.2
    have hstart : a + 40 * (size :: pre).length + (size :: pre).sum =
        a + 40 + size + 40 * pre.length + pre.sum := by
      rw [List.length_cons, List.sum_cons]
      omega
    exact ⟨p, hstart ▸ hp⟩

/-- `b` is the address of a block of `size` bytes. -/
def IsBlock (a : Nat) (sizes : List Nat) (size : Nat) (b : Word) : Prop :=
  ∃ pre post, sizes = pre ++ size :: post ∧ b = addr (a + 40 * pre.length + pre.sum)

theorem isBlock_head : IsBlock a (size :: sizes) size (addr a) :=
  ⟨[], sizes, rfl, by simp⟩

theorem IsBlock.tail {size' : Nat} {b : Word} (h : IsBlock (a + 40 + size) sizes size' b) :
    IsBlock a (size :: sizes) size' b := by
  obtain ⟨pre, post, rfl, rfl⟩ := h
  refine ⟨size :: pre, post, rfl, congrArg addr ?_⟩
  rw [List.length_cons, List.sum_cons]
  omega

theorem BlocksFrom.next_cases {b : Word} (h : BlocksFrom m prev a sizes)
    (hb : IsBlock a sizes size b) :
    HeapBlock.next m b = 0#64 ∨ ∃ size', IsBlock a sizes size' (HeapBlock.next m b) := by
  obtain ⟨pre, post, rfl, rfl⟩ := hb
  obtain ⟨p, hhead, -⟩ := h.drop
  rw [hhead.next]
  cases post with
  | nil => exact Or.inl rfl
  | cons size' post =>
    refine Or.inr ⟨size', pre ++ [size], post, by simp, congrArg addr ?_⟩
    simp
    omega

theorem listed_isBlock {b : Word} (h : BlocksFrom s.mem prev a sizes)
    (hhead : s.heapHead = startOf a sizes) (hb : Listed s b) : ∃ size, IsBlock a sizes size b := by
  induction hb with
  | head hne =>
    cases sizes with
    | nil => exact (hne hhead).elim
    | cons size sizes => exact ⟨size, hhead ▸ isBlock_head⟩
  | next _ hne ih =>
    obtain ⟨size, hb⟩ := ih
    exact (h.next_cases hb).resolve_left hne

/-! ### Setting a flag -/

theorem BlocksFrom.setIsFree_head (h : BlocksFrom m prev a (size :: sizes)) (c : Byte) :
    BlocksFrom (HeapBlock.setIsFree m (addr a) c) prev a (size :: sizes) := by
  obtain ⟨hhead, htail⟩ := h
  have hle := htail.le
  rw [setIsFree_addr]
  refine ⟨?_, htail.congr fun b hb hend => wordAt_putByte_of_apart (by omega) hend (by omega)⟩
  rw [header_iff] at hhead ⊢
  simp (disch := omega) only [wordAt_putByte_of_apart]
  exact hhead

theorem BlocksFrom.setIsFree {b : Word} (h : BlocksFrom m prev a sizes)
    (hb : IsBlock a sizes size b) (c : Byte) :
    BlocksFrom (HeapBlock.setIsFree m b c) prev a sizes := by
  obtain ⟨pre, post, rfl, rfl⟩ := hb
  obtain ⟨p, hp⟩ := h.drop
  have hle := hp.le
  rw [List.length_cons] at hle
  refine h.replace (by simp) (by simp) (fun b' hb' => ?_) fun p hp => hp.setIsFree_head c
  rw [setIsFree_addr]
  exact wordAt_putByte_of_apart (by omega) (by omega) (by omega)

/-! ### Splitting -/

/-- The header of the block that a split cuts off. -/
def newHeader (m : Word → Byte) (a size : Nat) (prev next : Word) : Word → Byte :=
  putWord (putWord (putByte (putWord (putWord m a heapBlockMagic) (a + 8) (addr size)) (a + 16) 1#8)
    (a + 24) next) (a + 32) prev

theorem header_newHeader (ha : a + 40 ≤ heapEnd) :
    Header (newHeader m a size prev next) a size prev next := by
  rw [header_iff]
  unfold newHeader
  simp (disch := omega) only [wordAt_putWord_of_apart, wordAt_putByte_of_apart, wordAt_putWord,
    and_self]

theorem wordAt_newHeader (ha : a + 40 ≤ heapEnd) (hb : b + 8 ≤ heapEnd)
    (h : b + 8 ≤ a ∨ a + 40 ≤ b) :
    wordAt (newHeader m a size prev next) b = wordAt m b := by
  unfold newHeader
  simp (disch := omega) only [wordAt_putWord_of_apart, wordAt_putByte_of_apart]

/-- The neighbour's `prev` pointer, when there is a neighbour. -/
def relinked (m : Word → Byte) (a : Nat) (p : Word) : List Nat → Word → Byte
  | [] => m
  | _ :: _ => putWord m (a + 32) p

theorem BlocksFrom.relinked (h : BlocksFrom m prev a sizes) :
    BlocksFrom (Mm.relinked m a p sizes) p a sizes := by
  cases sizes with
  | nil => exact h
  | cons size sizes => exact h.relink

theorem wordAt_relinked (ha : a + 40 * sizes.length ≤ heapEnd) (hb : b + 8 ≤ heapEnd)
    (h : b + 8 ≤ a) : wordAt (relinked m a p sizes) b = wordAt m b := by
  cases sizes with
  | nil => rfl
  | cons size sizes =>
    rw [List.length_cons] at ha
    exact wordAt_putWord_of_apart (by omega) hb (by omega)

/-- Memory after a split of the block at `a`, whose header comes first. -/
def splitMem (m : Word → Byte) (a size k : Nat) (sizes : List Nat) : Word → Byte :=
  putWord (putWord
    (relinked (newHeader m (a + 40 + k) (size - k - 40) (addr a) (startOf (a + 40 + size) sizes))
      (a + 40 + size) (addr (a + 40 + k)) sizes)
    (a + 24) (addr (a + 40 + k))) (a + 8) (addr k)

theorem addr_sub (hk : k ≤ a) (ha : a ≤ heapEnd) : addr a - addr k = addr (a - k) := by
  unfold heapEnd at ha
  exact BitVec.ofNat_sub_ofNat_of_le _ _ (by omega) hk

theorem heapSplitBlock_mem (h : BlocksFrom s.mem prev a (size :: sizes)) (hk : k + 56 < size) :
    (heapSplitBlock (addr a) (addr k) s).mem = splitMem s.mem a size k sizes := by
  obtain ⟨hhead, htail⟩ := h
  have hle := htail.le
  have hbig : ¬ addr size ≤ addr k + sizeofHeapBlock + 16#64 := by
    rw [sizeofHeapBlock, addr_add, addr_add, BitVec.le_def, addr_toNat (by omega),
      addr_toNat (by omega)]
    omega
  have hnew : addr a + sizeofHeapBlock + addr k = addr (a + 40 + k) := by
    rw [sizeofHeapBlock, addr_add]
    exact addr_add
  have hrest : addr size - addr k - sizeofHeapBlock = addr (size - k - 40) := by
    rw [addr_sub (by omega) (by omega)]
    exact addr_sub (by omega) (by omega)
  rw [heapSplitBlock, hhead.size, if_neg hbig]
  simp only [hnew, hrest, setMagic_addr, setSize_addr, setIsFree_addr, setNext_addr, setPrev_addr,
    next_addr]
  simp (disch := omega) only [wordAt_putWord_of_apart, wordAt_putByte_of_apart]
  rw [← next_addr, hhead.next]
  cases sizes with
  | nil => rfl
  | cons size' sizes =>
    have hne : addr (a + 40 + size) ≠ 0#64 := addr_ne_zero (by omega) (by omega)
    rw [startOf, if_pos hne, setPrev_addr]
    rfl

theorem BlocksFrom.splitMem (h : BlocksFrom m prev a (size :: sizes)) (hk : k + 56 < size) :
    BlocksFrom (Mm.splitMem m a size k sizes) prev a (k :: (size - k - 40) :: sizes) := by
  obtain ⟨hhead, htail⟩ := h
  have hle := htail.le
  have hend : a + 40 + k + 40 + (size - k - 40) = a + 40 + size := by omega
  unfold Mm.splitMem
  refine ⟨?_, ?_, ?_⟩
  · rw [header_iff] at hhead ⊢
    obtain ⟨hmagic, -, hprev, -⟩ := hhead
    simp (disch := omega) only [wordAt_putWord_of_apart, wordAt_putWord, wordAt_relinked,
      wordAt_newHeader]
    exact ⟨hmagic, trivial, hprev, rfl⟩
  · have hnew := @header_newHeader m (a + 40 + k) (size - k - 40) (addr a)
      (startOf (a + 40 + size) sizes) (by omega)
    rw [header_iff] at hnew ⊢
    rw [hend]
    simpa (disch := omega) only [wordAt_putWord_of_apart, wordAt_relinked] using hnew
  · rw [hend]
    have hfresh : BlocksFrom (newHeader m (a + 40 + k) (size - k - 40) (addr a)
        (startOf (a + 40 + size) sizes)) (addr a) (a + 40 + size) sizes :=
      htail.congr fun b hb hb' => wordAt_newHeader (by omega) hb' (by omega)
    refine (hfresh.relinked (p := addr (a + 40 + k))).congr fun b hb hb' => ?_
    rw [wordAt_putWord_of_apart (by omega) hb' (by omega),
      wordAt_putWord_of_apart (by omega) hb' (by omega)]

theorem BlocksFrom.carve (h : BlocksFrom s.mem prev a (pre ++ size :: sizes)) (hk : k + 56 < size) :
    BlocksFrom (heapSplitBlock (addr (a + 40 * pre.length + pre.sum)) (addr k) s).mem prev a
      (pre ++ k :: (size - k - 40) :: sizes) := by
  obtain ⟨p, hp⟩ := h.drop
  have hle := hp.2.le
  rw [heapSplitBlock_mem hp hk]
  refine h.replace (by simp) (by simp) (fun b' hb' => ?_) fun p hp => hp.splitMem hk
  simp (disch := omega) only [Mm.splitMem, wordAt_putWord_of_apart, wordAt_relinked,
    wordAt_newHeader]

/-- A block is left whole exactly if what is left of it has no room for a header and 17 bytes. -/
theorem split_keeps_iff (hsize : size ≤ heapEnd) (hn : n.toNat ≤ size) :
    addr size ≤ n + sizeofHeapBlock + 16#64 ↔ size ≤ n.toNat + 56 := by
  have hnat := eq_addr n
  unfold heapEnd at hsize
  conv_lhs => rw [hnat, sizeofHeapBlock, addr_add, addr_add, BitVec.le_def, addr, addr,
    BitVec.toNat_ofNat, BitVec.toNat_ofNat]
  omega

theorem BlocksFrom.split {b : Word} (h : BlocksFrom s.mem prev a sizes)
    (hb : IsBlock a sizes size b) (hn : n.toNat ≤ size) :
    ∃ sizes', BlocksFrom (heapSplitBlock b n s).mem prev a sizes' := by
  obtain ⟨pre, post, rfl, rfl⟩ := hb
  obtain ⟨p, hp⟩ := h.drop
  have hle := hp.2.le
  have hnat := eq_addr n
  by_cases hk : n.toNat + 56 < size
  · refine ⟨pre ++ n.toNat :: (size - n.toNat - 40) :: post, ?_⟩
    have hcarve := h.carve hk
    rwa [← hnat] at hcarve
  · rw [heapSplitBlock, hp.1.size, if_pos ((split_keeps_iff (by omega) hn).mpr (by omega))]
    exact ⟨_, h⟩

/-! ### The list of addresses -/

theorem BlocksFrom.mem_blockAddrs {b : Word} (h : BlocksFrom m prev a sizes)
    (hb : b ∈ blockAddrs a sizes) : a ≤ b.toNat ∧ HeapBlock.magic m b = heapBlockMagic := by
  induction sizes generalizing prev a with
  | nil => simp [blockAddrs] at hb
  | cons size sizes ih =>
    have hle := h.le
    rw [List.length_cons] at hle
    rcases List.mem_cons.mp hb with rfl | hb
    · exact ⟨Nat.le_of_eq (addr_toNat (by omega)).symm, h.1.magic⟩
    · obtain ⟨hlow, hmagic⟩ := ih h.2 hb
      exact ⟨by omega, hmagic⟩

theorem BlocksFrom.linkedFrom (h : BlocksFrom m prev a sizes) (hpos : 0 < a) :
    Linked m (startOf a sizes) (blockAddrs a sizes) := by
  induction sizes generalizing prev a with
  | nil => rfl
  | cons size sizes ih =>
    obtain ⟨hhead, htail⟩ := h
    have hle := htail.le
    refine ⟨rfl, addr_ne_zero hpos (by omega), ?_⟩
    rw [hhead.next]
    exact ih htail (by omega)

theorem length_blockAddrs (a : Nat) (sizes : List Nat) :
    (blockAddrs a sizes).length = sizes.length := by
  induction sizes generalizing a with
  | nil => rfl
  | cons size sizes ih => rw [blockAddrs, List.length_cons, List.length_cons, ih]

theorem isBlock_of_mem {b : Word} (hb : b ∈ blockAddrs a sizes) :
    ∃ size, IsBlock a sizes size b := by
  induction sizes generalizing a with
  | nil => simp [blockAddrs] at hb
  | cons size sizes ih =>
    rcases List.mem_cons.mp hb with rfl | hb
    · exact ⟨size, isBlock_head⟩
    · obtain ⟨size', hblock⟩ := ih hb
      exact ⟨size', hblock.tail⟩

theorem BlocksFrom.blockSize_eq {b : Word} (h : BlocksFrom m prev a sizes)
    (hb : IsBlock a sizes size b) : blockSize m b = size := by
  obtain ⟨pre, post, rfl, rfl⟩ := hb
  obtain ⟨p, hp⟩ := h.drop
  have hle := hp.2.le
  rw [blockSize, hp.1.size, addr_toNat (by omega)]

theorem BlocksFrom.nodup (h : BlocksFrom m prev a sizes) : (blockAddrs a sizes).Nodup := by
  induction sizes generalizing prev a with
  | nil => exact List.nodup_nil
  | cons size sizes ih =>
    have hle := h.le
    rw [List.length_cons] at hle
    refine List.nodup_cons.mpr ⟨fun hb => ?_, ih h.2⟩
    have hlow := (h.2.mem_blockAddrs hb).1
    rw [addr_toNat (by omega)] at hlow
    omega

theorem BlocksFrom.linked (h : BlocksFrom m prev a sizes) :
    (blockAddrs a sizes).IsChain fun b c => HeapBlock.next m b = c ∧ HeapBlock.prev m c = b := by
  induction sizes generalizing prev a with
  | nil => exact List.isChain_nil
  | cons size sizes ih =>
    obtain ⟨hhead, htail⟩ := h
    cases sizes with
    | nil => exact List.isChain_singleton _
    | cons size' sizes => exact List.isChain_cons_cons.mpr ⟨⟨hhead.next, htail.1.prev⟩, ih htail⟩

theorem BlocksFrom.tile (h : BlocksFrom m prev a sizes) :
    (blockAddrs a sizes).IsChain fun b c =>
      c.toNat = b.toNat + sizeofHeapBlock.toNat + (HeapBlock.size m b).toNat := by
  induction sizes generalizing prev a with
  | nil => exact List.isChain_nil
  | cons size sizes ih =>
    obtain ⟨hhead, htail⟩ := h
    have hle := htail.le
    cases sizes with
    | nil => exact List.isChain_singleton _
    | cons size' sizes =>
      refine List.isChain_cons_cons.mpr ⟨?_, ih htail⟩
      rw [hhead.size, addr_toNat (by omega), addr_toNat (by omega), addr_toNat (by omega)]
      rfl

theorem BlocksFrom.last {b : Word} (h : BlocksFrom m prev a sizes)
    (hb : b ∈ (blockAddrs a sizes).getLast?) :
    HeapBlock.next m b = 0#64 ∧
      b.toNat + sizeofHeapBlock.toNat + (HeapBlock.size m b).toNat = heapEnd := by
  induction sizes generalizing prev a with
  | nil => simp [blockAddrs] at hb
  | cons size sizes ih =>
    obtain ⟨hhead, htail⟩ := h
    have hle := htail.le
    cases sizes with
    | nil =>
      obtain rfl : addr a = b := by simpa [blockAddrs] using hb
      refine ⟨hhead.next, ?_⟩
      rw [hhead.size, addr_toNat (by omega), addr_toNat (by omega)]
      exact htail
    | cons size' sizes => exact ih htail hb

/-! ### Runs -/

/-- The list from `heap_head` holds blocks of these sizes. -/
structure BlockInvariant (s : BlockHeap) (sizes : List Nat) : Prop where
  head : s.heapHead = addr 0x100000
  blocks : BlocksFrom s.mem 0#64 0x100000 sizes

theorem BlockInvariant.startOf_eq (h : BlockInvariant s sizes) :
    s.heapHead = startOf 0x100000 sizes := by
  cases sizes with
  | nil => exact absurd h.blocks (by simp [BlocksFrom, heapEnd])
  | cons size sizes => exact h.head

theorem heapInit_mem (s : BlockHeap) :
    (heapInit s).mem = newHeader s.mem 0x100000 0x7FFFD8 0#64 0#64 := by
  have hstart : heapStart = addr 0x100000 := rfl
  have hsize : heapSize - sizeofHeapBlock = addr 0x7FFFD8 := by decide
  simp only [heapInit, hstart, hsize, setMagic_addr, setSize_addr, setIsFree_addr, setNext_addr,
    setPrev_addr]
  rfl

theorem blockInvariant_heapInit (s : BlockHeap) : BlockInvariant (heapInit s) [0x7FFFD8] := by
  refine ⟨rfl, ⟨?_, rfl⟩⟩
  rw [heapInit_mem]
  exact header_newHeader (by simp [heapEnd])

theorem BlockInvariant.linked (h : BlockInvariant s sizes) :
    Linked s.mem s.heapHead (blockAddrs 0x100000 sizes) := by
  rw [h.startOf_eq]
  exact h.blocks.linkedFrom (by decide)

theorem BlockInvariant.fits {rounds : Nat} {b : Word} (h : BlockInvariant s sizes)
    (hfit : heapFindBestFit rounds n s = some b) (hb : b ≠ 0#64) :
    ∃ size, IsBlock 0x100000 sizes size b ∧ n.toNat ≤ size := by
  rcases bestFitFrom_bestOf h.linked bestOf_nil hfit with ⟨hnull, -⟩ | ⟨-, hleast⟩
  · exact absurd hnull hb
  · obtain ⟨size, hblock⟩ := isBlock_of_mem hleast.mem
    refine ⟨size, hblock, ?_⟩
    rw [← h.blocks.blockSize_eq hblock]
    exact BitVec.le_def.mp hleast.holds.2

theorem blockInvariant_step (h : BlockStep s t) (hs : BlockInvariant s sizes) :
    ∃ sizes', BlockInvariant t sizes' := by
  cases h with
  | noFit _ => exact ⟨sizes, hs⟩
  | @split rounds n b hfit hb =>
    obtain ⟨size, hblock, hn⟩ := hs.fits hfit hb
    obtain ⟨sizes', hblocks⟩ := hs.blocks.split hblock hn
    have hhead : (heapSplitBlock b n s).heapHead = s.heapHead := by
      unfold heapSplitBlock
      split <;> rfl
    exact ⟨sizes', hhead.trans hs.head, hblocks⟩
  | setFree v hb =>
    obtain ⟨size, hblock⟩ := listed_isBlock hs.blocks hs.startOf_eq hb
    exact ⟨sizes, hs.head, hs.blocks.setIsFree hblock v⟩

theorem blockInvariant_reachable (h : BlockReachable s) : ∃ sizes, BlockInvariant s sizes := by
  obtain ⟨s₀, hrun⟩ := h
  induction hrun with
  | refl => exact ⟨_, blockInvariant_heapInit s₀⟩
  | tail _ hstep ih =>
    obtain ⟨sizes, hs⟩ := ih
    exact blockInvariant_step hstep hs

theorem BlockInvariant.blockList (h : BlockInvariant s sizes) :
    BlockList s (blockAddrs 0x100000 sizes) := by
  obtain ⟨hhead, hblocks⟩ := h
  have hne : ∃ size rest, sizes = size :: rest := by
    cases sizes with
    | nil => exact absurd hblocks (by simp [BlocksFrom, heapEnd])
    | cons size rest => exact ⟨size, rest, rfl⟩
  refine ⟨?_, hblocks.nodup, hblocks.linked, ?_, fun b hb => (hblocks.last hb).1, fun b hb => ?_,
    fun b hb => (hblocks.mem_blockAddrs hb).2, hhead, hblocks.tile, fun b hb => (hblocks.last hb).2⟩
  · obtain ⟨size, rest, rfl⟩ := hne
    rw [hhead]
    rfl
  · obtain ⟨size, rest, rfl⟩ := hne
    rw [hhead]
    exact hblocks.1.prev
  · rintro rfl
    have := (hblocks.mem_blockAddrs hb).1
    simp at this

/-- However blocks are split and marked, they tile the heap's region, and the search for a best
fit ends. -/
theorem heapBlocks_tile (h : BlockReachable s) :
    (∃ bs, BlockList s bs) ∧ ∀ n, ∃ rounds b, heapFindBestFit rounds n s = some b := by
  obtain ⟨sizes, hs⟩ := blockInvariant_reachable h
  refine ⟨⟨_, hs.blockList⟩, fun n => ?_⟩
  exact ⟨_, bestFitFrom_isSome hs.linked (Nat.lt_succ_self _) n 0#64⟩

/-- The fresh heap after a split for 256 bytes. -/
theorem heapBlocks_tile_split :
    ∃ bs, BlockList
      (heapSplitBlock heapStart 0x100#64 (heapInit ⟨0#64, 0#64, 0#64, 0#64, fun _ => 0#8⟩)) bs := by
  refine (heapBlocks_tile ⟨⟨0#64, 0#64, 0#64, 0#64, fun _ => 0#8⟩,
    Relation.ReflTransGen.single ?_⟩).1
  exact @BlockStep.split _ 2 0x100#64 heapStart (by decide +kernel) (by decide)

end FenwickOS.Mm
