import FenwickOS.Lib.I386
import FenwickOS.Mm.ActiveTables
import FenwickOS.Mm.PageRuns

/-! `setup_paging` of boot/arch/x86_64/bootloader.asm instruction by instruction, and the identity
map that the page allocator relies on. -/
namespace FenwickOS.Boot
open Machine I386 Mm

/-- What follows the loop has no label in the source. -/
inductive Label
  | setupPaging | mapLoop | mapped

def bootCode (pml4Table : Word) : Label → Block Label
  | .setupPaging =>
    { body :=
        [.movImm .eax ((pdptTable pml4Table).setWidth 32),
         .orImm .eax 0b11#32,
         .store ⟨pml4Table.setWidth 32, none⟩ .eax,
         .movImm .eax ((pdTable pml4Table).setWidth 32),
         .orImm .eax 0b11#32,
         .store ⟨(pdptTable pml4Table).setWidth 32, none⟩ .eax,
         .movImm .ecx 0#32]
      exit := .jmp .mapLoop }
  | .mapLoop =>
    { body :=
        [.movImm .eax 0x200000#32,
         .mul .ecx,
         .orImm .eax 0b10000011#32,
         .store ⟨(pdTable pml4Table).setWidth 32, some (.ecx, 8#32)⟩ .eax,
         .inc .ecx,
         .cmpImm .ecx 512#32]
      exit := .jne .mapLoop .mapped }
  | .mapped =>
    { body := [.movImm .eax (pml4Table.setWidth 32), .movCr3 .eax]
      exit := .ret }

def physToVirt (phys : Word) : Word := phys

/-- The processor maps the first GiB to itself, writable, and nothing else; the pages of
`mm_alloc_page` lie in it. -/
structure IdentityMapped (mem : Word → Word) (cr3 : Word) : Prop where
  low : ∀ v : Word, v.toNat < 2 ^ 30 → mmuWalk mem cr3 v = some (v, true)
  high : ∀ v : Word, Canonical v → 2 ^ 30 ≤ v.toNat → mmuWalk mem cr3 v = none
  pages : ∀ (s : Pool) (k : Nat), k < pageSize →
    mmuWalk mem cr3 (physToVirt (mmAllocPage s).1 + BitVec.ofNat 64 k) =
      some ((mmAllocPage s).1 + BitVec.ofNat 64 k, true)

/-- The bytes from `a` on are zero, as the loader leaves `.bss`. -/
def Zeroed (mem : Word → Byte) (a : Word) (n : Nat) : Prop :=
  ∀ x : Word, a.toNat ≤ x.toNat → x.toNat < a.toNat + n → mem x = 0#8

/-- `setup_paging` returns with its tables in CR3, and the processor finds the identity map in
them: at once, and in every later run of the calls of paging.c beside them. -/
def SetsUpPaging (pml4Table : Word) (s : Cpu) : Prop :=
  ∃ t : Cpu, (∀ fuel ≥ 514, exec (bootCode pml4Table) fuel .setupPaging s = some t) ∧
    t.cr3.setWidth 64 = pml4Table ∧
    IdentityMapped (load64 t.mem) (t.cr3.setWidth 64) ∧
    ∀ kd, Layout pml4Table kd → kd.toNat % 8 = 0 → Zeroed s.mem kd 4096 →
      ∀ r, PageReachable kd (load64 t.mem) r → IdentityMapped r.mm.mem (t.cr3.setWidth 64)

variable {pml4Table kd a : Word} {w : Word → Word} {s t : Cpu} {i : Nat} {v : Word}

/-! ### 32-bit arithmetic -/

theorem setWidth_of_lt (h : a.toNat < 2 ^ 32) : (a.setWidth 32).setWidth 64 = a := by
  apply BitVec.eq_of_toNat_eq
  rw [BitVec.toNat_setWidth, BitVec.toNat_setWidth]
  omega

theorem setWidth_or_of_lt (h : a.toNat < 2 ^ 32) (f : BitVec 32) :
    (a.setWidth 32 ||| f).setWidth 64 = a ||| f.setWidth 64 := by
  rw [BitVec.setWidth_or, setWidth_of_lt h]

theorem product_setWidth (hi : i < 512) :
    (((0x200000#32).setWidth 64 * (BitVec.ofNat 32 i).setWidth 64 : Word).setWidth 32).setWidth 64 =
      BitVec.ofNat 64 (0x200000 * i) := by
  have hcount : ((BitVec.ofNat 32 i).setWidth 64).toNat = i := by
    rw [BitVec.toNat_setWidth, BitVec.toNat_ofNat]
    omega
  have hsize : ((0x200000#32).setWidth 64 : Word).toNat = 0x200000 := rfl
  apply BitVec.eq_of_toNat_eq
  rw [BitVec.toNat_setWidth, BitVec.toNat_setWidth, BitVec.toNat_mul, hcount, hsize,
    BitVec.toNat_ofNat]
  omega

theorem pdAddress_setWidth (hbound : pml4Table.toNat + 0x3000 ≤ 2 ^ 32) (hi : i < 512) :
    ((pdTable pml4Table).setWidth 32 + BitVec.ofNat 32 i * 8#32).setWidth 64 =
      entryAddr (pdTable pml4Table) (BitVec.ofNat 64 i) := by
  have hpd := pdTable_toNat hbound
  apply BitVec.eq_of_toNat_eq
  rw [pdCell_toNat hbound hi]
  simp only [BitVec.toNat_setWidth, BitVec.toNat_add, BitVec.toNat_mul, BitVec.toNat_ofNat]
  omega

/-! ### The program -/

/-- The words of memory when the loop has made `n` entries of `pd_table`. -/
def entriesMade (pml4Table : Word) (w : Word → Word) (n : Nat) : Word → Word :=
  let mem := Function.update w pml4Table (pdptTable pml4Table ||| 0b11#64)
  let mem := Function.update mem (pdptTable pml4Table) (pdTable pml4Table ||| 0b11#64)
  (List.range n).foldl
    (fun mem i => Function.update mem (entryAddr (pdTable pml4Table) (BitVec.ofNat 64 i))
      (BitVec.ofNat 64 (0x200000 * i) ||| 0b10000011#64)) mem

theorem entriesMade_zero (pml4Table : Word) (w : Word → Word) :
    entriesMade pml4Table w 0 =
      Function.update (Function.update w pml4Table (pdptTable pml4Table ||| 0b11#64))
        (pdptTable pml4Table) (pdTable pml4Table ||| 0b11#64) := rfl

theorem entriesMade_succ (pml4Table : Word) (w : Word → Word) (n : Nat) :
    entriesMade pml4Table w (n + 1) =
      Function.update (entriesMade pml4Table w n)
        (entryAddr (pdTable pml4Table) (BitVec.ofNat 64 n))
        (BitVec.ofNat 64 (0x200000 * n) ||| 0b10000011#64) := by
  rw [entriesMade, List.range_succ, List.foldl_append]
  rfl

theorem entriesMade_next (hbound : pml4Table.toNat + 0x3000 ≤ 2 ^ 32) (w : Word → Word)
    (hi : i < 512) : entriesMade pml4Table w i (entryAddr (pdTable pml4Table) (BitVec.ofNat 64 i)) =
      w (entryAddr (pdTable pml4Table) (BitVec.ofNat 64 i)) := by
  have hpdpt := pdptTable_toNat hbound
  have hcell := pdCell_toNat hbound hi
  have hmade : ∀ k ∈ List.range i, entryAddr (pdTable pml4Table) (BitVec.ofNat 64 i) ≠
      entryAddr (pdTable pml4Table) (BitVec.ofNat 64 k) := by
    intro k hk he
    have hlt := List.mem_range.mp hk
    rw [he, pdCell_toNat hbound (by omega)] at hcell
    omega
  rw [entriesMade, foldl_update_other _ hmade, Function.update_of_ne, Function.update_of_ne]
  · intro he
    rw [he] at hcell
    omega
  · intro he
    rw [he] at hcell
    omega

/-- Before round `i` of the loop. -/
structure Mapping (pml4Table : Word) (w : Word → Word) (i : Nat) (s : Cpu) : Prop where
  ecx : s.regs .ecx = BitVec.ofNat 32 i
  words : HoldsWords s.mem (entriesMade pml4Table w i)

def TablesZero (pml4Table : Word) (w : Word → Word) : Prop :=
  ∀ a : Word, a.toNat % 8 = 0 → pml4Table.toNat ≤ a.toNat → a.toNat < pml4Table.toNat + 0x3000 →
    w a = 0#64

theorem mapping_zero (haligned : pml4Table.toNat % 4096 = 0)
    (hbound : pml4Table.toNat + 0x3000 ≤ 2 ^ 32) (hw : HoldsWords s.mem w)
    (hzero : TablesZero pml4Table w) :
    Mapping pml4Table w 0 (run step s (bootCode pml4Table .setupPaging).body) := by
  have hpdpt := pdptTable_toNat hbound
  have hpd := pdTable_toNat hbound
  have hmem : (run step s (bootCode pml4Table .setupPaging).body).mem =
      store32 (store32 s.mem pml4Table ((pdptTable pml4Table).setWidth 32 ||| 0b11#32))
        (pdptTable pml4Table) ((pdTable pml4Table).setWidth 32 ||| 0b11#32) := by
    have h4 := setWidth_of_lt (a := pml4Table) (by omega)
    have h3 := setWidth_of_lt (a := pdptTable pml4Table) (by omega)
    simp [bootCode, step, Cpu.address, h4, h3]
  refine ⟨by simp [bootCode, step], ?_⟩
  have hfirst := hw.store32 (a := pml4Table) (by omega) (hzero _ (by omega) (by omega) (by omega))
    ((pdptTable pml4Table).setWidth 32 ||| 0b11#32)
  have hsecond := hfirst.store32 (a := pdptTable pml4Table) (by omega)
    (by rw [Function.update_of_ne (pdptTable_ne hbound)]
        exact hzero _ (by omega) (by omega) (by omega))
    ((pdTable pml4Table).setWidth 32 ||| 0b11#32)
  have hflags : (0b11#32).setWidth 64 = 0b11#64 := rfl
  rw [setWidth_or_of_lt (by omega), setWidth_or_of_lt (by omega), hflags] at hsecond
  rw [hmem, entriesMade_zero]
  exact hsecond

theorem mapping_succ (haligned : pml4Table.toNat % 4096 = 0)
    (hbound : pml4Table.toNat + 0x3000 ≤ 2 ^ 32) (hi : i < 512)
    (hzero : TablesZero pml4Table w) (h : Mapping pml4Table w i s) :
    Mapping pml4Table w (i + 1) (run step s (bootCode pml4Table .mapLoop).body) ∧
      (run step s (bootCode pml4Table .mapLoop).body).zf = some (decide (i + 1 = 512)) := by
  have hcell := pdCell_toNat hbound hi
  have hmem : (run step s (bootCode pml4Table .mapLoop).body).mem =
      store32 s.mem (entryAddr (pdTable pml4Table) (BitVec.ofNat 64 i))
        (((0x200000#32).setWidth 64 * (BitVec.ofNat 32 i).setWidth 64 : Word).setWidth 32 |||
          0b10000011#32) := by
    rw [← pdAddress_setWidth hbound hi]
    simp [bootCode, step, Cpu.address, h.ecx]
  have hecx : (run step s (bootCode pml4Table .mapLoop).body).regs .ecx =
      BitVec.ofNat 32 (i + 1) := by
    simp [bootCode, step, h.ecx, BitVec.ofNat_add]
  have hzf : (run step s (bootCode pml4Table .mapLoop).body).zf =
      some ((run step s (bootCode pml4Table .mapLoop).body).regs .ecx == 512#32) := rfl
  refine ⟨⟨hecx, ?_⟩, ?_⟩
  · have hstore := h.words.store32 (a := entryAddr (pdTable pml4Table) (BitVec.ofNat 64 i))
      (by omega)
      (by rw [entriesMade_next hbound w hi]
          exact hzero _ (by omega) (by omega) (by omega))
      (((0x200000#32).setWidth 64 * (BitVec.ofNat 32 i).setWidth 64 : Word).setWidth 32 |||
        0b10000011#32)
    have hflags : (0b10000011#32).setWidth 64 = 0b10000011#64 := rfl
    rw [BitVec.setWidth_or, product_setWidth hi, hflags] at hstore
    rw [hmem, entriesMade_succ]
    exact hstore
  · rw [hzf, hecx]
    congr 1
    rw [Bool.eq_iff_iff, beq_iff_eq, decide_eq_true_iff, ← BitVec.toNat_inj]
    simp only [BitVec.toNat_ofNat]
    omega

/-- `setup_paging` on the processor makes the tables of `Mm.setupPaging`. -/
theorem exec_setupPaging (haligned : pml4Table.toNat % 4096 = 0)
    (hbound : pml4Table.toNat + 0x3000 ≤ 2 ^ 32) (hw : HoldsWords s.mem w)
    (hzero : TablesZero pml4Table w) :
    ∃ t : Cpu, (∀ fuel ≥ 514, exec (bootCode pml4Table) fuel .setupPaging s = some t) ∧
      t.cr3.setWidth 64 = pml4Table ∧ HoldsWords t.mem (entriesMade pml4Table w 512) := by
  have hstart : (bootCode pml4Table .setupPaging).exit = .jmp .mapLoop := rfl
  have hback : (bootCode pml4Table .mapLoop).exit = .jne .mapLoop .mapped := rfl
  obtain ⟨t, ht, hloop⟩ := exec_loop (n := 512) hback
    (fun i hi s hs => mapping_succ haligned hbound hi hzero hs) (by decide)
    (mapping_zero haligned hbound hw hzero)
  refine ⟨run step t (bootCode pml4Table .mapped).body, fun fuel hfuel => ?_, ?_, ht.words⟩
  · obtain ⟨rest, rfl⟩ : ∃ rest, fuel = rest + 1 + 512 + 1 := ⟨fuel - 514, by omega⟩
    rw [exec_jmp hstart, hloop, exec_ret rfl]
  · exact setWidth_of_lt (by omega)

/-! ### The walk -/

theorem setupPaging_mem (pml4Table : Word) (p : PagingState) :
    (setupPaging pml4Table p).mm.mem = entriesMade pml4Table p.mm.mem 512 := by
  dsimp only [setupPaging, entriesMade]

theorem bootMapped_congr {w' : Word → Word} (haligned : pml4Table.toNat % 4096 = 0)
    (hbound : pml4Table.toNat + 0x3000 ≤ 2 ^ 32) (h : BootMapped pml4Table w)
    (hsame : ∀ a : Word, a.toNat % 8 = 0 → w' a = w a) : BootMapped pml4Table w' := by
  refine h.of_entries fun c hc i => hsame _ ?_
  have htable := hc.toNat hbound
  rw [entryAddr_toNat (by omega)]
  omega

theorem index_of_lt (h : v.toNat < 2 ^ 30) :
    v.extractLsb' 30 18 = 0#18 ∧ v &&& 0x3FFFFFFF#64 = v := by
  have hmask : (v &&& 0x3FFFFFFF#64).toNat = v.toNat / 2 ^ 0 % 2 ^ 30 * 2 ^ 0 :=
    toNat_and_field v (k := 0) (n := 30) (by omega)
  refine ⟨?_, ?_⟩
  · apply BitVec.eq_of_toNat_eq
    rw [BitVec.extractLsb'_toNat, Nat.shiftRight_eq_div_pow, BitVec.toNat_ofNat]
    omega
  · apply BitVec.eq_of_toNat_eq
    rw [hmask]
    omega

/-- Among the canonical addresses only those of the first GiB have no bit from 30 to 47. -/
theorem lt_of_canonical (hv : Canonical v) (h : v.extractLsb' 30 18 = 0#18) : v.toNat < 2 ^ 30 := by
  have hfield := congrArg BitVec.toNat h
  rw [BitVec.extractLsb'_toNat, Nat.shiftRight_eq_div_pow, BitVec.toNat_ofNat] at hfield
  have hlow : (v.setWidth 48).toNat < 2 ^ 30 := by
    rw [BitVec.toNat_setWidth]
    omega
  have hsign : (v.setWidth 48).msb = false := by
    rw [BitVec.msb_eq_false_iff_two_mul_lt]
    omega
  rw [hv, BitVec.signExtend_eq_setWidth_of_msb_false hsign, BitVec.toNat_setWidth]
  omega

theorem mmAllocPage_lt (s : Pool) : (mmAllocPage s).1.toNat + pageSize ≤ 2 ^ 26 := by
  unfold mmAllocPage
  split
  · rename_i i _
    have hlt := lt_maxPages i
    rw [pageAddr_toNat, pageSize]
    omega
  · have hzero : (0#64 : Word).toNat = 0 := rfl
    rw [hzero]
    decide

theorem identityMapped (haligned : pml4Table.toNat % 4096 = 0)
    (hbound : pml4Table.toNat + 0x3000 ≤ 2 ^ 32) (h : BootMapped pml4Table w) :
    IdentityMapped w pml4Table := by
  have hlow (v : Word) (hv : v.toNat < 2 ^ 30) : mmuWalk w pml4Table v = some (v, true) := by
    obtain ⟨hindex, hmask⟩ := index_of_lt hv
    rw [mmuWalk_boot haligned hbound h, if_pos hindex, hmask]
  refine ⟨hlow, fun v hcanonical hv => ?_, fun s k hk => hlow _ ?_⟩
  · rw [mmuWalk_boot haligned hbound h, if_neg]
    intro hindex
    have := lt_of_canonical hcanonical hindex
    omega
  · have hpage := mmAllocPage_lt s
    rw [physToVirt, BitVec.toNat_add, BitVec.toNat_ofNat]
    omega

/-! ### Later runs -/

/-- The calls of paging.c leave the bootloader's tables alone. -/
theorem bootMapped_reachable (hl : Layout pml4Table kd)
    (hdir : ∀ i : Index, entry w kd i = 0#64) (h : BootMapped pml4Table w) {r : PageRun}
    (hr : PageReachable kd w r) : BootMapped pml4Table r.mm.mem := by
  induction hr with
  | refl => exact h
  | tail hreach hstep ih =>
    have hinv := pageInvariant_reachable hl.kernelDir hdir hreach
    have hkeep (op : MmOp) := ih.congr hl fun a ha => mmStep_mem hl.kernelDir hinv.tables ha op
    cases hstep with
    | mapPage phys virt flags => exact hkeep _
    | unmapPage virt => exact hkeep _
    | alloc _ => exact ih
    | allocFail _ => exact ih
    | free _ _ => exact ih

/-! ### Zeroed memory -/

theorem load64_zeroed {mem : Word → Byte} {c : Word} {n : Nat} (h : Zeroed mem c n)
    (hlo : c.toNat ≤ a.toNat) (hhi : a.toNat + 8 ≤ c.toNat + n) (hlt : a.toNat + 8 ≤ 2 ^ 64) :
    load64 mem a = 0#64 := by
  refine load64_eq_zero_iff.mpr fun k hk => ?_
  have haddr : (a + BitVec.ofNat 64 k).toNat = a.toNat + k := by
    rw [BitVec.toNat_add, BitVec.toNat_ofNat]
    omega
  exact h _ (by omega) (by omega)

theorem tablesZero (haligned : pml4Table.toNat % 4096 = 0) (h : Zeroed s.mem pml4Table 0x3000) :
    TablesZero pml4Table (load64 s.mem) :=
  fun _ _ hlo _ => load64_zeroed h hlo (by omega) (by omega)

theorem bootMapped_entriesMade (haligned : pml4Table.toNat % 4096 = 0)
    (hbound : pml4Table.toNat + 0x3000 ≤ 2 ^ 32) (hzero : TablesZero pml4Table w) (s : MmState) :
    BootMapped pml4Table (entriesMade pml4Table w 512) := by
  have hentry (c : Word) (hc : BootTable pml4Table c) (i : Index) : entry w c i = 0#64 := by
    have hi := i.isLt
    have htable := hc.toNat hbound
    have haddr := entryAddr_toNat (c := c) (by omega) i
    exact hzero _ (by omega) (by omega) (by omega)
  have h := bootMapped_setupPaging (p := ⟨{ s with mem := w }, 0#64⟩) hbound
    (hentry _ (Or.inl rfl)) (hentry _ (Or.inr (Or.inl rfl)))
  rwa [setupPaging_mem] at h

theorem kernelDir_entriesMade (hl : Layout pml4Table kd) (s : MmState) (i : Index) :
    entry (entriesMade pml4Table w 512) kd i = entry w kd i := by
  have h := setupPaging_kernelDir hl ⟨{ s with mem := w }, 0#64⟩ i
  rwa [setupPaging_mem] at h

/-- The boot tables identity-map what the page allocator hands out. -/
theorem setup_paging_maps (haligned : pml4Table.toNat % 4096 = 0)
    (hbound : pml4Table.toNat + 0x3000 ≤ 2 ^ 32) (hzero : Zeroed s.mem pml4Table 0x3000) :
    SetsUpPaging pml4Table s := by
  have htables := tablesZero haligned hzero
  obtain ⟨t, hrun, hcr3, hwords⟩ :=
    exec_setupPaging haligned hbound (fun _ _ => rfl : HoldsWords s.mem (load64 s.mem)) htables
  have hmapped : BootMapped pml4Table (load64 t.mem) :=
    bootMapped_congr haligned hbound
      (bootMapped_entriesMade haligned hbound htables MemoryManager.boot.mm) hwords
  refine ⟨t, hrun, hcr3, ?_, fun kd hl hkd hdir r hr => ?_⟩
  · rw [hcr3]
    exact identityMapped haligned hbound hmapped
  · have hempty (i : Index) : entry (load64 t.mem) kd i = 0#64 := by
      have hi := i.isLt
      have hroom := IsTable.bound hl.kernelDir (Or.inl rfl : IsTable kd kd)
      have haddr := entryAddr_toNat hroom i
      have hsame := kernelDir_entriesMade (w := load64 s.mem) hl MemoryManager.boot.mm i
      rw [entry] at hsame ⊢
      rw [hwords _ (by omega), hsame]
      exact load64_zeroed hdir (by omega) (by omega) (by omega)
    rw [hcr3]
    exact identityMapped haligned hbound (bootMapped_reachable hl hempty hmapped hr)

def zeroedCpu : Cpu := ⟨fun _ => 0#32, none, 0#32, fun _ => 0#8⟩

theorem setup_paging_maps_zeroed : SetsUpPaging 0x110000#64 zeroedCpu :=
  setup_paging_maps (by decide) (by decide) fun _ _ _ => rfl

end FenwickOS.Boot
