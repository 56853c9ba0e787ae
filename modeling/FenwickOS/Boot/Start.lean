import FenwickOS.Boot.Features

/-! `start` of boot/arch/x86_64/bootloader.asm: from the loader to `long_mode_entry`. -/
namespace FenwickOS.Boot
open Machine LongMode Segments
open I386 (Cpu Reg)

variable {img : Image} {c : Chip} {p q : Processor} {v : BitVec 32} {x : Word}

/-! ### After `setup_paging` -/

/-- The bits that the code turns on in EFER. -/
def eferOn : Word := eferLme ||| eferNxe

theorem efer_value (efer : Word) :
    efer.extractLsb' 32 32 ++ (efer.setWidth 32 ||| (1#32 <<< 8 ||| 1#32 <<< 11)) =
      efer ||| eferOn := by
  have hlow : ∀ k < 32, (1#32 <<< 8 ||| 1#32 <<< 11).getLsbD k = eferOn.getLsbD k := by decide
  have hhigh : ∀ k < 64, 32 ≤ k → eferOn.getLsbD k = false := by decide
  apply BitVec.eq_of_getLsbD_eq
  intro k hk
  have hor : (efer ||| eferOn).getLsbD k = (efer.getLsbD k || eferOn.getLsbD k) :=
    BitVec.getLsbD_or
  rw [BitVec.getLsbD_append, hor]
  by_cases hk32 : k < 32
  · have hset : (efer.setWidth 32 ||| (1#32 <<< 8 ||| 1#32 <<< 11)).getLsbD k =
        (efer.getLsbD k || eferOn.getLsbD k) := by
      rw [← hlow k hk32, BitVec.getLsbD_or, BitVec.getLsbD_setWidth, decide_eq_true hk32,
        Bool.true_and]
    rw [if_pos hk32]
    exact hset
  · have hsum : 32 + (k - 32) = k := by omega
    have hrest : k - 32 < 32 := by omega
    rw [if_neg hk32, hhigh k hk (by omega), BitVec.getLsbD_extractLsb', hsum, Bool.or_false,
      decide_eq_true hrest, Bool.true_and]

/-- EFER takes the value where the processor has a no-execute bit, and refuses it elsewhere. -/
theorem efer_refused (hlongMode : c.hasLongMode = true) {efer : Word}
    (hefer : efer &&& ~~~c.eferBits = 0#64) :
    (efer ||| eferOn) &&& ~~~(c.eferBits ||| eferLma) ≠ 0#64 ↔ c.hasNoExecute = false := by
  have hfeatures : 0x80000001#32 ≤ (c.cpuid 0x80000000#32).eax ∧
      (c.cpuid 0x80000001#32).edx.getLsbD 29 = true := by
    simpa [Chip.hasLongMode] using hlongMode
  have hlme : c.eferBits.getLsbD 8 = true := by
    rw [← includes_bit c.eferBits (by decide)]
    exact (c.longMode hfeatures).2
  have hnxe : c.eferBits.getLsbD 11 = c.hasNoExecute := by
    rw [← includes_bit c.eferBits (by decide)]
    exact c.noExecute
  have hon (k : Nat) (hk : k < 64) : eferOn.getLsbD k = decide (k = 8 ∨ k = 11) := by
    have hall : ∀ k < 64, eferOn.getLsbD k = decide (k = 8 ∨ k = 11) := by decide
    exact hall k hk
  have hlma (k : Nat) (hk : k < 64) : eferLma.getLsbD k = decide (k = 10) := by
    have hall : ∀ k < 64, eferLma.getLsbD k = decide (k = 10) := by decide
    exact hall k hk
  have hold (k : Nat) (hk : k < 64) (hset : efer.getLsbD k = true) :
      c.eferBits.getLsbD k = true := by
    have hbit := congrArg (fun w => w.getLsbD k) hefer
    simpa [hk, hset] using hbit
  have hbit (k : Nat) (hk : k < 64) :
      ((efer ||| eferOn) &&& ~~~(c.eferBits ||| eferLma)).getLsbD k =
        (decide (k = 11) && !c.hasNoExecute) := by
    simp only [BitVec.getLsbD_and, BitVec.getLsbD_or, BitVec.getLsbD_not, hk, hon k hk, hlma k hk,
      decide_true, Bool.true_and]
    by_cases h11 : k = 11
    · have hk11 : c.eferBits.getLsbD k = c.hasNoExecute := by
        rw [h11]
        exact hnxe
      rw [hk11]
      simp [h11]
    · by_cases h8 : k = 8
      · subst h8
        simp [hlme]
      · cases hset : efer.getLsbD k with
        | false => simp [h11, h8]
        | true => simp [hold k hk hset, h11]
  constructor
  · intro hne
    by_contra hhas
    rw [Bool.not_eq_false] at hhas
    apply hne
    apply BitVec.eq_of_getLsbD_eq
    intro k hk
    rw [hbit k hk, hhas]
    simp
  · intro hno he
    have h11 := hbit 11 (by decide)
    rw [he, hno] at h11
    simp at h11

/-- What the far jump needs. -/
structure Ready (img : Image) (q q' : Processor) : Prop where
  cpu : q'.cpu.mem = q.cpu.mem ∧ q'.cpu.cr3 = q.cpu.cr3
  gdt : q'.gdtLimit = 23#16 ∧ q'.gdtBase = img.gdt64
  pe : includes q'.cr0 cr0Pe = true
  pg : q'.paging = true
  efer : ∀ k, k < 64 → q'.efer.getLsbD k =
    (q.efer.getLsbD k || decide (k = 8 ∨ k = 10 ∨ k = 11))
  interrupts : q.eflags.getLsbD 9 = false → q'.eflags.getLsbD 9 = false

theorem pagingSet_body (hlongMode : c.hasLongMode = true) (hq : Protected c q)
    (hlimit : (load32 q.cpu.mem (img.gdtPointer.setWidth 64)).setWidth 16 = 23#16)
    (hbase : load32 q.cpu.mem (img.gdtPointer.setWidth 64 + 2#64) = img.gdt64) :
    if c.hasNoExecute then
      ∃ q', runBody c q (startCode img .pagingSet).body = .ok q' ∧ Ready img q q'
    else runBody c q (startCode img .pagingSet).body = .error protection := by
  have hfeatures : 0x80000001#32 ≤ (c.cpuid 0x80000000#32).eax ∧
      (c.cpuid 0x80000001#32).edx.getLsbD 29 = true := by
    simpa [Chip.hasLongMode] using hlongMode
  let cr4 := q.cr4 ||| (1#32 <<< 5 ||| 1#32 <<< 7)
  have hcr4 : cr4 &&& ~~~c.cr4Bits = 0#32 :=
    or_and_not hq.cr4 (and_not_of_includes (c.longMode hfeatures).1)
  have hpae : includes cr4 cr4Pae = true := by
    have hbit : (1#32 <<< 5 ||| 1#32 <<< 7).getLsbD 5 = true := by decide
    rw [cr4Pae, includes_bit cr4 (by decide), BitVec.getLsbD_or, hbit, Bool.or_true]
  have hlmeSet : includes (q.efer ||| eferOn) eferLme = true := by
    have hbit : eferOn.getLsbD 8 = true := by decide
    have hor : (q.efer ||| eferOn).getLsbD 8 = (q.efer.getLsbD 8 || eferOn.getLsbD 8) :=
      BitVec.getLsbD_or
    rw [eferLme, includes_bit _ (by decide), hor, hbit, Bool.or_true]
  have hecx : eferNumber = 0xC0000080#32 := rfl
  -- the processor after each instruction or two, up to `wrmsr`
  let q₁ := ((q.set .eax q.cr4).set .eax cr4).setStatus
    (c.status .or q.cr4 (1#32 <<< 5 ||| 1#32 <<< 7))
  let q₂ := ({ q₁ with cr4 := cr4 } : Processor).set .ecx 0xC0000080#32
  let q₃ := (q₂.set .eax (q.efer.setWidth 32)).set .edx (q.efer.extractLsb' 32 32)
  let q₄ := (q₃.set .eax (q.efer.setWidth 32 ||| (1#32 <<< 8 ||| 1#32 <<< 11))).setStatus
    (c.status .or (q.efer.setWidth 32) (1#32 <<< 8 ||| 1#32 <<< 11))
  have hor₁ : step c (q.set .eax q.cr4) (.alu .or .eax (1#32 <<< 5 ||| 1#32 <<< 7)) = .ok q₁ := by
    have heax : (q.set .eax q.cr4).reg .eax = q.cr4 := by simp
    rw [step, heax]
    rfl
  have htoCr4 : step c q₁ (.toCr4 .eax) = .ok { q₁ with cr4 := cr4 } := by
    have heax : q₁.reg .eax = cr4 := by simp [q₁]
    have hlma : includes q₁.efer eferLma = false := hq.lma
    rw [step, heax, hlma, if_neg (not_not.mpr hcr4), Bool.false_and, if_neg Bool.false_ne_true]
  have hrdmsr : step c q₂ .rdmsr = .ok q₃ := by
    have hreg : q₂.reg .ecx = eferNumber := by simp [q₂, hecx]
    rw [step, if_pos hreg]
    rfl
  have hor₂ : step c q₃ (.alu .or .eax (1#32 <<< 8 ||| 1#32 <<< 11)) = .ok q₄ := by
    have heax : q₃.reg .eax = q.efer.setWidth 32 := by simp [q₃]
    rw [step, heax]
    rfl
  have hwrmsr : step c q₄ .wrmsr =
      if c.hasNoExecute then
        .ok { q₄ with efer := (q.efer ||| eferOn) &&& ~~~eferLma ||| q.efer &&& eferLma }
      else .error protection := by
    have hreg : q₄.reg .ecx = eferNumber := by simp [q₄, q₃, q₂, hecx]
    have hvalue : q₄.reg .edx ++ q₄.reg .eax = q.efer ||| eferOn := by
      have heax : q₄.reg .eax = q.efer.setWidth 32 ||| (1#32 <<< 8 ||| 1#32 <<< 11) := by
        simp [q₄]
      have hedx : q₄.reg .edx = q.efer.extractLsb' 32 32 := by simp [q₄, q₃]
      rw [heax, hedx]
      exact efer_value q.efer
    have hpg : q₄.paging = false := hq.pg
    rw [step, hreg, hvalue, hpg, if_neg (not_not.mpr rfl)]
    cases hnx : c.hasNoExecute with
    | false =>
      rw [if_pos ((efer_refused hlongMode hq.efer).mpr hnx)]
      rfl
    | true =>
      have htaken : ¬ (q.efer ||| eferOn) &&& ~~~(c.eferBits ||| eferLma) ≠ 0#64 := by
        rw [efer_refused hlongMode hq.efer, hnx]
        decide
      rw [if_neg htaken, Bool.false_and, if_neg Bool.false_ne_true]
      rfl
  have hfirst : runBody c q (startCode img .pagingSet).body = runBody c q₄
      [.wrmsr, .movImm .eax img.gdtPointer, .lgdt .eax, .fromCr0 .eax,
        .alu .or .eax (1#32 <<< 31 ||| 1#32 <<< 0), .toCr0 .eax] := by
    dsimp only [startCode]
    rw [runBody_cons rfl, runBody_cons hor₁, runBody_cons htoCr4, runBody_cons rfl,
      runBody_cons hrdmsr, runBody_cons hor₂]
  rw [hfirst]
  cases hnx : c.hasNoExecute with
  | false =>
    rw [hnx, if_neg Bool.false_ne_true] at hwrmsr
    rw [if_neg Bool.false_ne_true]
    exact runBody_fault hwrmsr
  | true =>
    rw [hnx, if_pos rfl] at hwrmsr
    rw [if_pos rfl]
    let efer := (q.efer ||| eferOn) &&& ~~~eferLma ||| q.efer &&& eferLma
    let cr0 := q.cr0 ||| (1#32 <<< 31 ||| 1#32 <<< 0)
    let q₅ := ({ q₄ with efer := efer } : Processor).set .eax img.gdtPointer
    let q₆ : Processor := { q₅ with gdtLimit := 23#16, gdtBase := img.gdt64 }
    let q₇ := ((q₆.set .eax q.cr0).set .eax cr0).setStatus
      (c.status .or q.cr0 (1#32 <<< 31 ||| 1#32 <<< 0))
    have hlgdt : step c q₅ (.lgdt .eax) = .ok q₆ := by
      have heax : q₅.reg .eax = img.gdtPointer := by simp [q₅]
      have hmem : q₅.cpu.mem = q.cpu.mem := rfl
      rw [step, heax, hmem, hlimit, hbase]
    have hor₃ : step c (q₆.set .eax q.cr0) (.alu .or .eax (1#32 <<< 31 ||| 1#32 <<< 0)) =
        .ok q₇ := by
      have heax : (q₆.set .eax q.cr0).reg .eax = q.cr0 := by simp
      rw [step, heax]
      rfl
    have hpgSet : includes cr0 cr0Pg = true := by
      have hbit : (1#32 <<< 31 ||| 1#32 <<< 0).getLsbD 31 = true := by decide
      rw [cr0Pg, includes_bit cr0 (by decide), BitVec.getLsbD_or, hbit, Bool.or_true]
    have hpeSet : includes cr0 cr0Pe = true := by
      have hbit : (1#32 <<< 31 ||| 1#32 <<< 0).getLsbD 0 = true := by decide
      rw [cr0Pe, includes_bit cr0 (by decide), BitVec.getLsbD_or, hbit, Bool.or_true]
    have hlme : includes efer eferLme = true := by
      have hbit : eferOn.getLsbD 8 = true := by decide
      have hkept : (~~~eferLma).getLsbD 8 = true := by decide
      rw [eferLme, includes_bit efer (by decide)]
      simp only [efer, BitVec.getLsbD_or, BitVec.getLsbD_and, hbit, hkept]
      simp
    have htoCr0 : step c q₇ (.toCr0 .eax) =
        .ok { q₇ with cr0 := cr0, efer := efer &&& ~~~eferLma ||| eferLma } := by
      have heax : q₇.reg .eax = cr0 := by simp [q₇]
      have hefer : q₇.efer = efer := rfl
      have hpae' : includes q₇.cr4 cr4Pae = true := hpae
      rw [step, heax, hefer, hpae', hpgSet, hpeSet, hlme]
      rfl
    have hfromCr0 : step c q₆ (.fromCr0 .eax) = .ok (q₆.set .eax q.cr0) := rfl
    have hlast : runBody c q₄
        [.wrmsr, .movImm .eax img.gdtPointer, .lgdt .eax, .fromCr0 .eax,
          .alu .or .eax (1#32 <<< 31 ||| 1#32 <<< 0), .toCr0 .eax] =
        .ok { q₇ with cr0 := cr0, efer := efer &&& ~~~eferLma ||| eferLma } := by
      rw [runBody_cons hwrmsr, runBody_cons rfl, runBody_cons hlgdt, runBody_cons hfromCr0,
        runBody_cons hor₃, runBody_cons htoCr0]
      rfl
    refine ⟨_, hlast, ⟨rfl, rfl⟩, ⟨rfl, rfl⟩, hpeSet, hpgSet, fun k hk => ?_, fun hoff => ?_⟩
    · have hon : ∀ k < 64, eferOn.getLsbD k = decide (k = 8 ∨ k = 11) := by decide
      have hlma : ∀ k < 64, eferLma.getLsbD k = decide (k = 10) := by decide
      simp only [efer, BitVec.getLsbD_or, BitVec.getLsbD_and, BitVec.getLsbD_not, hon k hk,
        hlma k hk, hk]
      by_cases h10 : k = 10
      · simp [h10]
      · simp [h10]
    · have hstatus₁ := setStatus_interrupts hoff (c.status .or q.cr4 (1#32 <<< 5 ||| 1#32 <<< 7))
      have hstatus₂ := setStatus_interrupts hstatus₁
        (c.status .or (q.efer.setWidth 32) (1#32 <<< 8 ||| 1#32 <<< 11))
      exact setStatus_interrupts hstatus₂ _

/-! ### The call of `setup_paging` -/

theorem entriesMade_other {pml4Table a : Word} (hbound : pml4Table.toNat + 0x3000 ≤ 2 ^ 32)
    (w : Word → Word)
    (ha : a.toNat < pml4Table.toNat ∨ pml4Table.toNat + 0x3000 ≤ a.toNat) {n : Nat}
    (hn : n ≤ 512) : entriesMade pml4Table w n a = w a := by
  have hpdpt := Mm.pdptTable_toNat hbound
  have hne {b : Word} (hb : pml4Table.toNat ≤ b.toNat ∧ b.toNat < pml4Table.toNat + 0x3000) :
      a ≠ b := by
    rintro rfl
    omega
  have hcells : ∀ i ∈ List.range n,
      a ≠ Mm.entryAddr (Mm.pdTable pml4Table) (BitVec.ofNat 64 i) := by
    intro i hi
    have hlt := List.mem_range.mp hi
    have hcell := Mm.pdCell_toNat hbound (k := i) (by omega)
    exact hne (by omega)
  rw [entriesMade, foldl_update_other _ hcells, Function.update_of_ne (hne (by omega)),
    Function.update_of_ne (hne (by omega))]

theorem setupPaging_esp {pml4Table : Word} {cpu t : Cpu} {fuel : Nat}
    (h : I386.exec (bootCode pml4Table) fuel .setupPaging cpu = some t) :
    t.regs .esp = cpu.regs .esp := by
  refine I386.exec_regs (fun l i hi => ?_) h
  cases l with
  | setupPaging =>
    simp only [bootCode, List.mem_cons, List.not_mem_nil, or_false] at hi
    rcases hi with rfl | rfl | rfl | rfl | rfl | rfl | rfl
    all_goals rfl
  | mapLoop =>
    simp only [bootCode, List.mem_cons, List.not_mem_nil, or_false] at hi
    rcases hi with rfl | rfl | rfl | rfl | rfl | rfl
    all_goals rfl
  | mapped =>
    simp only [bootCode, List.mem_cons, List.not_mem_nil, or_false] at hi
    rcases hi with rfl | rfl
    all_goals rfl

theorem setupPaging_frame {pml4Table : Word} {cpu : Cpu} (haligned : pml4Table.toNat % 4096 = 0)
    (hbound : pml4Table.toNat + 0x3000 ≤ 2 ^ 32) (hzero : Zeroed cpu.mem pml4Table 0x3000) :
    ∃ t : Cpu, (∀ fuel ≥ 514,
        I386.exec (bootCode pml4Table) fuel .setupPaging cpu = some t) ∧
      t.regs .esp = cpu.regs .esp ∧ t.cr3.setWidth 64 = pml4Table ∧
      IdentityMapped (load64 t.mem) (t.cr3.setWidth 64) ∧
      ∀ x : Word, x.toNat < pml4Table.toNat ∨ pml4Table.toNat + 0x3000 ≤ x.toNat →
        t.mem x = cpu.mem x := by
  have hwords : HoldsWords cpu.mem (load64 cpu.mem) := fun _ _ => rfl
  obtain ⟨t, hrun, hcr3, hmade⟩ :=
    exec_setupPaging haligned hbound hwords (tablesZero haligned hzero)
  obtain ⟨t', hrun', -, hmapped, -⟩ := setup_paging_maps haligned hbound hzero
  have hsame : t' = t :=
    Option.some.inj ((hrun' 514 (Nat.le_refl _)).symm.trans (hrun 514 (Nat.le_refl _)))
  rw [hsame] at hmapped
  refine ⟨t, hrun, setupPaging_esp (hrun 514 (Nat.le_refl _)), hcr3, hmapped, fun x hx => ?_⟩
  have hlt := x.isLt
  have hword : (BitVec.ofNat 64 (x.toNat / 8 * 8) : Word).toNat = x.toNat / 8 * 8 := by
    rw [BitVec.toNat_ofNat]
    omega
  rw [hmade.byte x, hwords.byte x, entriesMade_other hbound _ (by omega) (Nat.le_refl _)]

theorem exec_setupPagingCall (haligned : img.pml4Table.toNat % 4096 = 0)
    (hbound : img.pml4Table.toNat + 0x7000 ≤ 2 ^ 30)
    (hzero : Zeroed p.cpu.mem img.pml4Table 0x3000) (hesp : p.reg .esp = img.stackTop)
    (hoff : p.eflags.getLsbD 9 = false) (next : StartLabel) :
    ∃ q, (∀ fuel ≥ 514,
        exec c pageWalk (startProgram img) (fuel + 1) .setupPaging (p.push (img.addr next)) =
          exec c pageWalk (startProgram img) fuel next q) ∧
      q.cpu.cr3.setWidth 64 = img.pml4Table ∧
      IdentityMapped (load64 q.cpu.mem) (q.cpu.cr3.setWidth 64) ∧
      (∀ x : Word, x.toNat < img.pml4Table.toNat ∨ img.pml4Table.toNat + 0x7000 ≤ x.toNat →
        q.cpu.mem x = p.cpu.mem x) ∧
      q.cr0 = p.cr0 ∧ q.cr4 = p.cr4 ∧ q.efer = p.efer ∧ q.eflags.getLsbD 9 = false := by
  have htop := stackTop_toNat hbound
  have hpushed := sub_four_toNat (a := img.stackTop) (by omega)
  have hmem : (p.push (img.addr next)).cpu.mem =
      store32 p.cpu.mem ((img.stackTop - 4#32).setWidth 64) (img.addr next) := by
    rw [Processor.push_mem, hesp]
  have hout (x : Word) (hx : x.toNat + 4 < img.stackTop.toNat ∨ img.stackTop.toNat ≤ x.toNat) :
      (p.push (img.addr next)).cpu.mem x = p.cpu.mem x := by
    rw [hmem]
    exact store32_of_apart _ _ (by omega) (by omega)
  have hzero' : Zeroed (p.push (img.addr next)).cpu.mem img.pml4Table 0x3000 := by
    intro x hlo hhi
    rw [hout x (by omega)]
    exact hzero x hlo hhi
  obtain ⟨t, hrun, hespT, hcr3, hmapped, hframe⟩ :=
    setupPaging_frame haligned (by omega) hzero'
  have hesp' : t.regs .esp = img.stackTop - 4#32 := by
    rw [hespT, ← hesp]
    exact Processor.push_reg.trans (if_pos rfl)
  let q : Processor := { p.push (img.addr next) with cpu := t }
  have htopQ : q.top = img.addr next := by
    have hreg : q.reg .esp = img.stackTop - 4#32 := hesp'
    have hload : load32 t.mem ((img.stackTop - 4#32).setWidth 64) =
        load32 (p.push (img.addr next)).cpu.mem ((img.stackTop - 4#32).setWidth 64) := by
      refine load32_congr fun k hk => hframe _ (Or.inr ?_)
      rw [BitVec.toNat_add, hpushed, BitVec.toNat_ofNat]
      omega
    rw [Processor.top, hreg]
    change load32 t.mem _ = _
    rw [hload, hmem]
    exact load32_store32 _ _ _
  refine ⟨(q.setStatus c.left).popped, fun fuel hfuel => ?_, hcr3, hmapped, fun x hx => ?_,
    rfl, rfl, rfl, setStatus_interrupts (p := q) hoff _⟩
  · have hroutine : (fun fuel cpu => I386.exec (bootCode img.pml4Table) fuel .setupPaging cpu) fuel
        (p.push (img.addr next)).cpu = some t := hrun fuel hfuel
    exact exec_flat rfl rfl hroutine htopQ
  · have hx' : t.mem x = p.cpu.mem x := by
      rw [hframe x (by omega), hout x (by omega)]
    exact hx'

/-! ### The far jump -/

/-- What `krnl_main` relies on when `long_mode_entry` begins in 64-bit mode: the identity map is
on, no interrupt comes, all five segment loads go through, and memory outside the tables and the
stack is as the loader has left it. -/
structure LongModeReady (img : Image) (p q : Processor) : Prop where
  cr3 : q.cpu.cr3.setWidth 64 = img.pml4Table
  mapped : IdentityMapped (load64 q.cpu.mem) (q.cpu.cr3.setWidth 64)
  paging : q.paging = true
  efer : ∀ k, k < 64 → q.efer.getLsbD k = (p.efer.getLsbD k || decide (k = 8 ∨ k = 10 ∨ k = 11))
  interrupts : q.eflags.getLsbD 9 = false
  loads : ∀ r, checkLoad (q.table pageWalk) 0#2 r 0x10#16 = none
  mem : ∀ x : Word, x.toNat < img.pml4Table.toNat ∨ img.pml4Table.toNat + 0x7000 ≤ x.toNat →
    q.cpu.mem x = p.cpu.mem x

theorem readLinear_low (hpg : q.paging = true)
    (hmapped : IdentityMapped (load64 q.cpu.mem) (q.cpu.cr3.setWidth 64)) (hx : x.toNat < 2 ^ 30) :
    q.readLinear pageWalk x = some (q.cpu.mem x) := by
  rw [Processor.readLinear, if_pos hpg, pageWalk, hmapped.low x hx]
  rfl

theorem loadDescriptor_low (hpg : q.paging = true)
    (hmapped : IdentityMapped (load64 q.cpu.mem) (q.cpu.cr3.setWidth 64))
    (hx : x.toNat + 8 ≤ 2 ^ 30) :
    q.loadDescriptor pageWalk x = some (load64 q.cpu.mem x) := by
  have hread (k : Nat) (hk : k < 8) :
      q.readLinear pageWalk (x + BitVec.ofNat 64 k) = some (q.cpu.mem (x + BitVec.ofNat 64 k)) := by
    apply readLinear_low hpg hmapped
    rw [BitVec.toNat_add, BitVec.toNat_ofNat]
    omega
  have hall : ∀ k : Fin 8, (q.readLinear pageWalk (x + BitVec.ofNat 64 k.val)).isSome := by
    intro k
    rw [hread k.val k.isLt]
    rfl
  rw [Processor.loadDescriptor, if_pos hall]
  congr 1
  refine load64_congr fun k hk => ?_
  rw [hread k hk]
  rfl

theorem table_entry (hload : Loaded img p.cpu.mem) (hpg : q.paging = true)
    (hmapped : IdentityMapped (load64 q.cpu.mem) (q.cpu.cr3.setWidth 64))
    (hbase : q.gdtBase = img.gdt64)
    (hmem : ∀ x : Word, x.toNat < img.pml4Table.toNat ∨ img.pml4Table.toNat + 0x7000 ≤ x.toNat →
      q.cpu.mem x = p.cpu.mem x) {i : Nat} {d : Word} (hd : gdt64Entries[i]? = some d) :
    (q.table pageWalk).entry i = d := by
  have hi : i < 3 := (List.getElem?_eq_some_iff.mp hd).1
  have hgdt := hload.gdtBound
  have hstart : (img.gdt64.setWidth 64 + BitVec.ofNat 64 (8 * i)).toNat =
      img.gdt64.toNat + 8 * i := by
    rw [BitVec.toNat_add, BitVec.toNat_setWidth, BitVec.toNat_ofNat]
    omega
  have hsame : load64 q.cpu.mem (img.gdt64.setWidth 64 + BitVec.ofNat 64 (8 * i)) =
      load64 p.cpu.mem (img.gdt64.setWidth 64 + BitVec.ofNat 64 (8 * i)) := by
    refine load64_congr fun k hk => hmem _ ?_
    have hapart := hload.apart
    rw [BitVec.toNat_add, hstart, BitVec.toNat_ofNat]
    omega
  have hfound := loadDescriptor_low hpg hmapped (x := q.gdtBase.setWidth 64 +
    BitVec.ofNat 64 (8 * i)) (by rw [hbase, hstart]; omega)
  dsimp only [Processor.table]
  rw [hfound, hbase, hsame, hload.entries i d hd]
  rfl

theorem selectors_fit {t : Table} (hlimit : t.limit = 23#16)
    (hentry : ∀ i d, gdt64Entries[i]? = some d → t.entry i = d) :
    checkJump t 0#2 0x08#16 = none ∧ is64Bit (t.entry 1) = true ∧
      ∀ r, checkLoad t 0#2 r 0x10#16 = none := by
  have hcode : t.entry 1 = 0x00AF9B000000FFFF#64 := hentry 1 _ rfl
  have hdata : t.entry 2 = 0x00AF93000000FFFF#64 := hentry 2 _ rfl
  have hfind (s : Selector) (hldt : s.inLdt = false) (hindex : 8 * s.index + 8 ≤ 24) :
      t.find s 8 = some (t.entry s.index) := by
    rw [Table.find, hldt, hlimit, if_neg Bool.false_ne_true, if_pos (by simpa using hindex)]
  have hfind₁ : t.find 0x08#16 8 = some 0x00AF9B000000FFFF#64 := by
    rw [hfind _ (by decide) (by decide), ← hcode]
    rfl
  have hfind₂ : t.find 0x10#16 8 = some 0x00AF93000000FFFF#64 := by
    rw [hfind _ (by decide) (by decide), ← hdata]
    rfl
  refine ⟨?_, ?_, fun r => ?_⟩
  · rw [checkJump, hfind₁]
    decide
  · rw [hcode]
    decide
  · cases r with
    | ss =>
      rw [checkLoad, checkStack, hfind₂]
      decide
    | ds | es | fs | gs =>
      rw [checkLoad, checkData, hfind₂]
      · decide
      · intro he
        cases he

/-! ### The whole way -/

/-- Both checks passed: `setup_paging` is called with the processor as the loader left it. -/
theorem exec_checks (hload : Loaded img p.cpu.mem) :
    ∃ q : Processor, q.reg .esp = img.stackTop ∧ q.eflags.getLsbD 9 = false ∧
      (q.cr0 = p.cr0 ∧ q.cr4 = p.cr4 ∧ q.efer = p.efer) ∧
      (∀ x : Word, x.toNat + 8 < img.stackTop.toNat ∨ img.stackTop.toNat ≤ x.toNat →
        q.cpu.mem x = p.cpu.mem x) ∧
      ∀ fuel, exec c pageWalk (startProgram img) (fuel + 8) .start p =
        if !c.hasCpuid then .halted .noCpuid
        else if !c.hasLongMode then .halted .noLongMode
        else exec c pageWalk (startProgram img) fuel .setupPaging
          (q.push (img.addr .pagingSet)) := by
  have htop := stackTop_toNat hload.bound
  have hesp : (begun img p).reg .esp = img.stackTop := by simp [begun]
  have hroom : 8 ≤ ((begun img p).reg .esp).toNat := by
    rw [hesp]
    omega
  obtain ⟨q₁, hkept₁, hoff₁, hrun₁⟩ :=
    exec_checkCpuid img c hroom begun_interrupts .cpuidChecked
  have hesp₁ : q₁.reg .esp = img.stackTop := hkept₁.esp.trans hesp
  cases hcpuid : c.hasCpuid with
  | false =>
    refine ⟨q₁, hesp₁, hoff₁, ⟨hkept₁.cr0, hkept₁.cr4, hkept₁.efer⟩, fun x hx => ?_, fun fuel => ?_⟩
    · exact hkept₁.mem x (by rwa [hesp])
    · have hrun := hrun₁ (fuel + 5)
      rw [hcpuid] at hrun
      exact (exec_start _).trans hrun
  | true =>
    have hroom₁ : 8 ≤ (q₁.reg .esp).toNat := by
      rw [hesp₁]
      omega
    obtain ⟨q₂, hkept₂, hoff₂, hrun₂⟩ :=
      exec_checkLongMode img hcpuid hroom₁ hoff₁ .longModeChecked
    have hkept := hkept₁.trans hkept₂
    refine ⟨q₂, hkept.esp.trans hesp, hoff₂, ⟨hkept.cr0, hkept.cr4, hkept.efer⟩, fun x hx => ?_,
      fun fuel => ?_⟩
    · exact hkept.mem x (by rwa [hesp])
    · have hrun := hrun₁ (fuel + 5)
      have hcall : exec c pageWalk (startProgram img) (fuel + 5) .cpuidChecked q₁ =
          exec c pageWalk (startProgram img) (fuel + 4) .checkLongMode
            (q₁.push (img.addr .longModeChecked)) := exec_call rfl rfl _
      have hcall' : exec c pageWalk (startProgram img) (fuel + 1) .longModeChecked q₂ =
          exec c pageWalk (startProgram img) fuel .setupPaging
            (q₂.push (img.addr .pagingSet)) := exec_call rfl rfl _
      rw [hcpuid, if_pos rfl, hcall, hrun₂ (fuel + 1), hcall'] at hrun
      rw [exec_start, hrun]
      cases c.hasLongMode <;> rfl

/-- How `start` ends, from every state that a loader leaves: without `cpuid` or without long mode
it halts in the loop of the check that failed; with both but without a no-execute bit, which
nothing checks, `wrmsr` faults; with all three `long_mode_entry` begins. -/
theorem start_outcome (hload : Loaded img p.cpu.mem) (hp : Protected c p) :
    ∃ q, (c.hasCpuid = true → c.hasLongMode = true → c.hasNoExecute = true →
        LongModeReady img p q) ∧
      ∀ fuel ≥ 524, exec c pageWalk (startProgram img) fuel .start p =
        if !c.hasCpuid then .halted .noCpuid
        else if !c.hasLongMode then .halted .noLongMode
        else if !c.hasNoExecute then .fault ⟨.protection, 0#16⟩
        else .entered img.longModeEntry true q := by
  have htop := stackTop_toNat hload.bound
  have hgdt := hload.gdtBound
  have hpointer : (img.gdtPointer.setWidth 64).toNat = img.gdt64.toNat + 24 := by
    rw [Image.gdtPointer, BitVec.toNat_setWidth, BitVec.toNat_add, BitVec.toNat_ofNat]
    omega
  have hapart := hload.apart
  have hbound := hload.bound
  obtain ⟨q₁, hesp, hoff, ⟨hcr0, hcr4, hefer⟩, hmem, hrun⟩ := exec_checks (c := c) hload
  have hzero : Zeroed q₁.cpu.mem img.pml4Table 0x3000 := by
    intro x hlo hhi
    rw [hmem x (by omega)]
    exact hload.tables x hlo hhi
  obtain ⟨q₂, hcall, hcr3, hmapped, hmem₂, hcr0₂, hcr4₂, hefer₂, hoff₂⟩ :=
    exec_setupPagingCall (c := c) hload.aligned hload.bound hzero hesp hoff .pagingSet
  have hmem' : ∀ x : Word,
      x.toNat < img.pml4Table.toNat ∨ img.pml4Table.toNat + 0x7000 ≤ x.toNat →
        q₂.cpu.mem x = p.cpu.mem x := by
    intro x hx
    rw [hmem₂ x hx, hmem x (by omega)]
  have hpointer' {a : Word} (ha : img.gdt64.toNat + 24 ≤ a.toNat)
      (ha' : a.toNat + 4 ≤ img.gdt64.toNat + 34) : load32 q₂.cpu.mem a = load32 p.cpu.mem a := by
    refine load32_congr fun k hk => hmem' _ ?_
    rw [BitVec.toNat_add, BitVec.toNat_ofNat]
    omega
  have hlimit : (load32 q₂.cpu.mem (img.gdtPointer.setWidth 64)).setWidth 16 = 23#16 := by
    rw [hpointer' (by omega) (by omega)]
    exact hload.limit
  have hbase : load32 q₂.cpu.mem (img.gdtPointer.setWidth 64 + 2#64) = img.gdt64 := by
    have hnext : (img.gdtPointer.setWidth 64 + 2#64).toNat = img.gdt64.toNat + 26 := by
      rw [BitVec.toNat_add, hpointer, BitVec.toNat_ofNat]
      omega
    rw [hpointer' (by omega) (by omega)]
    exact hload.base
  have hq₂ : Protected c q₂ := by
    have hpg : q₂.paging = p.paging := by rw [Processor.paging, hcr0₂, hcr0, Processor.paging]
    refine ⟨?_, ?_, ?_, ?_, ?_⟩
    · rw [hcr0₂, hcr0]
      exact hp.pe
    · rw [hcr4₂, hcr4]
      exact hp.cr4
    · rw [hefer₂, hefer]
      exact hp.efer
    · rw [hpg]
      exact hp.pg
    · rw [hefer₂, hefer]
      exact hp.lma
  -- with `n` blocks left when `setup_paging` begins
  have hreach : ∀ fuel ≥ 524, ∃ n, fuel = n + 10 ∧ 514 ≤ n := fun fuel hfuel =>
    ⟨fuel - 10, by omega, by omega⟩
  by_cases hcpuid : c.hasCpuid = true
  case neg =>
    refine ⟨p, fun h => absurd h hcpuid, fun fuel hfuel => ?_⟩
    obtain ⟨n, rfl, -⟩ := hreach fuel hfuel
    rw [Bool.not_eq_true] at hcpuid
    rw [hrun (n + 2), hcpuid]
    rfl
  by_cases hlongMode : c.hasLongMode = true
  case neg =>
    refine ⟨p, fun _ h => absurd h hlongMode, fun fuel hfuel => ?_⟩
    obtain ⟨n, rfl, -⟩ := hreach fuel hfuel
    rw [Bool.not_eq_true] at hlongMode
    rw [hrun (n + 2), hcpuid, hlongMode]
    rfl
  have hcome (n : Nat) (hn : 514 ≤ n) :
      exec c pageWalk (startProgram img) (n + 10) .start p =
        exec c pageWalk (startProgram img) (n + 1) .pagingSet q₂ := by
    rw [hrun (n + 2), hcpuid, hlongMode]
    exact hcall (n + 1) (by omega)
  have hbody := pagingSet_body hlongMode hq₂ hlimit hbase
  cases hnx : c.hasNoExecute with
  | false =>
    rw [hnx, if_neg Bool.false_ne_true] at hbody
    refine ⟨p, fun _ _ h => absurd h Bool.false_ne_true, fun fuel hfuel => ?_⟩
    obtain ⟨n, rfl, hn⟩ := hreach fuel hfuel
    rw [hcome n hn, hcpuid, hlongMode]
    exact exec_fault hbody n
  | true =>
    rw [hnx, if_pos rfl] at hbody
    obtain ⟨q, hbody, hready⟩ := hbody
    have hcr3' : q.cpu.cr3 = q₂.cpu.cr3 := hready.cpu.2
    have hmapped' : IdentityMapped (load64 q.cpu.mem) (q.cpu.cr3.setWidth 64) := by
      rw [hready.cpu.1, hcr3']
      exact hmapped
    have hmem'' : ∀ x : Word,
        x.toNat < img.pml4Table.toNat ∨ img.pml4Table.toNat + 0x7000 ≤ x.toNat →
          q.cpu.mem x = p.cpu.mem x := by
      intro x hx
      rw [hready.cpu.1]
      exact hmem' x hx
    obtain ⟨hjump, hlong, hloads⟩ := selectors_fit (t := q.table pageWalk) hready.gdt.1
      fun i d hd => table_entry hload hready.pg hmapped' hready.gdt.2 hmem'' hd
    refine ⟨q, fun _ _ _ => ⟨?_, hmapped', hready.pg, ?_, hready.interrupts hoff₂, hloads, hmem''⟩,
      fun fuel hfuel => ?_⟩
    · rw [hcr3']
      exact hcr3
    · intro k hk
      rw [hready.efer k hk, hefer₂, hefer]
    · obtain ⟨n, rfl, hn⟩ := hreach fuel hfuel
      have hlma : includes q.efer eferLma = true := by
        rw [eferLma, includes_bit q.efer (by decide), hready.efer 10 (by decide)]
        simp
      have hfetch : q.readLinear pageWalk (img.longModeEntry.setWidth 64) =
          some (q.cpu.mem (img.longModeEntry.setWidth 64)) := by
        have hentry := hload.entryBound
        apply readLinear_low hready.pg hmapped'
        rw [BitVec.toNat_setWidth]
        omega
      have hindex : Selector.index 0x08#16 = 1 := by decide
      have hfar : exec c pageWalk (startProgram img) (n + 1) .pagingSet q₂ =
          jumpFar pageWalk 0x08#16 img.longModeEntry q := exec_farJmp hbody rfl n
      rw [hcome n hn, hfar, hcpuid, hlongMode, jumpFar, hjump, hfetch, hindex, hlma, hlong]
      rfl

def sampleChip : Chip where
  writable := 0x00277FD7#32
  status op a b :=
    (if op.result a b = 0#32 then 1#32 <<< 6 else 0#32) ||| (if a < b then 1#32 <<< 0 else 0#32)
  left := 0#32
  cpuid leaf :=
    if leaf = 0x80000000#32 then ⟨0x80000008#32, 0#32, 0#32, 0#32⟩
    else ⟨0#32, 0#32, 0#32, 0x20100800#32⟩
  cr4Bits := 0x7FF#32
  eferBits := 0x901#64
  writable_status := by decide
  status_zero op a b := by
    by_cases hz : op.result a b = 0#32 <;> by_cases hlt : a < b <;> simp [hz, hlt, zeroFlag]
  status_carry a b := by
    by_cases hz : Alu.result .cmp a b = 0#32 <;> by_cases hlt : a < b <;>
      simp [hz, hlt, carryFlag]
  longMode _ := by decide
  noExecute := by decide

def sampleImage : Image where
  pml4Table := 0x103000#64
  gdt64 := 0x102000#32
  longModeEntry := 0x101800#32
  addr l := BitVec.ofNat 32 (0x101000 + 16 * l.ctorIdx)
  addr_injective a b hab := by
    cases a <;> cases b <;> first | rfl | exact absurd hab (by decide)

def sampleMemory : Word → Byte :=
  store32 (store32 (store64 (store64 (fun _ => 0#8) 0x102008#64 0x00AF9B000000FFFF#64)
    0x102010#64 0x00AF93000000FFFF#64) 0x102018#64 23#32) 0x10201A#64 0x102000#32

def sampleProcessor : Processor where
  cpu := ⟨fun _ => 0#32, none, 0#32, sampleMemory⟩
  eflags := 2#32
  cr0 := 1#32
  cr4 := 0#32
  efer := 0#64
  gdtLimit := 0#16
  gdtBase := 0#32

theorem start_outcome_enters : ∃ q, LongModeReady sampleImage sampleProcessor q ∧
    exec sampleChip pageWalk (startProgram sampleImage) 600 .start sampleProcessor =
      .entered 0x101800#32 true q := by
  have hload : Loaded sampleImage sampleProcessor.cpu.mem := by
    refine ⟨by decide, by decide, fun x hlo hhi => ?_, by decide, by decide, fun i d hd => ?_,
      by decide, by decide, by decide⟩
    · change sampleMemory x = 0#8
      have hlo' : 0x103000 ≤ x.toNat := hlo
      rw [sampleMemory, store32_of_apart _ _ (by decide) (Or.inr (Nat.le_trans (by decide) hlo')),
        store32_of_apart _ _ (by decide) (Or.inr (Nat.le_trans (by decide) hlo')),
        store64_of_apart (by decide) (Or.inr (Nat.le_trans (by decide) hlo')),
        store64_of_apart (by decide) (Or.inr (Nat.le_trans (by decide) hlo'))]
    · match i, hd with
      | 0, hd => cases hd; decide
      | 1, hd => cases hd; decide
      | 2, hd => cases hd; decide
  have hp : Protected sampleChip sampleProcessor := by
    constructor <;> decide
  obtain ⟨q, hready, hrun⟩ := start_outcome hload hp
  exact ⟨q, hready (by decide) (by decide) (by decide), hrun 600 (by decide)⟩

end FenwickOS.Boot
