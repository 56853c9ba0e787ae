import FenwickOS.Mm.Translations

/-! What the processor has cached beside what it would find. -/
namespace FenwickOS.Mm
open Machine

/-- Through this translation the word at `a` is the one with this physical address. -/
def Translation.Reaches (t : Translation) (a : Word) : Prop :=
  t.frame ||| a &&& 0xFFF#64 = a ∧ t.rights.writable = true

/-- Of the call under way, if there is one, `n` stores are done, and the others will get to their
words. -/
structure Building (kd : Word) (mem : Word → Word) (x : Paged) (s t : MmState) (m m' : Contents)
    (build : List (Word × Word)) (tail : List Micro) (virt : Word) (n : Nat) : Prop where
  plan : Plan kd mem x.run.held s t m m' build tail virt
  done : n ≤ build.length
  mm : x.run.mm = ⟨t.pool, storeAll s.mem (build.take n), kd⟩
  todo : x.todo = stores (build.drop n) ++ tail
  reached : ∀ a v, .store a v ∈ x.todo → ¬ x.stale (key a) ∧
    ∃ t, translations kd x.cr3 m.map (key a) = some t ∧ t.Reaches a

/-- The entry has been written, and its translation is still to be dropped. -/
structure Changed (kd : Word) (mem : Word → Word) (x : Paged) (m : Contents) (virt : Word) :
    Prop where
  after : UseReachable kd mem (x.run, m)
  todo : x.todo = [.invlpg virt]

structure Tracked (pml4Table kd : Word) (mem : Word → Word) (x : Paged) : Prop where
  cr3 : x.cr3 = pml4Table ∨ x.cr3 = kd
  boot : BootMapped pml4Table x.run.mm.mem
  missed : ∀ v ∈ x.missed, ¬ Canonical v
  moment : (∃ s t m m' build tail virt n, Building kd mem x s t m m' build tail virt n) ∨
    ∃ m virt, Changed kd mem x m virt
  coherent : x.tlb.Coherent (fun k => x.stale k ∨ ∃ v, x.todo = [.invlpg v] ∧ key v = k) x.look

/-- The kernel's directory is a page of its own below 1 GiB, where the bootloader's tables map
memory to itself. -/
structure DirectoryPlaced (kd : Word) : Prop where
  aligned : kd.toNat % 4096 = 0
  low : kd.toNat + 4096 ≤ 2 ^ 30

variable {kd pml4Table a c : Word} {s t u : MmState} {mem : Word → Word} {k : BitVec 36}
  {p : Fin maxPages} {i : Index} {q is w : List Index} {l l' : List (Word × Word)} {x y : Paged}
  {m m' : Contents} {held : List Word} {virt v : Word} {build : List (Word × Word)}
  {tail todo : List Micro} {n : Nat}

/-! ### What the processor finds -/

theorem mmuPage_extends (hplaced : DirectoryPlaced kd) (hx : Shared kd (⟨s, held⟩, m))
    (h : Extends kd s u) (k : BitVec 36) :
    mmuPage u.mem kd k = (m.map k).map leafTranslation := by
  have hagrees := hx.map.agrees (pageBase k)
  have hlow : kd.toNat < 2 ^ 52 := by
    have hlow := hplaced.low
    omega
  rw [mmuPage_tables hplaced.aligned hlow h.tables, h.find_eq _ _ rfl]
  rw [key_pageBase] at hagrees
  exact congrArg _ hagrees

theorem mmuPage_eq (hl : Layout pml4Table kd) (hplaced : DirectoryPlaced kd) {cr3 : Word}
    (hcr3 : cr3 = pml4Table ∨ cr3 = kd) (hboot : BootMapped pml4Table u.mem)
    (hx : Shared kd (⟨s, held⟩, m)) (h : Extends kd s u) :
    mmuPage u.mem cr3 = translations kd cr3 m.map := by
  have hne : pml4Table ≠ kd := by
    rintro rfl
    have hapart := hl.apart
    omega
  funext k
  rcases hcr3 with rfl | rfl
  · rw [translations, if_neg hne]
    exact mmuPage_boot hl.aligned hl.bound hboot k
  · rw [translations, if_pos rfl]
    exact mmuPage_extends hplaced hx h k

theorem Building.look_eq (hl : Layout pml4Table kd) (hplaced : DirectoryPlaced kd)
    (hzero : ∀ i : Index, entry mem kd i = 0#64) (hcr3 : x.cr3 = pml4Table ∨ x.cr3 = kd)
    (hboot : BootMapped pml4Table x.run.mm.mem) (h : Building kd mem x s t m m' build tail virt n) :
    x.look = translations kd x.cr3 m.map := by
  obtain ⟨u, hmem, hext, -⟩ := h.plan.through n
  have hu : u.mem = x.run.mm.mem := by rw [hmem, h.mm]
  rw [← hu] at hboot
  have hlook := mmuPage_eq hl hplaced hcr3 hboot
    (shared_reachable hl.kernelDir hzero h.plan.before) hext
  rwa [hu] at hlook

theorem Changed.look_eq (hl : Layout pml4Table kd) (hplaced : DirectoryPlaced kd)
    (hzero : ∀ i : Index, entry mem kd i = 0#64) (hcr3 : x.cr3 = pml4Table ∨ x.cr3 = kd)
    (hboot : BootMapped pml4Table x.run.mm.mem) (h : Changed kd mem x m virt) :
    x.look = translations kd x.cr3 m.map := by
  have hshared := shared_reachable hl.kernelDir hzero h.after
  exact mmuPage_eq hl hplaced hcr3 hboot hshared (Extends.refl hshared.pages.tables)

/-! ### Tables that are mapped to themselves -/

theorem IsTable.low (hc : IsTable kd c) (hplaced : DirectoryPlaced kd) :
    c.toNat % 4096 = 0 ∧ c.toNat + 4096 ≤ 2 ^ 30 := by
  rcases hc with rfl | ⟨p, -, rfl⟩
  · exact ⟨hplaced.aligned, hplaced.low⟩
  · have hp := lt_maxPages p
    rw [pageAddr_toNat]
    omega

theorem entryAddr_page (halign : c.toNat % 4096 = 0) (hlow : c.toNat + 4096 ≤ 2 ^ 30) (i : Index) :
    key (entryAddr c (i.setWidth 64)) = key c ∧
      c ||| entryAddr c (i.setWidth 64) &&& 0xFFF#64 = entryAddr c (i.setWidth 64) := by
  have hi := i.isLt
  have haddr : (entryAddr c (i.setWidth 64)).toNat = c.toNat + 8 * i.toNat :=
    entryAddr_toNat (by omega) i
  have hoffset : (entryAddr c (i.setWidth 64) &&& 0xFFF#64).toNat = 8 * i.toNat := by
    have hmask := toNat_and_field (entryAddr c (i.setWidth 64)) (k := 0) (n := 12) (by omega)
    rw [haddr] at hmask
    refine hmask.trans ?_
    omega
  constructor
  · apply BitVec.eq_of_toNat_eq
    rw [key, key, BitVec.extractLsb'_toNat, BitVec.extractLsb'_toNat, Nat.shiftRight_eq_div_pow,
      Nat.shiftRight_eq_div_pow, haddr]
    omega
  · apply BitVec.eq_of_toNat_eq
    rw [toNat_or_of_aligned (k := 12) halign (by omega), hoffset, haddr]

theorem bootTranslation_low (halign : c.toNat % 4096 = 0) (hlow : c.toNat + 4096 ≤ 2 ^ 30) :
    bootTranslation (key c) = some ⟨c, ⟨true, false, true⟩, false⟩ := by
  have hkey : (key c).toNat = c.toNat / 4096 := by
    rw [key, BitVec.extractLsb'_toNat, Nat.shiftRight_eq_div_pow]
    omega
  have hfirst : (key c).extractLsb' 18 18 = 0#18 := by
    apply BitVec.eq_of_toNat_eq
    rw [BitVec.extractLsb'_toNat, Nat.shiftRight_eq_div_pow, hkey, BitVec.toNat_ofNat]
    omega
  have hbase : pageBase (key c) = c := by
    apply BitVec.eq_of_toNat_eq
    rw [pageBase_toNat, hkey]
    omega
  rw [bootTranslation, if_pos hfirst, hbase]

/-! ### What a step keeps -/

/-- While tables are built, no invlpg comes next. -/
theorem Building.todo_ne (h : Building kd mem x s t m m' build tail virt n) (v : Word)
    (todo : List Micro) : x.todo ≠ .invlpg v :: todo := by
  intro heq
  rw [h.todo] at heq
  cases hrest : build.drop n with
  | cons y rest =>
    rw [hrest] at heq
    cases heq
  | nil =>
    rw [hrest] at heq
    rcases h.plan.tail with ⟨htail, -, -⟩ | ⟨pte, e, htail, -, -, -⟩
    · rw [htail] at heq
      cases heq
    · rw [htail] at heq
      cases heq

theorem Building.coherent (hl : Layout pml4Table kd) (hplaced : DirectoryPlaced kd)
    (hzero : ∀ i : Index, entry mem kd i = 0#64) (hx : Tracked pml4Table kd mem x)
    (h : Building kd mem x s t m m' build tail virt n) :
    x.tlb.Coherent x.stale (translations kd x.cr3 m.map) := by
  have hcoherent := hx.coherent
  rw [h.look_eq hl hplaced hzero hx.cr3 hx.boot] at hcoherent
  refine hcoherent.mono fun k hk => ?_
  rcases hk with hstale | ⟨v, htodo, -⟩
  · exact hstale
  · exact absurd htodo (h.todo_ne v [])

theorem tracked_of_building (hl : Layout pml4Table kd) (hplaced : DirectoryPlaced kd)
    (hzero : ∀ i : Index, entry mem kd i = 0#64) (hcr3 : x.cr3 = pml4Table ∨ x.cr3 = kd)
    (hboot : BootMapped pml4Table x.run.mm.mem) (hmissed : ∀ v ∈ x.missed, ¬ Canonical v)
    (h : Building kd mem x s t m m' build tail virt n)
    (hcoherent : x.tlb.Coherent x.stale (translations kd x.cr3 m.map)) :
    Tracked pml4Table kd mem x := by
  refine ⟨hcr3, hboot, hmissed, Or.inl ⟨s, t, m, m', build, tail, virt, n, h⟩, ?_⟩
  rw [h.look_eq hl hplaced hzero hcr3 hboot]
  exact hcoherent.mono fun k hk => Or.inl hk

theorem building_rest (hkd : OutsidePool kd) (hzero : ∀ i : Index, entry mem kd i = 0#64)
    (h : UseReachable kd mem (x.run, m)) (htodo : x.todo = []) :
    Building kd mem x x.run.mm x.run.mm m m [] [] 0#64 0 where
  plan := Plan.rest hkd hzero h
  done := Nat.le_refl _
  mm := by
    have hroot := (shared_reachable hkd hzero h).pages.tables.root
    rw [← hroot]
    rfl
  todo := htodo
  reached a v hmem := by
    rw [htodo] at hmem
    cases hmem

/-- Between calls the run is one of those whose calls are single steps. -/
theorem Tracked.idle (hl : Layout pml4Table kd) (hplaced : DirectoryPlaced kd)
    (hzero : ∀ i : Index, entry mem kd i = 0#64) (hx : Tracked pml4Table kd mem x)
    (htodo : x.todo = []) : ∃ m, UseReachable kd mem (x.run, m) ∧
      x.look = translations kd x.cr3 m.map ∧
      x.tlb.Coherent x.stale (translations kd x.cr3 m.map) := by
  rcases hx.moment with ⟨s, t, m, m', build, tail, virt, n, h⟩ | ⟨m, virt, h⟩
  · have hsplit := h.todo
    rw [htodo] at hsplit
    obtain ⟨hstores, htail⟩ := List.append_eq_nil_iff.mp hsplit.symm
    have hdone : build.length ≤ n := List.drop_eq_nil_iff.mp (List.map_eq_nil_iff.mp hstores)
    rcases h.plan.tail with ⟨-, hmem, hmap⟩ | ⟨pte, e, hleaf, -⟩
    · have hroot := (shared_reachable hl.kernelDir hzero h.plan.after).pages.tables.root
      have hmm : x.run.mm = t := by
        rw [h.mm, List.take_of_length_le hdone, ← hmem, ← hroot]
      have hafter := h.plan.after
      rw [← hmm] at hafter
      have hlook := h.look_eq hl hplaced hzero hx.cr3 hx.boot
      have hcoherent := h.coherent hl hplaced hzero hx
      rw [← hmap] at hlook hcoherent
      exact ⟨m', hafter, hlook, hcoherent⟩
    · rw [hleaf] at htail
      cases htail
  · rw [h.todo] at htodo
    cases htodo

theorem BootMapped.store (hl : Layout pml4Table kd) (h : BootMapped pml4Table mem)
    (ha : ¬ OffTables kd a) (v : Word) : BootMapped pml4Table (Function.update mem a v) := by
  refine h.congr hl fun b hb => ?_
  have hne : b ≠ a := by
    rintro rfl
    exact ha hb
  exact Function.update_of_ne hne v mem

theorem Plan.onPath (h : Plan kd mem held s t m m' build tail virt)
    (hmem : .store a v ∈ stores build ++ tail) : OnPath kd (path virt) t a := by
  rcases List.mem_append.mp hmem with hmem | hmem
  · obtain ⟨y, hy, heq⟩ := List.mem_map.mp hmem
    obtain ⟨rfl, -⟩ := Micro.store.inj heq
    exact h.words y hy
  · rcases h.tail with ⟨rfl, -⟩ | ⟨pte, e, rfl, hpte, -⟩
    · cases hmem
    · have hstore : Micro.store a v = .store pte e := by simpa [leafSteps] using hmem
      rw [(Micro.store.inj hstore).1]
      exact hpte

/-- What the tables hold is mapped to itself, by the bootloader or because callers see to it. -/
theorem reached_of_selfMapped {op : MmOp} (hl : Layout pml4Table kd) (hplaced : DirectoryPlaced kd)
    (hcr3 : x.cr3 = pml4Table ∨ x.cr3 = kd) (hlook : x.look = translations kd x.cr3 m.map)
    (hself : SelfMapped kd x virt op) (htables : Tables kd (mmStep x.run.mm op))
    (hpath : OnPath kd (path virt) (mmStep x.run.mm op) a) : ¬ x.stale (key a) ∧
      ∃ t, translations kd x.cr3 m.map (key a) = some t ∧ t.Reaches a := by
  obtain ⟨q, c, hq, hc, i, rfl⟩ := hpath
  have hlen : q.length ≤ 3 := hq.length_le
  obtain ⟨halign, hlow⟩ := (htables.isTable hlen hc).low hplaced
  obtain ⟨hkey, hword⟩ := entryAddr_page halign hlow i
  obtain ⟨hfresh, hmapped⟩ := hself q c hq hc
  rw [hkey]
  refine ⟨hfresh, ?_⟩
  rcases hcr3 with hboot | hkernel
  · have hne : x.cr3 ≠ kd := by
      have hapart := hl.apart
      rw [hboot]
      rintro rfl
      omega
    rw [translations, if_neg hne, bootTranslation_low halign hlow]
    exact ⟨_, rfl, hword, rfl⟩
  · obtain ⟨t, hfound, rfl, hwritable⟩ := hmapped hkernel
    rw [← hlook]
    exact ⟨t, hfound, hword, hwritable⟩

theorem Tracked.begin (hl : Layout pml4Table kd) (hplaced : DirectoryPlaced kd)
    (hzero : ∀ i : Index, entry mem kd i = 0#64) (hx : Tracked pml4Table kd mem x)
    (hlook : x.look = translations kd x.cr3 m.map)
    (hcoherent : x.tlb.Coherent x.stale (translations kd x.cr3 m.map)) (op : MmOp)
    (hself : SelfMapped kd x virt op)
    (hplan : Plan kd mem x.run.held x.run.mm (mmStep x.run.mm op) m m' build tail virt) :
    Tracked pml4Table kd mem (x.begin op (stores build ++ tail)) := by
  have hroot := (shared_reachable hl.kernelDir hzero hplan.before).pages.tables.root
  have hafter := (shared_reachable hl.kernelDir hzero hplan.after).pages.tables
  refine tracked_of_building (n := 0) hl hplaced hzero hx.cr3 hx.boot hx.missed
    ⟨hplan, Nat.zero_le _, ?_, rfl, fun a v hmem => ?_⟩ hcoherent
  · rw [← hroot]
    rfl
  · have hreached := reached_of_selfMapped hl hplaced hx.cr3 hlook hself hafter (hplan.onPath hmem)
    exact hreached

theorem Tracked.store (hl : Layout pml4Table kd) (hplaced : DirectoryPlaced kd)
    (hzero : ∀ i : Index, entry mem kd i = 0#64) (hx : Tracked pml4Table kd mem x)
    (htodo : x.todo = .store a v :: todo) : Tracked pml4Table kd mem (x.store a v todo) := by
  rcases hx.moment with ⟨s, t, m, m', build, tail, virt, n, h⟩ | ⟨m, virt, h⟩
  · have hcoherent := h.coherent hl hplaced hzero hx
    have htables := (shared_reachable hl.kernelDir hzero h.plan.after).pages.tables
    have hsplit := h.todo
    rw [htodo] at hsplit
    rcases Nat.lt_or_ge n build.length with hn | hn
    · -- a store that builds a table
      rw [List.drop_eq_getElem_cons hn] at hsplit
      obtain ⟨hhead, hrest⟩ := List.cons.inj hsplit
      obtain ⟨ha, hv⟩ := Micro.store.inj hhead
      have hword : ¬ OffTables kd a := by
        rw [ha]
        exact (h.plan.words _ (List.getElem_mem hn)).not_offTables htables
      have hmem : Function.update x.run.mm.mem a v = storeAll s.mem (build.take (n + 1)) := by
        rw [h.mm, ha, hv, ← List.take_append_getElem hn, storeAll_append]
        rfl
      refine tracked_of_building (n := n + 1) hl hplaced hzero hx.cr3 (hx.boot.store hl hword v)
        hx.missed ⟨h.plan, hn, ?_, hrest, fun b w hmem => h.reached b w ?_⟩ hcoherent
      · rw [← hmem, Paged.store, h.mm]
      · rw [htodo]
        exact List.mem_cons_of_mem _ hmem
    · -- the store of the entry
      rw [List.drop_eq_nil_of_le hn] at hsplit
      rcases h.plan.tail with ⟨htail, -, -⟩ | ⟨pte, e, htail, hpath, hmem, hmap⟩
      · rw [htail] at hsplit
        cases hsplit
      · rw [htail] at hsplit
        obtain ⟨hhead, hrest⟩ := List.cons.inj hsplit
        obtain ⟨rfl, rfl⟩ := Micro.store.inj hhead
        have hboot := hx.boot.store hl (hpath.not_offTables htables) v
        have hroot := (shared_reachable hl.kernelDir hzero h.plan.after).pages.tables.root
        have hmm : (x.store a v todo).run.mm = t := by
          rw [Paged.store, h.mm, List.take_of_length_le hn, ← hmem, ← hroot]
        have hafter := h.plan.after
        rw [← hmm] at hafter
        have hchanged : Changed kd mem (x.store a v todo) m' virt := ⟨hafter, hrest⟩
        refine ⟨hx.cr3, hboot, hx.missed, Or.inr ⟨m', virt, hchanged⟩, ?_⟩
        have hcr3 : (x.store a v todo).cr3 = pml4Table ∨ (x.store a v todo).cr3 = kd := hx.cr3
        rw [hchanged.look_eq hl hplaced hzero hcr3 hboot]
        refine hcoherent.change (fun k hk => Or.inl hk) fun k hk => ?_
        have hk' : k ≠ key virt := by
          rintro rfl
          exact hk (Or.inr ⟨virt, hrest, rfl⟩)
        unfold translations
        rw [hmap k hk']
        rfl
  · rw [h.todo] at htodo
    cases htodo

theorem Tracked.invlpg (hl : Layout pml4Table kd) (hplaced : DirectoryPlaced kd)
    (hzero : ∀ i : Index, entry mem kd i = 0#64) (hx : Tracked pml4Table kd mem x)
    (htodo : x.todo = .invlpg virt :: todo) : Tracked pml4Table kd mem (x.invlpg virt todo) := by
  rcases hx.moment with ⟨s, t, m, m', build, tail, virt', n, h⟩ | ⟨m, v, h⟩
  · exact absurd htodo (h.todo_ne virt todo)
  · rw [h.todo] at htodo
    obtain ⟨hhead, rfl⟩ := List.cons.inj htodo
    obtain rfl := Micro.invlpg.inj hhead
    have hcoherent := hx.coherent
    rw [h.look_eq hl hplaced hzero hx.cr3 hx.boot] at hcoherent
    have hcoherent : x.tlb.Coherent (fun k => x.stale k ∨ k = key v)
        (translations kd x.cr3 m.map) := by
      refine hcoherent.mono fun k hk => ?_
      rcases hk with hstale | ⟨w, hw, rfl⟩
      · exact Or.inl hstale
      · rw [h.todo] at hw
        obtain rfl := Micro.invlpg.inj (List.cons.inj hw).1
        exact Or.inr rfl
    unfold Paged.invlpg
    split
    · refine tracked_of_building hl hplaced hzero hx.cr3 hx.boot
        (fun w hw => hx.missed w (List.mem_filter.mp hw).1)
        (building_rest hl.kernelDir hzero h.after rfl) ?_
      refine (hcoherent.invalidate (key v)).mono fun k hk => ?_
      obtain ⟨hstale, hne⟩ := hk
      rcases hstale with ⟨w, hw, rfl⟩ | rfl
      · exact ⟨w, List.mem_filter.mpr ⟨hw, decide_eq_true hne⟩, rfl⟩
      · exact absurd rfl hne
    · rename_i hcanonical
      refine tracked_of_building hl hplaced hzero hx.cr3 hx.boot (fun w hw => ?_)
        (building_rest hl.kernelDir hzero h.after rfl) ?_
      · rcases List.mem_cons.mp hw with rfl | hw
        · exact hcanonical
        · exact hx.missed w hw
      · refine hcoherent.mono fun k hk => ?_
        rcases hk with ⟨w, hw, rfl⟩ | rfl
        · exact ⟨w, List.mem_cons_of_mem _ hw, rfl⟩
        · exact ⟨v, List.mem_cons_self, rfl⟩

theorem Tracked.other {r : PageRun} (hl : Layout pml4Table kd) (hplaced : DirectoryPlaced kd)
    (hzero : ∀ i : Index, entry mem kd i = 0#64) (hx : Tracked pml4Table kd mem x)
    (htodo : x.todo = []) (hreach : UseReachable kd mem (r, m'))
    (hboot : BootMapped pml4Table r.mm.mem)
    (hcoherent : x.tlb.Coherent x.stale (translations kd x.cr3 m'.map)) :
    Tracked pml4Table kd mem { x with run := r } :=
  tracked_of_building hl hplaced hzero hx.cr3 hboot hx.missed
    (building_rest (x := { x with run := r }) hl.kernelDir hzero hreach htodo) hcoherent

/-- No translation of the bootloader's tables is global, and those of the kernel's directory that
are stay right. -/
theorem Tracked.switch (hl : Layout pml4Table kd) (hplaced : DirectoryPlaced kd)
    (hzero : ∀ i : Index, entry mem kd i = 0#64) (hx : Tracked pml4Table kd mem x)
    (htodo : x.todo = []) : Tracked pml4Table kd mem (x.switch kd) := by
  obtain ⟨m, hreach, -, hcoherent⟩ := hx.idle hl hplaced hzero htodo
  have hroot := (shared_reachable hl.kernelDir hzero hreach).pages.tables.root
  have hrun : (x.switch kd).run = x.run := by
    rw [Paged.switch, pagingSwitchDirectory, ← hroot]
  have hboot : BootMapped pml4Table (x.switch kd).run.mm.mem := by
    rw [hrun]
    exact hx.boot
  rw [← hrun] at hreach
  refine tracked_of_building hl hplaced hzero (Or.inr rfl) hboot hx.missed
    (building_rest hl.kernelDir hzero hreach htodo) fun k t hmem => ?_
  obtain ⟨hmem, hglobal⟩ := List.mem_filter.mp hmem
  rcases hcoherent k t hmem with hstale | hfound
  · exact Or.inl hstale
  · right
    have hkernel : (x.switch kd).cr3 = kd := rfl
    rw [translations, if_pos hkernel]
    unfold translations at hfound
    split at hfound
    · exact hfound
    · unfold bootTranslation at hfound
      split at hfound
      · rw [← Option.some.inj hfound] at hglobal
        cases hglobal
      · cases hfound

/-- The processor may cache what it finds, at any moment. -/
theorem Tracked.cache {tlb : Tlb (BitVec 36) Translation} (hx : Tracked pml4Table kd mem x)
    (htlb : tlb.Coherent (fun k => x.stale k ∨ ∃ v, x.todo = [.invlpg v] ∧ key v = k) x.look) :
    Tracked pml4Table kd mem { x with tlb := tlb } := by
  refine ⟨hx.cr3, hx.boot, hx.missed, ?_, htlb⟩
  rcases hx.moment with ⟨s, t, m, m', build, tail, virt, n, h⟩ | ⟨m, virt, h⟩
  · exact Or.inl ⟨s, t, m, m', build, tail, virt, n, h.plan, h.done, h.mm, h.todo, h.reached⟩
  · exact Or.inr ⟨m, virt, h.after, h.todo⟩

theorem tracked_step (hl : Layout pml4Table kd) (hplaced : DirectoryPlaced kd)
    (hzero : ∀ i : Index, entry mem kd i = 0#64) (hx : Tracked pml4Table kd mem x)
    (h : PagedStep kd x y) : Tracked pml4Table kd mem y := by
  cases h with
  | mapPage phys virt flags htodo hself =>
    obtain ⟨m, hreach, hlook, hcoherent⟩ := hx.idle hl hplaced hzero htodo
    exact hx.begin hl hplaced hzero hlook hcoherent _ hself
      (plan_mapPage hl.kernelDir hzero hreach phys virt flags)
  | unmapPage virt htodo hself =>
    obtain ⟨m, hreach, hlook, hcoherent⟩ := hx.idle hl hplaced hzero htodo
    exact hx.begin hl hplaced hzero hlook hcoherent _ hself
      (plan_unmapPage hl.kernelDir hzero hreach virt)
  | store htodo => exact hx.store hl hplaced hzero htodo
  | invlpg htodo => exact hx.invlpg hl hplaced hzero htodo
  | alloc htodo hne =>
    obtain ⟨m, hreach, -, hcoherent⟩ := hx.idle hl hplaced hzero htodo
    exact hx.other hl hplaced hzero htodo (hreach.tail (UseStep.alloc hne)) hx.boot hcoherent
  | free htodo hp hfree =>
    obtain ⟨m, hreach, -, hcoherent⟩ := hx.idle hl hplaced hzero htodo
    exact hx.other hl hplaced hzero htodo (hreach.tail (UseStep.free hp hfree)) hx.boot hcoherent
  | @use p htodo hp i v =>
    obtain ⟨m, hreach, -, hcoherent⟩ := hx.idle hl hplaced hzero htodo
    have hshared := shared_reachable hl.kernelDir hzero hreach
    obtain ⟨hlo, -⟩ := hshared.pages.not_isTablePage hp
    exact hx.other hl hplaced hzero htodo (hreach.tail (UseStep.store hp i v))
      (hx.boot.store hl (not_offTables (Or.inr ⟨p, hlo, rfl⟩) i) v) hcoherent
  | switch htodo => exact hx.switch hl hplaced hzero htodo
  | fill k => exact hx.cache (hx.coherent.fill k)
  | evict keep => exact hx.cache (hx.coherent.evict keep)

/-- A store of a call gets to its word, through the cache and through the tables. -/
theorem Tracked.reaches (hl : Layout pml4Table kd) (hplaced : DirectoryPlaced kd)
    (hzero : ∀ i : Index, entry mem kd i = 0#64) (hx : Tracked pml4Table kd mem x)
    (htodo : x.todo = .store a v :: todo) : (∃ t, x.look (key a) = some t) ∧
      ∀ t, x.look (key a) = some t ∨ (key a, t) ∈ x.tlb → t.Reaches a := by
  rcases hx.moment with ⟨s, t, m, m', build, tail, virt, n, h⟩ | ⟨m, virt, h⟩
  · have hlook := h.look_eq hl hplaced hzero hx.cr3 hx.boot
    have hmem : .store a v ∈ x.todo := by
      rw [htodo]
      exact List.mem_cons_self
    obtain ⟨hfresh, t, hfound, hreaches⟩ := h.reached a v hmem
    rw [← hlook] at hfound
    refine ⟨⟨t, hfound⟩, fun t' ht' => ?_⟩
    have hcoherent := h.coherent hl hplaced hzero hx
    rw [← hlook] at hcoherent
    have hfound' : x.look (key a) = some t' := by
      rcases ht' with hwalk | hcached
      · exact hwalk
      · exact (hcoherent (key a) t' hcached).resolve_left hfresh
    rw [hfound] at hfound'
    obtain rfl := Option.some.inj hfound'
    exact hreaches
  · rw [h.todo] at htodo
    cases htodo

/-! ### Runs -/

/-- Memory when `setup_paging` has returned. `mm_start` does not write to it. -/
def startMem (pml4Table : Word) (s : MemoryManager) : Word → Word :=
  (setupPaging pml4Table ⟨s.mm, 0#64⟩).mm.mem

def PagedReachable (pml4Table kd : Word) (s : MemoryManager) (x : Paged) : Prop :=
  Relation.ReflTransGen (PagedStep kd) (Paged.start pml4Table kd s) x

theorem paged_start_eq (s : MemoryManager) : Paged.start pml4Table kd s =
    ⟨⟨⟨mmInit, startMem pml4Table s, kd⟩, []⟩, pml4Table, [], [], []⟩ := by
  unfold Paged.start
  rw [start_eq, ← startMem]

theorem startMem_zero {s : MemoryManager} (hboot : Booted pml4Table kd s) (i : Index) :
    entry (startMem pml4Table s) kd i = 0#64 := by
  have hkept := setupPaging_kernelDir hboot.layout ⟨s.mm, 0#64⟩ i
  have hzero := hboot.kernelDir i
  rw [← startMem] at hkept
  exact hkept.trans hzero

theorem tracked_start {s : MemoryManager} (hplaced : DirectoryPlaced kd)
    (hboot : Booted pml4Table kd s) :
    Tracked pml4Table kd (startMem pml4Table s) (Paged.start pml4Table kd s) := by
  have hmapped : BootMapped pml4Table (startMem pml4Table s) :=
    bootMapped_setupPaging hboot.layout.bound hboot.pml4 hboot.pdpt
  have hzero := startMem_zero hboot
  rw [paged_start_eq]
  generalize startMem pml4Table s = mem at hmapped hzero
  have hreach : UseReachable kd mem (⟨⟨mmInit, mem, kd⟩, []⟩, Contents.start mem) :=
    Relation.ReflTransGen.refl
  exact tracked_of_building hboot.layout hplaced hzero (Or.inl rfl) hmapped
    (fun v hv => by cases hv) (building_rest hboot.layout.kernelDir hzero hreach rfl)
    Tlb.coherent_nil

theorem tracked_reachable {s : MemoryManager} (hplaced : DirectoryPlaced kd)
    (hboot : Booted pml4Table kd s) (h : PagedReachable pml4Table kd s x) :
    Tracked pml4Table kd (startMem pml4Table s) x := by
  induction h with
  | refl => exact tracked_start hplaced hboot
  | tail _ hstep ih => exact tracked_step hboot.layout hplaced (startMem_zero hboot) ih hstep

/-! ### A call that is left alone -/

theorem invlpg_run (x : Paged) (virt : Word) (todo : List Micro) :
    (x.invlpg virt todo).run = x.run := by
  unfold Paged.invlpg
  split <;> rfl

theorem invlpg_cr3 (x : Paged) (virt : Word) (todo : List Micro) :
    (x.invlpg virt todo).cr3 = x.cr3 := by
  unfold Paged.invlpg
  split <;> rfl

theorem invlpg_todo (x : Paged) (virt : Word) (todo : List Micro) :
    (x.invlpg virt todo).todo = todo := by
  unfold Paged.invlpg
  split <;> rfl

theorem invlpg_missed (h : v ∈ (x.invlpg virt todo).missed) : v ∈ x.missed ∨ v = virt := by
  unfold Paged.invlpg at h
  split at h
  · exact Or.inl (List.mem_filter.mp h).1
  · exact (List.mem_cons.mp h).symm

theorem stores_complete (htodo : x.todo = stores l ++ tail) :
    Relation.ReflTransGen (PagedStep kd) x
      { x with
        run := ⟨{ x.run.mm with mem := storeAll x.run.mm.mem l }, x.run.held⟩
        todo := tail } := by
  induction l generalizing x with
  | nil =>
    have hsame : { x with
        run := ⟨{ x.run.mm with mem := storeAll x.run.mm.mem [] }, x.run.held⟩
        todo := tail } = x := by
      rw [← (show x.todo = tail from htodo)]
      rfl
    rw [hsame]
  | cons y l ih =>
    exact Relation.ReflTransGen.head (PagedStep.store htodo) (ih rfl)

/-- The steps of a call make the state that the call makes in one. -/
theorem call_complete {op : MmOp} (hkd : OutsidePool kd)
    (hzero : ∀ i : Index, entry mem kd i = 0#64)
    (hplan : Plan kd mem x.run.held x.run.mm (mmStep x.run.mm op) m m' build tail virt) :
    ∃ y, Relation.ReflTransGen (PagedStep kd) (x.begin op (stores build ++ tail)) y ∧
      y.run = ⟨mmStep x.run.mm op, x.run.held⟩ ∧ y.cr3 = x.cr3 ∧ y.todo = [] ∧
      ∀ v ∈ y.missed, v ∈ x.missed ∨ .invlpg v ∈ tail := by
  have hroot := (shared_reachable hkd hzero hplan.before).pages.tables.root
  have hroot' := (shared_reachable hkd hzero hplan.after).pages.tables.root
  have hstores : Relation.ReflTransGen (PagedStep kd) (x.begin op (stores build ++ tail)) _ :=
    stores_complete rfl
  have hstate (mem' : Word → Word) (h : (mmStep x.run.mm op).mem = mem') :
      (⟨(mmStep x.run.mm op).pool, mem', x.run.mm.currentDir⟩ : MmState) = mmStep x.run.mm op := by
    rw [← h, hroot, ← hroot']
  rcases hplan.tail with ⟨rfl, hmem, -⟩ | ⟨pte, e, rfl, -, hmem, -⟩
  · refine ⟨_, hstores, ?_, rfl, rfl, fun v hv => Or.inl hv⟩
    rw [← hstate _ hmem]
    rfl
  · have hwritten := hstores.tail (PagedStep.store rfl)
    refine ⟨_, hwritten.tail (PagedStep.invlpg rfl), ?_, invlpg_cr3 _ _ _, invlpg_todo _ _ _,
      fun v hv => ?_⟩
    · rw [invlpg_run, ← hstate _ hmem]
      rfl
    · rcases invlpg_missed hv with hold | rfl
      · exact Or.inl hold
      · exact Or.inr (by simp [leafSteps])

theorem installed_start (hkd : OutsidePool kd) (hzero : ∀ i : Index, entry mem kd i = 0#64)
    (phys virt flags : Word) : Installed phys virt flags ⟨mmInit, mem, kd⟩ := by
  have hs : Tables kd ⟨mmInit, mem, kd⟩ := (pageInvariant_init hzero).tables
  have hnext (i : Index) : next mem kd i = none := by
    rw [next, hzero]
    rfl
  have hmissing : Radix.missing (next mem) kd (path virt) = 3 :=
    Radix.missing_of_empty hnext (path virt)
  have hcount := freeCount_mmInit
  rcases mapped_iff hkd hs phys virt flags with ⟨hout, -, -⟩ | ⟨-, -, hinstalled, -⟩
  · unfold OutOfPages at hout
    dsimp only at hout
    rw [hmissing, hcount] at hout
    omega
  · exact hinstalled

theorem invlpg_mapTail {phys flags : Word} (h : .invlpg v ∈ mapTail phys virt flags s) :
    v = virt := by
  unfold mapTail at h
  split at h
  split at h
  · cases h
  · simpa [leafSteps] using h

/-- A page is mapped before the kernel's directory is loaded, and its translation cached after. -/
theorem exists_cached {s : MemoryManager} (hplaced : DirectoryPlaced kd)
    (hboot : Booted pml4Table kd s) (phys flags : Word) (hvirt : Canonical virt) :
    ∃ x, PagedReachable pml4Table kd s x ∧
      (key virt, leafTranslation (leafEntry phys flags)) ∈ x.tlb ∧ x.todo = [] ∧ x.missed = [] := by
  have hkd := hboot.layout.kernelDir
  have hzero := startMem_zero hboot
  have hne : pml4Table ≠ kd := by
    rintro rfl
    have hapart := hboot.layout.apart
    omega
  have hstart : PagedReachable pml4Table kd s (Paged.start pml4Table kd s) :=
    Relation.ReflTransGen.refl
  rw [paged_start_eq] at hstart
  have hinstalled := installed_start hkd hzero phys virt flags
  generalize startMem pml4Table s = mem at hstart hzero hinstalled
  have hreach : UseReachable kd mem (⟨⟨mmInit, mem, kd⟩, []⟩, Contents.start mem) :=
    Relation.ReflTransGen.refl
  have hplan := plan_mapPage hkd hzero hreach phys virt flags
  obtain ⟨y, hy, hrun, -, htodo, hmissed⟩ := call_complete
    (x := ⟨⟨⟨mmInit, mem, kd⟩, []⟩, pml4Table, [], [], []⟩) hkd hzero hplan
  have hself : SelfMapped kd ⟨⟨⟨mmInit, mem, kd⟩, []⟩, pml4Table, [], [], []⟩ virt
      (.mapPage phys virt flags) := by
    intro q c _ _
    refine ⟨fun hstale => ?_, fun hcr3 => absurd hcr3 hne⟩
    obtain ⟨v, hv, -⟩ := hstale
    cases hv
  have hbegin := hstart.tail (PagedStep.mapPage phys virt flags rfl hself)
  have hswitch : PagedReachable pml4Table kd s (y.switch kd) :=
    (hbegin.trans hy).tail (PagedStep.switch htodo)
  have htracked := tracked_reachable hplaced hboot hswitch
  obtain ⟨m, hidle, hlook, -⟩ := htracked.idle hboot.layout hplaced (startMem_zero hboot) htodo
  have hmap := (shared_reachable hkd (startMem_zero hboot) hidle).lookup_eq
  have hroot := (shared_reachable hkd hzero hplan.after).pages.tables.root
  have hmm : (y.switch kd).run.mm = (mmMapPage phys virt flags ⟨mmInit, mem, kd⟩).2 := by
    have hsame (t : MmState) (h : t.currentDir = kd) : (⟨t.pool, t.mem, kd⟩ : MmState) = t := by
      rw [← h]
    rw [Paged.switch, hrun]
    exact hsame _ hroot
  have hmapped := hmap virt
  rw [hmm, hinstalled] at hmapped
  have hfound : (y.switch kd).look (key virt) = some (leafTranslation (leafEntry phys flags)) := by
    have hkernel : (y.switch kd).cr3 = kd := rfl
    rw [hlook, translations, if_pos hkernel, ← hmapped]
    rfl
  refine ⟨_, hswitch.tail (PagedStep.fill (key virt)), ?_, htodo, ?_⟩
  · dsimp only
    rw [Tlb.fill, hfound]
    exact List.mem_cons_self
  · refine List.eq_nil_iff_forall_not_mem.mpr fun v hv => ?_
    rcases hmissed v hv with hold | hinvlpg
    · cases hold
    · have heq : v = virt := invlpg_mapTail hinvlpg
      have hfalse := htracked.missed v hv
      rw [heq] at hfalse
      exact absurd hvirt hfalse

end FenwickOS.Mm
