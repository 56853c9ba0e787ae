import FenwickOS.Lib.Runs
import FenwickOS.Mm.Growth

/-! The page tables refine a finite map from page numbers to leaf entries. -/
namespace FenwickOS.Mm
open Machine

/-- What the page tables are for: the leaf entry of each page number, bits 12 to 47. -/
abbrev PageMap := BitVec 36 → Option Word

def key (virt : Word) : BitVec 36 := virt.extractLsb' 12 36

def succeeds (s : MmState) : MmOp → Bool
  | .mapPage _ virt _ => (getPte virt true s).1 != 0#64
  | _ => true

def PageMap.step (m : PageMap) : MmOp → PageMap
  | .mapPage phys virt flags => Function.update m (key virt) (some (leafEntry phys flags))
  | .unmapPage virt => Function.update m (key virt) none
  | .allocPage => m

/-- The page tables beside the map they stand for: a call that fails changes no key. -/
def refineStep (r : MmState × PageMap) (op : MmOp) : MmState × PageMap :=
  (mmStep r.1 op, if succeeds r.1 op then r.2.step op else r.2)

/-- The entries that the processor reads on its walk along `path`. -/
def walkEntries (mem : Word → Word) : Word → List Index → List Word
  | _, [] => []
  | table, i :: is =>
    entry mem table i :: ((next mem table i).map fun c => walkEntries mem c is).getD []

structure Rights where
  writable : Bool
  user : Bool
  executable : Bool
  deriving DecidableEq

/-- The rights that a walk grants: each entry on the way can take one away. -/
def rights (entries : List Word) : Rights where
  writable := entries.all fun e => e.getLsbD 1
  user := entries.all fun e => e.getLsbD 2
  executable := entries.all fun e => !e.getLsbD 63

def effectiveRights (s : MmState) (virt : Word) : Rights :=
  rights (walkEntries s.mem s.currentDir (path virt ++ [lastIndex virt]))

variable {kd a c : Word} {mem : Word → Word} {s : MmState} {m : PageMap} {op : MmOp}
  {is : List Index} {i : Index} {v w virt e : Word} {p : Fin maxPages}

theorem key_eq_iff : key v = key w ↔ path v = path w ∧ lastIndex v = lastIndex w := by
  simp only [key, path, lastIndex, List.cons.injEq, and_true, ← BitVec.toNat_inj,
    BitVec.extractLsb'_toNat, Nat.shiftRight_eq_div_pow]
  omega

structure Refines (kd : Word) (r : MmState × PageMap) : Prop where
  tables : Tables kd r.1
  agrees : ∀ v, Radix.find (next r.1.mem) (leaf r.1.mem) kd (path v) (lastIndex v) = r.2 (key v)

theorem refines_init (hzero : ∀ i : Index, entry mem kd i = 0#64) :
    Refines kd (⟨mmInit, mem, kd⟩, fun _ => none) := by
  have hnext (i : Index) : next mem kd i = none := by
    rw [next, hzero]
    rfl
  have hwalk (is : List Index) :
      Radix.walk (next mem) kd is = if is = [] then some kd else none := by
    cases is with
    | nil => rfl
    | cons i is => simp [Radix.walk, hnext]
  refine ⟨⟨rfl, fun p hp => (test_mmInit p).mp hp, fun is js c _ _ hi hj => ?_,
    fun is c hn _ hw => ?_, fun is c i _ hw hp => ?_⟩, fun v => ?_⟩
  · rw [hwalk] at hi hj
    by_cases h : is = [] <;> by_cases h' : js = [] <;> simp_all
  · simp [hwalk, hn] at hw
  · rw [hwalk] at hw
    split at hw
    · obtain rfl := Option.some.inj hw
      rw [hzero] at hp
      exact absurd hp (by decide)
    · simp at hw
  · simp [Radix.find, hwalk, path]

theorem refines_writeLeaf (hkd : OutsidePool kd) (hr : Refines kd (s, m))
    (hw : Radix.walk (next s.mem) kd (path virt) = some a) :
    let pte := entryAddr a ((lastIndex virt).setWidth 64)
    Refines kd ({ s with mem := Function.update s.mem pte e },
      Function.update m (key virt) (if isPresent e then some e else none)) := by
  obtain ⟨htables, hfind⟩ := tables_writeLeaf hkd hr.tables rfl hw (lastIndex virt) e
  refine ⟨htables, fun v => ?_⟩
  have hold : Radix.find (next s.mem) (leaf s.mem) kd (path v) (lastIndex v) = m (key v) :=
    hr.agrees v
  rw [hfind (path v) (lastIndex v) rfl]
  simp only [Function.update_apply, key_eq_iff, hold]

theorem Refines.grow {t : MmState} {w : List Index} (hr : Refines kd (s, m))
    (hg : Grows kd w s t) : Refines kd (t, m) :=
  ⟨hg.ext.tables, fun v => (hg.ext.find_eq _ _ rfl).trans (hr.agrees v)⟩

theorem refines_mapPage (hkd : OutsidePool kd) (hr : Refines kd (s, m)) (phys virt flags : Word) :
    Refines kd (refineStep (s, m) (.mapPage phys virt flags)) := by
  rcases mmMapPage_cases (s := s) hkd hr.tables phys virt flags with ⟨t, hnull, hg, -, he⟩ |
    ⟨pt, t, hne, hg, -, hw, he⟩
  · have hfails : refineStep (s, m) (.mapPage phys virt flags) = (t, m) := by
      simp [refineStep, mmStep, succeeds, he, hnull]
    rw [hfails]
    exact hr.grow hg
  · have hwrite := refines_writeLeaf (e := leafEntry phys flags) hkd (hr.grow hg) hw
    rw [isPresent_leafEntry, if_pos rfl] at hwrite
    simpa [refineStep, mmStep, succeeds, PageMap.step, he, hne] using hwrite

theorem refines_unmapPage (hkd : OutsidePool kd) (hr : Refines kd (s, m)) (virt : Word) :
    Refines kd (refineStep (s, m) (.unmapPage virt)) := by
  have hstep : refineStep (s, m) (.unmapPage virt) =
      ((mmUnmapPage virt s).2, Function.update m (key virt) none) := rfl
  rw [hstep]
  rcases mmUnmapPage_cases hr.tables virt with ⟨hnone, he⟩ | ⟨pt, e, -, hw, he⟩
  · -- nothing was mapped, so the map does not change either
    rw [lookup_eq_find hr.tables, hr.agrees virt] at hnone
    dsimp only at hnone
    rw [he, ← hnone, Function.update_eq_self]
    exact hr
  · rw [he]
    exact refines_writeLeaf (e := 0#64) hkd hr hw

theorem refines_step (hkd : OutsidePool kd) (r : MmState × PageMap) (op : MmOp)
    (hr : Refines kd r) : Refines kd (refineStep r op) := by
  cases op with
  | mapPage phys virt flags => exact refines_mapPage hkd hr phys virt flags
  | unmapPage virt => exact refines_unmapPage hkd hr virt
  | allocPage =>
    have hext := Extends.shrink hr.tables fun p => test_mmAllocPage (p := p)
    exact ⟨hext.tables, fun v => (hext.find_eq _ _ rfl).trans (hr.agrees v)⟩

/-! ### Rights along a walk -/

def tableFlags : Word := pagePresent ||| pageWritable ||| pageUser

theorem walkEntries_append {js : List Index} (hw : Radix.walk (next mem) a is = some c) :
    walkEntries mem a (is ++ js) = walkEntries mem a is ++ walkEntries mem c js := by
  induction is generalizing a with
  | nil =>
    obtain rfl := Option.some.inj hw
    rfl
  | cons i is ih =>
    simp only [List.cons_append, walkEntries, Radix.walk] at hw ⊢
    cases hn : next mem a i with
    | none => simp [hn] at hw
    | some b =>
      rw [hn] at hw
      simp [ih hw]

/-- A completed walk has read only present entries of the tables on its way. -/
theorem mem_walkEntries (hw : Radix.walk (next mem) a is = some c)
    (he : e ∈ walkEntries mem a is) :
    ∃ q b i, q.length < is.length ∧ Radix.walk (next mem) a q = some b ∧
      entry mem b i = e ∧ isPresent e = true := by
  induction is generalizing a with
  | nil => simp [walkEntries] at he
  | cons i is ih =>
    simp only [walkEntries, Radix.walk] at he hw
    cases hn : next mem a i with
    | none => simp [hn] at hw
    | some b =>
      rw [hn] at hw he
      simp only [Option.map_some, Option.getD_some, List.mem_cons] at he
      rcases he with rfl | he
      · have hp : isPresent (entry mem a i) = true := by
          by_contra hp
          simp [next, hp] at hn
        exact ⟨[], a, i, by simp, rfl, rfl, hp⟩
      · obtain ⟨q, d, j, hl, hq, hentry, hp⟩ := ih hw he
        refine ⟨i :: q, d, j, by simpa using hl, ?_, hentry, hp⟩
        rw [Radix.walk, hn]
        exact hq

theorem tableEntry_and_tableFlags (phys : Word) : tableEntry phys &&& tableFlags = tableFlags := by
  have hflags : tableEntry phys = phys ||| tableFlags := by
    simp only [tableEntry, tableFlags, BitVec.or_assoc]
  rw [hflags]
  apply BitVec.eq_of_getLsbD_eq
  intro k _
  cases hk : tableFlags.getLsbD k <;> simp_all

theorem rights_tableEntry (p : Fin maxPages) :
    rights [tableEntry (pageAddr p)] = ⟨true, true, true⟩ := by
  have hlt := lt_maxPages p
  have hhigh : (pageAddr p)[63] = false := by
    rw [BitVec.getElem_eq_testBit_toNat, pageAddr_toNat]
    exact Nat.testBit_lt_two_pow (by omega)
  simp [rights, tableEntry, pagePresent, pageWritable, pageUser, hhigh]

/-- Table entries take no right away, so the leaf decides. -/
theorem effectiveRights_eq (hs : Tables kd s) (h : lookup s virt = some e) :
    effectiveRights s virt = rights [e] := by
  rw [lookup_eq_find hs, Radix.find] at h
  obtain ⟨c, hw, hleaf⟩ := Option.bind_eq_some_iff.mp h
  have hentry : entry s.mem c (lastIndex virt) = e := by
    unfold leaf at hleaf
    split at hleaf
    · exact Option.some.inj hleaf
    · simp at hleaf
  have htables (e' : Word) (he' : e' ∈ walkEntries s.mem kd (path virt)) :
      rights [e'] = ⟨true, true, true⟩ := by
    obtain ⟨q, b, i, hl, hq, rfl, hp⟩ := mem_walkEntries hw he'
    obtain ⟨p, hp'⟩ := hs.made q b i hl hq hp
    rw [hp', rights_tableEntry]
  simp only [rights, List.all_cons, List.all_nil, Bool.and_true, Rights.mk.injEq] at htables
  rw [effectiveRights, hs.root, walkEntries_append hw]
  have hlast : walkEntries s.mem c [lastIndex virt] = [e] := by
    cases hn : next s.mem c (lastIndex virt) <;> simp [walkEntries, hn, hentry]
  rw [hlast]
  simp only [rights, List.all_append, Rights.mk.injEq, List.all_cons, List.all_nil, Bool.and_true]
  refine ⟨?_, ?_, ?_⟩
  · rw [List.all_eq_true.mpr fun x hx => (htables x hx).1, Bool.true_and]
  · rw [List.all_eq_true.mpr fun x hx => (htables x hx).2.1, Bool.true_and]
  · rw [List.all_eq_true.mpr fun x hx => (htables x hx).2.2, Bool.true_and]

theorem refines_run (hkd : OutsidePool kd) (hzero : ∀ i : Index, entry mem kd i = 0#64)
    (ops : List MmOp) : Refines kd (run refineStep (⟨mmInit, mem, kd⟩, fun _ => none) ops) :=
  run_invariant (refines_step hkd) (refines_init hzero) ops

/-- After any calls the walk of `get_pte` reads the map that the calls built, a call fails only
for lack of pages, and the rights of a mapped page are those of its leaf. -/
theorem pageTables_refine (hkd : OutsidePool kd) (hzero : ∀ i : Index, entry mem kd i = 0#64)
    (ops : List MmOp) :
    let r := run refineStep (⟨mmInit, mem, kd⟩, fun _ => none) ops
    (∀ v, lookup r.1 v = r.2 (key v)) ∧
    (∀ phys virt flags, succeeds r.1 (.mapPage phys virt flags) = false →
      ∀ p, (getPte virt true r.1).2.pool.pageBitmap.test p = false) ∧
    (∀ is c i, is.length < 3 → Radix.walk (next r.1.mem) r.1.currentDir is = some c →
      isPresent (entry r.1.mem c i) = true → entry r.1.mem c i &&& tableFlags = tableFlags) ∧
    (∀ v e, lookup r.1 v = some e → effectiveRights r.1 v = rights [e]) := by
  intro r
  have hr : Refines kd r := refines_run hkd hzero ops
  refine ⟨fun v => ?_, fun phys virt flags hf => ?_, fun is c i hl hw hp => ?_,
    fun v e h => effectiveRights_eq hr.tables h⟩
  · rw [lookup_eq_find hr.tables]
    exact hr.agrees v
  · rcases getPte_true_spec hkd hr.tables virt with ⟨t, ht, -, -, hfull⟩ | ⟨pt, t, ht, hg, -, hw⟩
    · rw [ht]
      exact hfull
    · have hne := pte_ne_zero hg.ext.tables hw (lastIndex virt)
      simp [succeeds, ht, hne] at hf
  · rw [hr.tables.root] at hw
    obtain ⟨p, hp'⟩ := hr.tables.made is c i hl hw hp
    rw [hp', tableEntry_and_tableFlags]

/-- Mapping a page and unmapping it again, with the root table at 1 MiB. -/
theorem pageTables_refine_map_unmap :
    ∃ r, r = run refineStep (⟨mmInit, fun _ => 0#64, 0x100000#64⟩, fun _ => none)
        [.mapPage 0x5000#64 0x400000#64 0x6#64, .unmapPage 0x400123#64] ∧
      lookup r.1 0x400FFF#64 = none := by
  have h := (@pageTables_refine 0x100000#64 (fun _ => 0#64) (Or.inl (by decide)) (fun _ => rfl)
    [.mapPage 0x5000#64 0x400000#64 0x6#64, .unmapPage 0x400123#64]).1 0x400FFF#64
  have hkey : key 0x400FFF#64 = key 0x400123#64 := by decide
  have hlast (r : MmState × PageMap) (virt : Word) :
      (refineStep r (.unmapPage virt)).2 (key virt) = none := by
    simp [refineStep, succeeds, PageMap.step]
  refine ⟨_, rfl, ?_⟩
  rw [h, hkey]
  exact hlast _ _

end FenwickOS.Mm
