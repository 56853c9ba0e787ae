import FenwickOS.Mm.PoolSafety
import FenwickOS.Mm.Tables

/-! What a creating walk does to the page tables and the pool, also when it fails half-way. -/
namespace FenwickOS.Mm
open Machine

/-- No table of the kernel has an entry at `a`. -/
def OffTables (kd a : Word) : Prop := ∀ c (j : Index), IsTable kd c → a ≠ entryAddr c (j.setWidth 64)

/-- From `s` to `t` the tables have grown along the path `w`: every table is still there, the new
ones lie on the path and are pages from the pool, and each page taken from it is one of them. -/
structure Grows (kd : Word) (w : List Index) (s t : MmState) : Prop where
  ext : Extends kd s t
  kept : ∀ is c, is.length ≤ 3 → Radix.walk (next s.mem) kd is = some c →
    Radix.walk (next t.mem) kd is = some c
  new : ∀ is c, is.length ≤ 3 → Radix.walk (next t.mem) kd is = some c →
    Radix.walk (next s.mem) kd is = none →
    is <+: w ∧ ∃ p, c = pageAddr p ∧ s.pool.pageBitmap.test p = true
  entries : ∀ is c i, is.length ≤ 3 → Radix.walk (next s.mem) kd is = some c →
    entry t.mem c i = entry s.mem c i ∨
      (is ++ [i] <+: w ∧ isPresent (entry s.mem c i) = false ∧
        ∃ p, s.pool.pageBitmap.test p = true ∧ entry t.mem c i = tableEntry (pageAddr p))
  pool : ∀ p, t.pool.pageBitmap.test p = true → s.pool.pageBitmap.test p = true
  linked : ∀ p, s.pool.pageBitmap.test p = true → t.pool.pageBitmap.test p = false →
    ∃ is, is.length ≤ 3 ∧ is <+: w ∧ Radix.walk (next t.mem) kd is = some (pageAddr p)
  others : ∀ a, OffTables kd a → t.mem a = s.mem a

variable {kd c d virt : Word} {s t u : MmState} {q is w : List Index} {i : Index}
  {p : Fin maxPages} {pool : Pool}

theorem Grows.refl (h : Tables kd s) (w : List Index) : Grows kd w s s where
  ext := Extends.refl h
  kept _ _ _ hw := hw
  new _ _ _ hw hn := by
    rw [hn] at hw
    cases hw
  entries _ _ _ _ _ := Or.inl rfl
  pool _ hp := hp
  linked p htrue hfalse := by
    rw [htrue] at hfalse
    cases hfalse
  others _ _ := rfl

theorem Grows.trans (h : Grows kd w s t) (h' : Grows kd w t u) : Grows kd w s u where
  ext := h.ext.trans h'.ext
  kept is c hl hw := h'.kept is c hl (h.kept is c hl hw)
  new is c hl hw hn := by
    cases hold : Radix.walk (next t.mem) kd is with
    | some b =>
      obtain rfl := Option.some.inj ((h'.kept is b hl hold).symm.trans hw)
      exact h.new is b hl hold hn
    | none =>
      obtain ⟨hpath, p, rfl, hp⟩ := h'.new is c hl hw hold
      exact ⟨hpath, p, rfl, h.pool p hp⟩
  entries is c i hl hw := by
    rcases h.entries is c i hl hw with hsame | ⟨hpath, habsent, p, hp, hentry⟩
    · rcases h'.entries is c i hl (h.kept is c hl hw) with hsame' | ⟨hpath, habsent, p, hp, hentry⟩
      · exact Or.inl (hsame'.trans hsame)
      · rw [hsame] at habsent
        exact Or.inr ⟨hpath, habsent, p, h.pool p hp, hentry⟩
    · rcases h'.entries is c i hl (h.kept is c hl hw) with hsame' | ⟨-, hpresent, -⟩
      · exact Or.inr ⟨hpath, habsent, p, hp, hsame'.trans hentry⟩
      · -- the entry made first is present, so it is not made again
        rw [hentry, isPresent_tableEntry] at hpresent
        cases hpresent
  pool p hp := h.pool p (h'.pool p hp)
  linked p htrue hfalse := by
    cases hmid : t.pool.pageBitmap.test p with
    | false =>
      obtain ⟨is, hl, hpath, hw⟩ := h.linked p htrue hmid
      exact ⟨is, hl, hpath, h'.kept is _ hl hw⟩
    | true => exact h'.linked p hmid hfalse
  others a ha := (h'.others a ha).trans (h.others a ha)

theorem Grows.install (hkd : OutsidePool kd) (hs : Tables kd s) (hq : q.length < 3)
    (hpath : q ++ [i] <+: w) (hw : Radix.walk (next s.mem) kd q = some c)
    (hn : next s.mem c i = none) (hp : s.pool.pageBitmap.test p = true)
    (hpool : ∀ p', pool.pageBitmap.test p' = (decide (p' ≠ p) && s.pool.pageBitmap.test p')) :
    Grows kd w s (installTable s c (i.setWidth 64) (pageAddr p) pool) ∧
    Radix.walk (next (installTable s c (i.setWidth 64) (pageAddr p) pool).mem) kd (q ++ [i]) =
      some (pageAddr p) ∧
    ∀ j, next (installTable s c (i.setWidth 64) (pageAddr p) pool).mem (pageAddr p) j = none := by
  have hlink := linked_install hkd hs hq hw hn hp pool
  have hext := extends_install hkd hs hq hw hn hp hpool
  have hlen : (q ++ [i]).length ≤ 3 := by
    rw [List.length_append, List.length_singleton]
    omega
  have habsent : Radix.walk (next s.mem) kd (q ++ [i]) = none := by
    rw [Radix.walk_snoc, hw]
    exact hn
  have hnew := (hlink.walk_eq hs.distinct _ hlen).trans (if_pos rfl)
  refine ⟨⟨hext, fun is d hl hd => ?_, fun is d hl hd hnone => ?_, fun is d j hl hd => ?_,
    fun p' hp' => ?_, fun p' htrue hfalse => ?_, fun a ha => ?_⟩, hnew, hlink.empty⟩
  · have hne : is ≠ q ++ [i] := by
      rintro rfl
      rw [habsent] at hd
      cases hd
    rw [hlink.walk_eq hs.distinct is hl, if_neg hne, hd]
  · rw [hlink.walk_eq hs.distinct is hl] at hd
    split at hd
    · rename_i heq
      exact ⟨heq ▸ hpath, p, (Option.some.inj hd).symm, hp⟩
    · rw [hnone] at hd
      cases hd
  · have hdp : d ≠ pageAddr p := fun he => hs.fresh hkd hp hl (he ▸ hd)
    rw [entry_install hkd (hs.isTable hl hd) (hs.isTable (by omega) hw) (hs.reserved p hp)]
    by_cases hhere : d = c ∧ j = i
    · obtain ⟨rfl, rfl⟩ := hhere
      obtain rfl := hs.distinct is q d hl (by omega) hd hw
      have hzero : isPresent (entry s.mem d j) = false := by
        unfold next at hn
        split at hn
        · cases hn
        · rwa [Bool.not_eq_true] at *
      rw [if_pos ⟨rfl, rfl⟩]
      exact Or.inr ⟨hpath, hzero, p, hp, rfl⟩
    · rw [if_neg hhere, if_neg hdp]
      exact Or.inl rfl
  · have htest : pool.pageBitmap.test p' = true := hp'
    rw [hpool, Bool.and_eq_true] at htest
    exact htest.2
  · have htest : pool.pageBitmap.test p' = false := hfalse
    have heq : p' = p := by
      by_contra hne
      rw [hpool, htrue, decide_eq_true hne] at htest
      cases htest
    subst heq
    exact ⟨q ++ [i], hlen, hpath, hnew⟩
  · have hcell : ¬ ∃ j : Index, a = entryAddr (pageAddr p) (j.setWidth 64) := by
      rintro ⟨j, hj⟩
      exact ha _ j (Or.inr ⟨p, hs.reserved p hp, rfl⟩) hj
    dsimp only [installTable]
    rw [Function.update_of_ne (ha c i (hs.isTable (by omega) hw)), zeroTable_apply, if_neg hcell]

/-! ### The pool in a creating walk -/

theorem freeCount_eq_zero : freeCount pool = 0 ↔ ∀ p, pool.pageBitmap.test p = false := by
  rw [freeCount, Finset.card_eq_zero, Finset.filter_eq_empty_iff]
  simp

theorem freeCount_take {s : Pool} (hp : s.pageBitmap.test p = true)
    (hpool : ∀ p', pool.pageBitmap.test p' = (decide (p' ≠ p) && s.pageBitmap.test p')) :
    freeCount s = freeCount pool + 1 := by
  have hmem : p ∈ Finset.univ.filter fun i : Fin maxPages => s.pageBitmap.test i = true := by
    simpa using hp
  have herase : (Finset.univ.filter fun i : Fin maxPages => pool.pageBitmap.test i = true) =
      (Finset.univ.filter fun i : Fin maxPages => s.pageBitmap.test i = true).erase p := by
    ext p'
    simp [hpool]
  rw [freeCount, freeCount, herase, Finset.card_erase_add_one hmem]

/-- One creating level below a table of the kernel: where the pool is empty, nothing changes. -/
theorem nextTable_true_tables (hs : Tables kd s) (c : Word) (i : Index) :
    (∃ d, next s.mem c i = some d ∧ nextTable c (i.setWidth 64) true s = (some d, s)) ∨
    (next s.mem c i = none ∧ (∀ p, s.pool.pageBitmap.test p = false) ∧
      nextTable c (i.setWidth 64) true s = (none, s)) ∨
    (next s.mem c i = none ∧ ∃ p pool, s.pool.pageBitmap.test p = true ∧
      (∀ p', pool.pageBitmap.test p' = (decide (p' ≠ p) && s.pool.pageBitmap.test p')) ∧
      nextTable c (i.setWidth 64) true s =
        (some (pageAddr p), installTable s c (i.setWidth 64) (pageAddr p) pool)) := by
  rcases nextTable_true_pool s c i with hsome | ⟨hn, hz, he⟩ | hinstall
  · exact Or.inl hsome
  · rcases mmAllocPage_cases s.pool with ⟨p, hp, -, halloc⟩ | ⟨hnone, halloc⟩
    · -- page 0 is never in circulation, so 0 is not an address the pool gives out
      have hlo := hs.reserved p hp
      rw [halloc, pageAddr_eq_zero] at hz
      omega
    · rw [halloc] at he
      exact Or.inr (Or.inl ⟨hn, hnone, he⟩)
  · exact Or.inr (Or.inr hinstall)

/-- What a creating walk from the table at the end of `q` on has done when it ends. -/
structure Walked (kd : Word) (w : List Index) (c : Word) (is : List Index) (s : MmState)
    (r : Option Word × MmState) : Prop where
  grows : Grows kd w s r.2
  found : ∀ d, r.1 = some d → Radix.walk (next r.2.mem) kd w = some d
  fails : r.1 = none ↔ freeCount s.pool < Radix.missing (next s.mem) c is
  exhausted : r.1 = none → ∀ p, r.2.pool.pageBitmap.test p = false

theorem createWalk_walked (hkd : OutsidePool kd) (hs : Tables kd s)
    (hw : Radix.walk (next s.mem) kd q = some c) (hl : q.length + is.length ≤ 3) :
    Walked kd (q ++ is) c is s (createWalk c is s) := by
  induction is generalizing q c s with
  | nil =>
    rw [List.append_nil, createWalk]
    refine ⟨Grows.refl hs q, ?_, iff_of_false (by simp) (Nat.not_lt_zero _), fun h => by cases h⟩
    rintro d ⟨rfl⟩
    exact hw
  | cons i is ih =>
    have happend : q ++ i :: is = (q ++ [i]) ++ is := by simp
    have hlen : (q ++ [i]).length + is.length ≤ 3 := by
      rw [List.length_append, List.length_singleton]
      rw [List.length_cons] at hl
      omega
    have hq : q.length < 3 := by
      rw [List.length_cons] at hl
      omega
    rw [happend]
    rcases nextTable_true_tables hs c i with ⟨d, hd, he⟩ | ⟨hn, hfull, he⟩ |
      ⟨hn, p, pool, hp, hpool, he⟩
    · have hwd : Radix.walk (next s.mem) kd (q ++ [i]) = some d := by
        rw [Radix.walk_snoc, hw]
        exact hd
      obtain ⟨hgrows, hfound, hfails, hexhausted⟩ := ih hs hwd hlen
      have hmissing : Radix.missing (next s.mem) c (i :: is) = Radix.missing (next s.mem) d is := by
        rw [Radix.missing, hd]
      rw [createWalk, he]
      exact ⟨hgrows, hfound, by rw [hmissing]; exact hfails, hexhausted⟩
    · have hmissing : Radix.missing (next s.mem) c (i :: is) = is.length + 1 := by
        rw [Radix.missing, hn]
      rw [createWalk, he]
      refine ⟨Grows.refl hs _, fun d hd => (by cases hd), iff_of_true rfl ?_, fun _ => hfull⟩
      rw [hmissing, freeCount_eq_zero.mpr hfull]
      exact Nat.succ_pos _
    · obtain ⟨hgrown, hwalk, hempty⟩ :=
        Grows.install hkd hs hq (List.prefix_append (q ++ [i]) is) hw hn hp hpool
      obtain ⟨hgrows, hfound, hfails, hexhausted⟩ := ih hgrown.ext.tables hwalk hlen
      have hmissing : Radix.missing (next s.mem) c (i :: is) = is.length + 1 := by
        rw [Radix.missing, hn]
      have hcount : freeCount s.pool = freeCount pool + 1 := freeCount_take hp hpool
      rw [Radix.missing_of_empty hempty] at hfails
      rw [createWalk, he]
      refine ⟨hgrown.trans hgrows, hfound, hfails.trans ?_, hexhausted⟩
      rw [hmissing, hcount]
      exact Nat.add_lt_add_iff_right.symm

theorem getPte_walked (hkd : OutsidePool kd) (hs : Tables kd s) (virt : Word) :
    Walked kd (path virt) kd (path virt) s (createWalk s.currentDir (path virt) s) := by
  rw [hs.root]
  exact createWalk_walked (q := []) hkd hs rfl (Nat.le_refl _)

/-- The three creating levels of `get_pte`: the pool runs out, or the page table is reached. -/
theorem getPte_true_spec (hkd : OutsidePool kd) (hs : Tables kd s) (virt : Word) :
    (∃ t, getPte virt true s = (0#64, t) ∧ Grows kd (path virt) s t ∧
      freeCount s.pool < Radix.missing (next s.mem) kd (path virt) ∧
      ∀ p, t.pool.pageBitmap.test p = false) ∨
    (∃ pt t, getPte virt true s = (entryAddr pt ((lastIndex virt).setWidth 64), t) ∧
      Grows kd (path virt) s t ∧ ¬ freeCount s.pool < Radix.missing (next s.mem) kd (path virt) ∧
      Radix.walk (next t.mem) kd (path virt) = some pt) := by
  have hwalked := getPte_walked hkd hs virt
  rw [getPte_true]
  cases hpt : (createWalk s.currentDir (path virt) s).1 with
  | none => exact Or.inl ⟨_, rfl, hwalked.grows, hwalked.fails.mp hpt, hwalked.exhausted hpt⟩
  | some pt =>
    have hroom : ¬ freeCount s.pool < Radix.missing (next s.mem) kd (path virt) := by
      intro hlt
      rw [hwalked.fails.mpr hlt] at hpt
      cases hpt
    exact Or.inr ⟨pt, _, rfl, hwalked.grows, hroom, hwalked.found pt hpt⟩

theorem getPte_null_iff (hkd : OutsidePool kd) (hs : Tables kd s) (virt : Word) :
    (getPte virt true s).1 = 0#64 ↔
      freeCount s.pool < Radix.missing (next s.mem) kd (path virt) := by
  rcases getPte_true_spec hkd hs virt with ⟨t, he, -, hlt, -⟩ | ⟨pt, t, he, hg, hge, hw⟩
  · rw [he]
    exact iff_of_true rfl hlt
  · rw [he]
    exact iff_of_false (pte_ne_zero hg.ext.tables hw _) hge

/-! ### Map and unmap -/

/-- A map grows the tables and fails, or it writes the leaf into the table it has reached. -/
theorem mmMapPage_cases (hkd : OutsidePool kd) (hs : Tables kd s) (phys virt flags : Word) :
    (∃ t, (getPte virt true s).1 = 0#64 ∧ Grows kd (path virt) s t ∧
      (∀ p, t.pool.pageBitmap.test p = false) ∧ mmMapPage phys virt flags s = (0#64, t)) ∨
    (∃ pt t, (getPte virt true s).1 ≠ 0#64 ∧ Grows kd (path virt) s t ∧
      ¬ freeCount s.pool < Radix.missing (next s.mem) kd (path virt) ∧
      Radix.walk (next t.mem) kd (path virt) = some pt ∧
      mmMapPage phys virt flags s = (virt,
        { t with
          mem := Function.update t.mem (entryAddr pt ((lastIndex virt).setWidth 64))
            (leafEntry phys flags) })) := by
  unfold mmMapPage
  rcases getPte_true_spec hkd hs virt with ⟨t, he, hg, -, hfull⟩ | ⟨pt, t, he, hg, hroom, hw⟩
  · rw [he]
    exact Or.inl ⟨t, rfl, hg, hfull, rfl⟩
  · have hne := pte_ne_zero hg.ext.tables hw (lastIndex virt)
    rw [he]
    exact Or.inr ⟨pt, t, hne, hg, hroom, hw, if_neg hne⟩

/-- An unmap finds nothing, or it clears the leaf. -/
theorem mmUnmapPage_cases (hs : Tables kd s) (virt : Word) :
    (lookup s virt = none ∧ mmUnmapPage virt s = (0#64, s)) ∨
    (∃ pt e, lookup s virt = some e ∧ Radix.walk (next s.mem) kd (path virt) = some pt ∧
      mmUnmapPage virt s = (frame e,
        { s with
          mem := Function.update s.mem (entryAddr pt ((lastIndex virt).setWidth 64)) 0#64 })) := by
  have hget := getPte_false s virt
  rw [hs.root] at hget
  cases hw : Radix.walk (next s.mem) kd (path virt) with
  | none =>
    rw [hw] at hget
    refine Or.inl ⟨?_, ?_⟩
    · unfold lookup
      rw [hget]
      exact if_pos (Or.inl rfl)
    · unfold mmUnmapPage
      rw [hget]
      exact if_pos (Or.inl rfl)
  | some pt =>
    rw [hw] at hget
    unfold lookup mmUnmapPage
    rw [hget]
    dsimp only [Option.map_some, Option.getD_some]
    split
    · exact Or.inl ⟨rfl, rfl⟩
    · exact Or.inr ⟨pt, _, rfl, rfl, rfl⟩

end FenwickOS.Mm
