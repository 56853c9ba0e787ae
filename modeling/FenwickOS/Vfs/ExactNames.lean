import FenwickOS.Drv.Subsystem
import FenwickOS.Lib.CString
import FenwickOS.Vfs.NameLookup

/-! The searches by name of kernel/drv/drv.c and kernel/vfs/vfs.c with the bytes they read. -/
namespace FenwickOS.Vfs
open Machine Drv

/-- A byte that a search reads: `name[j]`, or `name[j]` of the entry in slot `i`. -/
inductive NameRead (n : Nat)
  | query (j : Nat)
  | stored (i : Fin n) (j : Nat)

variable {σ : Type*} {n : Nat}

/-- The bytes from `a` on, whatever ends them. -/
def pointed (m : Memory) (a : Word) (j : Nat) : Byte := m.byte (a + BitVec.ofNat 64 j)

/-- The bytes from a name field on; `behind` is the memory after the field. -/
def fieldBytes (stored : Name) (behind : Nat → Byte) (j : Nat) : Byte :=
  if h : j < drvNameMax then stored ⟨j, h⟩ else behind (j - drvNameMax)

/-- The `while` loop over an entry from position `j` on: where it stops. -/
def nameLoop (name stored : Nat → Byte) (i : Fin n) (j : Nat) : Nat × List (NameRead n) :=
  if name j = 0#8 then (j, [.query j])
  else
    let reads := [.query j, .stored i j, .query j]
    if stored j ≠ name j then (j, reads)
    else if j < drvNameMax - 1 then
      let (stop, more) := nameLoop name stored i (j + 1)
      (stop, reads ++ more)
    else (j, reads)
termination_by drvNameMax - j

def nameTest (name stored : Nat → Byte) (i : Fin n) : Bool × List (NameRead n) :=
  let (j, reads) := nameLoop name stored i 0
  if name j = 0#8 then (stored j == 0#8, reads ++ [.query j, .stored i j])
  else (false, reads ++ [.query j])

/-- The `for` loop over the slots that are left. -/
def searchFrom (name : Nat → Byte) (active : Fin n → Bool) (stored : Fin n → Nat → Byte) :
    List (Fin n) → Option (Fin n) × List (NameRead n)
  | [] => (none, [])
  | i :: rest =>
    if active i then
      let (found, reads) := nameTest name (stored i) i
      if found then (some i, reads)
      else
        let (result, more) := searchFrom name active stored rest
        (result, reads ++ more)
    else searchFrom name active stored rest

/-- `dev_get_by_name` on the string at `name`, with the bytes it reads. -/
def devGetByNameAt (m : Memory) (name : Word) (behind : Fin maxDevices → Nat → Byte)
    (r : Registry σ) : Option (Fin maxDevices) × List (NameRead maxDevices) :=
  searchFrom (pointed m name) (fun i => (r.devices i).active)
    (fun i => fieldBytes (r.devices i).name (behind i)) (List.finRange maxDevices)

/-- `vfs_get_by_name` on the string at `name`, with the bytes it reads. -/
def vfsGetByNameAt (m : Memory) (name : Word) (behind : Fin vfsNodeMax → Nat → Byte)
    (v : NodeTable σ) : Option (Fin vfsNodeMax) × List (NameRead vfsNodeMax) :=
  searchFrom (pointed m name) (fun i => (v.nodes i).active)
    (fun i => fieldBytes (v.nodes i).name (behind i)) (List.finRange vfsNodeMax)

/-- Nothing has been read behind the NUL of the query or behind a stored name. -/
structure ReadsWithin (query : List Byte) (reads : List (NameRead n)) : Prop where
  query : ∀ j, .query j ∈ reads → j ≤ query.length
  stored : ∀ i j, .stored i j ∈ reads → j < drvNameMax

/-- A search that finds the lowest active entry whose stored name is `query`, and nothing exactly
if there is none. -/
structure FindsExactly (active : Fin n → Bool) (names : Fin n → Name) (query : List Byte)
    (searched : Option (Fin n) × List (NameRead n)) : Prop where
  lowest : ∀ i, searched.1 = some i ↔
    (active i = true ∧ storedString (names i) = query) ∧
      ∀ j < i, ¬ (active j = true ∧ storedString (names j) = query)
  absent : searched.1 = none ↔ ∀ i, ¬ (active i = true ∧ storedString (names i) = query)
  reads : ReadsWithin query searched.2

/-- The names of the active entries end inside their fields. -/
def NamesEnd (active : Fin n → Bool) (names : Fin n → Name) : Prop :=
  ∀ i, active i = true → ∃ j, names i j = 0#8

variable {query : List Byte} {name : Nat → Byte} {stored : Name} {behind : Nat → Byte} {i : Fin n}
  {j k : Nat} {reads more : List (NameRead n)} {active : Fin n → Bool} {names : Fin n → Name}

/-! ### One comparison -/

theorem ReadsWithin.append (h : ReadsWithin query reads) (h' : ReadsWithin query more) :
    ReadsWithin query (reads ++ more) where
  query j hj := (List.mem_append.mp hj).elim (h.query j) (h'.query j)
  stored i j hj := (List.mem_append.mp hj).elim (h.stored i j) (h'.stored i j)

theorem readsWithin_nil : ReadsWithin query ([] : List (NameRead n)) :=
  ⟨by simp, by simp⟩

theorem readsWithin_query (hj : j ≤ query.length) : ReadsWithin query [(.query j : NameRead n)] :=
  ⟨by simpa using hj, by simp⟩

theorem readsWithin_stored (hj : j < drvNameMax) : ReadsWithin query [NameRead.stored i j] :=
  ⟨by simp, by simpa using hj⟩

theorem readsWithin_round (hj : j ≤ query.length) (hlt : j < drvNameMax) :
    ReadsWithin query [.query j, NameRead.stored i j, .query j] :=
  (readsWithin_query hj).append ((readsWithin_stored hlt).append (readsWithin_query hj))

theorem fieldBytes_of_lt (hj : j < drvNameMax) : fieldBytes stored behind j = stored ⟨j, hj⟩ :=
  dif_pos hj

theorem pointed_eq (m : Memory) (a : Word) (hj : j ≤ (cstring m a).length) :
    pointed m a j = charAt (cstring m a) j := by
  have hbyte := getElem?_terminated m a j
  rw [if_pos hj] at hbyte
  rw [pointed, charAt, List.getD_eq_getElem?_getD]
  rcases Nat.eq_or_lt_of_le hj with heq | hlt
  · rw [terminated, heq, List.getElem?_concat_length] at hbyte
    rw [heq, ← Option.some.inj hbyte, List.getElem?_eq_none (Nat.le_refl _), Option.getD_none]
  · rw [terminated, List.getElem?_append_left hlt] at hbyte
    rw [hbyte, Option.getD_some]

/-- The loop from `j` on stops inside both strings, where they end together exactly if they agree
from `j` on. -/
structure StopsWithin (query : List Byte) (stored : Name) (j : Nat)
    (stopped : Nat × List (NameRead n)) : Prop where
  query_le : stopped.1 ≤ query.length
  stored_lt : stopped.1 < drvNameMax
  reads : ReadsWithin query stopped.2
  test : charAt query stopped.1 = 0#8 ∧ stored ⟨stopped.1, stored_lt⟩ = 0#8 ↔
    AgreeFrom query stored j

theorem nameLoop_stops (hquery : 0#8 ∉ query) (hname : ∀ j ≤ query.length, name j = charAt query j)
    (hj : j ≤ query.length) (hlt : j < drvNameMax) :
    StopsWithin query stored j (nameLoop name (fieldBytes stored behind) i j) := by
  have hbyte := hname j hj
  fun_induction nameLoop name (fieldBytes stored behind) i j with
  | case1 j hnul =>
    refine ⟨hj, hlt, readsWithin_query hj, ?_⟩
    rw [hbyte] at hnul
    rw [agreeFrom_iff hlt]
    simp [hnul]
  | case2 j hchar reads hdiff =>
    refine ⟨hj, hlt, readsWithin_round hj hlt, ?_⟩
    rw [fieldBytes_of_lt hlt, hbyte] at hdiff
    rw [hbyte] at hchar
    rw [agreeFrom_iff hlt]
    simp [hchar, hdiff]
  | case3 j hchar reads hsame hnext stop more hloop ih =>
    rw [fieldBytes_of_lt hlt, hbyte, not_not] at hsame
    rw [hbyte] at hchar
    have hinside : j < query.length := by
      by_contra hend
      exact hchar ((charAt_eq_zero hquery).mpr (not_lt.mp hend))
    have hrest := ih hinside (by omega) (hname _ hinside)
    rw [hloop] at hrest
    refine ⟨hrest.query_le, hrest.stored_lt, (readsWithin_round hj hlt).append hrest.reads, ?_⟩
    rw [agreeFrom_iff hlt]
    simpa [hchar, hsame] using hrest.test
  | case4 j hchar reads hsame hlast =>
    -- at the last position the query goes on
    have hend : ¬ AgreeFrom query stored (j + 1) := by
      rintro ⟨stop, hle, -⟩
      have := stop.isLt
      omega
    refine ⟨hj, hlt, readsWithin_round hj hlt, ?_⟩
    rw [hbyte] at hchar
    rw [agreeFrom_iff hlt]
    simp [hchar, hend]

theorem nameTest_spec (hquery : 0#8 ∉ query) (hname : ∀ j ≤ query.length, name j = charAt query j)
    (stored : Name) (behind : Nat → Byte) (i : Fin n) :
    (nameTest name (fieldBytes stored behind) i).1 = nameMatches query stored ∧
      ReadsWithin query (nameTest name (fieldBytes stored behind) i).2 := by
  have hstop : StopsWithin query stored 0 (nameLoop name (fieldBytes stored behind) i 0) :=
    nameLoop_stops hquery hname (Nat.zero_le _) (by decide)
  generalize hloop : nameLoop name (fieldBytes stored behind) i 0 = stopped at hstop
  have hlast : ReadsWithin query [(.query stopped.1 : NameRead n)] :=
    readsWithin_query hstop.query_le
  have htest : nameMatches query stored = true ↔ charAt query stopped.1 = 0#8 ∧
      stored ⟨stopped.1, hstop.stored_lt⟩ = 0#8 := by
    rw [nameMatches, nameMatchesFrom_iff, hstop.test]
  simp only [nameTest, hloop]
  rw [fieldBytes_of_lt hstop.stored_lt, hname _ hstop.query_le]
  split
  · rename_i hnul
    refine ⟨?_, hstop.reads.append (hlast.append (readsWithin_stored hstop.stored_lt))⟩
    rw [Bool.eq_iff_iff, htest]
    simp [hnul]
  · rename_i hchar
    refine ⟨?_, hstop.reads.append hlast⟩
    rw [Bool.eq_iff_iff, htest]
    simp [hchar]

/-! ### The tables -/

theorem searchFrom_spec (hquery : 0#8 ∉ query)
    (hname : ∀ j ≤ query.length, name j = charAt query j) (active : Fin n → Bool)
    (names : Fin n → Name) (behind : Fin n → Nat → Byte) (slots : List (Fin n)) :
    (searchFrom name active (fun i => fieldBytes (names i) (behind i)) slots).1 =
        slots.find? (fun i => active i && nameMatches query (names i)) ∧
      ReadsWithin query
        (searchFrom name active (fun i => fieldBytes (names i) (behind i)) slots).2 := by
  induction slots with
  | nil => exact ⟨rfl, readsWithin_nil⟩
  | cons i slots ih =>
    obtain ⟨hfound, hreads⟩ := nameTest_spec hquery hname (names i) (behind i) i
    rw [searchFrom, List.find?_cons]
    cases hactive : active i with
    | false => exact ih
    | true =>
      rw [if_pos rfl, Bool.true_and, ← hfound]
      dsimp only
      cases (nameTest name (fieldBytes (names i) (behind i)) i).1 with
      | true => exact ⟨rfl, hreads⟩
      | false => exact ⟨ih.1, hreads.append ih.2⟩

/-- Where the names end inside their fields, a search is exact. -/
theorem findsExactly (hquery : 0#8 ∉ query) (hname : ∀ j ≤ query.length, name j = charAt query j)
    (hend : NamesEnd active names) (behind : Fin n → Nat → Byte) :
    FindsExactly active names query
      (searchFrom name active (fun i => fieldBytes (names i) (behind i)) (List.finRange n)) := by
  obtain ⟨hfound, hreads⟩ :=
    searchFrom_spec hquery hname active names behind (List.finRange n)
  have hhit (i : Fin n) : (active i && nameMatches query (names i)) = true ↔
      active i = true ∧ storedString (names i) = query := by
    rw [Bool.and_eq_true_iff]
    exact and_congr_right fun hactive => nameMatches_iff (hend i hactive) hquery
  refine ⟨fun i => ?_, ?_, hreads⟩
  · rw [hfound]
    refine firstSlot_eq_some_iff.trans (and_congr (hhit i) (forall₂_congr fun j _ => ?_))
    rw [← hhit, Bool.not_eq_true]
  · rw [hfound]
    refine firstSlot_eq_none_iff.trans (forall_congr' fun i => ?_)
    rw [← hhit, Bool.not_eq_true]

def DeviceNamesEnd (r : Registry σ) : Prop :=
  NamesEnd (fun i => (r.devices i).active) fun i => (r.devices i).name

def NodeNamesEnd (v : NodeTable σ) : Prop :=
  NamesEnd (fun i => (v.nodes i).active) fun i => (v.nodes i).name

theorem copyName_end (dst : Name) (src : List Byte) : ∃ j, copyName dst src j = 0#8 :=
  ⟨_, storeName_stop dst src⟩

theorem vfsRegister_end {v : NodeTable σ} (h : NodeNamesEnd v) (args : NodeArgs σ) :
    NodeNamesEnd (vfsRegister args v).2 := by
  rcases vfsRegister_spec args v with ⟨i, -, he⟩ | ⟨-, he⟩
  · rw [he]
    intro j hj
    dsimp only at hj ⊢
    by_cases hji : j = i
    · rw [hji, storeNode_self]
      exact ⟨_, storeName_stop _ _⟩
    · rw [storeNode_of_ne hji] at hj ⊢
      exact h j hj
  · rwa [he]

/-- What the searches for the string at `name` find and read, whatever stands behind the names. -/
structure ExactNames (m : Memory) (name : Word) (r : Registry σ) (v : NodeTable σ) : Prop where
  devices : ∀ behind, FindsExactly (fun i => (r.devices i).active) (fun i => (r.devices i).name)
    (cstring m name) (devGetByNameAt m name behind r)
  nodes : ∀ behind, FindsExactly (fun i => (v.nodes i).active) (fun i => (v.nodes i).name)
    (cstring m name) (vfsGetByNameAt m name behind v)
  device : ∀ behind, devGetByName (some (cstring m name)) r = (devGetByNameAt m name behind r).1
  node : ∀ behind,
    vfsGetByName (some (cstring m name)) v = (vfsGetByNameAt m name behind v).1.map v.nodes
  copied : ∀ dst src, ∃ j, copyName dst src j = 0#8
  registered : ∀ args, NodeNamesEnd (vfsRegister args v).2

/-- Both searches match whole names and stay inside the strings. -/
theorem names_exact {r : Registry σ} {v : NodeTable σ} (hr : DeviceNamesEnd r)
    (hv : NodeNamesEnd v) (m : Memory) (name : Word) : ExactNames m name r v := by
  have hquery := nul_not_mem_cstring m name
  have hname : ∀ j ≤ (cstring m name).length, pointed m name j = charAt (cstring m name) j :=
    fun _ => pointed_eq m name
  exact
    { devices := findsExactly hquery hname hr
      nodes := findsExactly hquery hname hv
      device := fun behind => (searchFrom_spec hquery hname _ _ behind _).1.symm
      node := fun behind =>
        congrArg (Option.map v.nodes) (searchFrom_spec hquery hname _ _ behind _).1.symm
      copied := copyName_end
      registered := vfsRegister_end hv }

def vgaOnly : Registry Unit where
  drivers := fun _ => ⟨.unknown, none, false, false, false⟩
  devices := fun i => ⟨copyName (fun _ => 0xFF#8) vga0, .display, none, 1#32, i.val == 0⟩
  driverCount := 0
  deviceCount := 1
  drvInitialized := true

def vgaString : Memory := ⟨fun a => charAt vga0 a.toNat, 4#64, rfl⟩

theorem names_exact_vga : ExactNames vgaString 0#64 vgaOnly (tableAfter staticNodes [longName]) :=
  names_exact (fun _ _ => copyName_end _ _) (wellFilled_tableAfter rfl [longName]).nul vgaString 0#64

end FenwickOS.Vfs
