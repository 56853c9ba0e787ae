import Mathlib.Data.List.Induction
import Mathlib.Data.Option.Basic

/-! Radix trees whose nodes are tables in a store. `next a i` is the table that entry `i` of
table `a` points to; a path is the list of indices read on the way down from the root. -/
namespace Machine.Radix

variable {A I V : Type*} {next next' : A → I → Option A} {leaf leaf' : A → I → Option V}
  {root a b : A} {d : Nat} {q path : List I} {i j : I}

def walk (next : A → I → Option A) : A → List I → Option A
  | a, [] => some a
  | a, i :: is => (next a i).bind fun b => walk next b is

/-- The number of tables that `path` lacks below `a`. -/
def missing (next : A → I → Option A) : A → List I → Nat
  | _, [] => 0
  | a, i :: is =>
    match next a i with
    | some b => missing next b is
    | none => is.length + 1

def find (next : A → I → Option A) (leaf : A → I → Option V) (root : A) (path : List I) (i : I) :
    Option V :=
  (walk next root path).bind fun a => leaf a i

/-- No table is reached by two paths of length at most `d`. -/
def PathsDistinct (next : A → I → Option A) (root : A) (d : Nat) : Prop :=
  ∀ is js a, is.length ≤ d → js.length ≤ d →
    walk next root is = some a → walk next root js = some a → is = js

theorem walk_append (is js : List I) :
    walk next root (is ++ js) = (walk next root is).bind fun a => walk next a js := by
  induction is generalizing root with
  | nil => rfl
  | cons i is ih =>
    simp only [List.cons_append, walk]
    cases next root i with
    | none => rfl
    | some b => exact ih

theorem walk_snoc (is : List I) (i : I) :
    walk next root (is ++ [i]) = (walk next root is).bind fun a => next a i := by
  rw [walk_append]
  cases walk next root is with
  | none => rfl
  | some a => cases h : next a i <;> simp [walk, h]

theorem missing_of_empty (h : ∀ j, next a j = none) (is : List I) :
    missing next a is = is.length := by
  cases is with
  | nil => rfl
  | cons i is => rw [missing, h, List.length_cons]

theorem missing_of_walk (h : walk next a path = some b) : missing next a path = 0 := by
  induction path generalizing a with
  | nil => rfl
  | cons i is ih =>
    rw [walk] at h
    obtain ⟨c, hc, hw⟩ := Option.bind_eq_some_iff.mp h
    rw [missing, hc]
    exact ih hw

/-- Two stores that agree on every table above depth `d` have the same paths to depth `d`. -/
theorem walk_congr
    (h : ∀ js c j, js.length < d → walk next root js = some c → next' c j = next c j)
    (is : List I) (hl : is.length ≤ d) : walk next' root is = walk next root is := by
  induction is using List.reverseRecOn with
  | nil => rfl
  | append_singleton is i ih =>
    rw [List.length_append, List.length_singleton] at hl
    rw [walk_snoc, walk_snoc, ih (by omega)]
    cases hw : walk next root is with
    | none => rfl
    | some c => exact h is c i (by omega) hw

/-- `next'` is `next` with a fresh empty table `b` hung at entry `i` of the table `a`,
which `q` reaches. Tables that no path reaches may change at will. -/
structure Linked (next next' : A → I → Option A) (root : A) (d : Nat) (q : List I) (a : A) (i : I)
    (b : A) : Prop where
  path : walk next root q = some a
  depth : q.length < d
  absent : next a i = none
  new : next' a i = some b
  empty : ∀ j, next' b j = none
  same : ∀ js c j, js.length < d → walk next root js = some c → (c ≠ a ∨ j ≠ i) →
    next' c j = next c j
  fresh : ∀ js, js.length ≤ d → walk next root js ≠ some b

namespace Linked

/-- Exactly one path is new: the one that ends in the fresh table. -/
theorem walk_eq [DecidableEq I] (h : Linked next next' root d q a i b)
    (hd : PathsDistinct next root d) (is : List I) (hl : is.length ≤ d) :
    walk next' root is = if is = q ++ [i] then some b else walk next root is := by
  induction is using List.reverseRecOn with
  | nil => simp [walk]
  | append_singleton is k ih =>
    rw [List.length_append, List.length_singleton] at hl
    rw [walk_snoc, ih (by omega), walk_snoc]
    by_cases hq : is = q ++ [i]
    · -- below the fresh table nothing is reached, before or after
      have hne : is ++ [k] ≠ q ++ [i] := by
        intro he
        have := congrArg List.length (he.symm.trans (congrArg (· ++ [k]) hq))
        simp at this
      have hold : walk next root is = none := by
        rw [hq, walk_snoc, h.path]
        exact h.absent
      rw [if_pos hq, if_neg hne, hold]
      exact h.empty k
    · rw [if_neg hq]
      cases hw : walk next root is with
      | none =>
        have hne : is ++ [k] ≠ q ++ [i] := by
          intro he
          obtain ⟨rfl, -⟩ := List.append_inj' he rfl
          simp [h.path] at hw
        simp [hne]
      | some c =>
        by_cases hc : is = q ∧ k = i
        · obtain ⟨rfl, rfl⟩ := hc
          obtain rfl := Option.some.inj (h.path.symm.trans hw)
          simpa using h.new
        · have hne : is ++ [k] ≠ q ++ [i] := by
            intro he
            obtain ⟨rfl, hk⟩ := List.append_inj' he rfl
            exact hc ⟨rfl, by simpa using hk⟩
          rw [if_neg hne]
          refine h.same is c k (by omega) hw ?_
          by_contra hboth
          obtain ⟨rfl, rfl⟩ := not_or.mp hboth |>.imp not_not.mp not_not.mp
          have hdepth := h.depth
          exact hc ⟨hd is q c (by omega) (by omega) hw h.path, rfl⟩

theorem pathsDistinct (h : Linked next next' root d q a i b) (hd : PathsDistinct next root d) :
    PathsDistinct next' root d := by
  classical
  intro is js c his hjs hi hj
  rw [h.walk_eq hd is his] at hi
  rw [h.walk_eq hd js hjs] at hj
  split at hi <;> split at hj
  · rename_i h1 h2
    rw [h1, h2]
  · obtain rfl := Option.some.inj hi
    exact (h.fresh js hjs hj).elim
  · obtain rfl := Option.some.inj hj
    exact (h.fresh is his hi).elim
  · exact hd is js c his hjs hi hj

theorem find_eq (h : Linked next next' root d q a i b) (hd : PathsDistinct next root d)
    (hleaf : ∀ js c j, js.length = d → walk next root js = some c → leaf' c j = leaf c j)
    (hnew : ∀ j, leaf' b j = none) (path : List I) (hl : path.length = d) (j : I) :
    find next' leaf' root path j = find next leaf root path j := by
  classical
  unfold find
  rw [h.walk_eq hd path (Nat.le_of_eq hl)]
  split
  · rename_i he
    have hold : walk next root path = none := by
      rw [he, walk_snoc, h.path]
      exact h.absent
    simp [hold, hnew]
  · cases hw : walk next root path with
    | none => rfl
    | some c => exact hleaf path c j hl hw

end Linked

/-- Writing one leaf of the table that `q` reaches changes exactly that leaf. -/
theorem find_set [DecidableEq I] {v : Option V} (hd : PathsDistinct next root d)
    (hq : walk next root q = some a) (hql : q.length = d)
    (hwalk : ∀ is, is.length ≤ d → walk next' root is = walk next root is)
    (hset : leaf' a i = v)
    (hsame : ∀ js c j, js.length = d → walk next root js = some c → (c ≠ a ∨ j ≠ i) →
      leaf' c j = leaf c j)
    (path : List I) (hl : path.length = d) (j : I) :
    find next' leaf' root path j =
      if path = q ∧ j = i then v else find next leaf root path j := by
  unfold find
  rw [hwalk path (Nat.le_of_eq hl)]
  split
  · rename_i he
    obtain ⟨rfl, rfl⟩ := he
    rw [hq]
    exact hset
  · rename_i hne
    cases hw : walk next root path with
    | none => rfl
    | some c =>
      refine hsame path c j hl hw ?_
      by_contra hboth
      obtain ⟨rfl, rfl⟩ := not_or.mp hboth |>.imp not_not.mp not_not.mp
      exact hne ⟨hd path q c (Nat.le_of_eq hl) (Nat.le_of_eq hql) hw hq, rfl⟩

end Machine.Radix
