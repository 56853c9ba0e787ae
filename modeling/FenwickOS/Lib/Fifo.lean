import FenwickOS.Lib.Ring

/-! Bounded first-in first-out queues, and ring buffers as their implementation. -/
namespace Machine

/-- What is queued, and what has been taken out before, oldest first. -/
structure Fifo (α : Type*) where
  queue : List α
  received : List α

theorem forall_mem_snoc {α : Type*} {P : α → Prop} {xs : List α} {a : α} (h : ∀ x ∈ xs, P x)
    (ha : P a) : ∀ x ∈ xs ++ [a], P x :=
  List.forall_mem_append.mpr ⟨h, List.forall_mem_singleton.mpr ha⟩

namespace Fifo

variable {α : Type*}

/-- A queue that holds `cap` elements drops what comes. -/
def push (cap : Nat) (c : α) (f : Fifo α) : Fifo α :=
  if f.queue.length < cap then { f with queue := f.queue ++ [c] } else f

def pop (f : Fifo α) : Fifo α := ⟨f.queue.tail, f.received ++ f.queue.head?.toList⟩

def accepted (f : Fifo α) : List α := f.received ++ f.queue

variable {cap : Nat} {c d : α} {f : Fifo α}

@[simp] theorem push_received : (f.push cap c).received = f.received := by
  unfold push
  split <;> rfl

theorem accepted_push (h : f.queue.length < cap) :
    (f.push cap c).accepted = f.accepted ++ [c] := by
  rw [push, if_pos h, accepted, accepted, List.append_assoc]

theorem accepted_pop : f.pop.accepted = f.accepted := by
  unfold accepted pop
  cases f.queue <;> simp

theorem head?_push (h : f.queue.head? = some d) : (f.push cap c).queue.head? = some d := by
  unfold push
  split
  · rw [List.head?_append, h]
    rfl
  · exact h

theorem push_ne_nil (h : f.queue ≠ []) : (f.push cap c).queue ≠ [] := by
  unfold push
  split
  · simp
  · exact h

end Fifo

namespace Ring

variable {α : Type*} {n : Nat} [NeZero n] {r : Ring α n} {f : Fifo α} {c : α} {P : α → Prop}

/-- The first element leaves, wherever it is. -/
def advance (r : Ring α n) : Ring α n := { r with start := r.start + 1 }

theorem val_add_one_mod (i : Fin n) : (i + 1).val = (i.val + 1) % n := by
  rw [Fin.val_add]
  simp

/-- The increment of an index as the C expression `(i + 1) % n` computes it. -/
theorem val_succ (i : Fin n) : ((i + 1).val : Int) = ((i.val : Int) + 1).tmod n := by
  rw [val_add_one_mod, Int.tmod_eq_emod_of_nonneg (by omega)]
  rfl

theorem full_iff (r : Ring α n) : r.stop + 1 = r.start ↔ ¬ r.contents.length < n - 1 := by
  have hlt := (r.stop - r.start).isLt
  have hval := val_add_one_mod (r.stop - r.start)
  have hzero : r.stop + 1 = r.start ↔ r.stop - r.start + 1 = 0 := by
    rw [← add_sub_right_comm, sub_eq_zero]
  rw [hzero, length_contents, ← Fin.val_eq_zero_iff, hval]
  constructor
  · intro hmod hroom
    rw [Nat.mod_eq_of_lt (by omega)] at hmod
    omega
  · intro hfull
    have hlast : (r.stop - r.start).val + 1 = n := by omega
    rw [hlast, Nat.mod_self]

theorem push_of_full (h : ¬ r.contents.length < n - 1) : r.push c = r :=
  if_pos ((full_iff r).mpr h)

theorem contents_ne_nil : r.contents ≠ [] ↔ r.start ≠ r.stop := not_congr contents_eq_nil

/-- The ring holds the queue, all of whose elements satisfy `P`. -/
structure Holds (P : α → Prop) (r : Ring α n) (f : Fifo α) : Prop where
  queue : r.contents = f.queue
  all : ∀ c ∈ f.queue, P c

theorem Holds.length_lt (h : r.Holds P f) : f.queue.length < n :=
  h.queue ▸ r.length_contents_lt

theorem Holds.isEmpty_iff (h : r.Holds P f) : f.queue.isEmpty = true ↔ r.start = r.stop := by
  rw [List.isEmpty_iff, ← h.queue, contents_eq_nil]

theorem Holds.push (h : r.Holds P f) (hc : P c) : (r.push c).Holds P (f.push (n - 1) c) := by
  unfold Fifo.push
  split
  · rename_i hroom
    refine ⟨?_, fun c' hc' => ?_⟩
    · rw [contents_push, if_neg (not_congr (full_iff r) |>.mpr ?_), h.queue]
      rwa [not_not, h.queue]
    · rcases List.mem_append.mp hc' with hold | hnew
      · exact h.all c' hold
      · obtain rfl := List.mem_singleton.mp hnew
        exact hc
  · rename_i hfull
    rw [push_of_full (h.queue ▸ hfull)]
    exact h

theorem cons_contents_advance (h : r.start ≠ r.stop) :
    r.contents = r.cells r.start :: r.advance.contents :=
  contents_pop (if_neg h)

theorem Holds.head (h : r.Holds P f) (hne : f.queue ≠ []) :
    f.queue.head? = some (r.cells r.start) := by
  rw [← h.queue] at hne ⊢
  rw [cons_contents_advance (contents_ne_nil.mp hne)]
  rfl

theorem Holds.advance (h : r.Holds P f) (hne : f.queue ≠ []) : r.advance.Holds P f.pop := by
  have hcons := cons_contents_advance (contents_ne_nil.mp (h.queue ▸ hne))
  rw [h.queue] at hcons
  refine ⟨?_, fun c hc => h.all c (List.mem_of_mem_tail hc)⟩
  rw [Fifo.pop, hcons]
  rfl

end Ring
end Machine
