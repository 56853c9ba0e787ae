import Mathlib.Data.List.Induction

/-! Runs of a deterministic step function: what one step keeps, a whole run keeps. -/
namespace Machine

variable {σ α β : Type*} {step : σ → α → σ}

/-- The state after the actions have been performed from left to right. -/
def run (step : σ → α → σ) (s : σ) (actions : List α) : σ := actions.foldl step s

@[simp] theorem run_nil (s : σ) : run step s [] = s := rfl

@[simp] theorem run_cons (s : σ) (a : α) (actions : List α) :
    run step s (a :: actions) = run step (step s a) actions := rfl

theorem run_snoc (s : σ) (xs : List α) (a : α) :
    run step s (xs ++ [a]) = step (run step s xs) a := by
  simp [run]

theorem run_append (s : σ) (xs ys : List α) :
    run step s (xs ++ ys) = run step (run step s xs) ys := by
  simp [run]

theorem run_eq {f : List α → σ} {P : List α → Prop} (hinit : ∀ xs a, P (xs ++ [a]) → P xs)
    (hstep : ∀ xs a, P (xs ++ [a]) → step (f xs) a = f (xs ++ [a])) {actions : List α}
    (h : P actions) : run step (f []) actions = f actions := by
  induction actions using List.reverseRecOn with
  | nil => rfl
  | append_singleton xs a ih =>
    rw [run_snoc, ih (hinit xs a h)]
    exact hstep xs a h

/-- A predicate kept by every step holds at the end of every run. -/
theorem run_invariant {P : σ → Prop} (hstep : ∀ s a, P s → P (step s a)) {s : σ}
    (hs : P s) (actions : List α) : P (run step s actions) := by
  induction actions generalizing s with
  | nil => exact hs
  | cons a actions ih => exact ih (hstep s a hs)

/-- An invariant whose steps may use how the run has come to the state they start from. -/
theorem run_invariant_take {P : σ → Prop} {s : σ} {actions : List α} (hs : P s)
    (hstep : ∀ k (hk : k < actions.length), P (run step s (actions.take k)) →
      P (step (run step s (actions.take k)) actions[k])) : P (run step s actions) := by
  have htake : ∀ k ≤ actions.length, P (run step s (actions.take k)) := by
    intro k
    induction k with
    | zero => exact fun _ => hs
    | succ k ih =>
      intro hk
      rw [List.take_succ_eq_append_getElem hk, run_snoc]
      exact hstep k hk (ih (Nat.le_of_lt hk))
  simpa using htake actions.length (Nat.le_refl _)

/-- What the `k`-th action brings about and no later one undoes holds at the end. -/
theorem run_establishes_take {P Q : σ → Prop} {s : σ} {actions : List α} (k : Nat)
    (hk : k < actions.length) (hQ : ∀ s b, Q s → Q (step s b))
    (hP : ∀ s b, Q s → P s → P (step s b)) (hs : Q s)
    (ha : Q (run step s (actions.take k)) →
      P (step (run step s (actions.take k)) actions[k])) : P (run step s actions) := by
  have hbefore := run_invariant hQ hs (actions.take k)
  have hsplit : actions = actions.take (k + 1) ++ actions.drop (k + 1) :=
    (List.take_append_drop _ _).symm
  rw [hsplit, run_append, List.take_succ_eq_append_getElem hk, run_snoc]
  exact (run_invariant (P := fun s => Q s ∧ P s)
    (fun s b h => ⟨hQ s b h.1, hP s b h.1 h.2⟩) ⟨hQ _ _ hbefore, ha hbefore⟩ _).2

theorem run_rel {τ : Type*} {step' : τ → α → τ} {R : σ → τ → Prop}
    (hstep : ∀ s t a, R s t → R (step s a) (step' t a)) {s : σ} {t : τ} (hs : R s t)
    (actions : List α) : R (run step s actions) (run step' t actions) := by
  induction actions generalizing s t with
  | nil => exact hs
  | cons a actions ih => exact ih (hstep s t a hs)

/-- What one action of a run brings about and no later one undoes holds at its end; `Q` is an
invariant that both may use. -/
theorem run_establishes {P Q : σ → Prop} {a : α} (hQ : ∀ s b, Q s → Q (step s b))
    (hP : ∀ s b, Q s → P s → P (step s b)) (ha : ∀ s, Q s → P (step s a)) {actions : List α}
    (hmem : a ∈ actions) {s : σ} (hs : Q s) : P (run step s actions) := by
  induction actions generalizing s with
  | nil => simp at hmem
  | cons b actions ih =>
    rcases List.mem_cons.mp hmem with rfl | hmem
    · exact (run_invariant (P := fun s => Q s ∧ P s)
        (fun s b h => ⟨hQ s b h.1, hP s b h.1 h.2⟩) ⟨hQ s a hs, ha s hs⟩ actions).2
    · exact ih hmem (hQ s b hs)

/-- What the actions of a run put out, each in the state it is performed in. -/
def outputs (step : σ → α → σ) (out : σ → α → List β) : σ → List α → List β
  | _, [] => []
  | s, a :: actions => out s a ++ outputs step out (step s a) actions

theorem outputs_append {out : σ → α → List β} (s : σ) (xs ys : List α) :
    outputs step out s (xs ++ ys) =
      outputs step out s xs ++ outputs step out (run step s xs) ys := by
  induction xs generalizing s with
  | nil => rfl
  | cons a xs ih => simp only [List.cons_append, outputs, run_cons, ih, List.append_assoc]

/-- A list to which every step appends what it puts out ends up with the outputs of the run. -/
theorem run_outputs {out : σ → α → List β} {f : σ → List β} {Q : σ → Prop}
    (hQ : ∀ s a, Q s → Q (step s a)) (hf : ∀ s a, Q s → f (step s a) = f s ++ out s a) {s : σ}
    (hs : Q s) (actions : List α) :
    f (run step s actions) = f s ++ outputs step out s actions := by
  induction actions generalizing s with
  | nil => exact (List.append_nil _).symm
  | cons a actions ih =>
    rw [run_cons, ih (hQ s a hs), hf s a hs, List.append_assoc]
    rfl

/-- `P` holds in every state that the run passes through. -/
def Throughout (step : σ → α → σ) (P : σ → Prop) (s : σ) (actions : List α) : Prop :=
  ∀ xs, xs <+: actions → P (run step s xs)

/-- Each action of the run meets the condition `G` in the state it is performed in. -/
def Allowed (step : σ → α → σ) (G : σ → α → Prop) : σ → List α → Prop
  | _, [] => True
  | s, a :: actions => G s a ∧ Allowed step G (step s a) actions

theorem throughout_nil {P : σ → Prop} {s : σ} : Throughout step P s [] ↔ P s := by
  simp [Throughout]

theorem throughout_cons {P : σ → Prop} {s : σ} {a : α} {actions : List α} :
    Throughout step P s (a :: actions) ↔ P s ∧ Throughout step P (step s a) actions := by
  constructor
  · intro h
    exact ⟨h [] List.nil_prefix, fun xs hxs => h (a :: xs) (List.cons_prefix_cons.mpr ⟨rfl, hxs⟩)⟩
  · rintro ⟨hs, h⟩ xs hxs
    rcases List.prefix_cons_iff.mp hxs with rfl | ⟨ys, rfl, hys⟩
    · exact hs
    · exact h ys hys

/-- A property that steps keep exactly under `G` while the invariant `Q` holds stays true
throughout a run exactly if all its steps meet `G`. -/
theorem throughout_iff_allowed {P Q : σ → Prop} {G : σ → α → Prop} (hP : ∀ s, Q s → P s)
    (hkeep : ∀ s a, Q s → G s a → Q (step s a)) (hlost : ∀ s a, Q s → P (step s a) → G s a)
    {s : σ} (hs : Q s) (actions : List α) :
    Throughout step P s actions ↔ Allowed step G s actions := by
  induction actions generalizing s with
  | nil => simpa [throughout_nil, Allowed] using hP s hs
  | cons a actions ih =>
    rw [throughout_cons, Allowed]
    constructor
    · rintro ⟨-, h⟩
      have ha : G s a := hlost s a hs (h [] List.nil_prefix)
      exact ⟨ha, (ih (hkeep s a hs ha)).mp h⟩
    · rintro ⟨ha, h⟩
      exact ⟨hP s hs, (ih (hkeep s a hs ha)).mpr h⟩

/-- A view of the state that only some of the actions move, each as an action of a simpler machine,
runs through that machine. -/
theorem run_filterMap {τ γ : Type*} {v : σ → τ} {step' : τ → γ → τ} {f : α → Option γ}
    (hsome : ∀ s a b, f a = some b → v (step s a) = step' (v s) b)
    (hnone : ∀ s a, f a = none → v (step s a) = v s) (s : σ) (actions : List α) :
    v (run step s actions) = run step' (v s) (actions.filterMap f) := by
  induction actions generalizing s with
  | nil => rfl
  | cons a actions ih =>
    rw [run_cons, ih]
    cases hf : f a with
    | none => rw [List.filterMap_cons_none hf, hnone s a hf]
    | some b => rw [List.filterMap_cons_some hf, run_cons, hsome s a b hf]

theorem outputs_filterMap {τ γ : Type*} {v : σ → τ} {step' : τ → γ → τ} {f : α → Option γ}
    {out : σ → α → List β} {out' : τ → γ → List β} {G : σ → α → Prop}
    (hsome : ∀ s a b, f a = some b → v (step s a) = step' (v s) b)
    (hnone : ∀ s a, f a = none → v (step s a) = v s)
    (hout : ∀ s a b, G s a → f a = some b → out s a = out' (v s) b)
    (hsilent : ∀ s a, f a = none → out s a = []) {s : σ} {actions : List α}
    (h : Allowed step G s actions) :
    outputs step out s actions = outputs step' out' (v s) (actions.filterMap f) := by
  induction actions generalizing s with
  | nil => rfl
  | cons a actions ih =>
    obtain ⟨ha, hrest⟩ := h
    rw [outputs, ih hrest]
    cases hf : f a with
    | none => rw [List.filterMap_cons_none hf, hsilent s a hf, hnone s a hf, List.nil_append]
    | some b => rw [List.filterMap_cons_some hf, outputs, hout s a b ha hf, hsome s a b hf]

theorem length_outputs_le {out out' : σ → α → List β}
    (hle : ∀ s a, (out' s a).length ≤ (out s a).length) (s : σ) (actions : List α) :
    (outputs step out' s actions).length ≤ (outputs step out s actions).length := by
  induction actions generalizing s with
  | nil => exact Nat.le_refl _
  | cons a actions ih =>
    rw [outputs, outputs, List.length_append, List.length_append]
    exact Nat.add_le_add (hle s a) (ih _)

/-- If one of two output functions never puts out less than the other, a run has the same outputs
under both exactly if each of its steps has. -/
theorem outputs_eq_iff {out out' : σ → α → List β}
    (hle : ∀ s a, (out' s a).length ≤ (out s a).length) {s : σ} {actions : List α} :
    outputs step out s actions = outputs step out' s actions ↔
      Allowed step (fun s a => out s a = out' s a) s actions := by
  induction actions generalizing s with
  | nil => exact iff_of_true rfl trivial
  | cons a actions ih =>
    rw [outputs, outputs, Allowed, ← ih]
    constructor
    · intro h
      have hlength := congrArg List.length h
      rw [List.length_append, List.length_append] at hlength
      have hfirst := hle s a
      have hrest : (outputs step out' (step s a) actions).length ≤
          (outputs step out (step s a) actions).length := length_outputs_le hle _ _
      exact List.append_inj h (by omega)
    · rintro ⟨hfirst, hrest⟩
      rw [hfirst, hrest]

theorem Allowed.congr_invariant {Q : σ → Prop} {G G' : σ → α → Prop}
    (hiff : ∀ s a, Q s → (G s a ↔ G' s a)) (hkeep : ∀ s a, Q s → G s a → Q (step s a)) {s : σ}
    (hs : Q s) {actions : List α} : Allowed step G s actions ↔ Allowed step G' s actions := by
  induction actions generalizing s with
  | nil => exact Iff.rfl
  | cons a actions ih =>
    rw [Allowed, Allowed, ← hiff s a hs]
    exact and_congr_right fun ha => ih (hkeep s a hs ha)

theorem Allowed.mono_invariant {Q : σ → Prop} {G G' : σ → α → Prop}
    (hG : ∀ s a, Q s → G s a → G' s a) (hkeep : ∀ s a, Q s → G s a → Q (step s a)) {s : σ}
    (hs : Q s) {actions : List α} (h : Allowed step G s actions) : Allowed step G' s actions := by
  induction actions generalizing s with
  | nil => trivial
  | cons a actions ih => exact ⟨hG s a hs h.1, ih (hkeep s a hs h.1) h.2⟩

theorem Allowed.congr {G G' : σ → α → Prop} (hiff : ∀ s a, G s a ↔ G' s a) {s : σ}
    {actions : List α} : Allowed step G s actions ↔ Allowed step G' s actions := by
  have heq : G = G' := funext fun s => funext fun a => propext (hiff s a)
  rw [heq]

theorem allowed_iff_forall {G : α → Prop} {s : σ} {actions : List α} :
    Allowed step (fun _ a => G a) s actions ↔ ∀ a ∈ actions, G a := by
  induction actions generalizing s with
  | nil => simp [Allowed]
  | cons a actions ih => rw [Allowed, ih, List.forall_mem_cons]

end Machine
