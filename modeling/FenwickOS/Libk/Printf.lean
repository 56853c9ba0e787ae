import FenwickOS.Libk.Stdio

/-! The format language that the kernel's callers of `kprintf_va` use, and what the loop makes of
it piece by piece. -/
namespace FenwickOS.Libk
open Machine

inductive Letter
  | d | x | upperX | p | s | c
  deriving DecidableEq

def Letter.byte : Letter → Byte
  | .d => ascii 'd'
  | .x => ascii 'x'
  | .upperX => ascii 'X'
  | .p => ascii 'p'
  | .s => ascii 's'
  | .c => ascii 'c'

def Letter.conv : Letter → Conv
  | .d => .d
  | .x => .x
  | .upperX => .x
  | .p => .p
  | .s => .s
  | .c => .c

inductive Length
  | none | l | ll
  deriving DecidableEq

def Length.bytes : Length → List Byte
  | .none => []
  | .l => [ascii 'l']
  | .ll => [ascii 'l', ascii 'l']

/-- A specification `%[0][width][l|ll]letter`. -/
structure Spec where
  zero : Bool
  width : List (Fin 10)
  length : Length
  letter : Letter

def widthDigit (d : Fin 10) : Byte := ascii '0' + BitVec.ofNat 8 d.val

def Spec.modifiers (sp : Spec) : List Byte :=
  (if sp.zero then [ascii '0'] else []) ++ sp.width.map widthDigit ++ sp.length.bytes

def Spec.bytes (sp : Spec) : List Byte := ascii '%' :: (sp.modifiers ++ [sp.letter.byte])

def Spec.Plain (sp : Spec) : Prop := sp.zero = false ∧ sp.width = [] ∧ sp.length = .none

instance (sp : Spec) : Decidable sp.Plain := by
  unfold Spec.Plain
  infer_instance

inductive Piece
  | text (c : Byte) (h : c ≠ ascii '%')
  | percent
  | spec (sp : Spec)

def Piece.bytes : Piece → List Byte
  | .text c _ => [c]
  | .percent => [ascii '%', ascii '%']
  | .spec sp => sp.bytes

def formatText (pieces : List Piece) : List Byte := pieces.flatMap Piece.bytes

/-- The conversions that take an argument: a specification with a modifier is not recognised. -/
def Piece.convs : Piece → List Conv
  | .spec sp => if sp.Plain then [sp.letter.conv] else []
  | _ => []

def convs (pieces : List Piece) : List Conv := pieces.flatMap Piece.convs

def Conv.bytes (m : Memory) (arg : Word) (conv : Conv) : List Byte := (conv.emit m arg).getD []

/-- What the loop prints for a piece when the argument pointer is at `k`. -/
def Piece.out (m : Memory) (args : Nat → Word) (k : Nat) : Piece → List Byte
  | .text c _ => [c]
  | .percent => [ascii '%']
  | .spec sp => if sp.Plain then sp.letter.conv.bytes m (args k) else sp.bytes

def outs (m : Memory) (args : Nat → Word) : Nat → List Piece → List Byte
  | _, [] => []
  | k, q :: pieces => q.out m args k ++ outs m args (k + q.convs.length) pieces

variable {m : Memory} {args args' : Nat → Word} {k k' : Nat} {out : List Byte} {c : Byte}
  {sp : Spec} {q : Piece} {pieces ps qs : List Piece} {conv : Conv} {arg fmt : Word}

theorem emit_eq_bytes (m : Memory) (arg : Word) (conv : Conv) :
    conv.emit m arg = some (conv.bytes m arg) := by
  obtain ⟨bytes, hb⟩ := emit_some m arg conv
  rw [Conv.bytes, hb]
  rfl

theorem conv?_letter (letter : Letter) : conv? letter.byte = some letter.conv := by
  cases letter <;> decide

theorem letter_ne_percent (letter : Letter) : letter.byte ≠ ascii '%' := by
  cases letter <;> decide

theorem conv?_modifier (h : c ∈ sp.modifiers) : conv? c = none ∧ c ≠ ascii '%' := by
  have hdigit : ∀ d : Fin 10, conv? (widthDigit d) = none ∧ widthDigit d ≠ ascii '%' := by decide
  have hl : conv? (ascii 'l') = none ∧ ascii 'l' ≠ ascii '%' := by decide
  simp only [Spec.modifiers, List.mem_append] at h
  rcases h with (h | h) | h
  · split at h
    · obtain rfl := List.mem_singleton.mp h
      decide
    · simp at h
  · obtain ⟨d, _, rfl⟩ := List.mem_map.mp h
    exact hdigit d
  · cases hlen : sp.length <;> simp_all [Length.bytes]

theorem plain_iff : sp.Plain ↔ sp.modifiers = [] := by
  unfold Spec.Plain Spec.modifiers
  cases sp.zero <;> cases sp.length <;> simp [Length.bytes]

/-! ### The loop on one piece -/

theorem kprintfLoop_append (s : Printf) (xs ys : List Byte) :
    kprintfLoop m args s (xs ++ ys) =
      (kprintfLoop m args s xs).bind fun t => kprintfLoop m args t ys :=
  List.foldlM_append

theorem kprintfLoop_text {cs : List Byte} (h : ∀ c ∈ cs, c ≠ ascii '%') :
    kprintfLoop m args ⟨false, k, out⟩ cs = some ⟨false, k, out ++ cs⟩ := by
  induction cs generalizing out with
  | nil => simp [kprintfLoop]
  | cons c cs ih =>
    have hc := h c (List.mem_cons_self ..)
    have hstep : kprintfStep m args ⟨false, k, out⟩ c = some ⟨false, k, out ++ [c]⟩ := by
      simp [kprintfStep, hc]
    have hrest : kprintfLoop m args ⟨false, k, out ++ [c]⟩ cs =
        some ⟨false, k, out ++ [c] ++ cs⟩ :=
      ih fun c hm => h c (List.mem_cons_of_mem _ hm)
    simpa [kprintfLoop, hstep] using hrest

theorem kprintfStep_percent :
    kprintfStep m args ⟨false, k, out⟩ (ascii '%') = some ⟨true, k, out⟩ := by
  simp [kprintfStep]

/-- A modifier ends the specification: it and all that follows it are printed as text. -/
theorem kprintfLoop_modified (h : ¬ sp.Plain) :
    kprintfLoop m args ⟨false, k, out⟩ sp.bytes = some ⟨false, k, out ++ sp.bytes⟩ := by
  cases hm : sp.modifiers with
  | nil => exact (h (plain_iff.mpr hm)).elim
  | cons c cs =>
    obtain ⟨hconv, hc⟩ := conv?_modifier (hm ▸ List.mem_cons_self .. : c ∈ sp.modifiers)
    have htext : ∀ b ∈ cs ++ [sp.letter.byte], b ≠ ascii '%' := by
      intro b hb
      rcases List.mem_append.mp hb with hb | hb
      · exact (conv?_modifier (hm ▸ List.mem_cons_of_mem _ hb : b ∈ sp.modifiers)).2
      · obtain rfl := List.mem_singleton.mp hb
        exact letter_ne_percent _
    have hstep : kprintfStep m args ⟨true, k, out⟩ c =
        some ⟨false, k, out ++ [ascii '%', c]⟩ := by
      simp [kprintfStep, hconv, hc]
    have hrest : kprintfLoop m args ⟨false, k, out ++ [ascii '%', c]⟩ (cs ++ [sp.letter.byte]) =
        some ⟨false, k, out ++ [ascii '%', c] ++ (cs ++ [sp.letter.byte])⟩ :=
      kprintfLoop_text htext
    have hbytes : sp.bytes = [ascii '%', c] ++ (cs ++ [sp.letter.byte]) := by
      simp [Spec.bytes, hm]
    have hhead : kprintfLoop m args ⟨false, k, out⟩ [ascii '%', c] =
        some ⟨false, k, out ++ [ascii '%', c]⟩ := by
      simp [kprintfLoop, kprintfStep_percent, hstep]
    rw [hbytes, kprintfLoop_append, hhead, Option.bind_some, hrest, List.append_assoc]

theorem kprintfLoop_plain (h : sp.Plain) :
    kprintfLoop m args ⟨false, k, out⟩ sp.bytes =
      some ⟨false, k + 1, out ++ sp.letter.conv.bytes m (args k)⟩ := by
  have hstep : kprintfStep m args ⟨true, k, out⟩ sp.letter.byte =
      some ⟨false, k + 1, out ++ sp.letter.conv.bytes m (args k)⟩ := by
    simp [kprintfStep, conv?_letter, emit_eq_bytes]
  simp [kprintfLoop, Spec.bytes, plain_iff.mp h, kprintfStep_percent, hstep]

theorem kprintfLoop_piece (q : Piece) :
    kprintfLoop m args ⟨false, k, out⟩ q.bytes =
      some ⟨false, k + q.convs.length, out ++ q.out m args k⟩ := by
  cases q with
  | text c h => exact kprintfLoop_text (by simpa [Piece.bytes] using h)
  | percent =>
    have hstep : kprintfStep m args ⟨true, k, out⟩ (ascii '%') =
        some ⟨false, k, out ++ [ascii '%']⟩ := by
      have hconv : conv? (ascii '%') = none := by decide
      simp [kprintfStep, hconv]
    simp [kprintfLoop, Piece.bytes, Piece.convs, Piece.out, kprintfStep_percent, hstep]
  | spec sp =>
    by_cases h : sp.Plain
    · simpa [Piece.bytes, Piece.convs, Piece.out, h] using kprintfLoop_plain h
    · simpa [Piece.bytes, Piece.convs, Piece.out, h] using kprintfLoop_modified h

theorem kprintfLoop_format (pieces : List Piece) :
    kprintfLoop m args ⟨false, k, out⟩ (formatText pieces) =
      some ⟨false, k + (convs pieces).length, out ++ outs m args k pieces⟩ := by
  induction pieces generalizing k out with
  | nil => simp [formatText, kprintfLoop, convs, outs]
  | cons q pieces ih =>
    have hsplit : formatText (q :: pieces) = q.bytes ++ formatText pieces := rfl
    rw [hsplit, kprintfLoop_append, kprintfLoop_piece, Option.bind_some, ih]
    simp [convs, outs, Nat.add_assoc]

/-! ### Specifications and arguments -/

def Piece.specs : Piece → Nat
  | .spec _ => 1
  | _ => 0

def specCount (pieces : List Piece) : Nat := (pieces.map Piece.specs).sum

/-- `out` is `body` with padding inserted somewhere. -/
def Padded (body out : List Byte) : Prop :=
  ∃ before pad after, body = before ++ after ∧ out = before ++ pad ++ after ∧
    ∀ c ∈ pad, c = ascii ' ' ∨ c = ascii '0'

/-- From `s` to `t` the loop has treated the piece as its writer means it: a specification takes
one argument, the `k`-th, and prints it and nothing of itself. -/
def Serves (m : Memory) (args : Nat → Word) (k : Nat) (s t : Printf) : Piece → Prop
  | .text c _ => t.cursor = s.cursor ∧ t.out = s.out ++ [c]
  | .percent => t.cursor = s.cursor ∧ t.out = s.out ++ [ascii '%']
  | .spec sp => t.cursor = s.cursor + 1 ∧
    ∃ bytes, Padded (sp.letter.conv.bytes m (args k)) bytes ∧ t.out = s.out ++ bytes

/-- Every piece is served, with the argument pointer at the number of specifications before. -/
def Aligned (m : Memory) (args : Nat → Word) (pieces : List Piece) : Prop :=
  ∀ ps q qs, pieces = ps ++ q :: qs →
    ∃ s t, kprintfLoop m args ⟨false, 0, []⟩ (formatText ps) = some s ∧
      kprintfLoop m args ⟨false, 0, []⟩ (formatText (ps ++ [q])) = some t ∧
      s.cursor = specCount ps ∧ Serves m args (specCount ps) s t q

theorem length_convs (h : ∀ sp, .spec sp ∈ pieces → sp.Plain) :
    (convs pieces).length = specCount pieces := by
  induction pieces with
  | nil => rfl
  | cons q pieces ih =>
    have hq : q.convs.length = q.specs := by
      cases q with
      | spec sp => simp [Piece.convs, Piece.specs, h sp (List.mem_cons_self ..)]
      | text c h => rfl
      | percent => rfl
    have htail := ih fun sp hm => h sp (List.mem_cons_of_mem _ hm)
    simp only [convs, specCount, List.flatMap_cons, List.length_append, List.map_cons,
      List.sum_cons] at htail ⊢
    omega

theorem serves_plain (h : ∀ sp, q = .spec sp → sp.Plain) (k : Nat) (out : List Byte) :
    Serves m args k ⟨false, k, out⟩ ⟨false, k + q.convs.length, out ++ q.out m args k⟩ q := by
  cases q with
  | text c h => exact ⟨rfl, rfl⟩
  | percent => exact ⟨rfl, rfl⟩
  | spec sp =>
    have hp := h sp rfl
    refine ⟨by simp [Piece.convs, hp], sp.letter.conv.bytes m (args k), ?_, by simp [Piece.out, hp]⟩
    exact ⟨[], [], sp.letter.conv.bytes m (args k), rfl, rfl, by simp⟩

/-- The loop keeps conversions and arguments aligned exactly on formats without modifiers. -/
theorem aligned_iff (m : Memory) (args : Nat → Word) (pieces : List Piece) :
    Aligned m args pieces ↔ ∀ sp, .spec sp ∈ pieces → sp.Plain := by
  constructor
  · intro h sp hm
    obtain ⟨ps, qs, rfl⟩ := List.append_of_mem hm
    obtain ⟨s, t, hs, ht, -, hcursor, -⟩ := h ps (.spec sp) qs rfl
    rw [kprintfLoop_format] at hs ht
    obtain rfl := Option.some.inj hs
    obtain rfl := Option.some.inj ht
    by_contra hp
    simp [convs, Piece.convs, hp] at hcursor
  · rintro h ps q qs rfl
    have hps : (convs ps).length = specCount ps :=
      length_convs fun sp hm => h sp (List.mem_append_left _ hm)
    have hsplit : formatText (ps ++ [q]) = formatText ps ++ q.bytes := by simp [formatText]
    have hbefore : kprintfLoop m args ⟨false, 0, []⟩ (formatText ps) =
        some ⟨false, specCount ps, outs m args 0 ps⟩ := by
      rw [kprintfLoop_format, Nat.zero_add, hps, List.nil_append]
    refine ⟨_, ⟨false, specCount ps + q.convs.length,
      outs m args 0 ps ++ q.out m args (specCount ps)⟩, hbefore, ?_, rfl, ?_⟩
    · rw [hsplit, kprintfLoop_append, hbefore, Option.bind_some]
      exact kprintfLoop_piece q
    · refine serves_plain (fun sp he => h sp ?_) _ _
      simp [he]

/-- The format of `rtc_print_time`, with the time 5:04:03. -/
theorem not_aligned_time :
    ¬ Aligned ⟨fun _ => 0#8, 0#64, rfl⟩ (fun k => BitVec.ofNat 64 (5 - k))
      [.spec ⟨true, [2], .none, .d⟩, .text (ascii ':') (by decide),
        .spec ⟨true, [2], .none, .d⟩, .text (ascii ':') (by decide),
        .spec ⟨true, [2], .none, .d⟩] := by
  intro h
  obtain ⟨s, t, hs, ht, -, hcursor, -⟩ := h [] (.spec ⟨true, [2], .none, .d⟩) _ rfl
  rw [kprintfLoop_format] at hs ht
  obtain rfl := Option.some.inj hs
  obtain rfl := Option.some.inj ht
  exact absurd hcursor (by decide)

end FenwickOS.Libk
