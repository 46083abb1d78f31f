import Mathlib.Algebra.GroupWithZero.Nat
import Mathlib.Data.List.Basic

/-!
# Cursors that only move forward

A cursor over a text is the text that is left. `search` moves a cursor until a
step stops it with an answer, `collect` gathers what successive steps consume.
Both run on fuel; a step that shortens what is left never uses it up, so
`find` and `unfold` start with the length and obey their recursion equations.
-/

namespace Scan

set_option autoImplicit false

universe u v
variable {α : Type u} {β : Type v}

/-- Every move of the cursor leaves a strictly shorter rest. -/
def Advances (step : List α → β ⊕ List α) : Prop :=
  ∀ a s t, step (a :: s) = .inr t → t.length ≤ s.length

def search (step : List α → β ⊕ List α) (stop : β) : Nat → List α → β
  | 0, _ => stop
  | _ + 1, [] => stop
  | n + 1, a :: s =>
    match step (a :: s) with
    | .inl b => b
    | .inr t => search step stop n t

def find (step : List α → β ⊕ List α) (stop : β) (s : List α) : β :=
  search step stop s.length s

theorem search_stable {step : List α → β ⊕ List α} (h : Advances step) (stop : β) :
    ∀ (n m : Nat) (s : List α), s.length ≤ n → s.length ≤ m →
      search step stop n s = search step stop m s := by
  intro n
  induction n with
  | zero =>
    intro m s hn _
    have hs : s = [] := List.length_eq_zero_iff.mp (by omega)
    subst hs
    cases m <;> rfl
  | succ n ih =>
    intro m s hn hm
    cases s with
    | nil => cases m <;> rfl
    | cons a s =>
      cases m with
      | zero => simp at hm
      | succ m =>
        simp only [search]
        cases hstep : step (a :: s) with
        | inl b => rfl
        | inr t =>
          have ht := h a s t hstep
          simp only [List.length_cons] at hn hm
          exact ih m t (by omega) (by omega)

@[simp] theorem find_nil (step : List α → β ⊕ List α) (stop : β) : find step stop [] = stop := rfl

theorem find_stop {step : List α → β ⊕ List α} {stop b : β} {a : α} {s : List α}
    (hs : step (a :: s) = .inl b) : find step stop (a :: s) = b := by
  simp [find, search, hs]

theorem find_move {step : List α → β ⊕ List α} (h : Advances step) {stop : β} {a : α}
    {s t : List α} (hs : step (a :: s) = .inr t) :
    find step stop (a :: s) = find step stop t := by
  simp only [find, List.length_cons, search, hs]
  exact search_stable h stop _ _ t (h a s t hs) (Nat.le_refl _)

/-- What the search answers satisfies whatever every stopping answer satisfies. -/
theorem find_induct {step : List α → β ⊕ List α} (h : Advances step) {stop : β}
    (motive : List α → β → Prop) (hnil : motive [] stop)
    (hstop : ∀ a s b, step (a :: s) = .inl b → motive (a :: s) b)
    (hmove : ∀ a s t b, step (a :: s) = .inr t → motive t b → motive (a :: s) b)
    (s : List α) : motive s (find step stop s) := by
  induction hn : s.length using Nat.strongRecOn generalizing s with
  | ind n ih =>
    cases s with
    | nil => exact hnil
    | cons a s =>
      cases hs : step (a :: s) with
      | inl b =>
        have hb : find step stop (a :: s) = b := find_stop hs
        rw [hb]
        exact hstop a s b hs
      | inr t =>
        rw [find_move h hs]
        have ht := h a s t hs
        simp only [List.length_cons] at hn
        exact hmove a s t _ hs (ih t.length (by omega) t rfl)

/-- Every piece taken off leaves a strictly shorter rest. -/
def Shrinks (next : List α → Option (β × List α)) : Prop :=
  ∀ s b t, next s = some (b, t) → t.length < s.length

def collect (next : List α → Option (β × List α)) : Nat → List α → List β
  | 0, _ => []
  | n + 1, s =>
    match next s with
    | none => []
    | some (b, t) => b :: collect next n t

def unfold (next : List α → Option (β × List α)) (s : List α) : List β :=
  collect next s.length s

theorem collect_stable {next : List α → Option (β × List α)} (h : Shrinks next) :
    ∀ (n m : Nat) (s : List α), s.length ≤ n → s.length ≤ m →
      collect next n s = collect next m s := by
  have hend : ∀ m, ∀ s : List α, s.length = 0 → collect next m s = [] := by
    intro m s hs
    cases m with
    | zero => rfl
    | succ m =>
      cases hn : next s with
      | none => simp [collect, hn]
      | some p =>
        have := h s p.1 p.2 hn
        omega
  intro n
  induction n with
  | zero =>
    intro m s hn _
    rw [hend m s (by omega)]
    rfl
  | succ n ih =>
    intro m s hn hm
    cases m with
    | zero => exact hend _ s (by omega)
    | succ m =>
      simp only [collect]
      cases hnext : next s with
      | none => rfl
      | some p =>
        have hp := h s p.1 p.2 hnext
        simp only [List.cons.injEq, true_and]
        exact ih m p.2 (by omega) (by omega)

theorem unfold_none {next : List α → Option (β × List α)} {s : List α} (hs : next s = none) :
    unfold next s = [] := by
  unfold unfold
  cases s.length with
  | zero => rfl
  | succ n => simp [collect, hs]

theorem unfold_some {next : List α → Option (β × List α)} (h : Shrinks next) {s t : List α}
    {b : β} (hs : next s = some (b, t)) : unfold next s = b :: unfold next t := by
  have hlt := h s b t hs
  obtain ⟨n, hn⟩ : ∃ n, s.length = n + 1 := ⟨s.length - 1, by omega⟩
  simp only [unfold, hn, collect, hs, List.cons.injEq, true_and]
  exact collect_stable h n t.length t (by omega) (Nat.le_refl _)

/-- The loop over `next` takes these pieces off the text and stops. -/
inductive Ends (next : List α → Option (β × List α)) : List α → List β → Prop
  | done {s : List α} : next s = none → Ends next s []
  | round {s t : List α} {b : β} {bs : List β} :
    next s = some (b, t) → Ends next t bs → Ends next s (b :: bs)

theorem Shrinks.ends {next : List α → Option (β × List α)} (h : Shrinks next) (s : List α) :
    Ends next s (unfold next s) := by
  induction hn : s.length using Nat.strongRecOn generalizing s with
  | ind n ih =>
    cases hnext : next s with
    | none =>
      rw [unfold_none hnext]
      exact .done hnext
    | some p =>
      have hlt := h s p.1 p.2 hnext
      rw [unfold_some h hnext]
      exact .round hnext (ih p.2.length (by omega) p.2 rfl)

/-- Each cursor is a strictly shorter end of the text before it, and the loop stops. -/
def Finishes (next : List α → Option (β × List α)) : Prop :=
  (∀ s b t, next s = some (b, t) → t <:+ s ∧ t.length < s.length) ∧
    ∀ s, Ends next s (unfold next s)

theorem Shrinks.finishes {next : List α → Option (β × List α)} (h : Shrinks next)
    (hsuffix : ∀ s b t, next s = some (b, t) → t <:+ s) : Finishes next :=
  ⟨fun s b t hs => ⟨hsuffix s b t hs, h s b t hs⟩, h.ends⟩

/-! ## Pieces that depend on the pieces before them -/

/-- `collect` for a step that knows the pieces taken off so far, newest first. -/
def gather (next : List β → List α → Option (β × List α)) : Nat → List β → List α → List β
  | 0, _, _ => []
  | n + 1, past, s =>
    match next past s with
    | none => []
    | some (b, t) => b :: gather next n (b :: past) t

theorem gather_stable {next : List β → List α → Option (β × List α)}
    (h : ∀ past, Shrinks (next past)) : ∀ (n m : Nat) (past : List β) (s : List α),
      s.length ≤ n → s.length ≤ m → gather next n past s = gather next m past s := by
  have hend : ∀ m past, ∀ s : List α, s.length = 0 → gather next m past s = [] := by
    intro m past s hs
    cases m with
    | zero => rfl
    | succ m =>
      cases hn : next past s with
      | none => simp [gather, hn]
      | some p =>
        have := h past s p.1 p.2 hn
        omega
  intro n
  induction n with
  | zero =>
    intro m past s hn _
    rw [hend m past s (by omega)]
    rfl
  | succ n ih =>
    intro m past s hn hm
    cases m with
    | zero => exact hend _ past s (by omega)
    | succ m =>
      simp only [gather]
      cases hnext : next past s with
      | none => rfl
      | some p =>
        have hp := h past s p.1 p.2 hnext
        simp only [List.cons.injEq, true_and]
        exact ih m _ p.2 (by omega) (by omega)

def pieces (next : List β → List α → Option (β × List α)) (past : List β) (s : List α) : List β :=
  gather next s.length past s

theorem pieces_none {next : List β → List α → Option (β × List α)} {past : List β} {s : List α}
    (hs : next past s = none) : pieces next past s = [] := by
  unfold pieces
  cases s.length with
  | zero => rfl
  | succ n => simp [gather, hs]

theorem pieces_some {next : List β → List α → Option (β × List α)}
    (h : ∀ past, Shrinks (next past)) {past : List β} {s t : List α} {b : β}
    (hs : next past s = some (b, t)) : pieces next past s = b :: pieces next (b :: past) t := by
  have hlt := h past s b t hs
  obtain ⟨n, hn⟩ : ∃ n, s.length = n + 1 := ⟨s.length - 1, by omega⟩
  simp only [pieces, hn, gather, hs, List.cons.injEq, true_and]
  exact gather_stable h n t.length _ t (by omega) (Nat.le_refl _)

/-- The pieces weigh no more than the text they were taken off. -/
theorem unfold_weight {next : List α → Option (β × List α)} {weight : List α → Nat}
    {pieceWeight : β → Nat}
    (h : ∀ s b t, next s = some (b, t) → pieceWeight b + weight t ≤ weight s) (s : List α) :
    ((unfold next s).map pieceWeight).sum ≤ weight s := by
  have hcollect : ∀ (n : Nat) (s : List α), ((collect next n s).map pieceWeight).sum ≤
      weight s := by
    intro n
    induction n with
    | zero =>
      intro s
      exact Nat.zero_le _
    | succ n ih =>
      intro s
      simp only [collect]
      cases hnext : next s with
      | none => exact Nat.zero_le _
      | some p =>
        have hp := h s p.1 p.2 hnext
        have hrest := ih p.2
        simp only [List.map_cons, List.sum_cons]
        omega
  exact hcollect s.length s

end Scan
