import Invocation.Lib.Runs
import Mathlib.Logic.Function.Iterate

/-!
# Schedules that do not matter

Actors take turns on a common state; a turn in which an actor has to wait
changes nothing. When two actors that can both move may do so in either order,
every schedule that comes to rest takes the same number of moves and ends in
the same state.
-/

namespace Schedules

set_option autoImplicit false

universe u v
variable {σ : Type u} {α : Type v} (step : σ → α → σ)

def Resting (s : σ) : Prop := ∀ a, step s a = s

/-- Two moves can be made one after the other, in either order. -/
def Commuting : Prop :=
  ∀ s a b, step s a ≠ s → step s b ≠ s → step s a = step s b ∨
    (step (step s a) b = step (step s b) a ∧ step (step s a) b ≠ step s a ∧
      step (step s b) a ≠ step s b)

/-- So many turns, each of which changes the state. -/
inductive Path : Nat → σ → σ → Prop
  | refl (s : σ) : Path 0 s s
  | move {n : Nat} {s t : σ} (a : α) : step s a ≠ s → Path n (step s a) t → Path (n + 1) s t

variable {step} {s t u : σ} {n k : Nat}

theorem Path.trans (h : Path step n s t) (h' : Path step k t u) : Path step (n + k) s u := by
  induction h with
  | refl s =>
    rw [Nat.zero_add]
    exact h'
  | move a hmove _ ih =>
    rw [Nat.add_right_comm]
    exact .move a hmove (ih h')

theorem path_step (s : σ) (a : α) : ∃ n, Path step n s (step s a) := by
  by_cases h : step s a = s
  · rw [h]
    exact ⟨0, .refl s⟩
  · exact ⟨1, .move a h (.refl _)⟩

theorem path_iterate (a : α) (n : Nat) (s : σ) : ∃ k, Path step k s ((step · a)^[n] s) := by
  induction n generalizing s with
  | zero => exact ⟨0, .refl s⟩
  | succ n ih =>
    obtain ⟨j, hj⟩ : ∃ j, Path step j s (step s a) := path_step s a
    obtain ⟨k, hk⟩ := ih (step s a)
    rw [Function.iterate_succ_apply]
    exact ⟨j + k, hj.trans hk⟩

/-- Any move can be the first one of a run that comes to rest. -/
theorem Path.first (hcommuting : Commuting step) (h : Path step n s t) (hrest : Resting step t)
    {a : α} (hmove : step s a ≠ s) : ∃ m, n = m + 1 ∧ Path step m (step s a) t := by
  induction h generalizing a with
  | refl s => exact absurd (hrest a) hmove
  | @move n s t b hb hrun ih =>
    refine ⟨n, rfl, ?_⟩
    rcases hcommuting s a b hmove hb with heq | ⟨heq, hab, hba⟩
    · rw [heq]
      exact hrun
    · obtain ⟨m, rfl, hm⟩ := ih hrest hba
      refine .move b hab ?_
      rw [heq]
      exact hm

/-- Whatever has been done, what is left of a run that comes to rest leads there. -/
theorem Path.rest (hcommuting : Commuting step) (h : Path step n s t) (hrest : Resting step t)
    (hu : Path step k s u) : ∃ m, n = k + m ∧ Path step m u t := by
  induction hu generalizing n with
  | refl s => exact ⟨n, (Nat.zero_add n).symm, h⟩
  | move a hmove _ ih =>
    obtain ⟨m, rfl, hm⟩ := h.first hcommuting hrest hmove
    obtain ⟨j, rfl, hj⟩ := ih hm
    exact ⟨j, Nat.add_right_comm _ _ _, hj⟩

theorem Path.unique (hcommuting : Commuting step) (h : Path step n s t) (hrest : Resting step t)
    (hu : Path step k s u) (hrest' : Resting step u) : n = k ∧ t = u := by
  obtain ⟨m, rfl, hm⟩ := h.rest hcommuting hrest hu
  cases hm with
  | refl => exact ⟨rfl, rfl⟩
  | move a hmove _ => exact absurd (hrest' a) hmove

/-- A schedule for the moves that are left. -/
theorem Path.schedule (h : Path step n s t) : ∃ as : List α, Runs.run step s as = t := by
  induction h with
  | refl s => exact ⟨[], rfl⟩
  | move a _ _ ih =>
    obtain ⟨as, has⟩ := ih
    exact ⟨a :: as, has⟩

end Schedules
