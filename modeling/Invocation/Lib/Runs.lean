import Mathlib.Data.List.Basic

/-!
# Runs of a step function

A run applies one action after the other. `Guarded ok s as` says that every
action of the run meets `ok` in the state it finds; an invariant that guarded
steps keep holds wherever a guarded run ends.
-/

namespace Runs

set_option autoImplicit false

universe u v
variable {σ : Type u} {α : Type v} (step : σ → α → σ) (ok : σ → α → Prop)

def run (s : σ) (as : List α) : σ := as.foldl step s

def Guarded : σ → List α → Prop
  | _, [] => True
  | s, a :: as => ok s a ∧ Guarded (step s a) as

instance decidableGuarded [∀ s a, Decidable (ok s a)] :
    ∀ s as, Decidable (Guarded step ok s as)
  | _, [] => inferInstanceAs (Decidable True)
  | s, a :: as =>
    have := decidableGuarded (step s a) as
    inferInstanceAs (Decidable (ok s a ∧ Guarded step ok (step s a) as))

variable {step ok}

@[simp] theorem run_nil (s : σ) : run step s [] = s := rfl

@[simp] theorem run_cons (s : σ) (a : α) (as : List α) :
    run step s (a :: as) = run step (step s a) as := rfl

theorem run_append (s : σ) (as bs : List α) :
    run step s (as ++ bs) = run step (run step s as) bs := List.foldl_append

theorem invariant {Inv : σ → Prop} (hstep : ∀ s a, Inv s → ok s a → Inv (step s a)) {s : σ}
    {as : List α} (hs : Inv s) (hrun : Guarded step ok s as) : Inv (run step s as) := by
  induction as generalizing s with
  | nil => exact hs
  | cons a as ih => exact ih (hstep s a hs hrun.1) hrun.2

theorem guarded_of_forall {p : α → Prop} (h : ∀ s a, p a → ok s a) (s : σ) {as : List α}
    (has : ∀ a ∈ as, p a) : Guarded step ok s as := by
  induction as generalizing s with
  | nil => trivial
  | cons a as ih => exact ⟨h s a (has a (by simp)), ih _ fun b hb => has b (by simp [hb])⟩

theorem Guarded.left {s : σ} {as bs : List α} (h : Guarded step ok s (as ++ bs)) :
    Guarded step ok s as := by
  induction as generalizing s with
  | nil => trivial
  | cons a as ih => exact ⟨h.1, ih h.2⟩

theorem Guarded.right {s : σ} {as bs : List α} (h : Guarded step ok s (as ++ bs)) :
    Guarded step ok (run step s as) bs := by
  induction as generalizing s with
  | nil => exact h
  | cons a as ih => exact ih h.2

theorem Guarded.and {p : α → Prop} {s : σ} {as : List α} (h : Guarded step ok s as)
    (has : ∀ a ∈ as, p a) : Guarded step (fun s a => ok s a ∧ p a) s as := by
  induction as generalizing s with
  | nil => trivial
  | cons a as ih => exact ⟨⟨h.1, has a (by simp)⟩, ih h.2 fun b hb => has b (by simp [hb])⟩

theorem Guarded.at {s : σ} {as bs : List α} {a : α} (h : Guarded step ok s (as ++ a :: bs)) :
    ok (run step s as) a := by
  induction as generalizing s with
  | nil => exact h.1
  | cons b as ih => exact ih h.2

end Runs
