import Invocation.Lib.Process
import Mathlib.Logic.Function.Basic

/-!
# Recursive processes

Processes that call one another are a family `h` with `body h = h`. When every
run depends on calls of a smaller size only, these equations have exactly one
solution, the calls of a run form a well-founded relation, and as many rounds
as the size says compute it, whatever the calls nested deeper would do.
-/

set_option autoImplicit false

universe u v

namespace Process

variable {σ ε α β : Type u} {P P' : σ → Prop} {Q Q' : α → σ → Prop}

/-- Started in `P`, both processes do the same, and what they return satisfies `Q`. -/
def Agree (P : σ → Prop) (m m' : Process σ ε α) (Q : α → σ → Prop) : Prop :=
  ∀ s, P s → exec m s = exec m' s ∧ ∀ a s', exec m s = (.ok a, s') → Q a s'

namespace Agree

variable {m m' : Process σ ε α}

theorem of_triple {E : ε → σ → Prop} (h : Triple P m Q E) : Agree P m m Q := by
  intro s hs
  refine ⟨rfl, ?_⟩
  intro a s' hres
  have hm := h s hs
  rw [hres] at hm
  exact hm

theorem bind {f f' : α → Process σ ε β} {R : β → σ → Prop} (hm : Agree P m m' Q)
    (hf : ∀ a, Agree (Q a) (f a) (f' a) R) : Agree P (m >>= f) (m' >>= f') R := by
  intro s hs
  obtain ⟨heq, hQ⟩ := hm s hs
  rw [exec_bind, exec_bind, ← heq]
  cases hres : exec m s with
  | mk r s' =>
    cases r with
    | ok a => exact hf a s' (hQ a s' hres)
    | error e =>
      refine ⟨rfl, ?_⟩
      intro b t hb
      cases hb

theorem mono (h : Agree P m m' Q) (hP : ∀ s, P' s → P s) (hQ : ∀ a s, Q a s → Q' a s) :
    Agree P' m m' Q' := by
  intro s hs
  obtain ⟨heq, hm⟩ := h s (hP s hs)
  exact ⟨heq, fun a s' hres => hQ a s' (hm a s' hres)⟩

theorem ite {c : Prop} [Decidable c] {x x' : Process σ ε α} (hm : c → Agree P m m' Q)
    (hx : ¬ c → Agree P x x' Q) : Agree P (if c then m else x) (if c then m' else x') Q := by
  by_cases h : c
  · rw [if_pos h, if_pos h]
    exact hm h
  · rw [if_neg h, if_neg h]
    exact hx h

end Agree

end Process

namespace Recursion

open Process

variable {σ ε : Type u} {ι : Type v} {β : ι → Type u}

/-- What `n` rounds compute when the calls nested deeper do what `start` does. -/
def rounds (body : (∀ i, Process σ ε (β i)) → ∀ i, Process σ ε (β i))
    (start : ∀ i, Process σ ε (β i)) : Nat → ∀ i, Process σ ε (β i)
  | 0 => start
  | n + 1 => body (rounds body start n)

/-- The families agree on the calls below a size, which end as `Post` says. -/
def AgreeBelow (size : ι → σ → Nat) (Post : ∀ i, σ → β i → σ → Prop) (n : Nat)
    (h h' : ∀ i, Process σ ε (β i)) : Prop :=
  ∀ i s, size i s < n → Agree (fun t => t = s) (h i) (h' i) (Post i s)

/-- Every run depends on calls of a smaller size only, and ends as `Post` says when they do. -/
def Decreasing (size : ι → σ → Nat) (Post : ∀ i, σ → β i → σ → Prop)
    (body : (∀ i, Process σ ε (β i)) → ∀ i, Process σ ε (β i)) : Prop :=
  ∀ h h' i s, AgreeBelow size Post (size i s) h h' →
    Agree (fun t => t = s) (body h i) (body h' i) (Post i s)

open Classical in
/-- The family, except that the call of `i` in the state `s` ends differently. -/
noncomputable def diverted (h : ∀ i, Process σ ε (β i)) (i : ι) (s : σ) (r : Except ε (β i) × σ) :
    ∀ i, Process σ ε (β i) :=
  Function.update h i (Function.update (h i : σ → Except ε (β i) × σ) s r)

theorem diverted_other (h : ∀ i, Process σ ε (β i)) {i j : ι} {s t : σ}
    (r : Except ε (β i) × σ) (hne : j = i → t ≠ s) :
    exec (diverted h i s r j) t = exec (h j) t := by
  classical
  unfold diverted
  by_cases hj : j = i
  · subst hj
    rw [Function.update_self]
    exact Function.update_of_ne (hne rfl) _ _
  · rw [Function.update_of_ne hj]

/-- The run of the second call makes the first: how the first ends matters to it. -/
def CalledBy (body : (∀ i, Process σ ε (β i)) → ∀ i, Process σ ε (β i))
    (h : ∀ i, Process σ ε (β i)) (callee caller : ι × σ) : Prop :=
  ∃ r, exec (body (diverted h callee.1 callee.2 r) caller.1) caller.2 ≠
    exec (body h caller.1) caller.2

section Decreasing

variable {size : ι → σ → Nat} {Post : ∀ i, σ → β i → σ → Prop}
  {body : (∀ i, Process σ ε (β i)) → ∀ i, Process σ ε (β i)} {h h' start : ∀ i, Process σ ε (β i)}

theorem AgreeBelow.mono {n m : Nat} (hagree : AgreeBelow size Post m h h') (hle : n ≤ m) :
    AgreeBelow size Post n h h' := fun i s hs => hagree i s (Nat.lt_of_lt_of_le hs hle)

/-- Rounds that reach far enough do not depend on where they started. -/
theorem Decreasing.rounds_agree (hbody : Decreasing size Post body)
    (start start' : ∀ i, Process σ ε (β i)) {n m m' : Nat} (hm : n ≤ m) (hm' : n ≤ m') :
    AgreeBelow size Post n (rounds body start m) (rounds body start' m') := by
  induction n generalizing m m' with
  | zero =>
    intro i s hs
    omega
  | succ n ih =>
    intro i s hs
    obtain ⟨m, rfl⟩ : ∃ k, m = k + 1 := ⟨m - 1, by omega⟩
    obtain ⟨m', rfl⟩ : ∃ k, m' = k + 1 := ⟨m' - 1, by omega⟩
    have hbelow : AgreeBelow size Post n (rounds body start m) (rounds body start' m') :=
      ih (by omega) (by omega)
    exact hbody _ _ i s (hbelow.mono (by omega))

theorem rounds_solution (hh : body h = h) (n : Nat) : rounds body h n = h := by
  induction n with
  | zero => rfl
  | succ n ih =>
    show body (rounds body h n) = h
    rw [ih, hh]

theorem Decreasing.rounds_eq (hbody : Decreasing size Post body) (hh : body h = h)
    (start : ∀ i, Process σ ε (β i)) {n : Nat} {i : ι} {s : σ} (hs : size i s < n) :
    exec (rounds body start n i) s = exec (h i) s := by
  have hagree := hbody.rounds_agree start h (Nat.le_refl n) (Nat.le_refl n) i s hs s rfl
  rw [rounds_solution hh] at hagree
  exact hagree.1

theorem Decreasing.unique (hbody : Decreasing size Post body) (hh : body h = h)
    (hh' : body h' = h') : h = h' := by
  funext i s
  have hrounds := hbody.rounds_eq hh h' (Nat.lt_succ_self (size i s))
  rw [rounds_solution hh'] at hrounds
  exact hrounds.symm

/-- As many rounds as the size of the call says. -/
def solution (size : ι → σ → Nat) (body : (∀ i, Process σ ε (β i)) → ∀ i, Process σ ε (β i))
    (start : ∀ i, Process σ ε (β i)) : ∀ i, Process σ ε (β i) :=
  fun i s => exec (rounds body start (size i s + 1) i) s

theorem Decreasing.solves (hbody : Decreasing size Post body) (start : ∀ i, Process σ ε (β i)) :
    body (solution size body start) = solution size body start := by
  funext i s
  have hbelow : AgreeBelow size Post (size i s) (solution size body start)
      (rounds body start (size i s)) := by
    intro j t ht t' ht'
    subst ht'
    exact hbody.rounds_agree start start (Nat.le_refl (size j t' + 1)) ht j t'
      (Nat.lt_succ_self _) t' rfl
  exact (hbody _ _ i s hbelow s rfl).1

/-- The calls of a recursion that decreases cannot nest for ever. -/
theorem Decreasing.calledBy_wellFounded (hbody : Decreasing size Post body) (hh : body h = h) :
    WellFounded (CalledBy body h) := by
  have hsmaller : ∀ callee caller, CalledBy body h callee caller →
      size callee.1 callee.2 < size caller.1 caller.2 := by
    intro callee caller hcall
    obtain ⟨r, hr⟩ := hcall
    by_contra hle
    apply hr
    -- A call that is not smaller is none of those the caller depends on.
    have hbelow : AgreeBelow size Post (size caller.1 caller.2) h
        (diverted h callee.1 callee.2 r) := by
      intro i s hs t ht
      subst ht
      have hself := hbody.rounds_agree h h (Nat.le_refl (size i t + 1)) (Nat.le_refl _) i t
        (Nat.lt_succ_self _) t rfl
      rw [rounds_solution hh] at hself
      refine ⟨?_, hself.2⟩
      rw [diverted_other]
      rintro rfl rfl
      exact hle hs
    exact (hbody _ _ caller.1 caller.2 hbelow caller.2 rfl).1.symm
  exact Subrelation.wf (fun hcall => hsmaller _ _ hcall)
    (InvImage.wf (fun c : ι × σ => size c.1 c.2) Nat.lt_wfRel.wf)

end Decreasing

end Recursion
