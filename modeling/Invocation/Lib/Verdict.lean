import Mathlib.Data.List.Basic

/-!
# The first verdict

A list is judged element by element: the first element that is accepted ends
the scan, one that cannot be judged ends it without a verdict, and the others
are passed over.
-/

namespace Verdict

set_option autoImplicit false

universe u
variable {α : Type u}

def first (judge : α → Option Bool) : List α → Option Bool
  | [] => some false
  | a :: l =>
    match judge a with
    | none => none
    | some true => some true
    | some false => first judge l

/-- Every element that cannot be judged stands behind one that is accepted. -/
def Guarded (judge : α → Option Bool) (l : List α) : Prop :=
  ∀ before a after, l = before ++ a :: after → judge a = none → ∃ b ∈ before, judge b = some true

variable {judge judge' : α → Option Bool} {a : α} {l : List α} {b : Bool}

theorem guarded_cons_none (h : judge a = none) : ¬ Guarded judge (a :: l) := by
  intro hguarded
  obtain ⟨_, hmem, _⟩ := hguarded [] a l rfl h
  cases hmem

theorem guarded_cons_true (h : judge a = some true) : Guarded judge (a :: l) := by
  intro before c after hsplit hnone
  cases before with
  | nil =>
    rw [List.nil_append] at hsplit
    rw [(List.cons.inj hsplit).1, hnone] at h
    cases h
  | cons d before =>
    rw [List.cons_append] at hsplit
    rw [(List.cons.inj hsplit).1] at h
    exact ⟨d, List.mem_cons_self, h⟩

theorem guarded_cons_false (h : judge a = some false) :
    Guarded judge (a :: l) ↔ Guarded judge l := by
  constructor
  · intro hguarded before c after hsplit hnone
    obtain ⟨d, hd, haccepted⟩ := hguarded (a :: before) c after (by rw [hsplit]; rfl) hnone
    rcases List.mem_cons.mp hd with rfl | hd
    · rw [h] at haccepted
      cases haccepted
    · exact ⟨d, hd, haccepted⟩
  · intro hguarded before c after hsplit hnone
    cases before with
    | nil =>
      rw [List.nil_append] at hsplit
      rw [(List.cons.inj hsplit).1, hnone] at h
      cases h
    | cons d before =>
      rw [List.cons_append] at hsplit
      obtain ⟨d', hd', haccepted⟩ := hguarded before c after (List.cons.inj hsplit).2 hnone
      exact ⟨d', List.mem_cons_of_mem _ hd', haccepted⟩

/-- A guarded list has a verdict, and it says whether an element is accepted. -/
theorem first_eq_some_iff : first judge l = some b ↔
    Guarded judge l ∧ (b = true ↔ ∃ a ∈ l, judge a = some true) := by
  induction l with
  | nil =>
    have hguarded : Guarded judge [] := by
      intro before a after hsplit
      cases before with
      | nil => cases hsplit
      | cons d before => cases hsplit
    simp [first, hguarded, eq_comm]
  | cons a l ih =>
    rw [first]
    cases hjudge : judge a with
    | none => simp [guarded_cons_none hjudge]
    | some verdict =>
      cases verdict with
      | true => simp [guarded_cons_true hjudge, hjudge, eq_comm]
      | false =>
        rw [guarded_cons_false hjudge]
        dsimp only
        rw [ih]
        simp [hjudge]

theorem first_true_iff : first judge l = some true ↔
    ∃ before a after, l = before ++ a :: after ∧ (∀ b ∈ before, judge b = some false) ∧
      judge a = some true := by
  constructor
  · intro h
    induction l with
    | nil => cases h
    | cons a l ih =>
      rw [first] at h
      cases hjudge : judge a with
      | none =>
        rw [hjudge] at h
        cases h
      | some verdict =>
        rw [hjudge] at h
        cases verdict with
        | true => exact ⟨[], a, l, rfl, nofun, hjudge⟩
        | false =>
          obtain ⟨before, c, after, rfl, hbefore, hc⟩ := ih h
          exact ⟨a :: before, c, after, rfl, List.forall_mem_cons.mpr ⟨hjudge, hbefore⟩, hc⟩
  · intro h
    obtain ⟨before, a, after, rfl, hbefore, ha⟩ := h
    induction before with
    | nil => simp [first, ha]
    | cons b before ih =>
      obtain ⟨hb, hbefore⟩ := List.forall_mem_cons.mp hbefore
      rw [List.cons_append, first, hb]
      exact ih hbefore

/-- Where each element is passed over or judged `x`, the verdict is `x` as soon as one is. -/
theorem first_uniform {x : Option Bool} (hx : x ≠ some false)
    (h : ∀ a ∈ l, judge a = some false ∨ judge a = x) :
    first judge l = if ∃ a ∈ l, judge a = x then x else some false := by
  induction l with
  | nil => simp [first]
  | cons a l ih =>
    obtain ⟨ha, hl⟩ := List.forall_mem_cons.mp h
    rw [first]
    rcases ha with ha | ha
    · have hne : ¬ some false = x := fun heq => hx heq.symm
      simp only [ha, ih hl, List.mem_cons, exists_eq_or_imp, hne, false_or]
    · simp only [ha, List.mem_cons, exists_eq_or_imp, true_or, if_true]
      rcases x with _ | _ | _
      · rfl
      · exact absurd rfl hx
      · rfl

theorem first_refines (h : ∀ a b, judge a = some b → judge' a = some b)
    (hfirst : first judge l = some b) : first judge' l = some b := by
  induction l with
  | nil => exact hfirst
  | cons a l ih =>
    rw [first] at hfirst ⊢
    cases hjudge : judge a with
    | none =>
      rw [hjudge] at hfirst
      cases hfirst
    | some verdict =>
      rw [hjudge] at hfirst
      rw [h a verdict hjudge]
      cases verdict with
      | true => exact hfirst
      | false => exact ih hfirst

end Verdict
