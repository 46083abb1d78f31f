import Mathlib.Data.List.Basic

/-!
# Pieces of a list

What stands in a list between separators: a piece ends in front of a separator
or, unless it is empty, at the end of the list, and starts behind a separator or
at the start. The pieces that are not empty are the maximal runs.
-/

namespace Pieces

set_option autoImplicit false

universe u
variable {α : Type u} (sep : α → Bool)

def IsPiece (s item : List α) : Prop :=
  ∃ before after, s = before ++ item ++ after ∧ (∀ c ∈ item, sep c = false) ∧
    (∀ c, before.getLast? = some c → sep c = true) ∧
    (∀ c, after.head? = some c → sep c = true) ∧ (item = [] → after ≠ [])

/-- A maximal run of characters that are no separators. -/
def IsRun (s item : List α) : Prop := item ≠ [] ∧ IsPiece sep s item

variable {sep}

theorem split_unique {w v s t : List α} {c d : α} (hw : ∀ a ∈ w, sep a = false)
    (hv : ∀ a ∈ v, sep a = false) (hc : sep c = true) (hd : sep d = true)
    (h : w ++ c :: s = v ++ d :: t) : w = v ∧ c = d ∧ s = t := by
  induction w generalizing v with
  | nil =>
    cases v with
    | nil =>
      cases h
      exact ⟨rfl, rfl, rfl⟩
    | cons b v =>
      cases h
      rw [hv c List.mem_cons_self] at hc
      cases hc
  | cons a w ih =>
    cases v with
    | nil =>
      cases h
      rw [hw d List.mem_cons_self] at hd
      cases hd
    | cons b v =>
      rw [List.cons_append, List.cons_append, List.cons.injEq] at h
      obtain ⟨rfl, h⟩ := h
      obtain ⟨rfl, hcd, hst⟩ := ih (fun x hx => hw x (List.mem_cons_of_mem _ hx))
        (fun x hx => hv x (List.mem_cons_of_mem _ hx)) h
      exact ⟨rfl, hcd, hst⟩

theorem split_first (sep : α → Bool) (s : List α) : (∀ a ∈ s, sep a = false) ∨
    ∃ w c t, s = w ++ c :: t ∧ (∀ a ∈ w, sep a = false) ∧ sep c = true := by
  induction s with
  | nil => exact Or.inl nofun
  | cons a s ih =>
    cases ha : sep a with
    | true => exact Or.inr ⟨[], a, s, rfl, nofun, ha⟩
    | false =>
      rcases ih with hnone | ⟨w, c, t, rfl, hw, hc⟩
      · exact Or.inl (List.forall_mem_cons.mpr ⟨ha, hnone⟩)
      · exact Or.inr ⟨a :: w, c, t, rfl, List.forall_mem_cons.mpr ⟨ha, hw⟩, hc⟩

/-- Induction from the first separator to the lists that are no longer than what follows it. -/
theorem split_induction (sep : α → Bool) {motive : List α → Prop}
    (last : ∀ w, (∀ a ∈ w, sep a = false) → motive w)
    (split : ∀ w c t, (∀ a ∈ w, sep a = false) → sep c = true →
      (∀ u : List α, u.length ≤ t.length → motive u) → motive (w ++ c :: t)) (s : List α) :
    motive s := by
  induction hlen : s.length using Nat.strongRecOn generalizing s with
  | ind n ih =>
    rcases split_first sep s with hnone | ⟨w, c, t, rfl, hw, hc⟩
    · exact last s hnone
    · apply split w c t hw hc
      intro u hu
      have hlt : u.length < n := by
        rw [← hlen, List.length_append, List.length_cons]
        omega
      exact ih u.length hlt u rfl

theorem split_head (sep : α → Bool) (s : List α) : ∃ w t, s = w ++ t ∧ (∀ a ∈ w, sep a = false) ∧
    ∀ c, t.head? = some c → sep c = true := by
  rcases split_first sep s with hnone | ⟨w, c, t, rfl, hw, hc⟩
  · exact ⟨s, [], (List.append_nil s).symm, hnone, nofun⟩
  · refine ⟨w, c :: t, rfl, hw, ?_⟩
    rintro d ⟨⟩
    exact hc

theorem isPiece_split {w t item : List α} {d : α} (hw : ∀ a ∈ w, sep a = false)
    (hd : sep d = true) : IsPiece sep (w ++ d :: t) item ↔ item = w ∨ IsPiece sep t item := by
  constructor
  · rintro ⟨before, after, hs, hitem, hbefore, hafter, hempty⟩
    rcases split_first sep before with hnone | ⟨v, c, rest, rfl, hv, hc⟩
    · have hnil : before = [] := by
        by_contra hne
        have hlast := List.getLast?_eq_some_getLast hne
        have hsep := hbefore _ hlast
        rw [hnone _ (List.getLast_mem hne)] at hsep
        cases hsep
      rw [hnil, List.nil_append] at hs
      cases after with
      | nil =>
        rw [List.append_nil] at hs
        rw [hitem d (by rw [← hs]; simp)] at hd
        cases hd
      | cons c after =>
        obtain ⟨rfl, _, _⟩ := split_unique hw hitem hd (hafter c rfl) hs
        exact Or.inl rfl
    · right
      have heq : w ++ d :: t = v ++ c :: (rest ++ item ++ after) := by
        rw [hs]
        simp
      obtain ⟨rfl, rfl, rfl⟩ := split_unique hw hv hd hc heq
      refine ⟨rest, after, rfl, hitem, ?_, hafter, hempty⟩
      intro e he
      apply hbefore
      rw [List.getLast?_append, List.getLast?_cons, he]
      rfl
  · rintro (rfl | ⟨before, after, rfl, hitem, hbefore, hafter, hempty⟩)
    · refine ⟨[], d :: t, by simp, hw, nofun, ?_, by simp⟩
      rintro c ⟨⟩
      exact hd
    · refine ⟨w ++ d :: before, after, by simp, hitem, ?_, hafter, hempty⟩
      intro e he
      rw [List.getLast?_append, List.getLast?_cons] at he
      cases hlast : before.getLast? with
      | none =>
        rw [hlast] at he
        cases he
        exact hd
      | some f =>
        rw [hlast] at he
        cases he
        exact hbefore _ hlast

theorem isPiece_whole {w item : List α} (hw : ∀ a ∈ w, sep a = false) :
    IsPiece sep w item ↔ item = w ∧ w ≠ [] := by
  constructor
  · rintro ⟨before, after, rfl, _, hbefore, hafter, hempty⟩
    have hnil : before = [] := by
      by_contra hne
      have hsep := hbefore _ (List.getLast?_eq_some_getLast hne)
      rw [hw _ (by simp [List.getLast_mem hne])] at hsep
      cases hsep
    have hend : after = [] := by
      cases after with
      | nil => rfl
      | cons c after =>
        have hsep := hafter c rfl
        rw [hw c (by simp)] at hsep
        cases hsep
    rw [hnil, hend, List.nil_append, List.append_nil]
    exact ⟨rfl, fun hitem => hempty hitem hend⟩
  · rintro ⟨rfl, hne⟩
    exact ⟨[], [], by simp, hw, nofun, nofun, fun h => absurd h hne⟩

theorem isRun_split {w t item : List α} {d : α} (hw : ∀ a ∈ w, sep a = false)
    (hd : sep d = true) : IsRun sep (w ++ d :: t) item ↔ item ≠ [] ∧ item = w ∨
      IsRun sep t item := by
  unfold IsRun
  rw [isPiece_split hw hd, and_or_left]

theorem isRun_separators {ws t item : List α} (hws : ∀ a ∈ ws, sep a = true) :
    IsRun sep (ws ++ t) item ↔ IsRun sep t item := by
  induction ws with
  | nil => rw [List.nil_append]
  | cons d ws ih =>
    have hrest := ih fun a ha => hws a (List.mem_cons_of_mem _ ha)
    have hsplit : IsRun sep ([] ++ d :: (ws ++ t)) item ↔
        item ≠ [] ∧ item = [] ∨ IsRun sep (ws ++ t) item :=
      isRun_split (fun _ h => nomatch h) (hws d List.mem_cons_self)
    rw [List.nil_append] at hsplit
    rw [List.cons_append, hsplit, hrest]
    constructor
    · intro h
      exact h.resolve_left fun hnil => hnil.1 hnil.2
    · exact Or.inr

theorem isRun_whole {w item : List α} (hw : ∀ a ∈ w, sep a = false) :
    IsRun sep w item ↔ item ≠ [] ∧ item = w := by
  unfold IsRun
  rw [isPiece_whole hw]
  constructor
  · rintro ⟨hne, rfl, _⟩
    exact ⟨hne, rfl⟩
  · rintro ⟨hne, rfl⟩
    exact ⟨hne, rfl, hne⟩

theorem mem_splitOnP_iff {s item : List α} (hne : item ≠ []) :
    item ∈ s.splitOnP sep ↔ IsRun sep s item := by
  induction s using split_induction sep with
  | last w hw =>
    rw [List.splitOnP_eq_singleton hw, List.mem_singleton, isRun_whole hw]
    simp [hne]
  | split w c t hw hc ih =>
    rw [List.splitOnP_append_cons_of_forall_mem hw c hc, List.mem_cons, isRun_split hw hc,
      ih t (Nat.le_refl _)]
    simp [hne]

/-- A stretch without separators lies in a run. -/
theorem isRun_of_stretch {before mid after : List α} (hne : mid ≠ [])
    (hmid : ∀ a ∈ mid, sep a = false) :
    ∃ item, IsRun sep (before ++ mid ++ after) item ∧ mid.length ≤ item.length := by
  obtain ⟨u, v, hbefore, hu, hv⟩ := split_head sep before.reverse
  obtain ⟨w, t, rfl, hw, ht⟩ := split_head sep after
  have hb : before = v.reverse ++ u.reverse := by
    rw [← List.reverse_append, ← hbefore, List.reverse_reverse]
  refine ⟨u.reverse ++ mid ++ w, ⟨by simp [hne], v.reverse, t, ?_, ?_, ?_, ht, by simp [hne]⟩, ?_⟩
  · rw [hb]
    simp only [List.append_assoc]
  · intro a ha
    simp only [List.mem_append, List.mem_reverse] at ha
    rcases ha with (ha | ha) | ha
    · exact hu a ha
    · exact hmid a ha
    · exact hw a ha
  · intro c hc
    rw [List.getLast?_reverse] at hc
    exact hv c hc
  · simp only [List.length_append]
    omega

theorem IsRun.mono {coarse : α → Bool} {s item : List α} (h : IsRun sep s item)
    (hsep : ∀ a ∈ s, coarse a = true → sep a = true) :
    ∃ item', IsRun coarse s item' ∧ item.length ≤ item'.length := by
  obtain ⟨hne, before, after, rfl, hitem, _⟩ := h
  apply isRun_of_stretch hne
  intro a ha
  by_contra hcoarse
  rw [Bool.not_eq_false] at hcoarse
  have hmem : a ∈ before ++ item ++ after := by simp [ha]
  have := hitem a ha
  rw [hsep a hmem hcoarse] at this
  cases this

theorem isRun_map {β : Type u} {f : β → α} {s : List β} {item : List α} :
    IsRun sep (s.map f) item ↔ ∃ pre, IsRun (sep ∘ f) s pre ∧ pre.map f = item := by
  constructor
  · rintro ⟨hne, before, after, hs, hitem, hbefore, hafter, hempty⟩
    obtain ⟨l₁, l₂, rfl, h₁, rfl⟩ := List.map_eq_append_iff.mp hs
    obtain ⟨l₃, l₄, rfl, rfl, rfl⟩ := List.map_eq_append_iff.mp h₁
    refine ⟨l₄, ⟨?_, l₃, l₂, rfl, ?_, ?_, ?_, ?_⟩, rfl⟩
    · rintro rfl
      exact hne rfl
    · intro b hb
      exact hitem (f b) (List.mem_map_of_mem hb)
    · intro b hb
      apply hbefore (f b)
      rw [List.getLast?_map, hb]
      rfl
    · intro b hb
      apply hafter (f b)
      rw [List.head?_map, hb]
      rfl
    · rintro rfl
      exact absurd rfl hne
  · rintro ⟨pre, ⟨hne, before, after, rfl, hpre, hbefore, hafter, _⟩, rfl⟩
    refine ⟨by simpa using hne, before.map f, after.map f, by simp, ?_, ?_, ?_, by simp [hne]⟩
    · intro a ha
      obtain ⟨b, hb, rfl⟩ := List.mem_map.mp ha
      exact hpre b hb
    · intro a ha
      rw [List.getLast?_map] at ha
      obtain ⟨b, hb, rfl⟩ := Option.map_eq_some_iff.mp ha
      exact hbefore b hb
    · intro a ha
      rw [List.head?_map] at ha
      obtain ⟨b, hb, rfl⟩ := Option.map_eq_some_iff.mp ha
      exact hafter b hb

end Pieces
