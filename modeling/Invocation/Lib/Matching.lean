import Mathlib.Data.List.Infix
import Mathlib.Data.Nat.Find

/-!
# Matching with a restart

A matcher counts how much of a text it has just seen. On an element that does
not go on, it starts again with that element as the first one, where a matcher
that forgets nothing goes back to the longest beginning of the text that still
ends what was read. `Restartable` texts lose nothing by it.
-/

namespace Matching

set_option autoImplicit false

universe u
variable {α : Type u} [DecidableEq α]

/-- The count after one more element; a full count stands for an occurrence. -/
def advance (text : List α) (count : Nat) (a : α) : Nat :=
  let start := if text[count]? = some a then count else 0
  if text[start]? = some a then start + 1 else start

/-- Wherever the text could start again in itself, it does. -/
def Restartable (text : List α) : Prop :=
  ∀ i, 0 < i → i < text.length → text[i]? = text[0]? → text.drop i <+: text

instance (text : List α) : Decidable (Restartable text) :=
  decidable_of_iff
    (∀ i < text.length, 0 < i → text[i]? = text[0]? → text.drop i <+: text)
    ⟨fun h i hpos hi => h i hi hpos, fun h i hi hpos => h i hpos hi⟩

/-- The longest beginning of the text that ends what was read. -/
structure Longest (text seen : List α) (count : Nat) : Prop where
  le : count ≤ text.length
  suffix : text.take count <:+ seen
  most : ∀ j, j ≤ text.length → text.take j <:+ seen → j ≤ count

section Advance

variable {text seen : List α} {count : Nat} {a : α}

omit [DecidableEq α] in
theorem longest_nil (hne : text ≠ []) : Longest text [] 0 := by
  refine ⟨Nat.zero_le _, List.nil_suffix, ?_⟩
  intro j hj hsuffix
  have hnil := List.suffix_nil.mp hsuffix
  have hlength := congrArg List.length hnil
  rw [List.length_take, List.length_nil] at hlength
  have hpos := List.length_pos_of_ne_nil hne
  omega

omit [DecidableEq α] in
/-- A longer beginning ends in the new element, behind a beginning that was there before. -/
theorem take_succ_suffix {j : Nat} (hj : j < text.length) :
    text.take (j + 1) <:+ seen ++ [a] ↔ text[j]? = some a ∧ text.take j <:+ seen := by
  rw [List.take_succ_eq_append_getElem hj, List.getElem?_eq_getElem hj]
  constructor
  · intro h
    obtain ⟨before, hbefore⟩ := h
    rw [← List.append_assoc] at hbefore
    obtain ⟨hseen, hlast⟩ := List.append_inj' hbefore rfl
    exact ⟨congrArg some (List.cons.inj hlast).1, ⟨before, hseen⟩⟩
  · rintro ⟨hlast, before, hbefore⟩
    rw [Option.some_inj] at hlast
    exact ⟨before, by rw [← List.append_assoc, hbefore, hlast]⟩

omit [DecidableEq α] in
theorem Longest.full_iff (h : Longest text seen count) : count = text.length ↔ text <:+ seen := by
  constructor
  · intro hfull
    have hsuffix := h.suffix
    rwa [hfull, List.take_length] at hsuffix
  · intro hsuffix
    apply Nat.le_antisymm h.le
    apply h.most _ (Nat.le_refl _)
    rwa [List.take_length]

omit [DecidableEq α] in
/-- Where the element does not go on, no longer beginning of a restartable text ends in it. -/
theorem restart_most (hrestart : Restartable text) (h : Longest text seen count)
    (hcount : count < text.length) (hstop : text[count]? ≠ some a) {j : Nat} (hj : j < text.length)
    (hsuffix : text.take (j + 1) <:+ seen ++ [a]) : j = 0 := by
  obtain ⟨hlast, hseen⟩ := (take_succ_suffix hj).mp hsuffix
  have hle := h.most j (Nat.le_of_lt hj) hseen
  have hne : j ≠ count := by
    rintro rfl
    exact hstop hlast
  by_contra hpos
  have hinside : text.take j <:+ text.take count := by
    apply List.suffix_of_suffix_length_le hseen h.suffix
    rw [List.length_take, List.length_take]
    omega
  obtain ⟨before, hbefore⟩ := hinside
  have hlength : before.length = count - j := by
    have hsum := congrArg List.length hbefore
    rw [List.length_append, List.length_take, List.length_take] at hsum
    omega
  have hsame : ∀ k, k < j → text[count - j + k]? = text[k]? := by
    intro k hk
    have hget := congrArg (·[count - j + k]?) hbefore
    simp only [List.getElem?_append_right
      (Nat.le_trans (Nat.le_of_eq hlength) (Nat.le_add_right _ _)),
      hlength, Nat.add_sub_cancel_left, List.getElem?_take_of_lt hk] at hget
    rw [List.getElem?_take_of_lt (by omega)] at hget
    exact hget.symm
  have hprefix := hrestart (count - j) (by omega) (by omega) (hsame 0 (by omega))
  have hget := List.prefix_iff_getElem?.mp hprefix j (by rw [List.length_drop]; omega)
  rw [← List.getElem?_eq_getElem, List.getElem?_drop] at hget
  have hindex : count - j + j = count := by omega
  rw [hindex, hlast] at hget
  exact hstop hget.symm

/-- The restarting matcher keeps the longest beginning of a restartable text. -/
theorem advance_longest (hrestart : Restartable text) (h : Longest text seen count)
    (hcount : count < text.length) : Longest text (seen ++ [a]) (advance text count a) := by
  by_cases hgo : text[count]? = some a
  · have hadvance : advance text count a = count + 1 := by simp [advance, hgo]
    rw [hadvance]
    refine ⟨hcount, (take_succ_suffix hcount).mpr ⟨hgo, h.suffix⟩, ?_⟩
    intro j hj hsuffix
    cases j with
    | zero => exact Nat.zero_le _
    | succ j =>
      have hbefore := ((take_succ_suffix hj).mp hsuffix).2
      exact Nat.succ_le_succ (h.most j (Nat.le_of_lt hj) hbefore)
  · have hpos : 0 < text.length := Nat.lt_of_le_of_lt (Nat.zero_le _) hcount
    have hmost := fun j (hj : j < text.length) =>
      restart_most (a := a) hrestart h hcount hgo hj
    by_cases hfirst : text[0]? = some a
    · have hadvance : advance text count a = 1 := by simp [advance, hgo, hfirst]
      rw [hadvance]
      refine ⟨hpos, (take_succ_suffix hpos).mpr ⟨hfirst, List.nil_suffix⟩, ?_⟩
      intro j hj hsuffix
      cases j with
      | zero => exact Nat.zero_le _
      | succ j => rw [hmost j hj hsuffix]
    · have hadvance : advance text count a = 0 := by simp [advance, hgo, hfirst]
      rw [hadvance]
      refine ⟨Nat.zero_le _, List.nil_suffix, ?_⟩
      intro j hj hsuffix
      cases j with
      | zero => exact Nat.le_refl _
      | succ j =>
        have hzero := hmost j hj hsuffix
        subst hzero
        exact absurd ((take_succ_suffix hpos).mp hsuffix).1 hfirst

end Advance

/-! ## The first occurrence -/

/-- How much has been read when the text has first occurred. -/
def firstEnd (text read : List α) : Option Nat :=
  (List.range (read.length + 1)).find? fun n => decide (text <:+: read.take n)

theorem firstEnd_eq_some_iff {text read : List α} {f : Nat} : firstEnd text read = some f ↔
    f ≤ read.length ∧ text <:+: read.take f ∧ ∀ m < f, ¬ text <:+: read.take m := by
  unfold firstEnd
  rw [List.find?_range_eq_some]
  simp only [decide_eq_true_iff, List.mem_range, Bool.not_eq_true', decide_eq_false_iff_not]
  constructor
  · rintro ⟨hhere, hle, hbefore⟩
    exact ⟨by omega, hhere, hbefore⟩
  · rintro ⟨hle, hhere, hbefore⟩
    exact ⟨hhere, by omega, hbefore⟩

/-- By `n` the text has occurred exactly when it is in what was read by then. -/
theorem firstEnd_le_iff {text read : List α} {n : Nat} :
    (∃ f, firstEnd text read = some f ∧ f ≤ n) ↔ text <:+: read.take n := by
  constructor
  · rintro ⟨f, hf, hle⟩
    have hinfix := (firstEnd_eq_some_iff.mp hf).2.1
    exact hinfix.trans (List.take_prefix_take_left hle).isInfix
  · intro hinfix
    have hexists : ∃ m, text <:+: read.take m := ⟨n, hinfix⟩
    have hfirst := Nat.find_spec hexists
    have hbefore := fun k (hk : k < Nat.find hexists) => Nat.find_min hexists hk
    have hle : Nat.find hexists ≤ n := Nat.find_min' hexists hinfix
    generalize Nat.find hexists = f at hfirst hbefore hle
    refine ⟨f, firstEnd_eq_some_iff.mpr ⟨?_, hfirst, hbefore⟩, hle⟩
    by_contra hlong
    apply hbefore read.length (by omega)
    rw [List.take_length]
    rwa [List.take_of_length_le (by omega)] at hfirst

/-! ## A missed occurrence -/

section Missed

variable (text : List α)

/-- The matcher, with its count on the text's way, is never full. -/
def NeverFull : Nat → List α → Prop
  | _, [] => True
  | count, a :: read =>
    advance text count a < text.length ∧ NeverFull (advance text count a) read

theorem advance_le (count : Nat) (a : α) : advance text count a ≤ count + 1 := by
  unfold advance
  dsimp only
  split_ifs
  all_goals omega

theorem neverFull_short {count : Nat} {read : List α}
    (h : count + read.length < text.length) : NeverFull text count read := by
  induction read generalizing count with
  | nil => trivial
  | cons a read ih =>
    have hle := advance_le text count a
    rw [List.length_cons] at h
    exact ⟨by omega, ih (by omega)⟩

theorem neverFull_append {count : Nat} {read more : List α} (h : NeverFull text count read)
    (hmore : NeverFull text (read.foldl (advance text) count) more) :
    NeverFull text count (read ++ more) := by
  induction read generalizing count with
  | nil => exact hmore
  | cons a read ih => exact ⟨h.1, ih h.2 hmore⟩

theorem foldl_own {k m : Nat} (h : k + m ≤ text.length) :
    ((text.drop k).take m).foldl (advance text) k = k + m := by
  induction m generalizing k with
  | zero => rfl
  | succ m ih =>
    have hk : k < text.length := by omega
    have hadvance : advance text k text[k] = k + 1 := by simp [advance, hk]
    rw [List.drop_eq_getElem_cons hk, List.take_succ_cons, List.foldl_cons, hadvance,
      ih (by omega)]
    omega

/-- A text that is not restartable occurs in something that the matcher reads to its end without
having seen it. -/
theorem missed (h : ¬ Restartable text) :
    ∃ read, text <:+: read ∧ (∀ a ∈ read, a ∈ text) ∧ NeverFull text 0 read := by
  obtain ⟨i, h⟩ := not_forall.mp h
  obtain ⟨hpos, h⟩ := Classical.not_imp.mp h
  obtain ⟨hi, h⟩ := Classical.not_imp.mp h
  obtain ⟨hfirst, hprefix⟩ := Classical.not_imp.mp h
  -- the first place where the text at `i` leaves the beginning of the text
  have hdiffers : ∃ m, i + m < text.length ∧ text[i + m]? ≠ text[m]? := by
    by_contra hnone
    apply hprefix
    rw [List.prefix_iff_getElem?]
    intro m hm
    rw [List.length_drop] at hm
    rw [← List.getElem?_eq_getElem, List.getElem?_drop]
    by_contra hne
    exact hnone ⟨m, by omega, fun heq => hne heq.symm⟩
  have hm := Nat.find_spec hdiffers
  have hbefore := fun k (hk : k < Nat.find hdiffers) => Nat.find_min hdiffers hk
  generalize Nat.find hdiffers = m at hm hbefore
  obtain ⟨hlength, hne⟩ := hm
  have hm : 0 < m := by
    rcases Nat.eq_zero_or_pos m with rfl | hm
    · exact absurd hfirst hne
    · exact hm
  have hown : (text.drop i).take m = text.take m := by
    apply List.ext_getElem?
    intro k
    by_cases hk : k < m
    · rw [List.getElem?_take_of_lt hk, List.getElem?_take_of_lt hk, List.getElem?_drop]
      by_contra hk'
      exact hbefore k hk ⟨by omega, hk'⟩
    · rw [List.getElem?_eq_none (by rw [List.length_take]; omega),
        List.getElem?_eq_none (by rw [List.length_take]; omega)]
  refine ⟨text.take (i + m) ++ text.drop m, ?_, ?_, ?_⟩
  · refine ⟨text.take i, [], ?_⟩
    rw [List.append_nil, List.take_add, hown, List.append_assoc, List.take_append_drop]
  · intro a ha
    rcases List.mem_append.mp ha with ha | ha
    · exact List.mem_of_mem_take ha
    · exact List.mem_of_mem_drop ha
  · have hread := foldl_own text (k := 0) (m := i + m) (by omega)
    rw [List.drop_zero, Nat.zero_add] at hread
    apply neverFull_append
    · apply neverFull_short
      rw [List.length_take]
      omega
    · rw [hread, List.drop_eq_getElem_cons (i := m) (by omega)]
      have hstop : ¬ text[i + m]? = some text[m] := by
        rw [← List.getElem?_eq_getElem]
        exact hne
      have hadvance : advance text (i + m) text[m] ≤ 1 := by
        unfold advance
        rw [if_neg hstop]
        dsimp only
        split_ifs
        all_goals omega
      refine ⟨by omega, neverFull_short text ?_⟩
      rw [List.length_drop]
      omega

end Missed

end Matching
