import Mathlib.Data.List.Nodup
import Mathlib.Logic.Function.Basic

/-!
# Caches with a fixed number of slots

A slot is empty or holds a key with a value. A key that is there is overwritten
in place; another one goes into the last empty slot, or into any slot at all.
-/

set_option autoImplicit false

universe u v

namespace SlotCache

variable {κ : Type u} {ν : Type v} [DecidableEq κ]

abbrev Slots (κ : Type u) (ν : Type v) := List (Option (κ × ν))

/-- The value in the first slot of the key. -/
def lookup (k : κ) : Slots κ ν → Option ν
  | [] => none
  | none :: slots => lookup k slots
  | some entry :: slots => if entry.1 = k then some entry.2 else lookup k slots

def remove (k : κ) (slots : Slots κ ν) : Slots κ ν :=
  slots.map fun slot => slot.filter fun entry => entry.1 ≠ k

def replace (k : κ) (v : ν) : Slots κ ν → Slots κ ν
  | [] => []
  | none :: slots => none :: replace k v slots
  | some entry :: slots =>
    if entry.1 = k then some (k, v) :: slots else some entry :: replace k v slots

/-- The index of the last empty slot. -/
def lastEmpty : Slots κ ν → Option Nat
  | [] => none
  | slot :: slots =>
    match lastEmpty slots with
    | some i => some (i + 1)
    | none => if slot.isNone then some 0 else none

/-- A key that is not there is added only if it is worth it. -/
def put (k : κ) (v : ν) (worth : Bool) (victim : Nat) (slots : Slots κ ν) : Slots κ ν :=
  if (lookup k slots).isSome then replace k v slots
  else if worth then slots.set ((lastEmpty slots).getD victim) (some (k, v))
  else slots

/-- No key has two slots. -/
def Unique : Slots κ ν → Prop
  | [] => True
  | none :: slots => Unique slots
  | some entry :: slots => (∀ v, some (entry.1, v) ∉ slots) ∧ Unique slots

theorem mem_of_lookup {k : κ} {v : ν} {slots : Slots κ ν} (h : lookup k slots = some v) :
    some (k, v) ∈ slots := by
  induction slots with
  | nil => cases h
  | cons slot slots ih =>
    cases slot with
    | none => exact List.mem_cons_of_mem _ (ih h)
    | some entry =>
      rw [lookup] at h
      by_cases hkey : entry.1 = k
      · rw [if_pos hkey] at h
        cases h
        rw [← hkey]
        exact List.mem_cons_self
      · rw [if_neg hkey] at h
        exact List.mem_cons_of_mem _ (ih h)

theorem not_mem_of_lookup {k : κ} {slots : Slots κ ν} (h : lookup k slots = none) (v : ν) :
    some (k, v) ∉ slots := by
  induction slots with
  | nil => exact List.not_mem_nil
  | cons slot slots ih =>
    intro hmem
    cases slot with
    | none =>
      rcases List.mem_cons.mp hmem with heq | hmem
      · cases heq
      · exact ih h hmem
    | some entry =>
      rw [lookup] at h
      by_cases hkey : entry.1 = k
      · rw [if_pos hkey] at h
        cases h
      · rw [if_neg hkey] at h
        rcases List.mem_cons.mp hmem with heq | hmem
        · cases heq
          exact hkey rfl
        · exact ih h hmem

theorem lookup_of_mem {k : κ} {v : ν} {slots : Slots κ ν} (h : some (k, v) ∈ slots) :
    ∃ v', lookup k slots = some v' := by
  cases hlook : lookup k slots with
  | none => exact absurd h (not_mem_of_lookup hlook v)
  | some v' => exact ⟨v', rfl⟩

theorem length_remove (k : κ) (slots : Slots κ ν) : (remove k slots).length = slots.length :=
  List.length_map _

theorem mem_remove {k k' : κ} {v : ν} {slots : Slots κ ν} :
    some (k', v) ∈ remove k slots ↔ k' ≠ k ∧ some (k', v) ∈ slots := by
  unfold remove
  rw [List.mem_map]
  constructor
  · intro h
    obtain ⟨slot, hmem, hslot⟩ := h
    cases slot with
    | none => cases hslot
    | some entry =>
      rw [Option.filter_some] at hslot
      split at hslot
      · rename_i hkey
        cases hslot
        exact ⟨of_decide_eq_true hkey, hmem⟩
      · cases hslot
  · intro h
    refine ⟨some (k', v), h.2, ?_⟩
    rw [Option.filter_some, if_pos (decide_eq_true h.1)]

theorem Unique.remove {k : κ} {slots : Slots κ ν} (h : Unique slots) : Unique (remove k slots) := by
  induction slots with
  | nil => trivial
  | cons slot slots ih =>
    cases slot with
    | none => exact ih h
    | some entry =>
      show Unique ((some entry).filter _ :: SlotCache.remove k slots)
      rw [Option.filter_some]
      split
      · refine ⟨?_, ih h.2⟩
        intro v hmem
        exact h.1 v (mem_remove.mp hmem).2
      · exact ih h.2

theorem mem_replace {k k' : κ} {v v' : ν} {slots : Slots κ ν}
    (h : some (k', v') ∈ replace k v slots) : k' = k ∧ v' = v ∨ some (k', v') ∈ slots := by
  induction slots with
  | nil => cases h
  | cons slot slots ih =>
    cases slot with
    | none =>
      rcases List.mem_cons.mp h with heq | hmem
      · cases heq
      · exact (ih hmem).imp_right (List.mem_cons_of_mem _)
    | some entry =>
      rw [replace] at h
      by_cases hkey : entry.1 = k
      · rw [if_pos hkey] at h
        rcases List.mem_cons.mp h with heq | hmem
        · cases heq
          exact .inl ⟨rfl, rfl⟩
        · exact .inr (List.mem_cons_of_mem _ hmem)
      · rw [if_neg hkey] at h
        rcases List.mem_cons.mp h with heq | hmem
        · rw [heq]
          exact .inr List.mem_cons_self
        · exact (ih hmem).imp_right (List.mem_cons_of_mem _)

/-- With one slot for a key, only the new value is left. -/
theorem Unique.replace_value {k : κ} {v v' : ν} {slots : Slots κ ν} (h : Unique slots)
    (hmem : some (k, v') ∈ replace k v slots) : v' = v := by
  induction slots with
  | nil => cases hmem
  | cons slot slots ih =>
    cases slot with
    | none =>
      rcases List.mem_cons.mp hmem with heq | hmem
      · cases heq
      · exact ih h hmem
    | some entry =>
      rw [replace] at hmem
      by_cases hkey : entry.1 = k
      · rw [if_pos hkey] at hmem
        rcases List.mem_cons.mp hmem with heq | hmem
        · cases heq
          rfl
        · rw [← hkey] at hmem
          exact absurd hmem (h.1 v')
      · rw [if_neg hkey] at hmem
        rcases List.mem_cons.mp hmem with heq | hmem
        · cases heq
          exact absurd rfl hkey
        · exact ih h.2 hmem

theorem lookup_replace {k : κ} {v old : ν} {slots : Slots κ ν} (h : lookup k slots = some old) :
    ∃ v', lookup k (replace k v slots) = some v' := by
  induction slots with
  | nil => cases h
  | cons slot slots ih =>
    cases slot with
    | none => exact ih h
    | some entry =>
      rw [lookup] at h
      by_cases hkey : entry.1 = k
      · refine ⟨v, ?_⟩
        rw [replace, if_pos hkey, lookup, if_pos rfl]
      · rw [if_neg hkey] at h
        rw [replace, if_neg hkey, lookup, if_neg hkey]
        exact ih h

theorem Unique.replace {k : κ} {v : ν} {slots : Slots κ ν} (h : Unique slots) :
    Unique (replace k v slots) := by
  induction slots with
  | nil => trivial
  | cons slot slots ih =>
    cases slot with
    | none => exact ih h
    | some entry =>
      rw [SlotCache.replace]
      by_cases hkey : entry.1 = k
      · rw [if_pos hkey]
        refine ⟨?_, h.2⟩
        rw [← hkey]
        exact h.1
      · rw [if_neg hkey]
        refine ⟨?_, ih h.2⟩
        intro v' hmem
        rcases mem_replace hmem with ⟨heq, _⟩ | hmem
        · exact hkey heq
        · exact h.1 v' hmem

omit [DecidableEq κ] in
theorem Unique.set {k : κ} {v : ν} {slots : Slots κ ν} (h : Unique slots)
    (hnew : ∀ v', some (k, v') ∉ slots) (i : Nat) : Unique (slots.set i (some (k, v))) := by
  induction slots generalizing i with
  | nil => trivial
  | cons slot slots ih =>
    have hrest : ∀ v', some (k, v') ∉ slots := fun v' hmem => hnew v' (List.mem_cons_of_mem _ hmem)
    cases i with
    | zero =>
      rw [List.set_cons_zero]
      refine ⟨hrest, ?_⟩
      cases slot with
      | none => exact h
      | some entry => exact h.2
    | succ i =>
      rw [List.set_cons_succ]
      cases slot with
      | none => exact ih h hrest i
      | some entry =>
        refine ⟨?_, ih h.2 hrest i⟩
        intro v' hmem
        rcases List.mem_or_eq_of_mem_set hmem with hmem | heq
        · exact h.1 v' hmem
        · cases heq
          exact hnew entry.2 List.mem_cons_self

theorem Unique.put {k : κ} {v : ν} {worth : Bool} {victim : Nat} {slots : Slots κ ν}
    (h : Unique slots) : Unique (put k v worth victim slots) := by
  unfold SlotCache.put
  cases hlook : lookup k slots with
  | some v' => exact h.replace
  | none =>
    cases worth with
    | true => exact h.set (not_mem_of_lookup hlook) _
    | false => exact h

theorem length_replace (k : κ) (v : ν) (slots : Slots κ ν) :
    (replace k v slots).length = slots.length := by
  induction slots with
  | nil => rfl
  | cons slot slots ih =>
    cases slot with
    | none => exact congrArg (· + 1) ih
    | some entry =>
      rw [replace]
      split
      · rfl
      · exact congrArg (· + 1) ih

theorem length_put (k : κ) (v : ν) (worth : Bool) (victim : Nat) (slots : Slots κ ν) :
    (put k v worth victim slots).length = slots.length := by
  unfold put
  split
  · exact length_replace k v slots
  · split
    · exact List.length_set
    · rfl

/-- What stands in the slots after a key is put there. -/
theorem mem_put {k k' : κ} {v v' : ν} {worth : Bool} {victim : Nat} {slots : Slots κ ν}
    (hunique : Unique slots) (hmem : some (k', v') ∈ put k v worth victim slots) :
    k' = k ∧ v' = v ∨ k' ≠ k ∧ some (k', v') ∈ slots := by
  unfold put at hmem
  cases hlook : lookup k slots with
  | some old =>
    rw [hlook] at hmem
    have hmem : some (k', v') ∈ replace k v slots := hmem
    by_cases heq : k' = k
    · rw [heq] at hmem
      exact .inl ⟨heq, hunique.replace_value hmem⟩
    · rcases mem_replace hmem with h | hmem
      · exact .inl h
      · exact .inr ⟨heq, hmem⟩
  | none =>
    have hold : some (k', v') ∈ slots → k' ≠ k := by
      intro hmem heq
      rw [heq] at hmem
      exact not_mem_of_lookup hlook v' hmem
    rw [hlook] at hmem
    cases worth with
    | true =>
      rcases List.mem_or_eq_of_mem_set hmem with hmem | heq
      · exact .inr ⟨hold hmem, hmem⟩
      · cases heq
        exact .inl ⟨rfl, rfl⟩
    | false => exact .inr ⟨hold hmem, hmem⟩

omit [DecidableEq κ] in
theorem lastEmpty_lt {slots : Slots κ ν} {i : Nat} (h : lastEmpty slots = some i) :
    i < slots.length := by
  induction slots generalizing i with
  | nil => cases h
  | cons slot slots ih =>
    rw [lastEmpty] at h
    cases hlast : lastEmpty slots with
    | some j =>
      rw [hlast] at h
      cases h
      exact Nat.succ_lt_succ (ih hlast)
    | none =>
      rw [hlast] at h
      cases hslot : slot.isNone with
      | true =>
        rw [hslot] at h
        cases h
        exact Nat.succ_pos _
      | false =>
        rw [hslot] at h
        cases h

/-- A key that is there or is worth it has its new value afterwards. -/
theorem lookup_put {k : κ} {v : ν} {worth : Bool} {victim : Nat} {slots : Slots κ ν}
    (hunique : Unique slots) (hvictim : victim < slots.length)
    (hworth : lookup k slots = none → worth = true) :
    lookup k (put k v worth victim slots) = some v := by
  have hsome : ∃ v', lookup k (put k v worth victim slots) = some v' := by
    unfold put
    cases hlook : lookup k slots with
    | some old => exact lookup_replace hlook
    | none =>
      rw [hworth hlook]
      have hlt : (lastEmpty slots).getD victim < slots.length := by
        cases hlast : lastEmpty slots with
        | some i => exact lastEmpty_lt hlast
        | none => exact hvictim
      exact lookup_of_mem (List.mem_set hlt _)
  obtain ⟨v', hv'⟩ := hsome
  rcases mem_put hunique (mem_of_lookup hv') with ⟨_, hv⟩ | ⟨hne, _⟩
  · rw [hv', hv]
  · exact absurd rfl hne

end SlotCache
