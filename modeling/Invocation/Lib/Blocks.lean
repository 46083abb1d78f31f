import Mathlib.Data.List.TakeWhile
import Mathlib.Logic.Function.Basic

/-!
# Blocks of memory that hold terminated texts

A heap has blocks at some addresses. An outcome is a value, a step that the
allocator does not take, or an access that falls outside the blocks. A block holds
a text when the text stands at its start with the terminator behind it.
-/

set_option autoImplicit false

universe u

namespace Blocks

inductive Fault where
  | refused
  | outside
deriving DecidableEq

section Outcomes

variable {β γ : Type u}

/-- No access falls outside, and what comes out satisfies the postcondition. -/
def Ensures (outcome : Except Fault β) (post : β → Prop) : Prop :=
  match outcome with
  | .ok b => post b
  | .error .refused => True
  | .error .outside => False

theorem Ensures.ok {post : β → Prop} {b : β} (h : post b) : Ensures (.ok b) post := h

theorem Ensures.refused {post : β → Prop} : Ensures (.error .refused) post := trivial

theorem Ensures.mono {outcome : Except Fault β} {post weaker : β → Prop}
    (h : Ensures outcome post) (himp : ∀ b, post b → weaker b) : Ensures outcome weaker := by
  cases outcome with
  | ok b => exact himp b h
  | error fault =>
    cases fault with
    | refused => trivial
    | outside => exact h

theorem Ensures.of_eq {outcome : Except Fault β} {next : β → Except Fault γ} {b : β}
    {post : γ → Prop}
    (heq : outcome = .ok b) (h : Ensures (next b) post) : Ensures (outcome >>= next) post := by
  rw [heq]
  exact h

theorem Ensures.bind {outcome : Except Fault β} {next : β → Except Fault γ} {mid : β → Prop}
    {post : γ → Prop} (h : Ensures outcome mid) (hnext : ∀ b, mid b → Ensures (next b) post) :
    Ensures (outcome >>= next) post := by
  cases outcome with
  | ok b => exact hnext b h
  | error fault =>
    cases fault with
    | refused => trivial
    | outside => exact h

theorem Ensures.with_eq {outcome : Except Fault β} {post : β → Prop}
    (h : Ensures outcome post) : Ensures outcome fun b => outcome = .ok b ∧ post b := by
  cases outcome with
  | ok b => exact ⟨rfl, h⟩
  | error fault =>
    cases fault with
    | refused => trivial
    | outside => exact h

-- What is left of a run is for its rules to say.
attribute [irreducible] Ensures

end Outcomes

variable {α : Type u}

/-- The bytes of the block at an address. -/
abbrev Heap (α : Type u) := Nat → Option (List α)

def load (heap : Heap α) (a : Nat) : Except Fault (List α) :=
  match heap a with
  | some b => .ok b
  | none => .error .outside

def store (heap : Heap α) (a : Nat) (b : List α) : Heap α := Function.update heap a (some b)

def free (heap : Heap α) (a : Nat) : Heap α := Function.update heap a none

/-- A block of another size: what fits is kept, the rest is anything. -/
def resize (b : List α) (junk : Nat → α) (size : Nat) : List α :=
  b.take size ++ (List.range (size - b.length)).map junk

/-- `realloc`: the block stays where it is or goes to an address that has none. -/
def move (heap : Heap α) (old new : Nat) (junk : Nat → α) (size : Nat) :
    Except Fault (Heap α) :=
  match heap old with
  | none => .error .outside
  | some b =>
    if new = old ∨ heap new = none then .ok (store (free heap old) new (resize b junk size))
    else .error .refused

/-- `calloc`. -/
def allot (zero : α) (heap : Heap α) (new : Nat) (size : Nat) : Except Fault (Heap α) :=
  if heap new = none then .ok (store heap new (List.replicate size zero)) else .error .refused

def write (b : List α) (i : Nat) (bytes : List α) : Except Fault (List α) :=
  if i + bytes.length ≤ b.length then
    .ok (b.take i ++ bytes ++ b.drop (i + bytes.length))
  else .error .outside

theorem load_eq {heap : Heap α} {a : Nat} {b : List α} (h : heap a = some b) :
    load heap a = .ok b := by
  unfold load
  rw [h]

theorem store_self (heap : Heap α) (a : Nat) (b : List α) : store heap a b a = some b :=
  Function.update_self ..

theorem store_other {heap : Heap α} {a c : Nat} {b : List α} (h : c ≠ a) :
    store heap a b c = heap c := Function.update_of_ne h ..

theorem free_self (heap : Heap α) (a : Nat) : free heap a a = none := Function.update_self ..

theorem free_other {heap : Heap α} {a c : Nat} (h : c ≠ a) : free heap a c = heap c :=
  Function.update_of_ne h ..

theorem length_resize (b : List α) (junk : Nat → α) (size : Nat) :
    (resize b junk size).length = size := by
  unfold resize
  rw [List.length_append, List.length_take, List.length_map, List.length_range]
  omega

theorem prefix_resize {s b : List α} {junk : Nat → α} {size : Nat} (h : s <+: b)
    (hsize : s.length ≤ size) : s <+: resize b junk size := by
  have htake : s <+: b.take size := List.prefix_take_iff.mpr ⟨h, hsize⟩
  exact htake.trans (List.prefix_append _ _)

/-- Writing behind a text at the start of a block. -/
theorem write_append {s b bytes : List α} (h : s <+: b)
    (hlen : s.length + bytes.length ≤ b.length) :
    Ensures (write b s.length bytes) fun b' => s ++ bytes <+: b' ∧ b'.length = b.length := by
  unfold write
  rw [if_pos hlen]
  apply Ensures.ok
  constructor
  · rw [List.prefix_iff_eq_take.mp h, List.length_take, Nat.min_eq_left h.length_le]
    exact List.prefix_append _ _
  · simp only [List.length_append, List.length_take, List.length_drop]
    omega

theorem write_middle (s rest : List α) {old bytes : List α} (hlen : old.length = bytes.length) :
    write (s ++ old ++ rest) s.length bytes = .ok (s ++ bytes ++ rest) := by
  have hbound : s.length + bytes.length ≤ (s ++ old ++ rest).length := by
    simp only [List.length_append]
    omega
  unfold write
  rw [if_pos hbound, List.append_assoc s, List.take_left, ← List.append_assoc, ← hlen,
    ← List.length_append, List.drop_left]

/-- Writing at the start. -/
theorem write_start {b bytes : List α} (hlen : bytes.length ≤ b.length) :
    Ensures (write b 0 bytes) fun b' => bytes <+: b' ∧ b'.length = b.length := by
  have hlen : ([] : List α).length + bytes.length ≤ b.length := by
    rw [List.length_nil]
    omega
  exact write_append List.nil_prefix hlen

structure Holds (zero : α) (b s : List α) : Prop where
  proper : zero ∉ s
  stands : s ++ [zero] <+: b

namespace Holds

variable {zero : α} {b s : List α}

theorem of_append {rest : List α} (h : zero ∉ s) : Holds zero (s ++ zero :: rest) s := by
  refine ⟨h, rest, ?_⟩
  rw [List.append_assoc]
  rfl

theorem split (h : Holds zero b s) : ∃ rest, b = s ++ zero :: rest := by
  obtain ⟨rest, hrest⟩ := h.stands
  refine ⟨rest, ?_⟩
  rw [← hrest, List.append_assoc]
  rfl

theorem begins (h : Holds zero b s) : s <+: b := (List.prefix_append s [zero]).trans h.stands

theorem length_lt (h : Holds zero b s) : s.length < b.length := by
  have hle := h.stands.length_le
  rw [List.length_append, List.length_singleton] at hle
  exact hle

end Holds

section Texts

variable [DecidableEq α] (zero : α)

/-- The text up to the first terminator. -/
def text (b : List α) : List α := b.takeWhile fun c => c ≠ zero

/-- `strlen`. -/
def strlen (b : List α) : Except Fault Nat :=
  if zero ∈ b then .ok (text zero b).length else .error .outside

variable {zero}

theorem zero_not_mem_text (b : List α) : zero ∉ text zero b := by
  intro h
  have hne := List.mem_takeWhile_imp h
  exact of_decide_eq_true hne rfl

theorem text_append {s rest : List α} (h : zero ∉ s) : text zero (s ++ zero :: rest) = s := by
  unfold text
  rw [List.takeWhile_append_of_pos]
  · rw [List.takeWhile_cons_of_neg]
    · exact List.append_nil s
    · intro hne
      exact of_decide_eq_true hne rfl
  · intro c hc
    apply decide_eq_true
    intro heq
    rw [heq] at hc
    exact h hc

theorem Holds.text_eq {b s : List α} (h : Holds zero b s) : text zero b = s := by
  obtain ⟨rest, rfl⟩ := h.split
  exact text_append h.proper

theorem Holds.strlen_eq {b s : List α} (h : Holds zero b s) : strlen zero b = .ok s.length := by
  obtain ⟨rest, hb⟩ := h.split
  have hmem : zero ∈ b := by
    rw [hb]
    exact List.mem_append_right _ List.mem_cons_self
  unfold strlen
  rw [if_pos hmem, h.text_eq]

end Texts

end Blocks
