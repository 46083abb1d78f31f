import Mathlib.Data.List.Basic

/-!
# Buffers

A fixed piece of memory and the part of it that is in use. Elements are added
behind the part in use as far as the memory goes, taken from its front, and
moved to the beginning of the memory to make room; none of this changes their
order.
-/

set_option autoImplicit false

universe u

structure Window (β : Type u) where
  memory : List β
  start : Nat
  stop : Nat
  start_le : start ≤ stop
  stop_le : stop ≤ memory.length

namespace Window

variable {β : Type u}

/-- Memory in which nothing is in use. -/
def blank (memory : List β) : Window β where
  memory := memory
  start := 0
  stop := 0
  start_le := Nat.le_refl 0
  stop_le := Nat.zero_le _

def size (w : Window β) : Nat := w.memory.length

def contents (w : Window β) : List β := (w.memory.take w.stop).drop w.start

/-- The room behind the part in use. -/
def space (w : Window β) : Nat := w.size - w.stop

theorem length_contents (w : Window β) : w.contents.length = w.stop - w.start := by
  have hstop := w.stop_le
  unfold contents
  rw [List.length_drop, List.length_take]
  omega

/-- An empty buffer starts again at the beginning of its memory. -/
def reset (w : Window β) : Window β := if w.start = w.stop then blank w.memory else w

/-- `memmove` of the part in use to the beginning of the memory. -/
def toFront (w : Window β) : Window β where
  memory := w.contents ++ w.memory.drop w.contents.length
  start := 0
  stop := w.stop - w.start
  start_le := Nat.zero_le _
  stop_le := by
    rw [List.length_append, length_contents]
    omega

/-- `memcpy` behind the part in use, of as much as there is room for. -/
def append (w : Window β) (bytes : List β) : Window β where
  memory := w.memory.take w.stop ++ bytes.take w.space ++
    w.memory.drop (w.stop + (bytes.take w.space).length)
  start := w.start
  stop := w.stop + (bytes.take w.space).length
  start_le := by
    have hstart := w.start_le
    omega
  stop_le := by
    have hstop := w.stop_le
    have htake : (w.memory.take w.stop).length = w.stop := by
      rw [List.length_take, Nat.min_eq_left hstop]
    rw [List.length_append, List.length_append, htake]
    omega

/-- The first `n` elements are done with. -/
def advance (w : Window β) (n : Nat) : Window β where
  memory := w.memory
  start := min (w.start + n) w.stop
  stop := w.stop
  start_le := Nat.min_le_right _ _
  stop_le := w.stop_le

theorem size_reset (w : Window β) : w.reset.size = w.size := by
  unfold reset
  split <;> rfl

theorem size_toFront (w : Window β) : w.toFront.size = w.size := by
  have hstop := w.stop_le
  unfold size toFront
  rw [List.length_append, List.length_drop, length_contents]
  omega

theorem size_append (w : Window β) (bytes : List β) : (w.append bytes).size = w.size := by
  have hstop := w.stop_le
  unfold size append
  simp only [List.length_append, List.length_take, List.length_drop, space, size]
  omega

theorem size_advance (w : Window β) (n : Nat) : (w.advance n).size = w.size := rfl

theorem contents_eq_nil_iff (w : Window β) : w.contents = [] ↔ w.start = w.stop := by
  have hstart := w.start_le
  rw [← List.length_eq_zero_iff, length_contents]
  omega

theorem contents_reset (w : Window β) : w.reset.contents = w.contents := by
  unfold reset
  split
  · rename_i hempty
    exact ((contents_eq_nil_iff w).mpr hempty).symm
  · rfl

theorem contents_toFront (w : Window β) : w.toFront.contents = w.contents := by
  have htake : (w.contents ++ w.memory.drop w.contents.length).take (w.stop - w.start) =
      w.contents := List.take_left' w.length_contents
  exact (congrArg (List.drop 0) htake).trans List.drop_zero

theorem contents_append (w : Window β) (bytes : List β) :
    (w.append bytes).contents = w.contents ++ bytes.take w.space := by
  have hstart := w.start_le
  have hstop := w.stop_le
  have htake : (w.append bytes).memory.take (w.append bytes).stop =
      w.memory.take w.stop ++ bytes.take w.space := by
    refine List.take_left' ?_
    have hlength : (w.memory.take w.stop).length = w.stop := by
      rw [List.length_take, Nat.min_eq_left hstop]
    rw [List.length_append, hlength]
    rfl
  rw [contents, htake]
  apply List.drop_append_of_le_length
  rw [List.length_take, Nat.min_eq_left hstop]
  exact hstart

theorem contents_advance (w : Window β) (n : Nat) :
    (w.advance n).contents = w.contents.drop n := by
  have hdrop :
    (w.advance n).contents = (w.memory.take w.stop).drop (min (w.start + n) w.stop) := rfl
  have hlength : (w.memory.take w.stop).length ≤ w.stop := List.length_take_le _ _
  rw [hdrop, contents, List.drop_drop]
  rcases Nat.le_total (w.start + n) w.stop with h | h
  · rw [Nat.min_eq_left h]
  · rw [Nat.min_eq_right h, List.drop_eq_nil_of_le hlength, List.drop_eq_nil_of_le (by omega)]

end Window
