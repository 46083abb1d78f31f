import Mathlib.Data.List.Basic

/-!
# Iterated block hashes

A compression function takes a state over one block at a time. A hash that is
fed in pieces keeps the state after the whole blocks and the bytes behind them;
it makes no difference where the pieces were cut.
-/

set_option autoImplicit false

universe u v

namespace BlockHash

variable {σ : Type u} {β : Type v} (compress : σ → List β → σ) (size : Nat)

def absorbBlocks : Nat → σ → List β → σ
  | 0, s, _ => s
  | n + 1, s, m => absorbBlocks n (compress s (m.take size)) (m.drop size)

/-- The state after the whole blocks of a message. -/
def absorb (s : σ) (m : List β) : σ := absorbBlocks compress size (m.length / size) s m

theorem absorbBlocks_append {whole : List β} (n : Nat) (k : Nat) (s : σ) (rest : List β)
    (h : whole.length = n * size) :
    absorbBlocks compress size (n + k) s (whole ++ rest) =
      absorbBlocks compress size k (absorbBlocks compress size n s whole) rest := by
  induction n generalizing whole s with
  | zero =>
    rw [Nat.zero_mul] at h
    obtain rfl := List.eq_nil_of_length_eq_zero h
    rw [Nat.zero_add, List.nil_append]
    rfl
  | succ n ih =>
    rw [Nat.succ_mul] at h
    have htake : (whole ++ rest).take size = whole.take size :=
      List.take_append_of_le_length (by omega)
    have hdrop : (whole ++ rest).drop size = whole.drop size ++ rest :=
      List.drop_append_of_le_length (by omega)
    rw [Nat.succ_add, absorbBlocks, htake, hdrop]
    apply ih
    rw [List.length_drop]
    omega

variable {size}

theorem absorb_append (hsize : 0 < size) {whole : List β} (h : size ∣ whole.length) (s : σ)
    (rest : List β) :
    absorb compress size s (whole ++ rest) =
      absorb compress size (absorb compress size s whole) rest := by
  obtain ⟨n, hn⟩ := h
  have hwhole : whole.length / size = n := by rw [hn, Nat.mul_div_cancel_left n hsize]
  have hall : (whole ++ rest).length / size = n + rest.length / size := by
    rw [List.length_append, hn, Nat.mul_add_div hsize]
  unfold absorb
  rw [hwhole, hall]
  apply absorbBlocks_append
  rw [hn, Nat.mul_comm]

theorem absorb_block (hsize : 0 < size) {block : List β} (h : block.length = size) (s : σ) :
    absorb compress size s block = compress s block := by
  unfold absorb
  rw [h, Nat.div_self hsize]
  show compress s (block.take size) = _
  rw [List.take_of_length_le (Nat.le_of_eq h)]

theorem absorb_short {m : List β} (h : m.length < size) (s : σ) :
    absorb compress size s m = s := by
  unfold absorb
  rw [Nat.div_eq_of_lt h]
  rfl

/-- After the message `m` the state is `s`, with the bytes of `tail` still to come. -/
structure Absorbed (compress : σ → List β → σ) (size : Nat) (init : σ) (m : List β) (s : σ)
    (tail : List β) : Prop where
  short : tail.length < size
  split : ∃ whole, m = whole ++ tail ∧ size ∣ whole.length ∧ s = absorb compress size init whole

namespace Absorbed

variable {compress} {init s : σ} {m tail : List β}

theorem start (hsize : 0 < size) : Absorbed compress size init [] init [] where
  short := hsize
  split := ⟨[], rfl, Nat.dvd_zero size, (absorb_short compress hsize init).symm⟩

theorem length_tail (h : Absorbed compress size init m s tail) :
    m.length % size = tail.length := by
  obtain ⟨whole, rfl, ⟨n, hn⟩, _⟩ := h.split
  rw [List.length_append, hn, Nat.mul_add_mod, Nat.mod_eq_of_lt h.short]

theorem wait (h : Absorbed compress size init m s tail) {bytes : List β}
    (hshort : (tail ++ bytes).length < size) :
    Absorbed compress size init (m ++ bytes) s (tail ++ bytes) := by
  obtain ⟨whole, rfl, hdvd, hs⟩ := h.split
  exact ⟨hshort, whole, List.append_assoc _ _ _, hdvd, hs⟩

theorem fill (h : Absorbed compress size init m s tail) {bytes : List β}
    (hfull : (tail ++ bytes).length = size) :
    Absorbed compress size init (m ++ bytes) (compress s (tail ++ bytes)) [] := by
  have hsize : 0 < size := Nat.zero_lt_of_lt h.short
  obtain ⟨whole, rfl, hdvd, hs⟩ := h.split
  refine ⟨hsize, whole ++ (tail ++ bytes), ?_, ?_, ?_⟩
  · rw [List.append_nil, List.append_assoc]
  · rw [List.length_append, hfull]
    exact Nat.dvd_add hdvd (Nat.dvd_refl size)
  · rw [absorb_append compress hsize hdvd, absorb_block compress hsize hfull, ← hs]

/-- With nothing left over, the state is that of the whole message. -/
theorem complete (h : Absorbed compress size init m s []) : absorb compress size init m = s := by
  obtain ⟨whole, rfl, _, hs⟩ := h.split
  rw [List.append_nil, hs]

end Absorbed

end BlockHash
