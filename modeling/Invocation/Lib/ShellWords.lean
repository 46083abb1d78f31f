import Invocation.Lib.Pieces
import Invocation.Lib.Shell

/-!
# Words of sh

The words of a command line without expansions: what stands between unquoted
blanks, operators and comments, once continued lines are joined and the quotes
are removed.
-/

namespace Shell

set_option autoImplicit false

open Pieces

/-- The roles that characters between words have. -/
def Role.separates : Role → Bool
  | .blank => true
  | .operator => true
  | .comment => true
  | _ => false

/-- A backslash and the newline behind it disappear. -/
def joinLines : List (Role × Char) → List (Role × Char)
  | (.escaping, _) :: (_, '\n') :: rest => joinLines rest
  | (.quotedEscaping, _) :: (_, '\n') :: rest => joinLines rest
  | p :: rest => p :: joinLines rest
  | [] => []

/-- The characters that a backslash quotes between double quotes. -/
def escapable : List Char := ['$', '`', '"', '\\']

def unquote : List (Role × Char) → List Char
  | [] => []
  | (.opening, _) :: rest => unquote rest
  | (.closing, _) :: rest => unquote rest
  | (.escaping, _) :: (_, c) :: rest => c :: unquote rest
  | (.quotedEscaping, b) :: (_, c) :: rest =>
    if c ∈ escapable then c :: unquote rest else b :: c :: unquote rest
  | (_, c) :: rest => c :: unquote rest

/-- The words with their quotes. -/
def rawWords (text : List Char) : List (List (Role × Char)) :=
  ((((roles start text).zip text).splitOnP (·.1.separates)).map joinLines).filter
    (· ≠ [])

def words (text : List Char) : List (List Char) := (rawWords text).map unquote

example : words "/bin/echo 'a  b'\\''c' \"d\\\"\\x\" # e".toList =
    ["/bin/echo".toList, "a  b'c".toList, "d\"\\x".toList] := by decide +kernel

theorem joinLines_length (raw : List (Role × Char)) : (joinLines raw).length ≤ raw.length := by
  fun_induction joinLines raw with
  | case1 c r rest ih =>
    simp only [List.length_cons]
    omega
  | case2 c r rest ih =>
    simp only [List.length_cons]
    omega
  | case3 p rest _ _ ih =>
    simp only [List.length_cons]
    omega
  | case4 => exact Nat.le_refl 0

theorem unquote_length (raw : List (Role × Char)) : (unquote raw).length ≤ raw.length := by
  fun_induction unquote raw with
  | case1 => exact Nat.le_refl 0
  | case2 c rest ih => exact Nat.le_succ_of_le ih
  | case3 c rest ih => exact Nat.le_succ_of_le ih
  | case4 b r c rest ih =>
    simp only [List.length_cons]
    omega
  | case5 b r c rest _ ih =>
    simp only [List.length_cons]
    omega
  | case6 b r c rest _ ih =>
    simp only [List.length_cons]
    omega
  | case7 r c rest _ _ _ _ ih =>
    simp only [List.length_cons]
    omega

/-- A word is no longer than the stretch of the text that it was made from. -/
theorem words_run {text word : List Char} (h : word ∈ words text) (hne : word ≠ []) :
    ∃ run, IsRun (·.1.separates) ((roles start text).zip text) run ∧
      word.length ≤ run.length := by
  obtain ⟨raw, hraw, rfl⟩ := List.mem_map.mp h
  obtain ⟨piece, hpiece, rfl⟩ := List.mem_map.mp (List.mem_of_mem_filter hraw)
  have hlen : (unquote (joinLines piece)).length ≤ piece.length :=
    Nat.le_trans (unquote_length _) (joinLines_length piece)
  refine ⟨piece, (mem_splitOnP_iff ?_).mp hpiece, hlen⟩
  rintro rfl
  exact hne rfl

end Shell
