import Mathlib.Algebra.Group.Int.Defs
import Mathlib.Algebra.Group.Nat.Defs
import Mathlib.Data.List.DropRight
import Mathlib.Data.List.Infix

/-!
# C strings

A C string is the list of its bytes before the terminating NUL, so the empty
list is the cursor that stands on the NUL. The classification functions are
those of the "C" locale, which is the only one the programs ever select.
-/

namespace Invocation

set_option autoImplicit false

abbrev Str := List Char

/-- What is said of the characters of a string is decided along the string. -/
instance (priority := high) decidableForallChar (p : Char → Prop) [DecidablePred p] (s : Str) :
    Decidable (∀ c ∈ s, p c) := List.decidableBAll p s

/-- `isspace` in the "C" locale. -/
def isSpace (c : Char) : Bool :=
  c == ' ' || c == '\t' || c == '\n' || c == '\x0b' || c == '\x0c' || c == '\r'

def isQuote (c : Char) : Bool := c == '"' || c == '\''

/-- Characters that a test tells apart are different. -/
theorem ne_of_test {test : Char → Bool} {c d : Char} (hc : test c = true) (hd : test d = false) :
    c ≠ d := by
  rintro rfl
  rw [hc] at hd
  cases hd

theorem not_space_of_test {test : Char → Bool}
    (htest : ∀ d ∈ [' ', '\t', '\n', '\x0b', '\x0c', '\r'], test d = false) {c : Char}
    (hc : test c = true) : isSpace c = false := by
  have hne {d : Char} (hd : d ∈ [' ', '\t', '\n', '\x0b', '\x0c', '\r']) : c ≠ d :=
    ne_of_test hc (htest d hd)
  simp only [isSpace, Bool.or_eq_false_iff, beq_eq_false_iff_ne]
  exact ⟨⟨⟨⟨⟨hne (by decide), hne (by decide)⟩, hne (by decide)⟩, hne (by decide)⟩,
    hne (by decide)⟩,
    hne (by decide)⟩

def strlwr (s : Str) : Str := s.map Char.toLower

theorem toLower_of_not_upper {c : Char} (h : ¬ (c.val ≥ 'A'.val ∧ c.val ≤ 'Z'.val)) :
    c.toLower = c := by
  unfold Char.toLower
  rw [dif_neg h]

theorem toLower_of_upper {c : Char} (h : c.val ≥ 'A'.val ∧ c.val ≤ 'Z'.val) :
    97 ≤ c.toLower.val.toNat ∧ c.toLower.val.toNat ≤ 122 := by
  have hval : c.toLower.val = c.val + 32 := by
    unfold Char.toLower
    rw [dif_pos h]
    rfl
  have hA : 'A'.val.toNat = 65 := rfl
  have hZ : 'Z'.val.toNat = 90 := rfl
  have h32 : (32 : UInt32).toNat = 32 := rfl
  obtain ⟨h1, h2⟩ := h
  rw [ge_iff_le, UInt32.le_iff_toNat_le] at h1
  rw [UInt32.le_iff_toNat_le] at h2
  rw [hval, UInt32.toNat_add]
  omega

theorem toLower_toLower (c : Char) : c.toLower.toLower = c.toLower := by
  by_cases h : c.val ≥ 'A'.val ∧ c.val ≤ 'Z'.val
  · have hrange := toLower_of_upper h
    have hZ : 'Z'.val.toNat = 90 := rfl
    apply toLower_of_not_upper
    rintro ⟨_, hle⟩
    rw [UInt32.le_iff_toNat_le] at hle
    omega
  · rw [toLower_of_not_upper h, toLower_of_not_upper h]

theorem toLower_eq_colon {c : Char} (h : c.toLower = ':') : c = ':' := by
  by_cases hupper : c.val ≥ 'A'.val ∧ c.val ≤ 'Z'.val
  · have hrange := toLower_of_upper hupper
    have hcolon : ':'.val.toNat = 58 := rfl
    rw [h] at hrange
    omega
  · rwa [toLower_of_not_upper hupper] at h

theorem strlwr_strlwr (s : Str) : strlwr (strlwr s) = strlwr s := by
  unfold strlwr
  rw [List.map_map]
  exact List.map_congr_left fun c _ => toLower_toLower c

theorem toLower_lower {c : Char} (h : c.isLower = true) : c.toLower = c := by
  apply toLower_of_not_upper
  have hrange : (decide (c.val ≥ 'a'.val) && decide (c.val ≤ 'z'.val)) = true := h
  rw [Bool.and_eq_true, decide_eq_true_iff] at hrange
  rintro ⟨_, hz⟩
  have haz : 'a'.val ≤ 'Z'.val := UInt32.le_trans hrange.1 hz
  exact absurd haz (by decide)

theorem strlwr_lower {s : Str} (h : ∀ c ∈ s, c.isLower = true) : strlwr s = s := by
  have hsame : ∀ c ∈ s, Char.toLower c = id c := fun c hc => toLower_lower (h c hc)
  unfold strlwr
  rw [List.map_congr_left hsame, List.map_id]

/-- `strcasecmp(a, b) == 0`. -/
def strCaseEq (a b : Str) : Bool := strlwr a == strlwr b

@[simp] theorem strCaseEq_refl (a : Str) : strCaseEq a a = true := by simp [strCaseEq]

theorem strCaseEq_iff (a b : Str) : strCaseEq a b = true ↔ strlwr a = strlwr b := by
  simp [strCaseEq]

theorem strCaseEq_comm (a b : Str) : strCaseEq a b = strCaseEq b a := by
  simp only [strCaseEq, Bool.beq_comm]

def stripTrailingWhitespace (s : Str) : Str := s.rdropWhile isSpace

def stripLeadingWhitespace (s : Str) : Str := s.dropWhile isSpace

/-- `StripQuotes`: leading blanks are dropped only together with a pair of quotes;
a lone quote is overwritten in place. -/
def stripQuotes (s : Str) : Str :=
  match s.dropWhile isSpace with
  | [] => s
  | q :: rest =>
    if isQuote q then
      if rest = [] then s.takeWhile isSpace
      else if rest.getLast? = some q then rest.dropLast
      else s
    else s

/-- `GetBasename`: the text behind the last slash that has something behind it. -/
def getBasename (s : Str) : Str :=
  (s.dropLast.reverse.takeWhile (· != '/')).reverse ++ s.getLast?.toList

/-- `%llu` and `%d` of a number that is not negative. -/
def decimal (n : Nat) : Str := Nat.toDigits 10 n

/-- The digits `strtoll` reads, after blanks and a sign. -/
def leadingNat (s : Str) : Nat := Nat.ofDigitChars 10 (s.takeWhile Char.isDigit) 0

/-- `strtoll(s, NULL, 10)`, saturating at both ends of `long long`. -/
def strtoll (s : Str) : Int :=
  match s.dropWhile isSpace with
  | '-' :: t => max (-(leadingNat t : Int)) (-(2 ^ 63))
  | '+' :: t => min (leadingNat t) (2 ^ 63 - 1)
  | t => min (leadingNat t) (2 ^ 63 - 1)

/-- `atoi`: the low 32 bits of what `strtol` reads. -/
def atoi (s : Str) : Int := Int.bmod (strtoll s) (2 ^ 32)

/-- The bytes that a limit of `STREAMSendFile` stands for; its loop reads it as a `long`. -/
def sendLimit (max : Nat) : Nat := if max < 2 ^ 63 then max else 0

/-- `%d` -/
def decimalInt : Int → Str
  | .ofNat n => decimal n
  | .negSucc n => '-' :: decimal (n + 1)

end Invocation
