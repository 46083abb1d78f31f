import Invocation.AppDBLine

/-!
# Lines and numbers on the connection

A message is a line: a word, a blank and a text. The readers take the word off
up to the first blank and a number up to its last digit.
-/

namespace Invocation

set_option autoImplicit false

/-! ## Numbers -/

theorem decimal_digits (n : Nat) : ∀ c ∈ decimal n, c.isDigit = true := fun _ hc =>
  Nat.isDigit_of_mem_toDigits (by decide) (by decide) hc

theorem decimal_ne_nil (n : Nat) : decimal n ≠ [] := Nat.toDigits_ne_nil

theorem ofDigitChars_decimal (n : Nat) : Nat.ofDigitChars 10 (decimal n) 0 = n := by
  rw [decimal, Nat.ofDigitChars_ten_toDigits]

/-- The text goes on with something that is no digit, or ends. -/
def NoDigit (rest : Str) : Prop := ∀ c t, rest = c :: t → c.isDigit = false

theorem noDigit_cons {c : Char} (h : c.isDigit = false) (s : Str) : NoDigit (c :: s) := by
  intro d t heq
  cases heq
  exact h

theorem leadingNat_append {digits rest : Str} (h : ∀ c ∈ digits, c.isDigit = true)
    (hrest : NoDigit rest) : leadingNat (digits ++ rest) = Nat.ofDigitChars 10 digits 0 := by
  have htake : (digits ++ rest).takeWhile Char.isDigit = digits := by
    rw [List.takeWhile_append_of_pos h]
    cases rest with
    | nil => rw [List.takeWhile_nil, List.append_nil]
    | cons c t =>
      have hc := hrest c t rfl
      rw [List.takeWhile_cons_of_neg (by simp [hc]), List.append_nil]
  rw [leadingNat, htake]

theorem digit_not_space {c : Char} (h : c.isDigit = true) : isSpace c = false :=
  not_space_of_test (by decide) h

theorem strtoll_digits {digits rest : Str} (hne : digits ≠ [])
    (h : ∀ c ∈ digits, c.isDigit = true) (hrest : NoDigit rest) :
    strtoll (digits ++ rest) = min (Nat.ofDigitChars 10 digits 0 : Int) (2 ^ 63 - 1) := by
  have hread := leadingNat_append h hrest
  obtain ⟨c, more, rfl⟩ := List.exists_cons_of_ne_nil hne
  have hc := h c List.mem_cons_self
  have hdrop : (c :: more ++ rest).dropWhile isSpace = c :: (more ++ rest) := by
    rw [List.cons_append, List.dropWhile_cons_of_neg (by simp [digit_not_space hc])]
  unfold strtoll
  rw [hdrop]
  split
  · rename_i t heq
    cases heq
    exact absurd hc (by decide)
  · rename_i t heq
    cases heq
    exact absurd hc (by decide)
  · rw [← List.cons_append, hread]

theorem strtoll_minus {digits rest : Str} (h : ∀ c ∈ digits, c.isDigit = true)
    (hrest : NoDigit rest) :
    strtoll ('-' :: (digits ++ rest)) = max (-(Nat.ofDigitChars 10 digits 0 : Int))
    (-(2 ^ 63)) := by
  have hspace : ¬ isSpace '-' = true := by decide
  unfold strtoll
  rw [List.dropWhile_cons_of_neg hspace]
  simp only [leadingNat_append h hrest]

theorem strtoll_decimalInt {z : Int} (hlow : -(2 ^ 63) ≤ z) (hhigh : z < 2 ^ 63) {rest : Str}
    (hrest : NoDigit rest) : strtoll (decimalInt z ++ rest) = z := by
  cases z with
  | ofNat n =>
    rw [decimalInt, strtoll_digits (decimal_ne_nil n) (decimal_digits n) hrest,
      ofDigitChars_decimal]
    have hn : Int.ofNat n = n := rfl
    omega
  | negSucc n =>
    rw [decimalInt, List.cons_append, strtoll_minus (decimal_digits _) hrest, ofDigitChars_decimal]
    have hn : Int.negSucc n = -(n + 1 : Nat) := rfl
    omega

/-! ## Words and lines -/

theorem getToken_blank {w : Str} (hw : ' ' ∉ w) (text : Str) :
    getToken (w ++ ' ' :: text) [' '] .none = (w, some text) := by
  have hall : ∀ c ∈ w, (decide (c ≠ ' ')) = true := by
    intro c hc
    rw [decide_eq_true_iff]
    rintro rfl
    exact hw hc
  have hdrop : (w ++ ' ' :: text).dropWhile (· ≠ ' ') = ' ' :: text := by
    rw [List.dropWhile_append_of_pos hall, List.dropWhile_cons_of_neg (by simp)]
  have htake : (w ++ ' ' :: text).takeWhile (· ≠ ' ') = w := by
    rw [List.takeWhile_append_of_pos hall, List.takeWhile_cons_of_neg (by simp), List.append_nil]
  have hsimple : getToken (w ++ ' ' :: text) [' '] .none =
      getTokenSimple .none ' ' (w ++ ' ' :: text) := by
    cases w <;> rfl
  rw [hsimple, getTokenSimple, hdrop]
  simp only [if_true, htake]

theorem getToken_noBlank {w : Str} (hne : w ≠ []) (hw : ' ' ∉ w) :
    getToken w [' '] .none = (w, some []) := by
  have hall : ∀ c ∈ w, (decide (c ≠ ' ')) = true := by
    intro c hc
    rw [decide_eq_true_iff]
    rintro rfl
    exact hw hc
  have hdrop : w.dropWhile (· ≠ ' ') = [] := List.dropWhile_eq_nil_iff.mpr hall
  have hsimple : getToken w [' '] .none = getTokenSimple .none ' ' w := by
    cases w with
    | nil => exact absurd rfl hne
    | cons c w => rfl
  rw [hsimple, getTokenSimple, hdrop]

@[simp] theorem strip_nil : stripTrailingWhitespace [] = [] := rfl

theorem strip_concat (s : Str) (c : Char) : stripTrailingWhitespace (s ++ [c]) =
    if isSpace c then stripTrailingWhitespace s else s ++ [c] := by
  unfold stripTrailingWhitespace
  exact List.rdropWhile_concat isSpace s c

theorem strip_append (s t : Str) : stripTrailingWhitespace (s ++ t) =
    if stripTrailingWhitespace t = [] then stripTrailingWhitespace s
    else s ++ stripTrailingWhitespace t := by
  induction t using List.reverseRecOn with
  | nil => simp
  | append_singleton t c ih =>
    rw [← List.append_assoc, strip_concat, strip_concat, ih]
    by_cases hc : isSpace c = true
    · rw [if_pos hc, if_pos hc]
    · rw [if_neg hc, if_neg hc, if_neg (by simp), List.append_assoc]

/-- The client's reading of a message line: its word, and its text without trailing blanks. -/
theorem getToken_message {w : Str} (hne : w ≠ []) (hw : ∀ c ∈ w, isSpace c = false) (text : Str) :
    getToken (stripTrailingWhitespace (w ++ ' ' :: text)) [' '] .none =
      (w, some (stripTrailingWhitespace text)) := by
  have hblank : ' ' ∉ w := by
    intro hmem
    exact absurd (hw ' ' hmem) (by decide)
  have hcons : ' ' :: text = [' '] ++ text := rfl
  rw [strip_append, hcons, strip_append]
  by_cases htext : stripTrailingWhitespace text = []
  · have hspace : stripTrailingWhitespace [' '] = [] := rfl
    rw [if_pos htext, hspace, if_pos rfl, stripTrailingWhitespace_solid hw, htext]
    exact getToken_noBlank hne hblank
  · rw [if_neg htext, if_neg (by simp)]
    exact getToken_blank hblank _

end Invocation
