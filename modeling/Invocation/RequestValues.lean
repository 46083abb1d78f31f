import Invocation.Server
import Invocation.StringRuns
import Invocation.Words
import Mathlib.Algebra.Order.BigOperators.Group.List
import Mathlib.Algebra.Order.Group.Nat

/-!
# The value of a request, in its block

`HandleInvoke` reads all its values into one string, which the functions of the
library rewrite in place. What is stored for an assignment is what that string
holds when they are done, with the lengths that they leave in the cache.
-/

namespace Invocation

set_option autoImplicit false

namespace StrLenCache

open Blocks SlotCache

/-- `if (StrValid(*Value)) StripQuotes(*Value)` -/
def stripValid (c : Choice) (m : Memory) (a : Nat) (text : Str) : Except Fault Memory :=
  if text = [] then .ok m else stripQuotes c m (some a)

/-- `GetNameValuePair` and the body of the loop of `HandleInvoke`, as far as they write `Value`. -/
def valueRound (c : Nat → Choice) (m : Memory) (value : Option Nat) (text : Str) :
    Except Fault (Memory × Nat) := do
  let empty ← copyStr (c 0) m value (.literal [])
  let r ← copyStr (c 1) empty.1 (some empty.2) (.literal text)
  let read ← stripValid (c 2) r.1 r.2 text
  let stripped ← stripTrailingWhitespace read (some r.2)
  let m' ← stripQuotes (c 3) stripped (some r.2)
  .ok (m', r.2)

/-- The values that `SetVar` copies, one after the other. -/
def valueRounds : (Nat → Nat → Choice) → Memory → Option Nat → List Str → Except Fault (List Str)
  | _, _, _, [] => .ok []
  | c, m, value, text :: texts => do
    let r ← valueRound (c 0) m value text
    let stored ← (Source.block r.2).read r.1
    let more ← valueRounds (fun i => c (i + 1)) r.1 (some r.2) texts
    .ok (stored :: more)

/-! ## A length that counts the NUL -/

/-- `StripTrailingWhitespace` starts at the NUL and stops there. -/
theorem stripTrailingWhitespace_behind {m : Memory} (hm : Sound m) {a : Nat} {b s : Str}
    (hb : m.heap a = some b) (hholds : Holds NUL b s)
    (hlook : lookup a m.cache = some (s.length + 1)) :
    Ensures (stripTrailingWhitespace m (some a)) (Rewrites m a s) := by
  by_cases hne : s = []
  · subst hne
    have hstring : StringAt m a [] := ⟨⟨b, hb, hholds⟩, fun _ _ => .inr rfl⟩
    exact stripTrailingWhitespace_spec hm hstring
  · have htake : b.take (s.length + 1) = s ++ [NUL] := by
      have hlen : (s ++ [NUL]).length = s.length + 1 := List.length_append
      rw [← hlen]
      exact (List.prefix_iff_eq_take.mp hholds.stands).symm
    have hkept : (s ++ [NUL]).rdropWhile isSpace = s ++ [NUL] :=
      List.rdropWhile_concat_neg isSpace s NUL (by decide)
    refine Ensures.of_eq (strLenFromCache_slot hb hholds hne hlook) ?_
    rw [if_pos (Nat.succ_pos _)]
    refine Ensures.of_eq (load_eq hb) ?_
    rw [htake, hkept]
    show Ensures (write b (s ++ [NUL]).length
      (List.replicate (s.length + 1 - (s ++ [NUL]).length) NUL) >>= _) _
    have hnone : s.length + 1 - (s ++ [NUL]).length = 0 := by simp
    have hbound : (s ++ [NUL]).length + ([] : Str).length ≤ b.length := hholds.stands.length_le
    rw [hnone]
    refine Ensures.bind (write_append hholds.stands hbound) ?_
    intro b' hb'
    rw [List.replicate_zero, List.append_nil] at hb'
    refine Ensures.ok ⟨(Moves.refl hm.unique a).cacheDel.store _, ?_, ?_⟩
    · exact ⟨b', store_self .., hholds.proper, hb'.1⟩
    · intro n hmem
      exact absurd rfl (mem_remove.mp hmem).1

/-- Of a lone quote behind blanks only the blanks are left, with length zero in their slot. -/
theorem stripTrailingWhitespace_zero {m : Memory} {a : Nat} {b s : Str} (hb : m.heap a = some b)
    (hholds : Holds NUL b s) (hne : s ≠ []) (hlook : lookup a m.cache = some 0) :
    stripTrailingWhitespace m (some a) = .ok m := by
  show (strLenFromCache m (some a) >>= _) = _
  rw [strLenFromCache_slot hb hholds hne hlook]
  rfl

theorem stripQuotes_blanks {m : Memory} (c : Choice) {a : Nat} {b s : Str}
    (hb : m.heap a = some b) (hholds : Holds NUL b s) (hs : ∀ d ∈ s, isSpace d = true) :
    Ensures (stripQuotes c m (some a)) fun m' => m' = m := by
  obtain ⟨rest, rfl⟩ := hholds.split
  have hblanks : (s ++ NUL :: rest).takeWhile isSpace = s := by
    rw [takeWhile_spaces, List.takeWhile_eq_self_iff.mpr hs]
  have hend : (s ++ NUL :: rest)[s.length]? = some NUL := by simp
  refine Ensures.of_eq (load_eq hb) ?_
  simp only [hblanks, hend]
  exact Ensures.ok rfl

/-! ## One value -/

/-- `StripQuotes` leaves a length in the slot of a string that had one. -/
theorem Unquoted.slot {c : Choice} {m m' : Memory} {a n : Nat} {text : Str}
    (h : Unquoted c m a text m') (hm : Sound m) (hquoted : quoted text = true)
    (hlook : lookup a m.cache = some n) :
    lookup a m'.cache = some ((text.dropWhile isSpace).length - 1) := by
  rw [h.cache, if_pos hquoted]
  refine lookup_put hm.unique (Nat.mod_lt _ hm.sized) fun hnone => ?_
  rw [hlook] at hnone
  cases hnone

/-- What is behind `StripQuotes` when the length in the slot is right. -/
theorem stripped_right {m : Memory} (hm : Sound m) (c : Choice) {a : Nat} {s : Str}
    (hs : StringAt m a s) :
    Ensures (do
      let stripped ← stripTrailingWhitespace m (some a)
      stripQuotes c stripped (some a)) fun m' => Sound m' ∧ ∃ b, m'.heap a = some b ∧
        Holds NUL b (Invocation.stripQuotes (Invocation.stripTrailingWhitespace s)) := by
  refine Ensures.bind (stripTrailingWhitespace_spec hm hs) fun m₁ h₁ => ?_
  obtain ⟨_, hb₁, _⟩ := h₁.string.block
  have hsound := h₁.moves.sound hm hb₁
  refine (stripQuotes_spec hsound c h₁.string).mono fun m' h' => ?_
  obtain ⟨b, hb, hholds⟩ := h'.block
  exact ⟨h'.moves.sound hsound hb, b, hb, hholds⟩

/-- The text between the quotes, and what `StripQuotes` takes for its length. -/
theorem quoted_length {text : Str} (hquoted : quoted text = true) :
    (text.dropWhile isSpace).length - 1 = (Invocation.stripQuotes text).length + 1 ∨
      (text.dropWhile isSpace).length = 1 ∧
        Invocation.stripQuotes text = text.takeWhile isSpace := by
  cases hrest : text.dropWhile isSpace with
  | nil =>
    rw [quoted, hrest] at hquoted
    cases hquoted
  | cons q t =>
    have hquote : isQuote q = true := by
      rw [quoted, hrest] at hquoted
      exact (Bool.and_eq_true_iff.mp hquoted).1
    rw [quoted_of_rest hrest hquote, beq_iff_eq] at hquoted
    rw [stripQuotes_of_rest hrest hquote]
    cases t with
    | nil => exact .inr ⟨rfl, if_pos rfl⟩
    | cons d t =>
      left
      rw [List.getLast?_cons_cons] at hquoted
      rw [if_neg (List.cons_ne_nil d t), if_pos hquoted, List.length_dropLast]
      rfl

/-- What is behind `StripQuotes` when it has put a length into the slot. -/
theorem stripped_behind {m : Memory} (hm : Sound m) (c : Choice) {a : Nat} {b text : Str}
    (hb : m.heap a = some b) (hholds : Holds NUL b (Invocation.stripQuotes text))
    (hquoted : quoted text = true) (hlong : 1 < text.length)
    (hlook : lookup a m.cache = some ((text.dropWhile isSpace).length - 1)) :
    Ensures (do
      let stripped ← stripTrailingWhitespace m (some a)
      stripQuotes c stripped (some a)) fun m' => Sound m' ∧ ∃ b, m'.heap a = some b ∧
        Holds NUL b (Invocation.stripQuotes (Invocation.stripQuotes text)) := by
  rcases quoted_length hquoted with hlen | ⟨hone, htext⟩
  · rw [hlen] at hlook
    refine Ensures.bind (stripTrailingWhitespace_behind hm hb hholds hlook) fun m₁ h₁ => ?_
    obtain ⟨_, hb₁, _⟩ := h₁.string.block
    have hsound := h₁.moves.sound hm hb₁
    refine (stripQuotes_spec hsound c h₁.string).mono fun m' h' => ?_
    obtain ⟨b', hb', hholds'⟩ := h'.block
    exact ⟨h'.moves.sound hsound hb', b', hb', hholds'⟩
  · have hsplit := congrArg List.length (List.takeWhile_append_dropWhile (p := isSpace) (l := text))
    rw [List.length_append, hone] at hsplit
    have hne : text.takeWhile isSpace ≠ [] := by
      intro hnil
      rw [hnil, List.length_nil] at hsplit
      omega
    have hspaces : ∀ d ∈ text.takeWhile isSpace, isSpace d = true :=
      fun d hd => List.mem_takeWhile_imp hd
    have hsame : Invocation.stripQuotes (text.takeWhile isSpace) = text.takeWhile isSpace := by
      have hnil : (text.takeWhile isSpace).dropWhile isSpace = [] :=
        List.dropWhile_eq_nil_iff.mpr hspaces
      rw [Invocation.stripQuotes, hnil]
    rw [hone] at hlook
    rw [htext] at hholds ⊢
    refine Ensures.of_eq (stripTrailingWhitespace_zero hb hholds hne hlook) ?_
    refine (stripQuotes_blanks c hb hholds hspaces).mono ?_
    rintro _ rfl
    rw [hsame]
    exact ⟨hm, b, hb, hholds⟩

/-- The string ends up with the value that is stored for the text, whatever length the slot of the
value before it has. -/
theorem valueRound_spec {m : Memory} (hm : Sound m) (c : Nat → Choice) {value : Option Nat}
    (hvalue : BlockAt m value) {text : Str} (htext : NUL ∉ text) :
    Ensures (valueRound c m value text) fun r =>
      Sound r.1 ∧ ∃ b, r.1.heap r.2 = some b ∧ Holds NUL b (requestValue text) := by
  have hempty : SourceAt m (.literal []) (some []) := rfl
  refine Ensures.bind (copyStr_written hm (c 0) hvalue hempty nofun) fun empty h₀ => ?_
  obtain ⟨b₀, hb₀, hholds₀⟩ := h₀.string.block
  have hsound₀ := h₀.moves.sound hm hb₀
  have hp₀ : BlockAt empty.1 (some empty.2) := by
    rintro a ⟨⟩
    exact ⟨[], b₀, hb₀, hholds₀⟩
  have hw : SourceAt empty.1 (.literal text) (some text) := by
    have hsame : Blocks.text NUL text = text := by
      rw [Blocks.text, List.takeWhile_eq_self_iff]
      intro d hd
      exact decide_eq_true fun heq => htext (heq ▸ hd)
    exact congrArg some hsame.symm
  refine Ensures.bind (copyStr_written hsound₀ (c 1) hp₀ hw nofun) fun r h₁ => ?_
  obtain ⟨b₁, hb₁, hholds₁⟩ := h₁.string.block
  have hsound₁ := h₁.moves.sound hsound₀ hb₁
  have hread : Ensures (stripValid (c 2) r.1 r.2 text) (Unquoted (c 2) r.1 r.2 text) := by
    unfold stripValid
    by_cases hnil : text = []
    · subst hnil
      exact Ensures.ok (Unquoted.same hsound₁ hb₁ hholds₁ rfl)
    · rw [if_neg hnil]
      exact stripQuotes_spec hsound₁ (c 2) h₁.string
  refine Ensures.bind hread fun m₂ h₂ => ?_
  obtain ⟨b₂, hb₂, hholds₂⟩ := h₂.block
  have hsound₂ := h₂.moves.sound hsound₁ hb₂
  have hslot : lookup r.2 r.1.cache = remembered text.length := h₁.slot
  have hlast : Ensures (do
      let stripped ← stripTrailingWhitespace m₂ (some r.2)
      stripQuotes (c 3) stripped (some r.2)) fun m' =>
        Sound m' ∧ ∃ b, m'.heap r.2 = some b ∧ Holds NUL b (requestValue text) := by
    unfold requestValue
    rw [readValue_stripQuotes]
    by_cases hcase : quoted text = true ∧ minLen < text.length
    · have hlong : 1 < text.length := Nat.lt_trans (by decide) hcase.2
      rw [remembered, if_pos hcase.2] at hslot
      rw [if_pos hcase]
      exact stripped_behind hsound₂ (c 3) hb₂ hholds₂ hcase.1 hlong
        (h₂.slot hsound₁ hcase.1 hslot)
    · rw [if_neg hcase]
      refine stripped_right hsound₂ (c 3) (h₂.rewrites h₁.string fun hquoted => ?_).string
      have hshort : ¬ minLen < text.length := fun hlong => hcase ⟨hquoted, hlong⟩
      rw [remembered, if_neg hshort] at hslot
      have hle := (List.dropWhile_suffix isSpace (l := text)).length_le
      exact ⟨hslot, by omega⟩
  rw [← bind_assoc]
  exact Ensures.bind hlast fun m' h' => Ensures.ok h'

/-! ## All values -/

/-- The values are stored as the list of assignments has them. -/
theorem valueRounds_spec {texts : List Str} (htexts : ∀ text ∈ texts, NUL ∉ text)
    (c : Nat → Nat → Choice) {m : Memory} (hm : Sound m) {value : Option Nat}
    (hvalue : BlockAt m value) :
    Ensures (valueRounds c m value texts) fun stored => stored = texts.map requestValue := by
  induction texts generalizing c m value with
  | nil => exact Ensures.ok rfl
  | cons text texts ih =>
    refine Ensures.bind (valueRound_spec hm (c 0) hvalue (htexts text List.mem_cons_self)) ?_
    rintro r ⟨hsound, b, hb, hholds⟩
    have hblock : BlockAt r.1 (some r.2) := by
      rintro a ⟨⟩
      exact ⟨_, b, hb, hholds⟩
    refine Ensures.of_eq (read_of_holds hb hholds) ?_
    refine Ensures.bind (ih (fun t ht => htexts t (List.mem_cons_of_mem _ ht)) _ hsound hblock) ?_
    rintro _ rfl
    exact Ensures.ok rfl

/-- The texts of the values that `GetNameValuePair` finds in a request. -/
def requestTexts (rest : Str) : List Str :=
  (tokens [' '] .quotes rest).map fun token => (splitNameText token ['=']).2

theorem requestTexts_proper {rest : Str} (h : NUL ∉ rest) :
    ∀ text ∈ requestTexts rest, NUL ∉ text := by
  have hstep : ∀ s token t, nextToken [' '] .quotes s = some (token, t) →
      token.count NUL + t.count NUL ≤ s.count NUL := by
    intro s token t hnext
    have hcount := getToken_count NUL (List.cons_ne_nil ' ' []) s
    unfold nextToken at hnext
    cases hget : getToken s [' '] .quotes with
    | mk token' rest' =>
      rw [hget] at hnext hcount
      cases rest' with
      | none => cases hnext
      | some rest' =>
        cases hnext
        exact hcount
  have hnone : ∀ token ∈ tokens [' '] .quotes rest, token.count NUL = 0 := by
    intro token htoken
    have hsum := Scan.unfold_weight hstep rest
    have hle := List.le_sum_of_mem (List.mem_map_of_mem (f := List.count NUL) htoken)
    rw [List.count_eq_zero.mpr h] at hsum
    exact Nat.eq_zero_of_le_zero (hle.trans hsum)
  intro text htext
  obtain ⟨token, htoken, rfl⟩ := List.mem_map.mp htext
  have hcount := getToken_count NUL (List.cons_ne_nil '=' []) token
  rw [hnone token htoken] at hcount
  rw [← List.count_eq_zero]
  unfold splitNameText
  split_ifs
  · rfl
  · exact Nat.eq_zero_of_le_zero ((Nat.le_add_left _ _).trans hcount)

/-- What the loop of `HandleInvoke` stores, in blocks and with a cache, is what the server's
variables are made of. -/
theorem requestAssignments_stored (c : Nat → Nat → Choice) {m : Memory} (hm : Sound m)
    {value : Option Nat} (hvalue : BlockAt m value) {rest : Str} (hrest : NUL ∉ rest) :
    Ensures (valueRounds c m value (requestTexts rest)) fun stored =>
      stored = (requestAssignments rest).map Prod.snd := by
  refine (valueRounds_spec (requestTexts_proper hrest) c hm hvalue).mono ?_
  rintro _ rfl
  unfold requestTexts requestAssignments
  rw [List.map_map, List.map_map]
  rfl

end StrLenCache

end Invocation
