import Invocation.AppDBHistory
import Invocation.Wire

/-!
# The lines that are read back

`ReadsBack` is not only enough for a line to be read as the record it was made
from. Every field of a record costs the characters of its name and its value,
and a written line has them once: were the words divided in another way, the
letters of some name would be missing.
-/

namespace Invocation

set_option autoImplicit false

/-! ## The first word of a text -/

/-- A text is one word to its end, or shows a first separator. -/
theorem unbroken_or_word (sep : Char → Bool) (mode : Option Char) (s : Str) :
    unbroken sep mode s = true ∨ ∃ w c r, s = w ++ c :: r ∧ wordFrom sep mode w = true ∧
      c ≠ '\\' ∧ isQuote c = false ∧ sep c = true := by
  fun_induction unbroken sep mode s with
  | case1 => exact Or.inl rfl
  | case2 => exact Or.inl rfl
  | case3 a t ih =>
    rcases ih with h | ⟨w, c, r, rfl, hw, hc⟩
    · exact Or.inl h
    · exact Or.inr ⟨'\\' :: a :: w, c, r, rfl, by rw [wordFrom.eq_def]; exact hw, hc⟩
  | case4 a s hne hquote ih =>
    rcases ih with h | ⟨w, c, r, rfl, hw, hc⟩
    · exact Or.inl h
    · exact Or.inr ⟨a :: w, c, r, rfl, (wordFrom_quote hquote w).trans hw, hc⟩
  | case5 a s hne hquote ih =>
    have hplain : isQuote a = false := by simpa using hquote
    cases hsep : sep a with
    | true => exact Or.inr ⟨[], a, s, rfl, rfl, hne, hplain, hsep⟩
    | false =>
      rcases ih with h | ⟨w, c, r, rfl, hw, hc⟩
      · exact Or.inl (by simp [h])
      · have hstep : wordFrom sep none ([a] ++ w) = wordFrom sep none w :=
          wordFrom_plain_append (by simp [plainChar, hne, hplain, hsep]) w
        exact Or.inr ⟨a :: w, c, r, rfl, hstep.trans hw, hc⟩
  | case6 q s ih =>
    rcases ih with h | ⟨w, c, r, rfl, hw, hc⟩
    · exact Or.inl h
    · exact Or.inr ⟨q :: w, c, r, rfl, by rw [wordFrom.eq_def]; simpa using hw, hc⟩
  | case7 => exact Or.inl rfl
  | case8 q a s hne ih =>
    rcases ih with h | ⟨w, c, r, rfl, hw, hc⟩
    · exact Or.inl h
    · exact Or.inr ⟨'\\' :: a :: w, c, r, rfl, by rw [wordFrom.eq_def]; simpa [hne] using hw, hc⟩
  | case9 q a s hq hb ih =>
    rcases ih with h | ⟨w, c, r, rfl, hw, hc⟩
    · exact Or.inl h
    · exact Or.inr ⟨a :: w, c, r, rfl, by rw [wordFrom.eq_def]; simpa [hq, hb] using hw, hc⟩

/-- What follows an equals sign, up to the first blank that is not hidden. -/
theorem pairs_firstAssignment {name : Str} (hname : fieldName name = true) (s : Str) :
    (unbroken blank none s = true ∧
        pairs [' '] ['='] (name ++ '=' :: s) = [(name, readValue s)]) ∨
      ∃ v rest, s = v ++ ' ' :: rest ∧ wordFrom blank none v = true ∧
        pairs [' '] ['='] (name ++ '=' :: s) = (name, readValue v) :: pairs [' '] ['='] rest := by
  rcases unbroken_or_word blank none s with h | ⟨v, c, rest, rfl, hv, _, _, hsep⟩
  · exact Or.inl ⟨h, pairs_lastAssignment hname h⟩
  · have hc : c = ' ' := by simpa [blank, sepChar, eq_comm] using hsep
    subst hc
    have hword := pairs_word ['='] (assignment_word hname hv).2 rest
    rw [assignment_pair hname, List.append_assoc, List.cons_append] at hword
    exact Or.inr ⟨v, rest, rfl, hv, hword⟩

/-! ## What a pair costs -/

section Weight

variable (w : Char → Nat)

def textWeight (s : Str) : Nat := (s.map w).sum

@[simp] theorem textWeight_nil : textWeight w [] = 0 := rfl

@[simp] theorem textWeight_cons (c : Char) (s : Str) :
    textWeight w (c :: s) = w c + textWeight w s := by
  simp [textWeight]

@[simp] theorem textWeight_append (s t : Str) :
    textWeight w (s ++ t) = textWeight w s + textWeight w t := by
  simp [textWeight]

theorem textWeight_sublist {s t : Str} (h : s.Sublist t) : textWeight w s ≤ textWeight w t := by
  induction h with
  | slnil => exact Nat.le_refl _
  | cons c _ ih =>
    rw [textWeight_cons]
    omega
  | cons_cons c _ ih =>
    rw [textWeight_cons, textWeight_cons]
    omega

theorem textWeight_one (s : Str) : textWeight (fun _ => 1) s = s.length := by
  simp [textWeight]

end Weight

theorem dequote_sublist (s : Str) : (dequote s).Sublist s := by
  cases s with
  | nil => exact List.Sublist.refl _
  | cons q t =>
    rw [dequote]
    split
    · exact (List.dropLast_sublist t).cons q
    · exact List.Sublist.refl _

theorem readValue_sublist (s : Str) : (readValue s).Sublist s := by
  rw [readValue_stripQuotes]
  exact stripQuotes_sublist s

theorem getToken_first {d : Char} (hd : d ≠ '\\') {s : Str}
    (hs : s ≠ []) :
    (∃ w r, s = w ++ d :: r ∧ getToken s [d] .quotes = (dequote w, some r)) ∨
      ∃ t : Str, getToken s [d] .quotes = (t, some []) ∧ t.Sublist s := by
  have hitems : sepItems [d] = [.lit d] := by
    unfold sepItems
    split <;> simp_all [sepItems]
  rcases unbroken_or_word (sepChar (.lit d)) none s with h | ⟨w, c, r, rfl, hw, h1, h2, h3⟩
  · right
    have hfind := getTokenFindSeparator_unbroken .quotes rfl rfl (.lit d) none s h
    rw [leaveQuote] at hfind
    obtain ⟨a, t, rfl⟩ := List.exists_cons_of_ne_nil hs
    refine ⟨stripTokenQuotes (a :: t) (a :: t), ?_, ?_⟩
    · simp [getToken, TokenFlags.quotes, hitems] at hfind ⊢
      simp [hfind, getTokenPostProcess]
    · simp only [stripTokenQuotes]
      split_ifs
      · exact List.sublist_cons_self a t
      · exact (List.dropLast_sublist t).cons a
      · exact List.Sublist.refl _
      · exact List.Sublist.refl _
  · left
    have hc : d = c := by simpa [sepChar] using h3
    subst hc
    exact ⟨w, r, rfl, getToken_word true r (List.cons_ne_nil _ _) hitems hw h1 h2 h3⟩

section Weight

variable (w : Char → Nat)

/-- A name, a value with its equals sign, and the blank behind the pair. -/
def pairWeight (p : Str × Str) : Nat :=
  textWeight w p.1 + textWeight w p.2 + w ' ' + if p.2 = [] then 0 else w '='

theorem pairWeight_le (p : Str × Str) :
    pairWeight w p ≤ textWeight w p.1 + textWeight w p.2 + w ' ' + w '=' := by
  unfold pairWeight
  split <;> omega

theorem pairWeight_splitNameValue (t : Str) :
    pairWeight w (splitNameValue t ['=']) ≤ textWeight w t + w ' ' := by
  by_cases ht : t = []
  · subst ht
    exact Nat.le_refl _
  · rw [splitNameValue, splitNameText, if_neg ht]
    rcases getToken_first (d := '=') (by decide) ht with ⟨u, r, rfl, h⟩ | ⟨u, h, hu⟩
    · have hle := pairWeight_le w (dequote u, readValue r)
      have hname := textWeight_sublist w (dequote_sublist u)
      have hvalue := textWeight_sublist w (readValue_sublist r)
      rw [h]
      simp only [Option.getD_some, textWeight_append, textWeight_cons] at hle ⊢
      omega
    · have hname := textWeight_sublist w hu
      rw [h]
      simpa [pairWeight, readValue] using hname

theorem pairWeight_nextPair {s rest : Str} {p : Str × Str}
    (h : nextPair [' '] ['='] s = some (p, rest)) :
    pairWeight w p + textWeight w rest ≤ textWeight w s + w ' ' ∧
      (rest ≠ [] → pairWeight w p + textWeight w rest ≤ textWeight w s) := by
  have hs : s ≠ [] := by
    rintro rfl
    cases h
  unfold nextPair getNameValuePair at h
  rcases getToken_first (d := ' ') (by decide) hs with ⟨u, r, rfl, hget⟩ | ⟨t, hget, ht⟩
  · rw [hget] at h
    cases h
    have hp := pairWeight_splitNameValue w (dequote u)
    have hword := textWeight_sublist w (dequote_sublist u)
    simp only [textWeight_append, textWeight_cons]
    exact ⟨by omega, fun _ => by omega⟩
  · rw [hget] at h
    cases h
    have hp := pairWeight_splitNameValue w t
    have hword := textWeight_sublist w ht
    refine ⟨?_, fun hne => absurd rfl hne⟩
    simp only [textWeight_nil]
    omega

/-- All pairs of a text together cost no more than the text with a blank behind it. -/
theorem pairWeight_pairs (s : Str) :
    ((pairs [' '] ['='] s).map (pairWeight w)).sum ≤ textWeight w s + w ' ' := by
  induction hn : s.length using Nat.strongRecOn generalizing s with
  | ind n ih =>
    cases h : nextPair [' '] ['='] s with
    | none =>
      rw [pairs, Scan.unfold_none h]
      exact Nat.zero_le _
    | some next =>
      obtain ⟨p, rest⟩ := next
      obtain ⟨hlast, hmore⟩ := pairWeight_nextPair w h
      have hlt := nextPair_shrinks _ _ s p rest h
      have hunfold : pairs [' '] ['='] s = p :: pairs [' '] ['='] rest :=
        Scan.unfold_some (nextPair_shrinks _ _) h
      rw [hunfold, List.map_cons, List.sum_cons]
      by_cases hrest : rest = []
      · subst hrest
        have hnil : pairs [' '] ['='] [] = [] := rfl
        rw [hnil]
        simp only [List.map_nil, List.sum_nil, textWeight_nil] at hlast ⊢
        omega
      · have hle := ih rest.length (by omega) rest rfl
        have := hmore hrest
        omega

/-! ## What a record costs -/

def fieldWeight (name value : Str) : Nat := if value = [] then 0 else pairWeight w (name, value)

def hashWeight : Option Str → Nat
  | none => 0
  | some hash => pairWeight w ("hash".toList, hash)

/-- What setting the fields of a record takes at least; its size is not counted. -/
def TGrant.weight (entry : TGrant) : Nat :=
  fieldWeight w "grant".toList entry.type + fieldWeight w "user".toList entry.user +
    fieldWeight w "group".toList entry.group + fieldWeight w "program".toList entry.program +
    hashWeight w entry.hash

theorem fieldWeight_le (name value : Str) :
    fieldWeight w name value ≤ pairWeight w (name, value) := by
  unfold fieldWeight
  split
  · exact Nat.zero_le _
  · exact Nat.le_refl _

theorem fieldWeight_ne {value : Str} (h : value ≠ []) (name : Str) :
    fieldWeight w name value = textWeight w name + textWeight w value + w ' ' + w '=' := by
  simp [fieldWeight, pairWeight, h]

theorem weight_setField (entry : TGrant) (name value : Str) :
    (entry.setField name value).weight w ≤ entry.weight w + pairWeight w (name, value) := by
  have hfield := fieldWeight_le w name value
  unfold TGrant.setField TGrant.weight
  split_ifs with h1 h2 h3 h4 h5
  · subst h1
    dsimp only
    omega
  · subst h2
    dsimp only
    omega
  · subst h3
    dsimp only
    omega
  · subst h4
    dsimp only
    omega
  · subst h5
    simp only [hashWeight]
    omega
  · dsimp only
    omega
  · omega

theorem weight_setFields (entry : TGrant) (fields : List (Str × Str)) :
    (entry.setFields fields).weight w ≤ entry.weight w + (fields.map (pairWeight w)).sum := by
  induction fields generalizing entry with
  | nil => exact Nat.le_refl _
  | cons p fields ih =>
    obtain ⟨name, value⟩ := p
    have hrest := ih (entry.setField name value)
    have hfirst := weight_setField w entry name value
    have hcons : entry.setFields ((name, value) :: fields) =
        (entry.setField name value).setFields fields := rfl
    rw [List.map_cons, List.sum_cons, hcons]
    omega

theorem weight_pairs (entry : TGrant) (s : Str) :
    (entry.setFields (pairs [' '] ['='] s)).weight w ≤
      entry.weight w + textWeight w s + w ' ' := by
  have hfields := weight_setFields w entry (pairs [' '] ['='] s)
  have hpairs := pairWeight_pairs w s
  omega

end Weight

/-! ## The field that a first pair sets -/

theorem setField_setField (entry : TGrant) (name value value' : Str) :
    (entry.setField name value).setField name value' = entry.setField name value' := by
  unfold TGrant.setField
  split_ifs <;> rfl

theorem setField_cases (name : Str) :
    (∀ (entry : TGrant) value, entry.setField name value = entry) ∨
      name ∈ ["grant".toList, "user".toList, "group".toList, "program".toList, "hash".toList,
        "size".toList] := by
  by_cases h : name ∈ ["grant".toList, "user".toList, "group".toList, "program".toList,
      "hash".toList, "size".toList]
  · exact Or.inr h
  · left
    intro entry value
    simp only [List.mem_cons, List.not_mem_nil, or_false, not_or] at h
    obtain ⟨h1, h2, h3, h4, h5, h6⟩ := h
    rw [TGrant.setField, if_neg h1, if_neg h2, if_neg h3, if_neg h4, if_neg h5, if_neg h6]

theorem setField_comm (entry : TGrant) {name name' : Str} (h : name ≠ name') (value value' : Str) :
    (entry.setField name value).setField name' value' =
      (entry.setField name' value').setField name value := by
  rcases setField_cases name with hname | hname
  · rw [hname, hname]
  · rcases setField_cases name' with hname' | hname'
    · rw [hname', hname']
    · simp only [List.mem_cons, List.not_mem_nil, or_false] at hname hname'
      rcases hname with rfl | rfl | rfl | rfl | rfl | rfl <;>
        rcases hname' with rfl | rfl | rfl | rfl | rfl | rfl <;>
        first
        | contradiction
        | simp only [setField_grant, setField_user, setField_group, setField_program, setField_hash,
            setField_size]

/-- A later pair sets the field again, or the first one has the last word. -/
theorem setFields_setField (entry : TGrant) (name value : Str) (fields : List (Str × Str)) :
    (entry.setField name value).setFields fields = entry.setFields fields ∨
      (entry.setField name value).setFields fields =
        (entry.setFields fields).setField name value := by
  induction fields generalizing entry with
  | nil => exact Or.inr rfl
  | cons p fields ih =>
    have hcons (e : TGrant) : e.setFields (p :: fields) =
      (e.setField p.1 p.2).setFields fields := rfl
    rw [hcons, hcons]
    by_cases h : name = p.1
    · subst h
      rw [setField_setField]
      exact Or.inl rfl
    · rw [setField_comm _ h]
      exact ih (entry.setField p.1 p.2)

theorem setFields_cons (entry : TGrant) (name value : Str) (fields : List (Str × Str)) :
    entry.setFields ((name, value) :: fields) = (entry.setField name value).setFields fields := rfl

/-! ## One field -/

theorem append_shift {c q : Char} {text a b : Str} (h : text ++ c :: a = q :: (text ++ q :: b)) :
    c = q := by
  induction text with
  | nil => exact (List.cons.inj h).1
  | cons d text ih =>
    obtain ⟨hd, h⟩ := List.cons.inj h
    rw [hd] at h
    exact ih h

theorem stripQuotes_apostrophe (s : Str) : stripQuotes ('\'' :: s) =
    if s = [] then [] else if s.getLast? = some '\'' then s.dropLast else '\'' :: s := by
  have hspace : isSpace '\'' = false := by decide
  have hquote : isQuote '\'' = true := by decide
  simp [stripQuotes, hspace, hquote]

theorem stripQuotes_apostrophe_length (s : Str) :
    s.length ≤ (stripQuotes ('\'' :: s)).length + 1 := by
  rw [stripQuotes_apostrophe]
  split_ifs with hnil hlast
  · simp [hnil]
  · rw [List.length_dropLast]
    omega
  · rw [List.length_cons]
    omega

/-- A first word of the line that gives back the quoted text is the text in its quotes. -/
theorem quote_of_stripQuotes {text tail v rest : Str} (hne : text ≠ [])
    (hv : stripQuotes v = text) (h : quote text ++ tail = v ++ ' ' :: rest) : v = quote text := by
  cases v with
  | nil => exact absurd hv.symm hne
  | cons q v =>
    have hcons : '\'' :: (text ++ '\'' :: tail) = q :: (v ++ ' ' :: rest) := by
      simpa [quote] using h
    obtain ⟨rfl, hrest⟩ := List.cons.inj hcons
    rw [stripQuotes_apostrophe] at hv
    split_ifs at hv with hnil hlast
    · exact absurd hv.symm hne
    · have hsplit := List.dropLast_append_getLast? _ hlast
      rw [← hv, quote, List.cons_append, hsplit]
    · rw [← hv] at hrest
      have hshift : '\'' :: v ++ ' ' :: rest = '\'' :: ('\'' :: v ++ '\'' :: tail) := by
        rw [hrest]
        rfl
      exact absurd (append_shift hshift) (by decide)

section Field

variable {name : Str} (hname : fieldName name = true) (get : TGrant → Str)
  (hget : ∀ (entry : TGrant) value, get (entry.setField name value) = value)
  (entry record : TGrant) (text : Str) (htext : get record = text)
include hname hget htext

/-- A quoted field at the head of the text, where the record costs more than its value and what is
behind it. -/
theorem quoted_of_setFields (w : Char → Nat) {tail : Str} (hne : text ≠ [])
    (hrecord : entry.setFields (pairs [' '] ['='] (name ++ '=' :: (quote text ++ ' ' :: tail))) =
      record)
    (hcost : entry.weight w + textWeight w (quote text ++ ' ' :: tail) < record.weight w) :
    wordFrom blank (some '\'') (text ++ ['\'']) = true := by
  rcases pairs_firstAssignment hname (quote text ++ ' ' :: tail) with
    ⟨_, hpairs⟩ | ⟨v, rest, hsplit, hv, hpairs⟩
  · rw [hpairs, setFields_cons] at hrecord
    have hvalue : readValue (quote text ++ ' ' :: tail) = text :=
      (hget entry _).symm.trans ((congrArg get hrecord).trans htext)
    have hlength := stripQuotes_apostrophe_length (text ++ ['\''] ++ ' ' :: tail)
    have hquote : quote text ++ ' ' :: tail = '\'' :: (text ++ ['\''] ++ ' ' :: tail) := by
      simp [quote]
    rw [readValue_stripQuotes, hquote] at hvalue
    rw [hvalue] at hlength
    simp only [List.length_append, List.length_cons, List.length_nil] at hlength
    omega
  · rw [hpairs, setFields_cons] at hrecord
    rcases setFields_setField entry name (readValue v) (pairs [' '] ['='] rest) with h | h
    · have hweight := weight_pairs w entry rest
      rw [← h, hrecord] at hweight
      rw [hsplit, textWeight_append, textWeight_cons] at hcost
      omega
    · rw [h] at hrecord
      have hvalue : stripQuotes v = text := by
        rw [← htext, ← hrecord, hget, readValue_stripQuotes]
      rw [quote_of_stripQuotes hne hvalue hsplit] at hv
      exact (wordFrom_quote (by decide) _).symm.trans hv

/-- A bare field in front of another one. -/
theorem bare_of_setFields {tail : Str}
    (hrecord : entry.setFields (pairs [' '] ['='] (name ++ '=' :: (text ++ ' ' :: tail))) = record)
    (hcost : entry.weight (fun _ => 1) + name.length + text.length + tail.length + 2 <
      record.weight (fun _ => 1)) :
    wordFrom blank none text = true ∧ stripQuotes text = text := by
  have hpair := pairWeight_le (fun _ => 1) (name, text)
  simp only [textWeight_one] at hpair
  rcases pairs_firstAssignment hname (text ++ ' ' :: tail) with
    ⟨_, hpairs⟩ | ⟨v, rest, hsplit, hv, hpairs⟩
  · rw [hpairs, setFields_cons] at hrecord
    have hvalue : readValue (text ++ ' ' :: tail) = text :=
      (hget entry _).symm.trans ((congrArg get hrecord).trans htext)
    have hweight := weight_setField (fun _ => 1) entry name text
    rw [hvalue] at hrecord
    have hrecord' : entry.setField name text = record := hrecord
    rw [hrecord'] at hweight
    omega
  · rw [hpairs, setFields_cons] at hrecord
    have hlength := congrArg List.length hsplit
    simp only [List.length_append, List.length_cons] at hlength
    have hrest := weight_pairs (fun _ => 1) entry rest
    rw [textWeight_one] at hrest
    rcases setFields_setField entry name (readValue v) (pairs [' '] ['='] rest) with h | h
    · rw [← h, hrecord] at hrest
      omega
    · rw [h] at hrecord
      have hvalue : readValue v = text := by
        rw [← htext, ← hrecord, hget]
      have hle := (readValue_sublist v).length_le
      have hweight := weight_setField (fun _ => 1) (entry.setFields (pairs [' '] ['='] rest)) name
        text
      rw [hvalue] at hrecord hle
      rw [hrecord] at hweight
      have hsame : v = text := (List.append_inj hsplit (by omega)).1.symm
      rw [hsame] at hv
      rw [hsame, readValue_stripQuotes] at hvalue
      exact ⟨hv, hvalue⟩

/-- A bare field at the end of the line, behind which trailing blanks are gone. -/
theorem last_of_setFields
    (hrecord : entry.setFields (pairs [' '] ['='] (name ++ '=' :: stripTrailingWhitespace text)) =
      record)
    (hcost : entry.weight (fun _ => 1) + text.length < record.weight (fun _ => 1)) :
    unbroken blank none text = true ∧ stripQuotes text = text ∧
      stripTrailingWhitespace text = text := by
  have hprefix := List.rdropWhile_prefix isSpace text
  have hstrip : (stripTrailingWhitespace text).length ≤ text.length := hprefix.length_le
  rcases pairs_firstAssignment hname (stripTrailingWhitespace text) with
    ⟨hunbroken, hpairs⟩ | ⟨v, rest, hsplit, hv, hpairs⟩
  · rw [hpairs, setFields_cons] at hrecord
    have hvalue : readValue (stripTrailingWhitespace text) = text :=
      (hget entry _).symm.trans ((congrArg get hrecord).trans htext)
    have hle := (readValue_sublist (stripTrailingWhitespace text)).length_le
    rw [hvalue] at hle
    have hsame : stripTrailingWhitespace text = text :=
      hprefix.eq_of_length (Nat.le_antisymm hstrip hle)
    rw [hsame] at hunbroken hvalue
    exact ⟨hunbroken, (readValue_stripQuotes text).symm.trans hvalue, hsame⟩
  · rw [hpairs, setFields_cons] at hrecord
    have hlength := congrArg List.length hsplit
    simp only [List.length_append, List.length_cons] at hlength
    rcases setFields_setField entry name (readValue v) (pairs [' '] ['='] rest) with h | h
    · have hweight := weight_pairs (fun _ => 1) entry rest
      rw [← h, hrecord, textWeight_one] at hweight
      omega
    · rw [h] at hrecord
      have hvalue : readValue v = text := by
        rw [← htext, ← hrecord, hget]
      have hle := (readValue_sublist v).length_le
      rw [hvalue] at hle
      omega

end Field

/-! ## The whole line -/

/-- A written line up to the hash. -/
def lineHead (grant appPath : Str) (size : Nat) (hash : Option Digest) : Str :=
  "grant".toList ++ '=' :: (quote grant ++ ' ' :: ("program".toList ++ '=' :: (quote appPath ++
    ' ' :: ("size".toList ++ '=' :: (decimal size ++ ' ' :: ("hash".toList ++ '=' ::
      hashText hash))))))

def lineTail (user group : Str) : Str :=
  (if user = [] then [] else ' ' :: ("user".toList ++ '=' :: user)) ++
    if group = [] then [] else ' ' :: ("group".toList ++ '=' :: group)

theorem headTail_fields (n1 n2 n3 n4 n5 n6 grant program size hash user group : Str) :
    (n1 ++ ['=', '\'']) ++ grant ++ ('\'' :: ' ' :: (n2 ++ ['=', '\''])) ++ program ++
        ('\'' :: ' ' :: (n3 ++ ['='])) ++ size ++ (' ' :: (n4 ++ ['='])) ++ hash ++
        (if user = [] then [] else (' ' :: (n5 ++ ['='])) ++ user) ++
        (if group = [] then [] else (' ' :: (n6 ++ ['='])) ++ group) =
      (n1 ++ '=' :: (quote grant ++ ' ' :: (n2 ++ '=' :: (quote program ++
        ' ' :: (n3 ++ '=' :: (size ++ ' ' :: (n4 ++ '=' :: hash))))))) ++
        ((if user = [] then [] else ' ' :: (n5 ++ '=' :: user)) ++
          if group = [] then [] else ' ' :: (n6 ++ '=' :: group)) := by
  by_cases hu : user = [] <;> by_cases hg : group = [] <;> simp [quote, hu, hg]

theorem grantLine_eq (grant user group appPath : Str) (size : Nat) (hash : Option Digest) :
    grantLine grant user group appPath size hash =
      lineHead grant appPath size hash ++ lineTail user group :=
  headTail_fields "grant".toList "program".toList "size".toList "hash".toList "user".toList
    "group".toList grant appPath (decimal size) (hashText hash) user group

section Line

variable (grant user group : Str) {appPath : Str} {size : Nat} (hash : Option Digest)

theorem record_weight (w : Char → Nat) (happPath : appPath ≠ []) :
    TGrant.weight w { type := grant, user := user, group := group, program := appPath,
                      hash := some (hashText hash), size := size } =
      fieldWeight w "grant".toList grant + textWeight w (lineTail user group) +
        (textWeight w "program".toList + textWeight w appPath + w ' ' + w '=') +
        pairWeight w ("hash".toList, hashText hash) := by
  have hfield (name value : Str) :
      textWeight w (if value = [] then [] else ' ' :: (name ++ '=' :: value)) =
        fieldWeight w name value := by
    by_cases h : value = []
    · simp [h, fieldWeight]
    · rw [if_neg h, fieldWeight_ne w h]
      simp only [textWeight_append, textWeight_cons]
      omega
  rw [lineTail, textWeight_append, hfield, hfield, ← fieldWeight_ne w happPath]
  simp only [TGrant.weight, hashWeight]
  omega

variable {grant user group hash}

theorem textWeight_decimal {w : Char → Nat} (hw : ∀ c, c.isDigit = true → w c = 0) :
    textWeight w (decimal size) = 0 := by
  have hzero : (decimal size).map w = (decimal size).map fun _ => 0 :=
    List.map_congr_left fun c hc =>
      hw c (Nat.isDigit_of_mem_toDigits (b := 10) (by decide) (by decide) hc)
  rw [textWeight, hzero]
  simp

/-- How often one letter stands in a text. -/
def letter (c d : Char) : Nat := if d = c then 1 else 0

theorem letter_digit {c : Char} (hc : c.isDigit = false) (d : Char) (hd : d.isDigit = true) :
    letter c d = 0 := by
  refine if_neg ?_
  rintro rfl
  rw [hc] at hd
  cases hd

/-- The record that a line starts with is the one it was made from only if both quotes close: behind
a word that ends too early the line lacks the letter g of `grant`, or the letter m of `program`. -/
theorem quoted_of_line (happPath : appPath ≠ []) {tail : Str}
    (htail : tail.Sublist (lineTail user group))
    (hread : TGrant.setFields {} (pairs [' '] ['='] (lineHead grant appPath size hash ++ tail)) =
      { type := grant, user := user, group := group, program := appPath,
        hash := some (hashText hash), size := size }) :
    wordFrom blank (some '\'') (grant ++ ['\'']) = true ∧
      wordFrom blank (some '\'') (appPath ++ ['\'']) = true := by
  let record : TGrant :=
    { type := grant, user := user, group := group, program := appPath,
      hash := some (hashText hash), size := size }
  let behind : Str := "size".toList ++ '=' :: (decimal size ++ ' ' :: ("hash".toList ++ '=' ::
    (hashText hash ++ tail)))
  let second : Str := "program".toList ++ '=' :: (quote appPath ++ ' ' :: behind)
  have hline : lineHead grant appPath size hash ++ tail =
      "grant".toList ++ '=' :: (quote grant ++ ' ' :: second) := by
    simp only [lineHead, second, behind, List.append_assoc, List.cons_append]
  have hgrant : wordFrom blank (some '\'') (grant ++ ['\'']) = true := by
    by_cases hne : grant = []
    · rw [hne]
      rfl
    · have hfield : fieldWeight (letter 'g') "grant".toList grant =
        1 + textWeight (letter 'g') grant :=
        fieldWeight_ne (letter 'g') hne "grant".toList
      have hrecord : record.weight (letter 'g') = fieldWeight (letter 'g') "grant".toList grant +
          textWeight (letter 'g') (lineTail user group) + (1 + textWeight (letter 'g') appPath) +
            textWeight (letter 'g') (hashText hash) := by
        refine (record_weight grant user group hash (letter 'g') happPath).trans ?_
        simp [pairWeight, letter]
      have hdecimal : textWeight (letter 'g') (decimal size) = 0 :=
        textWeight_decimal (letter_digit rfl)
      have hmore := textWeight_sublist (letter 'g') htail
      have hempty : TGrant.weight (letter 'g') {} = 0 := rfl
      have hcost : TGrant.weight (letter 'g') {} +
          textWeight (letter 'g') (quote grant ++ ' ' :: second) < record.weight (letter 'g') := by
        simp [second, behind, quote, letter, hdecimal, hempty] at hfield hrecord hmore ⊢
        omega
      rw [hline] at hread
      exact quoted_of_setFields rfl TGrant.type (fun _ _ => rfl) {} record grant rfl
        (letter 'g') hne
        hread hcost
  have hfirst : pairs [' '] ['='] (lineHead grant appPath size hash ++ tail) =
      ("grant".toList, grant) :: pairs [' '] ['='] second := by
    have hassign : fieldName "grant".toList = true := rfl
    have hword := pairs_word ['='] (assignment_word hassign (wordFrom_quote_word hgrant)).2 second
    rw [assignment_pair hassign, readValue_quote, List.append_assoc, List.cons_append] at hword
    rw [hline]
    exact hword
  have hset : TGrant.setField {} "grant".toList grant = { type := grant } := rfl
  rw [hfirst, setFields_cons, hset] at hread
  have hrecord : record.weight (letter 'm') = fieldWeight (letter 'm') "grant".toList grant +
      textWeight (letter 'm') (lineTail user group) + (1 + textWeight (letter 'm') appPath) +
        textWeight (letter 'm') (hashText hash) := by
    refine (record_weight grant user group hash (letter 'm') happPath).trans ?_
    simp [pairWeight, letter]
  have hdecimal : textWeight (letter 'm') (decimal size) = 0 :=
    textWeight_decimal (letter_digit rfl)
  have hmore := textWeight_sublist (letter 'm') htail
  have hentry : TGrant.weight (letter 'm') { type := grant } =
      fieldWeight (letter 'm') "grant".toList grant := rfl
  have hcost : TGrant.weight (letter 'm') { type := grant } +
      textWeight (letter 'm') (quote appPath ++ ' ' :: behind) < record.weight (letter 'm') := by
    rw [hrecord, hentry]
    simp [behind, quote, letter, hdecimal] at hmore ⊢
    omega
  exact ⟨hgrant, quoted_of_setFields rfl TGrant.program (fun _ _ => rfl) { type := grant } record
    appPath rfl (letter 'm') happPath hread hcost⟩

theorem pairs_lineHead (hgrant : wordFrom blank (some '\'') (grant ++ ['\'']) = true)
    (happPath : wordFrom blank (some '\'') (appPath ++ ['\'']) = true) (tail : Str) :
    TGrant.setFields {}
        (pairs [' '] ['='] (lineHead grant appPath size hash ++ ' ' :: tail)) =
      TGrant.setFields { type := grant, program := appPath, size := sizeValue (decimal size),
                         hash := some (hashText hash) } (pairs [' '] ['='] tail) := by
  have hassign {name value : Str} (hname : fieldName name = true)
      (hvalue : wordFrom blank none value = true) (rest : Str) :
      pairs [' '] ['='] (name ++ '=' :: (value ++ ' ' :: rest)) =
        (name, readValue value) :: pairs [' '] ['='] rest := by
    have hword := pairs_word ['='] (assignment_word hname hvalue).2 rest
    rw [assignment_pair hname, List.append_assoc, List.cons_append] at hword
    exact hword
  have hline : lineHead grant appPath size hash ++ ' ' :: tail =
      "grant".toList ++ '=' :: (quote grant ++ ' ' :: ("program".toList ++ '=' :: (quote appPath ++
        ' ' :: ("size".toList ++ '=' :: (decimal size ++ ' ' :: ("hash".toList ++ '=' ::
          (hashText hash ++ ' ' :: tail))))))) := by
    simp only [lineHead, List.append_assoc, List.cons_append]
  rw [hline, hassign rfl (wordFrom_quote_word hgrant), hassign rfl (wordFrom_quote_word happPath),
    hassign rfl (bare_decimal size).word, hassign rfl (bare_hashText hash).word, readValue_quote,
    readValue_quote, (bare_decimal size).value, (bare_hashText hash).value]
  rfl

theorem strip_solid {c : Char} (hc : isSpace c = false) (a b : Str) :
    stripTrailingWhitespace (a ++ c :: b) = a ++ c :: stripTrailingWhitespace b := by
  have hone : stripTrailingWhitespace [c] = [c] :=
    stripTrailingWhitespace_solid fun d hd => (List.mem_singleton.mp hd).symm ▸ hc
  have hcons : stripTrailingWhitespace (c :: b) = c :: stripTrailingWhitespace b := by
    refine (strip_append [c] b).trans ?_
    split
    · rename_i hb
      rw [hb, hone]
    · rfl
  rw [strip_append, hcons, if_neg (List.cons_ne_nil _ _)]

/-- The line as the check reads it: without the blanks at its end. -/
theorem stripped_line : stripTrailingWhitespace (grantLine grant user group appPath size hash) =
    lineHead grant appPath size hash ++
      if group = [] then
        if user = [] then [] else ' ' :: ("user".toList ++ '=' :: stripTrailingWhitespace user)
      else (if user = [] then [] else ' ' :: ("user".toList ++ '=' :: user)) ++
        ' ' :: ("group".toList ++ '=' :: stripTrailingWhitespace group) := by
  have hequals : isSpace '=' = false := by decide
  have hhead (name value : Str) (front : Str) :
      stripTrailingWhitespace (front ++ ' ' :: (name ++ '=' :: value)) =
        front ++ ' ' :: (name ++ '=' :: stripTrailingWhitespace value) := by
    have hsplit (value : Str) : front ++ ' ' :: (name ++ '=' :: value) =
        (front ++ ' ' :: name) ++ '=' :: value := by simp
    rw [hsplit, strip_solid hequals, hsplit]
  rw [grantLine_eq, lineTail]
  by_cases hgroup : group = []
  · rw [if_pos hgroup, if_pos hgroup, List.append_nil]
    by_cases huser : user = []
    · have htrim : stripTrailingWhitespace (grantLine grant [] [] appPath size hash) =
          grantLine grant [] [] appPath size hash := trimmed_grantLine rfl grant appPath size hash
      have htail : lineTail [] [] = [] := rfl
      rw [grantLine_eq, htail, List.append_nil] at htrim
      rw [if_pos huser, if_pos huser, List.append_nil]
      exact htrim
    · rw [if_neg huser, if_neg huser, hhead]
  · rw [if_neg hgroup, if_neg hgroup, ← List.append_assoc, hhead, List.append_assoc]

theorem lineEntry_stripped : lineEntry (grantLine grant user group appPath size hash) =
    some (TGrant.setFields {} (pairs [' '] ['='] (stripTrailingWhitespace
      (grantLine grant user group appPath size hash)))) := by
  rw [lineEntry, stripped_line]
  rfl

variable (user group) in
theorem weight_userGroup (w : Char → Nat) (entry : TGrant) (huser : entry.user = [])
    (hgroup : entry.group = []) :
    TGrant.weight w { entry with user := user, group := group } =
      entry.weight w + fieldWeight w "user".toList user + fieldWeight w "group".toList group := by
  have hnil (name : Str) : fieldWeight w name [] = 0 := rfl
  simp only [TGrant.weight, huser, hgroup, hnil]
  omega

/-- The fields behind the hash: the last one of them runs to the end of the line. -/
theorem userGroup_of_setFields (entry : TGrant) (huser : entry.user = [])
    (hgroup : entry.group = []) (hread : entry.setFields (pairs [' '] ['='] (
      (if user = [] then [] else "user".toList ++ '=' :: (user ++ [' '])) ++
        ("group".toList ++ '=' :: stripTrailingWhitespace group))) =
      { entry with user := user, group := group }) (hne : group ≠ []) :
    wordFrom blank none user = true ∧ stripQuotes user = user ∧ unbroken blank none group = true ∧
      stripQuotes group = group ∧ stripTrailingWhitespace group = group := by
  have hweight := weight_userGroup user group (fun _ => 1) entry huser hgroup
  have hgroupWeight := fieldWeight_ne (fun _ => 1) hne "group".toList
  have hgroupName : "group".toList.length = 5 := rfl
  have huserName : "user".toList.length = 4 := rfl
  rw [textWeight_one, textWeight_one] at hgroupWeight
  by_cases hnil : user = []
  · have hzero : fieldWeight (fun _ => 1) "user".toList [] = 0 := rfl
    rw [if_pos hnil, List.nil_append] at hread
    subst hnil
    exact ⟨rfl, rfl, last_of_setFields rfl TGrant.group (fun _ _ => rfl) entry
      { entry with user := [], group := group } group rfl hread (by omega)⟩
  · have huserWeight := fieldWeight_ne (fun _ => 1) hnil "user".toList
    rw [textWeight_one, textWeight_one] at huserWeight
    have hstrip : (stripTrailingWhitespace group).length ≤ group.length :=
      (List.rdropWhile_prefix isSpace group).length_le
    let tail : Str := "group".toList ++ '=' :: stripTrailingWhitespace group
    have htail : tail.length ≤ group.length + 6 := by
      simp [tail]
      omega
    have hsplit : "user".toList ++ '=' :: (user ++ [' ']) ++ tail =
        "user".toList ++ '=' :: (user ++ ' ' :: tail) := by simp
    rw [if_neg hnil, hsplit] at hread
    obtain ⟨hword, hvalue⟩ := bare_of_setFields rfl TGrant.user (fun _ _ => rfl) entry
      { entry with user := user, group := group } user rfl hread (by omega)
    have hassign : fieldName "user".toList = true := rfl
    have hpairs := pairs_word ['='] (assignment_word hassign hword).2 tail
    rw [assignment_pair hassign, readValue_eq hvalue, List.append_assoc, List.cons_append] at hpairs
    rw [hpairs, setFields_cons, setField_user] at hread
    have hset := weight_setField (fun _ => 1) entry "user".toList user
    have hpair := pairWeight_le (fun _ => 1) ("user".toList, user)
    rw [setField_user] at hset
    simp only [textWeight_one] at hpair
    exact ⟨hword, hvalue, last_of_setFields rfl TGrant.group (fun _ _ => rfl)
      { entry with user := user } { entry with user := user, group := group } group rfl hread
      (by omega)⟩

theorem lineTail_stripped (user group : Str) :
    (if group = [] then
        if user = [] then [] else ' ' :: ("user".toList ++ '=' :: stripTrailingWhitespace user)
      else (if user = [] then [] else ' ' :: ("user".toList ++ '=' :: user)) ++
        ' ' :: ("group".toList ++ '=' :: stripTrailingWhitespace group)).Sublist
      (lineTail user group) := by
  have hstrip (name value : Str) : (' ' :: (name ++ '=' :: stripTrailingWhitespace value)).Sublist
      (' ' :: (name ++ '=' :: value)) :=
    ((((List.rdropWhile_prefix isSpace value).sublist.cons_cons '=').append_left
      name).cons_cons ' ')
  unfold lineTail
  by_cases hgroup : group = []
  · rw [if_pos hgroup, if_pos hgroup, List.append_nil]
    by_cases huser : user = []
    · rw [if_pos huser, if_pos huser]
    · rw [if_neg huser, if_neg huser]
      exact hstrip _ _
  · rw [if_neg hgroup, if_neg hgroup]
    exact (hstrip _ _).append_left _

/-- A line that gives back its record shows each of its texts where it was written. -/
theorem readsBack_of_lineEntry (happPath : appPath ≠ []) (hsize : size < 2 ^ 63)
    (hread : lineEntry (grantLine grant user group appPath size hash) =
      some { type := grant, user := user, group := group, program := appPath,
             hash := some (hashText hash), size := size }) :
    ReadsBack grant user group appPath := by
  have hsame : sizeValue (decimal size) = size := sizeValue_decimal hsize
  rw [lineEntry_stripped, stripped_line, Option.some.injEq] at hread
  obtain ⟨hgrant, hprogram⟩ := quoted_of_line happPath (lineTail_stripped user group) hread
  let entry : TGrant :=
    { type := grant, program := appPath, size := size, hash := some (hashText hash) }
  have hweight := weight_userGroup user group (fun _ => 1) entry rfl rfl
  by_cases hgroup : group = []
  · subst hgroup
    by_cases huser : user = []
    · subst huser
      exact ⟨hgrant, hprogram, fun h => absurd rfl h, rfl, rfl, rfl, rfl, rfl⟩
    · have hcost := fieldWeight_ne (fun _ => 1) huser "user".toList
      rw [textWeight_one, textWeight_one] at hcost
      rw [if_pos rfl, if_neg huser, pairs_lineHead hgrant hprogram, hsame] at hread
      have hnil : fieldWeight (fun _ => 1) "group".toList [] = 0 := rfl
      obtain ⟨hlast, hvalue, htrim⟩ := last_of_setFields rfl TGrant.user (fun _ _ => rfl) entry
        { entry with user := user, group := [] } user rfl hread (by omega)
      exact ⟨hgrant, hprogram, fun h => absurd rfl h, hlast, hvalue, rfl, rfl,
        by rwa [List.append_nil]⟩
  · have htail : (if user = [] then [] else ' ' :: ("user".toList ++ '=' :: user)) ++
        ' ' :: ("group".toList ++ '=' :: stripTrailingWhitespace group) =
        ' ' :: ((if user = [] then [] else "user".toList ++ '=' :: (user ++ [' '])) ++
          ("group".toList ++ '=' :: stripTrailingWhitespace group)) := by
      split_ifs <;> simp
    rw [if_neg hgroup, htail, pairs_lineHead hgrant hprogram, hsame] at hread
    obtain ⟨hword, huser, hlast, hvalue, htrim⟩ :=
      userGroup_of_setFields entry rfl rfl hread hgroup
    exact ⟨hgrant, hprogram, fun _ => hword, unbroken_of_wordFrom hword, huser, hlast, hvalue,
      stripTrailingWhitespace_append hgroup htrim⟩

theorem lineEntry_grantLine_iff (happPath : appPath ≠ []) (hsize : size < 2 ^ 63) :
    lineEntry (grantLine grant user group appPath size hash) =
        some { type := grant, user := user, group := group, program := appPath,
               hash := some (hashText hash), size := size } ↔
      ReadsBack grant user group appPath :=
  ⟨readsBack_of_lineEntry happPath hsize, fun h => lineEntry_grantLine h hsize hash⟩

end Line

end Invocation
