import Invocation.AppDBLine
import Invocation.ServerSafety

/-!
# Options of a run entry

What `RunCommand` collects from the options of an entry is an option string
that `ProcessApplyConfig` takes apart again. An option is written bare or
between quotes; its value holds neither quotes nor backslashes.
-/

namespace Invocation

set_option autoImplicit false

/-- The pairs `ProcessApplyConfig` reads from an option string. -/
def configPairs (config : Str) : List (Str × Str) := pairs spaceSeparator ['='] config

inductive RunOption
  | pty
  | assign (name value : Str) (quote : Option Char)
deriving DecidableEq

/-- A character of an option that neither separates nor quotes. -/
def optionChar (c : Char) : Bool := plainChar (sepChar .space) c && !isSpace c && c != '='

def valueChar (c : Char) : Bool := c != '\\' && !isQuote c

namespace RunOption

def text : RunOption → Str
  | .pty => "pty".toList
  | .assign name value none => name ++ '=' :: value
  | .assign name value (some q) => name ++ '=' :: q :: (value ++ [q])

/-- A plain name, and a value that is quoted when it has blanks. -/
def WellFormed : RunOption → Prop
  | .pty => True
  | .assign name value quote =>
    name ≠ [] ∧ name ≠ "pty".toList ∧ name.all optionChar = true ∧ value.all valueChar = true ∧
      match quote with
      | none => value.all (fun c => !isSpace c) = true
      | some q => isQuote q = true

instance : (o : RunOption) → Decidable o.WellFormed
  | .pty => isTrue trivial
  | .assign _ _ none => inferInstanceAs (Decidable (_ ∧ _ ∧ _ ∧ _ ∧ _))
  | .assign _ _ (some _) => inferInstanceAs (Decidable (_ ∧ _ ∧ _ ∧ _ ∧ _))

def piece : RunOption → Str
  | .pty => "pty ".toList
  | .assign name value _ =>
    if name = "expect".toList then []
    else if name = "timeout".toList then []
    else if name = "capabilities".toList then value
    else if name = "caps".toList then "capabilities='".toList ++ value ++ "' ".toList
    else name ++ "='".toList ++ value ++ "' ".toList

def pair? : RunOption → Option (Str × Str)
  | .pty => some ("pty".toList, [])
  | .assign name value _ =>
    if name = "expect".toList ∨ name = "timeout".toList then none
    else if name = "caps".toList then some ("capabilities".toList, value)
    else some (name, value)

def IsCapabilities : RunOption → Prop
  | .pty => False
  | .assign name _ _ => name = "capabilities".toList

instance : (o : RunOption) → Decidable o.IsCapabilities
  | .pty => isFalse id
  | .assign _ _ _ => inferInstanceAs (Decidable (_ = _))

end RunOption

def Gap : Str → Prop
  | [] => False
  | c :: more => sepBlank c ∧ ∀ x ∈ more, isSpace x = true

instance : (gap : Str) → Decidable (Gap gap)
  | [] => isFalse id
  | _ :: _ => inferInstanceAs (Decidable (_ ∧ _))

theorem Gap.exists_cons {gap : Str} (h : Gap gap) :
    ∃ c more, gap = c :: more ∧ sepBlank c ∧ ∀ x ∈ more, isSpace x = true := by
  cases gap with
  | nil => exact h.elim
  | cons c more => exact ⟨c, more, rfl, h⟩

def optionsText (options : List (Str × RunOption)) : Str := options.flatMap fun o => o.1 ++ o.2.text

def entryText (command : Str) (options : List (Str × RunOption)) : Str :=
  command ++ optionsText options

/-! ## Words between blanks -/

section Words

variable {w : Str} (hw : wordFrom (sepChar .space) none w = true)
include hw

theorem getToken_spaceWord (strip : Bool) {c : Char} (hc : sepBlank c) (r : Str) :
    getToken (w ++ c :: r) spaceSeparator (wordFlags strip) =
      (wordToken strip w, some (r.dropWhile isSpace)) := by
  have h1 : c ≠ '\\' := by
    rintro rfl
    exact absurd hc (by decide)
  have h2 : isQuote c = false := by
    rcases hc with rfl | rfl | rfl | rfl <;> decide
  have h3 : sepChar .space c = true := decide_eq_true hc
  have hsep : spaceSeparator ≠ [] := by decide
  have hitem : sepItems spaceSeparator = [.space] := rfl
  have h := getToken_word strip r hsep hitem hw h1 h2 h3
  rw [h, sepEnd, if_pos hc]
  intro _ hlit
  cases hlit

theorem getToken_lastSpaceWord (strip : Bool) (hne : w ≠ []) :
    getToken w spaceSeparator (wordFlags strip) = (wordToken strip w, some []) :=
  getToken_lastWord strip (by decide) rfl hw hne

theorem tokens_spaceWord {c : Char} (hc : sepBlank c) (r : Str) :
    tokens spaceSeparator .honor (w ++ c :: r) =
      w :: tokens spaceSeparator .honor (r.dropWhile isSpace) := by
  have hnext : nextToken spaceSeparator .honor (w ++ c :: r) = some (w, r.dropWhile isSpace) := by
    have h := getToken_spaceWord hw false hc r
    unfold nextToken
    rw [show TokenFlags.honor = wordFlags false from rfl, h]
    rfl
  exact Scan.unfold_some (nextToken_shrinks _ _) hnext

theorem tokens_lastSpaceWord (hne : w ≠ []) : tokens spaceSeparator .honor w = [w] := by
  have hnext : nextToken spaceSeparator .honor w = some (w, []) := by
    have h := getToken_lastSpaceWord hw false hne
    unfold nextToken
    rw [show TokenFlags.honor = wordFlags false from rfl, h]
    rfl
  exact Scan.unfold_some (nextToken_shrinks _ _) hnext

theorem configPairs_spaceWord (r : Str) : configPairs (w ++ ' ' :: r) =
    splitNameValue (dequote w) ['='] :: configPairs (r.dropWhile isSpace) := by
  have hnext : nextPair spaceSeparator ['='] (w ++ ' ' :: r) =
      some (splitNameValue (dequote w) ['='], r.dropWhile isSpace) := by
    have h := getToken_spaceWord hw true (Or.inl rfl) r
    unfold nextPair getNameValuePair
    rw [show TokenFlags.quotes = wordFlags true from rfl, h]
    rfl
  exact Scan.unfold_some (nextPair_shrinks _ _) hnext

end Words

/-! ## One option -/

theorem optionChar_iff (c : Char) : optionChar c = true ↔
    plainChar (sepChar .space) c = true ∧ isSpace c = false ∧ c ≠ '=' := by
  simp [optionChar, and_assoc]

theorem optionChar_plain {name : Str} (h : name.all optionChar = true) :
    name.all (plainChar (sepChar .space)) = true := by
  rw [List.all_eq_true] at h ⊢
  intro c hc
  exact ((optionChar_iff c).mp (h c hc)).1

theorem optionChar_assign {name : Str} (h : name.all optionChar = true) :
    name.all (plainChar (sepChar (.lit '='))) = true := by
  rw [List.all_eq_true] at h ⊢
  intro c hc
  obtain ⟨hplain, _, hne⟩ := (optionChar_iff c).mp (h c hc)
  obtain ⟨h1, h2, _⟩ := (plainChar_iff _ c).mp hplain
  refine (plainChar_iff _ c).mpr ⟨h1, h2, ?_⟩
  exact decide_eq_false (Ne.symm hne)

theorem wordFrom_quotedValue {sep : Char → Bool} {q : Char} (hq : isQuote q = true) {value : Str}
    (hvalue : value.all valueChar = true) (r : Str) :
    wordFrom sep (some q) (value ++ q :: r) = wordFrom sep none r := by
  apply wordFrom_inside
  intro c hc
  have hchar := List.all_eq_true.mp hvalue c hc
  simp only [valueChar, Bool.and_eq_true, bne_iff_ne, ne_eq, Bool.not_eq_true'] at hchar
  refine ⟨?_, hchar.1⟩
  rintro rfl
  rw [hq] at hchar
  cases hchar.2

theorem stripQuotes_bare {value : Str} (h : value.all valueChar = true) :
    stripQuotes value = value := by
  apply stripQuotes_unquoted
  intro c hc
  have hchar := List.all_eq_true.mp h c hc
  simp only [valueChar, Bool.and_eq_true, Bool.not_eq_true'] at hchar
  exact hchar.2

theorem stripQuotes_between {q : Char} (hq : isQuote q = true) (value : Str) :
    stripQuotes (q :: (value ++ [q])) = value := stripQuotes_enclosed hq value

section Assign

variable {name value : Str} (hne : name ≠ []) (hname : name.all optionChar = true)
include hne hname

theorem dequote_assign (s : Str) : dequote (name ++ s) = name ++ s :=
  dequote_plain hne (optionChar_plain hname) s

theorem splitNameValue_quoted {q : Char} (hq : isQuote q = true) :
    splitNameValue (name ++ '=' :: q :: (value ++ [q])) ['='] = (name, value) := by
  rw [splitNameValue_assign hne (optionChar_assign hname), readValue,
    if_neg (List.cons_ne_nil _ _), stripQuotes_between hq]

theorem splitNameValue_bare (hvalue : value.all valueChar = true) :
    splitNameValue (name ++ '=' :: value) ['='] = (name, value) := by
  rw [splitNameValue_assign hne (optionChar_assign hname), readValue, stripQuotes_bare hvalue]
  by_cases h : value = []
  · rw [if_pos h, h]
  · rw [if_neg h]

omit hne in
theorem wordFrom_assign (s : Str) :
    wordFrom (sepChar .space) none (name ++ '=' :: s) = wordFrom (sepChar .space) none s := by
  rw [wordFrom_plain_append (optionChar_plain hname)]
  exact wordFrom_plain_append (p := ['=']) (by decide) s

omit hne in
theorem wordFrom_assign_quoted (hvalue : value.all valueChar = true) {q : Char}
    (hq : isQuote q = true) :
    wordFrom (sepChar .space) none (name ++ '=' :: q :: (value ++ [q])) = true := by
  rw [wordFrom_assign hname, wordFrom_quote hq, wordFrom_quotedValue hq hvalue]
  rfl

end Assign

namespace RunOption

variable {o : RunOption} (h : o.WellFormed)
include h

theorem text_word : wordFrom (sepChar .space) none o.text = true := by
  cases o with
  | pty => decide +kernel
  | assign name value quote =>
    obtain ⟨_, _, hname, hvalue, hquote⟩ := h
    cases quote with
    | none =>
      rw [text, wordFrom_assign hname]
      apply wordFrom_plain
      rw [List.all_eq_true] at hvalue hquote ⊢
      intro c hc
      have h1 := hvalue c hc
      have h2 := hquote c hc
      simp only [valueChar, Bool.and_eq_true, bne_iff_ne, ne_eq, Bool.not_eq_true'] at h1 h2
      refine (plainChar_iff _ c).mpr ⟨h1.1, h1.2, decide_eq_false ?_⟩
      rintro (rfl | rfl | rfl | rfl) <;> exact absurd h2 (by decide)
    | some q => exact wordFrom_assign_quoted hname hvalue hquote

theorem text_head : ∃ c t, o.text = c :: t ∧ isSpace c = false := by
  cases o with
  | pty => exact ⟨'p', "ty".toList, rfl, by decide⟩
  | assign name value quote =>
    obtain ⟨hne, _, hname, _⟩ := h
    obtain ⟨c, t, rfl⟩ := List.exists_cons_of_ne_nil hne
    have hc := ((optionChar_iff c).mp ((List.all_eq_true.mp hname) c List.mem_cons_self)).2.1
    cases quote with
    | none => exact ⟨c, _, rfl, hc⟩
    | some q => exact ⟨c, _, rfl, hc⟩

theorem nameValue {name value : Str} {quote : Option Char} (ho : o = .assign name value quote) :
    (getNameValuePair o.text spaceSeparator ['=']).1 = (name, value) := by
  have hword := getToken_lastSpaceWord (text_word h) true
    (by obtain ⟨c, t, htext, _⟩ := text_head h; rw [htext]; exact List.cons_ne_nil _ _)
  show splitNameValue (getToken o.text spaceSeparator (wordFlags true)).1 ['='] = (name, value)
  rw [hword]
  subst ho
  obtain ⟨hne, _, hname, hvalue, hquote⟩ := h
  show splitNameValue (dequote _) ['='] = (name, value)
  cases quote with
  | none =>
    rw [text, dequote_assign hne hname]
    exact splitNameValue_bare hne hname hvalue
  | some q =>
    rw [text, dequote_assign hne hname]
    exact splitNameValue_quoted hne hname hquote

theorem addToken_capabilities (r : SpawnRequest) :
    (r.addToken o.text).capabilities = r.capabilities ++ o.piece := by
  cases ho : o with
  | pty => rfl
  | assign name value quote =>
    have hpair := nameValue h ho
    rw [ho] at hpair
    have heq : '=' ∈ (RunOption.assign name value quote).text := by
      cases quote with
      | none => exact List.mem_append_right _ List.mem_cons_self
      | some q => exact List.mem_append_right _ List.mem_cons_self
    have hpty : name ≠ "pty".toList := by
      subst ho
      exact h.2.1
    unfold SpawnRequest.addToken piece
    rw [if_pos heq, hpair]
    dsimp only
    split_ifs <;> simp [List.append_assoc]

end RunOption

/-! ## Option lists -/

/-- Options that are written as documented, with blanks in front of each. -/
def WrittenOptions (options : List (Str × RunOption)) : Prop :=
  ∀ o ∈ options, Gap o.1 ∧ o.2.WellFormed

instance (options : List (Str × RunOption)) : Decidable (WrittenOptions options) :=
  inferInstanceAs (Decidable (∀ o ∈ options, _))

theorem dropWhile_head {s : Str} (hs : ∀ c t, s = c :: t → isSpace c = false) :
    s.dropWhile isSpace = s := by
  cases s with
  | nil => rfl
  | cons c t => exact List.dropWhile_cons_of_neg (by simp [hs c t rfl])

theorem dropWhile_gap {more : Str} (hmore : ∀ x ∈ more, isSpace x = true) {s : Str}
    (hs : ∀ c t, s = c :: t → isSpace c = false) : (more ++ s).dropWhile isSpace = s := by
  induction more with
  | nil => exact dropWhile_head hs
  | cons x more ih =>
    rw [List.cons_append, List.dropWhile_cons_of_pos (hmore x List.mem_cons_self)]
    exact ih fun y hy => hmore y (List.mem_cons_of_mem x hy)

theorem tokens_optionsText {options : List (Str × RunOption)} (h : WrittenOptions options) {w : Str}
    (hw : wordFrom (sepChar .space) none w = true) (hne : w ≠ []) :
    tokens spaceSeparator .honor (w ++ optionsText options) = w :: options.map (·.2.text) := by
  induction options generalizing w with
  | nil =>
    rw [optionsText, List.flatMap_nil, List.append_nil]
    exact tokens_lastSpaceWord hw hne
  | cons o options ih =>
    obtain ⟨hgap, hform⟩ := h o List.mem_cons_self
    obtain ⟨c, more, hgap, hc, hmore⟩ := hgap.exists_cons
    obtain ⟨d, t, htext, hd⟩ := RunOption.text_head hform
    have hrest : optionsText (o :: options) = c :: (more ++ (o.2.text ++ optionsText options)) := by
      rw [optionsText, List.flatMap_cons, hgap]
      simp [optionsText, List.append_assoc]
    rw [hrest, tokens_spaceWord hw hc, dropWhile_gap hmore]
    · rw [ih (fun x hx => h x (List.mem_cons_of_mem o hx)) (RunOption.text_word hform)
        (by rw [htext]; exact List.cons_ne_nil _ _)]
      rfl
    · intro x r hx
      rw [htext] at hx
      cases hx
      exact hd

theorem commandOptions_entryText {options : List (Str × RunOption)} (h : WrittenOptions options)
    {command : Str} (hcommand : wordFrom (sepChar .space) none command = true) :
    commandOptions (entryText command options) = options.map (·.2.text) := by
  cases options with
  | nil =>
    rw [entryText, optionsText, List.flatMap_nil, List.append_nil]
    by_cases hne : command = []
    · subst hne
      rfl
    · unfold commandOptions
      rw [show TokenFlags.quotes = wordFlags true from rfl,
        getToken_lastSpaceWord hcommand true hne]
      rfl
  | cons o options =>
    obtain ⟨hgap, hform⟩ := h o List.mem_cons_self
    obtain ⟨c, more, hgap, hc, hmore⟩ := hgap.exists_cons
    obtain ⟨d, t, htext, hd⟩ := RunOption.text_head hform
    have hrest : entryText command (o :: options) =
        command ++ c :: (more ++ (o.2.text ++ optionsText options)) := by
      rw [entryText, optionsText, List.flatMap_cons, hgap]
      simp [optionsText, List.append_assoc]
    unfold commandOptions
    rw [hrest, show TokenFlags.quotes = wordFlags true from rfl,
      getToken_spaceWord hcommand true hc]
    show tokens spaceSeparator .honor ((more ++ _).dropWhile isSpace) = _
    rw [dropWhile_gap hmore, tokens_optionsText (fun x hx => h x (List.mem_cons_of_mem o hx))
        (RunOption.text_word hform) (by rw [htext]; exact List.cons_ne_nil _ _)]
    · rfl
    · intro x r hx
      rw [htext] at hx
      cases hx
      exact hd

theorem ownConfig_entryText {options : List (Str × RunOption)} (h : WrittenOptions options)
    {command : Str} (hcommand : wordFrom (sepChar .space) none command = true) :
    ownConfig (entryText command options) = options.flatMap (·.2.piece) := by
  have hfold : ∀ r : SpawnRequest,
      ((options.map (·.2.text)).foldl SpawnRequest.addToken r).capabilities =
        r.capabilities ++ options.flatMap (·.2.piece) := by
    induction options with
    | nil => exact fun r => (List.append_nil _).symm
    | cons o options ih =>
      intro r
      rw [List.map_cons, List.foldl_cons,
        ih (fun x hx => h x (List.mem_cons_of_mem o hx)),
        RunOption.addToken_capabilities (h o List.mem_cons_self).2, List.flatMap_cons,
        List.append_assoc]
  rw [ownConfig, commandOptions_entryText h hcommand, hfold]
  rfl

/-- A word of an option string, and the pair it is read as. -/
def ReadAs (w : Str) (p : Str × Str) : Prop :=
  wordFrom (sepChar .space) none w = true ∧ splitNameValue (dequote w) ['='] = p ∧
    ∃ c t, w = c :: t ∧ isSpace c = false

theorem readAs_assign {name value : Str} (hne : name ≠ []) (hname : name.all optionChar = true)
    (hvalue : value.all valueChar = true) :
    ReadAs (name ++ '=' :: '\'' :: (value ++ ['\''])) (name, value) := by
  have hq : isQuote '\'' = true := by decide
  refine ⟨wordFrom_assign_quoted hname hvalue hq, ?_, ?_⟩
  · rw [dequote_assign hne hname, splitNameValue_quoted hne hname hq]
  · obtain ⟨c, t, rfl⟩ := List.exists_cons_of_ne_nil hne
    have hc := (List.all_eq_true.mp hname) c List.mem_cons_self
    exact ⟨c, _, rfl, ((optionChar_iff c).mp hc).2.1⟩

theorem assign_piece (name value : Str) : name ++ "='".toList ++ value ++ "' ".toList =
    (name ++ '=' :: '\'' :: (value ++ ['\''])) ++ [' '] := by
  simp

/-- A piece is empty or one word that is read as the option's pair, the raw list behind
`capabilities=` apart. -/
theorem RunOption.piece_cases {o : RunOption} (h : o.WellFormed) (hcap : ¬ o.IsCapabilities) :
    (o.piece = [] ∧ o.pair? = none) ∨
      ∃ w p, o.piece = w ++ [' '] ∧ o.pair? = some p ∧ ReadAs w p := by
  cases o with
  | pty =>
    have hpty : ReadAs "pty".toList ("pty".toList, []) :=
      ⟨by decide +kernel, by decide +kernel, 'p', "ty".toList, rfl, by decide⟩
    exact Or.inr ⟨_, _, rfl, rfl, hpty⟩
  | assign name value quote =>
    obtain ⟨hne, _, hname, hvalue, _⟩ := h
    have hnot : name ≠ "capabilities".toList := hcap
    rw [piece, pair?]
    by_cases hexpect : name = "expect".toList
    · exact Or.inl ⟨if_pos hexpect, if_pos (Or.inl hexpect)⟩
    · by_cases htimeout : name = "timeout".toList
      · rw [if_neg hexpect, if_pos htimeout, if_pos (Or.inr htimeout)]
        exact Or.inl ⟨rfl, rfl⟩
      · rw [if_neg hexpect, if_neg htimeout, if_neg hnot, if_neg (not_or.mpr ⟨hexpect, htimeout⟩)]
        by_cases hcaps : name = "caps".toList
        · rw [if_pos hcaps, if_pos hcaps]
          exact Or.inr ⟨_, _, assign_piece "capabilities".toList value, rfl,
            readAs_assign (by decide) (by decide +kernel) hvalue⟩
        · rw [if_neg hcaps, if_neg hcaps]
          exact Or.inr ⟨_, _, assign_piece name value, rfl, readAs_assign hne hname hvalue⟩

theorem configPairs_readAs {w : Str} {p : Str × Str} (h : ReadAs w p) {s : Str}
    (hs : ∀ c t, s = c :: t → isSpace c = false) :
    configPairs (w ++ [' '] ++ s) = p :: configPairs s := by
  obtain ⟨hword, hsplit, _⟩ := h
  rw [List.append_assoc, List.singleton_append, configPairs_spaceWord hword, hsplit,
    dropWhile_head hs]

/-- The options that `RunCommand` collects are those that `ProcessApplyConfig` reads. -/
theorem configPairs_pieces {options : List RunOption} (h : ∀ o ∈ options, o.WellFormed)
    (hcap : ∀ o ∈ options, ¬ o.IsCapabilities) :
    configPairs (options.flatMap RunOption.piece) = options.filterMap RunOption.pair? ∧
      ∀ c t, options.flatMap RunOption.piece = c :: t → isSpace c = false := by
  induction options with
  | nil => exact ⟨rfl, fun _ _ hc => nomatch hc⟩
  | cons o options ih =>
    obtain ⟨hread, hhead⟩ := ih (fun x hx => h x (List.mem_cons_of_mem o hx))
      (fun x hx => hcap x (List.mem_cons_of_mem o hx))
    rw [List.flatMap_cons, List.filterMap_cons]
    rcases RunOption.piece_cases (h o List.mem_cons_self) (hcap o List.mem_cons_self) with
      ⟨hpiece, hpair⟩ | ⟨w, p, hpiece, hpair, hw⟩
    · rw [hpiece, hpair]
      exact ⟨hread, hhead⟩
    · rw [hpiece, hpair]
      constructor
      · rw [configPairs_readAs hw hhead, hread]
      · intro c t hc
        obtain ⟨d, u, rfl, hd⟩ := hw.2.2
        cases hc
        exact hd

theorem flatMap_piece (options : List (Str × RunOption)) :
    options.flatMap (·.2.piece) = (options.map (·.2)).flatMap RunOption.piece := by
  rw [List.flatMap_map]

/-- The option string of an entry without `capabilities` is read as the options were written, and
does not start with a blank. -/
theorem configPairs_ownConfig {command : Str} {options : List (Str × RunOption)}
    (hcommand : wordFrom (sepChar .space) none command = true) (h : WrittenOptions options)
    (hcap : ∀ o ∈ options, ¬ o.2.IsCapabilities) :
    configPairs (ownConfig (entryText command options)) =
        (options.map (·.2)).filterMap RunOption.pair? ∧
      ∀ c t, ownConfig (entryText command options) = c :: t → isSpace c = false := by
  have hforms : ∀ o ∈ options.map (·.2), o.WellFormed := by
    intro o ho
    obtain ⟨p, hp, rfl⟩ := List.mem_map.mp ho
    exact (h p hp).2
  have hnots : ∀ o ∈ options.map (·.2), ¬ o.IsCapabilities := by
    intro o ho
    obtain ⟨p, hp, rfl⟩ := List.mem_map.mp ho
    exact hcap p hp
  rw [ownConfig_entryText h hcommand, flatMap_piece]
  exact configPairs_pieces hforms hnots

/-! The name of a capability list has a `b` that is missing from the option string. -/

def pairCount (p : Str × Str) : Nat := p.1.count 'b' + p.2.count 'b'

theorem RunOption.pair?_count (o : RunOption) :
    (o.pair?.toList.map pairCount).sum = o.piece.count 'b' + if o.IsCapabilities then 1 else 0 := by
  cases o with
  | pty => rfl
  | assign name value quote =>
    have hexpect : "expect".toList ≠ "capabilities".toList := by decide
    have htimeout : "timeout".toList ≠ "capabilities".toList := by decide
    have hcaps : "caps".toList ≠ "capabilities".toList := by decide
    have hcapabilities : "capabilities".toList.count 'b' = 1 := by decide
    have hlist : "capabilities='".toList.count 'b' = 1 := by decide
    have hopen : "='".toList.count 'b' = 0 := by decide
    have hclose : "' ".toList.count 'b' = 0 := by decide
    by_cases h3 : name = "capabilities".toList
    · have hcap : (assign name value quote).IsCapabilities := h3
      rw [if_pos hcap]
      subst h3
      simp only [pair?, piece, if_neg hexpect.symm, if_neg htimeout.symm, if_neg hcaps.symm,
        if_neg (not_or.mpr ⟨hexpect.symm, htimeout.symm⟩), if_true, Option.toList, List.map_cons,
        List.map_nil, List.sum_cons, List.sum_nil, pairCount, hcapabilities]
      omega
    · have hcap : ¬ (assign name value quote).IsCapabilities := h3
      rw [if_neg hcap, pair?, piece, if_neg h3]
      by_cases h1 : name = "expect".toList
      · simp [h1]
      · by_cases h2 : name = "timeout".toList
        · simp [h2]
        · by_cases h4 : name = "caps".toList
          · simp only [if_neg h1, if_neg h2, if_pos h4, if_neg (not_or.mpr ⟨h1, h2⟩),
              Option.toList, List.map_cons, List.map_nil, List.sum_cons, List.sum_nil, pairCount,
              List.count_append, hcapabilities, hlist, hclose]
            omega
          · simp only [if_neg h1, if_neg h2, if_neg h4, if_neg (not_or.mpr ⟨h1, h2⟩),
              Option.toList, List.map_cons, List.map_nil, List.sum_cons, List.sum_nil, pairCount,
              List.count_append, hopen, hclose]
            omega

theorem pairs_count_pieces (options : List RunOption) :
    ((options.filterMap RunOption.pair?).map pairCount).sum =
      (options.flatMap RunOption.piece).count 'b' +
        options.countP fun o => decide o.IsCapabilities := by
  induction options with
  | nil => rfl
  | cons o options ih =>
    have ho := RunOption.pair?_count o
    rw [List.flatMap_cons, List.count_append, List.countP_cons, List.filterMap_cons]
    cases hp : o.pair? with
    | none =>
      rw [hp] at ho
      simp only [Option.toList, List.map_nil, List.sum_nil] at ho
      simp only [ih, decide_eq_true_eq]
      omega
    | some p =>
      rw [hp] at ho
      simp only [Option.toList, List.map_cons, List.map_nil, List.sum_cons, List.sum_nil] at ho
      simp only [List.map_cons, List.sum_cons, ih, decide_eq_true_eq]
      omega

/-- The options of an entry reach the spawned process as they were written, through both loops of
`ProcessApplyConfig`, exactly when none of them is `capabilities`. -/
theorem run_options_intact_iff {command : Str} {options : List (Str × RunOption)}
    (hcommand : wordFrom (sepChar .space) none command = true) (h : WrittenOptions options) :
    (configPairs (ownConfig (entryText command options)) =
        (options.map (·.2)).filterMap RunOption.pair? ∧
      configPairs (stripLeadingWhitespace (ownConfig (entryText command options))) =
        (options.map (·.2)).filterMap RunOption.pair?) ↔
      ∀ o ∈ options, ¬ o.2.IsCapabilities := by
  constructor
  · rintro ⟨hread, -⟩ o ho hcap
    rw [ownConfig_entryText h hcommand, flatMap_piece, configPairs] at hread
    have hspace : spaceSeparator ≠ [] := by decide
    have hassign : ['='] ≠ [] := by decide
    have hle := pairs_count 'b' hspace hassign ((options.map (·.2)).flatMap RunOption.piece)
    have heq := pairs_count_pieces (options.map (·.2))
    have hpos : 0 < (options.map (·.2)).countP fun o => decide o.IsCapabilities := by
      apply List.countP_pos_iff.mpr
      exact ⟨o.2, List.mem_map_of_mem ho, decide_eq_true hcap⟩
    rw [hread] at hle
    unfold pairCount at heq
    omega
  · intro hcap
    obtain ⟨hread, hhead⟩ := configPairs_ownConfig hcommand h hcap
    refine ⟨hread, ?_⟩
    rw [stripLeadingWhitespace, dropWhile_head hhead]
    exact hread

def mountOptions : List (Str × RunOption) :=
  [(" ".toList, .assign "user".toList "nobody".toList none),
    (" ".toList, .assign "dir".toList "/mnt/usb stick".toList (some '"'))]

theorem run_options_intact_iff_mount :
    configPairs (ownConfig (entryText "/bin/mount".toList mountOptions)) =
        (mountOptions.map (·.2)).filterMap RunOption.pair? ∧
      configPairs
        (stripLeadingWhitespace (ownConfig (entryText "/bin/mount".toList mountOptions))) =
        (mountOptions.map (·.2)).filterMap RunOption.pair? :=
  (run_options_intact_iff (by decide +kernel) (by decide +kernel)).mpr (by decide +kernel)

/-- A capability list under its long name swallows the option behind it. -/
def capabilitiesOptions : List (Str × RunOption) :=
  [(" ".toList, .assign "capabilities".toList "net_raw".toList none),
    (" ".toList, .assign "user".toList "nobody".toList none)]

theorem capabilities_swallows_user :
    ¬ ∀ (command : Str) (options : List (Str × RunOption)),
      wordFrom (sepChar .space) none command = true → WrittenOptions options →
        configPairs (ownConfig (entryText command options)) =
          (options.map (·.2)).filterMap RunOption.pair? := by
  intro h
  have hpairs := h "/bin/ping".toList capabilitiesOptions (by decide +kernel) (by decide +kernel)
  revert hpairs
  decide +kernel

end Invocation
