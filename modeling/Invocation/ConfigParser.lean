import Invocation.Config
import Invocation.Words

/-!
# The configuration parser

`ParserConfigItems` and what it calls. One step takes one token off the text; a
block is read by a call of its own and added to its parent behind it.
-/

namespace Invocation

set_option autoImplicit false

def configFileTokens : Str := " |\t|#|=|:|;|\x7b|\x7d|\r|\n".toList

def configFlags : TokenFlags := { multiSep := true, includeSep := true, honorQuotes := true }

/-- The next token of a configuration and the pointer behind it. -/
def configToken (text : Str) : Str × Option Str := getToken text configFileTokens configFlags

/-- `ParserConfigCheckForBrace`: the text from the brace on. -/
def parserConfigCheckForBrace (data : Str) : Option Str :=
  let ptr := data.dropWhile isSpace
  if (configToken ptr).1 = ['{'] then some ptr else none

def stripWhitespace (s : Str) : Str := stripTrailingWhitespace (stripLeadingWhitespace s)

/-- The variables of `ParserConfigItems`, and what it has added to its parent. -/
structure ConfigState where
  name : Str := []
  value : Str := []
  prevToken : Str := []
  newKey : Bool := true
  items : List Node := []

/-- A tag is stored if it is not empty. -/
def tagOf (name : Str) : Option Str := if name = [] then none else some name

def parserAddValue (parent : List Node) (name value : Str) : List Node :=
  if name ≠ [] ∨ value ≠ [] then parent ++ [.value (tagOf name) value] else parent

/-- The tag that `ParserNewObject` gives to a node of the parent with the tag `parentTag`. -/
def parserObjectTag (parentTag : Str) (parent : List Node) (name : Str) : Str :=
  if name ≠ [] then name
  else if parentTag ≠ [] then parentTag ++ ":".toList ++ decimal parent.length
  else "item:".toList ++ decimal parent.length

/-- What a token does: the loop goes on, a block opens, or the loop ends. -/
inductive ConfigStep
  | next (s : ConfigState) (ptr : Option Str)
  | enter (name : Str) (s : ConfigState) (ptr : Option Str)
  | leave (s : ConfigState) (ptr : Option Str)

def ConfigState.blank (s : ConfigState) (token : Str) : ConfigState :=
  if s.newKey then { s with name := s.prevToken, value := [], newKey := false, prevToken := [] }
  else { s with value := s.value ++ token, prevToken := token }

def ConfigState.endLine (s : ConfigState) (token : Str) : ConfigState :=
  if s.value ≠ [] then
    { name := [], value := [], prevToken := [], newKey := true,
      items := parserAddValue s.items s.name (stripWhitespace s.value) }
  else { s with prevToken := token, newKey := true }

/-- The end of a line in front of a brace. -/
def ConfigState.toBrace (s : ConfigState) (token : Str) : ConfigState :=
  { s with name := s.name ++ " ".toList ++ s.prevToken, value := [], prevToken := token }

def ConfigState.opened (s : ConfigState) : ConfigState := { s with name := [], prevToken := [] }

def ConfigState.addBlock (s : ConfigState) (tag : Str) (items : List Node) : ConfigState :=
  { s with items := s.items ++ [.block (some tag) items] }

def ConfigState.append (s : ConfigState) (token : Str) : ConfigState :=
  { s with value := s.value ++ token, prevToken := token }

def skipSpace (ptr : Option Str) : Option Str := ptr.map fun text => text.dropWhile isSpace

def configStep (s : ConfigState) (text : Str) : ConfigStep :=
  let p := configToken text
  let token := p.1
  match token with
  | '#' :: _ =>
    let q := getToken (p.2.getD []) ['\n'] .none
    .next { s with prevToken := q.1 } q.2
  | '{' :: _ => .enter (stripWhitespace s.name) s.opened p.2
  | ' ' :: _ => .next (s.blank token) (skipSpace p.2)
  | '\t' :: _ => .next (s.blank token) (skipSpace p.2)
  | ':' :: _ => .next (s.blank token) (skipSpace p.2)
  | '=' :: _ => .next (s.blank token) (skipSpace p.2)
  | '\r' :: _ => .next { s with prevToken := token } p.2
  | '}' :: _ =>
    match parserConfigCheckForBrace (p.2.getD []) with
    | some ptr => .leave (s.toBrace token) (some ptr)
    | none => .leave (s.endLine token) (skipSpace p.2)
  | '\n' :: _ =>
    match parserConfigCheckForBrace (p.2.getD []) with
    | some ptr => .next (s.toBrace token) (some ptr)
    | none => .next (s.endLine token) (skipSpace p.2)
  | ';' :: _ => .next (s.endLine token) (skipSpace p.2)
  | _ => .next (s.append token) p.2

/-- `ParserConfigItems` for the parent with the tag `parentTag`: what it adds, and the pointer it
returns. -/
def parserConfigItems : Nat → Str → ConfigState → Option Str → List Node × Option Str
  | 0, _, s, ptr => (s.items, ptr)
  | _ + 1, _, s, none => (s.items, none)
  | n + 1, parentTag, s, some text =>
    match configStep s text with
    | .next s ptr => parserConfigItems n parentTag s ptr
    | .leave s ptr => (s.items, ptr)
    | .enter name s ptr =>
      let sub := parserConfigItems n name {} ptr
      parserConfigItems n parentTag
        (s.addBlock (parserObjectTag parentTag s.items name) sub.1) sub.2

def parserParseDocument (doc : Str) : List Node :=
  let ptr := doc.dropWhile isSpace
  let ptr := if ptr.head? = some '{' then ptr.tail else ptr
  let ptr := if ptr.head? = some '[' then ptr.tail else ptr
  (parserConfigItems (ptr.length + 1) [] {} (some ptr)).1

/-- `LoadConfig`: a file that does not open leaves the configuration as it was. -/
def loadConfig (config : List Node) (file : Option Str) : List Node :=
  match file with
  | some doc => parserParseDocument doc
  | none => config

/-! ## Tokens -/

def configChars : List Char := [' ', '\t', '#', '=', ':', ';', '{', '}', '\r', '\n']

def configSep (c : Char) : Bool := sepAny (configChars.map SepItem.lit) c

theorem configSep_iff (c : Char) : configSep c = true ↔ c ∈ configChars := by
  simp only [configSep, sepAny, List.any_map, List.any_eq_true, Function.comp, sepChar,
    decide_eq_true_eq, exists_eq_right]

theorem configSeps_eq : (buildMultiSeparators configFileTokens).map sepItems =
    (configChars.map SepItem.lit).map ([·]) := by
  decide +kernel

theorem configToken_eq (c : Char) (s : Str) : configToken (c :: s) =
    match getTokenMultiSepMatch configFlags ((configChars.map SepItem.lit).map ([·])) (c :: s) with
    | some (sepStart, sepEnd) => getTokenPostProcess configFlags (c :: s) sepStart sepEnd
    | none => (c :: s, some []) := by
  rw [← configSeps_eq]
  rfl

theorem match_separator {c : Char} (hc : c ∈ configChars) (s : Str) :
    getTokenMultiSepMatch configFlags ((configChars.map SepItem.lit).map ([·])) (c :: s) =
      some (c :: s, s) := by
  obtain ⟨before, after, hsplit, hbefore⟩ := List.eq_append_cons_of_mem hc
  have hplain : ∀ d ∈ configChars, isQuote d = false ∧ d ≠ '\\' := by decide
  have hfirst : sepAny (before.map SepItem.lit) c = false := by
    rw [Bool.eq_false_iff]
    intro h
    simp only [sepAny, List.any_map, List.any_eq_true, Function.comp, sepChar, decide_eq_true_eq,
      exists_eq_right] at h
    exact hbefore h
  have hself : sepChar (.lit c) c = true := decide_eq_true rfl
  rw [hsplit, List.map_append, List.map_cons]
  apply Scan.find_stop
  exact multiSepStep_separator (after.map SepItem.lit) (Or.inl (hplain c hc).1) (hplain c hc).2
    hfirst hself s

theorem configToken_separator {c : Char} (hc : c ∈ configChars) (s : Str) :
    configToken (c :: s) = ([c], some s) := by
  rw [configToken_eq, match_separator hc]
  simp [getTokenPostProcess, configFlags]

/-- A separator or the end of the text stands at the pointer. -/
def AtSeparator (r : Str) : Prop := ∀ c, r.head? = some c → c ∈ configChars

/-- The parser takes a word off in one piece. -/
def ConfigWord (w : Str) : Prop := w ≠ [] ∧ wordFrom configSep none w = true

theorem configToken_word {w r : Str} (hw : ConfigWord w) (hr : AtSeparator r) :
    configToken (w ++ r) = (w, some r) := by
  obtain ⟨hne, hword⟩ := hw
  have hfind :
      getTokenMultiSepMatch configFlags ((configChars.map SepItem.lit).map ([·])) (w ++ r) =
      getTokenMultiSepMatch configFlags ((configChars.map SepItem.lit).map ([·])) r :=
    getTokenMultiSepMatch_word rfl (configChars.map SepItem.lit) rfl r none w hword
  obtain ⟨c, s, hs⟩ := List.exists_cons_of_ne_nil (l := w ++ r) (by simp [hne])
  rw [hs, configToken_eq, ← hs, hfind]
  cases r with
  | nil => simp [getTokenMultiSepMatch]
  | cons d t =>
    rw [match_separator (hr d rfl)]
    simp [getTokenPostProcess, configFlags, hne]

theorem configToken_take (text : Str) : ∃ n, (configToken text).1 = text.take n := by
  cases text with
  | nil => exact ⟨0, rfl⟩
  | cons c s =>
    rw [configToken_eq]
    cases getTokenMultiSepMatch configFlags ((configChars.map SepItem.lit).map ([·])) (c :: s) with
    | none => exact ⟨(c :: s).length, List.take_length.symm⟩
    | some p =>
      simp only [getTokenPostProcess, configFlags, if_true, Bool.false_eq_true, if_false]
      split <;> exact ⟨_, rfl⟩

theorem configWord_head {w : Str} (hw : ConfigWord w) : ∃ c t, w = c :: t ∧ c ∉ configChars := by
  obtain ⟨hne, hword⟩ := hw
  obtain ⟨c, t, rfl⟩ := List.exists_cons_of_ne_nil hne
  refine ⟨c, t, rfl, ?_⟩
  intro hc
  have hplain : ∀ d ∈ configChars, isQuote d = false ∧ d ≠ '\\' := by decide
  rw [wordFrom.eq_def] at hword
  simp only [if_neg (hplain c hc).2, (hplain c hc).1, (configSep_iff c).mpr hc, Bool.not_true,
    Bool.false_and, Bool.false_eq_true, if_false] at hword

theorem checkForBrace_some {data r : Str} (h : data.dropWhile isSpace = '{' :: r) :
    parserConfigCheckForBrace data = some ('{' :: r) := by
  have hc : '{' ∈ configChars := by decide
  simp only [parserConfigCheckForBrace, h, configToken_separator hc, if_true]

theorem checkForBrace_none {data : Str} (h : (data.dropWhile isSpace).head? ≠ some '{') :
    parserConfigCheckForBrace data = none := by
  apply if_neg
  intro htoken
  obtain ⟨n, hn⟩ := configToken_take (data.dropWhile isSpace)
  rw [hn] at htoken
  apply h
  cases hdata : data.dropWhile isSpace with
  | nil =>
    rw [hdata, List.take_nil] at htoken
    cases htoken
  | cons c t =>
    rw [hdata] at htoken
    cases n with
    | zero => cases htoken
    | succ n =>
      rw [List.take_succ_cons, List.cons.injEq] at htoken
      rw [htoken.1]
      rfl

/-! ## Steps -/

section Steps

variable (s : ConfigState)

theorem configStep_comment {c : Str} (hc : '\n' ∉ c) (r : Str) :
    configStep s ('#' :: c ++ '\n' :: r) = .next { s with prevToken := c } (some r) := by
  have hmem : '#' ∈ configChars := by decide
  have hline : getToken (c ++ '\n' :: r) ['\n'] .none = (c, some r) := by
    have hpass : ∀ a ∈ c, decide (a ≠ '\n') = true := by
      intro a ha
      rw [decide_eq_true_eq]
      rintro rfl
      exact hc ha
    have hdrop : (c ++ '\n' :: r).dropWhile (· ≠ '\n') = '\n' :: r := by
      rw [List.dropWhile_append_of_pos hpass]
      rfl
    have htake : (c ++ '\n' :: r).takeWhile (· ≠ '\n') = c := by
      rw [List.takeWhile_append_of_pos hpass]
      exact List.append_nil c
    obtain ⟨a, t, hs⟩ := List.exists_cons_of_ne_nil (l := c ++ '\n' :: r) (by simp)
    have hsimple : getToken (c ++ '\n' :: r) ['\n'] .none =
        getTokenSimple .none '\n' (c ++ '\n' :: r) := by
      rw [hs]
      rfl
    rw [hsimple, getTokenSimple, hdrop, htake]
    rfl
  rw [configStep, List.cons_append, configToken_separator hmem]
  simp only [Option.getD_some, hline]

theorem configStep_open (r : Str) : configStep s ('{' :: r) =
    .enter (stripWhitespace s.name) s.opened (some r) := by
  rw [configStep, configToken_separator (by decide)]
  rfl

/-- The characters between the words of a line. -/
def lineSeps : List Char := [' ', '\t', ':', '=']

theorem configStep_blank {c : Char} (hc : c ∈ lineSeps) (r : Str) :
    configStep s (c :: r) = .next (s.blank [c]) (some (r.dropWhile isSpace)) := by
  have hmem : ∀ d ∈ lineSeps, d ∈ configChars := by decide
  rw [configStep, configToken_separator (hmem c hc)]
  simp only [lineSeps, List.mem_cons, List.not_mem_nil, or_false] at hc
  rcases hc with rfl | rfl | rfl | rfl <;> rfl

theorem configStep_line {r : Str} (h : (r.dropWhile isSpace).head? ≠ some '{') :
    configStep s ('\n' :: r) = .next (s.endLine ['\n']) (some (r.dropWhile isSpace)) := by
  rw [configStep, configToken_separator (by decide)]
  simp only [Option.getD_some, checkForBrace_none h]
  rfl

theorem configStep_lineBrace {r t : Str} (h : r.dropWhile isSpace = '{' :: t) :
    configStep s ('\n' :: r) = .next (s.toBrace ['\n']) (some ('{' :: t)) := by
  rw [configStep, configToken_separator (by decide)]
  simp only [Option.getD_some, checkForBrace_some h]

theorem configStep_close {r : Str} (h : (r.dropWhile isSpace).head? ≠ some '{') :
    configStep s ('}' :: r) = .leave (s.endLine ['}']) (some (r.dropWhile isSpace)) := by
  rw [configStep, configToken_separator (by decide)]
  simp only [Option.getD_some, checkForBrace_none h]
  rfl

theorem configStep_word {w r : Str} (hw : ConfigWord w) (hr : AtSeparator r) :
    configStep s (w ++ r) = .next (s.append w) (some r) := by
  rw [configStep, configToken_word hw hr]
  obtain ⟨c, t, rfl, hc⟩ := configWord_head hw
  dsimp only
  split
  all_goals first
    | rfl
    | (rename_i h; rw [List.cons.injEq] at h; rw [h.1] at hc; exact absurd (by decide) hc)

end Steps

/-! ## The loop -/

/-- The pointer `ptr` is not behind a text of this length. -/
def Within (ptr : Option Str) (n : Nat) : Prop := ∀ r, ptr = some r → r.length ≤ n

theorem Within.mono {ptr : Option Str} {n m : Nat} (h : Within ptr n) (hle : n ≤ m) :
    Within ptr m := fun r hr => Nat.le_trans (h r hr) hle

/-- What a step can do to the state, with at most `n` characters left behind it. -/
inductive Moves (s : ConfigState) (n : Nat) : ConfigStep → Prop
  | note {ptr : Option Str} (token : Str) : Within ptr n →
    Moves s n (.next { s with prevToken := token } ptr)
  | enter {ptr : Option Str} : Within ptr n →
    Moves s n (.enter (stripWhitespace s.name) s.opened ptr)
  | blank {ptr : Option Str} (token : Str) : Within ptr n → Moves s n (.next (s.blank token) ptr)
  | toBrace {r : Str} (token : Str) : r.length ≤ n → (configToken r).1 = ['{'] →
    Moves s n (.next (s.toBrace token) (some r))
  | leaveBrace {ptr : Option Str} (token : Str) : Within ptr n →
    Moves s n (.leave (s.toBrace token) ptr)
  | endLine {ptr : Option Str} (token : Str) : Within ptr n →
    Moves s n (.next (s.endLine token) ptr)
  | leaveLine {ptr : Option Str} (token : Str) : Within ptr n →
    Moves s n (.leave (s.endLine token) ptr)
  | append {ptr : Option Str} (token : Str) : Within ptr n → Moves s n (.next (s.append token) ptr)

theorem checkForBrace_spec {data r : Str} (h : parserConfigCheckForBrace data = some r) :
    r.length ≤ data.length ∧ (configToken r).1 = ['{'] := by
  unfold parserConfigCheckForBrace at h
  dsimp only at h
  split at h
  · rename_i htoken
    cases h
    exact ⟨List.length_dropWhile_le isSpace data, htoken⟩
  · cases h

theorem configStep_moves (s : ConfigState) (c : Char) (text : Str) :
    Moves s text.length (configStep s (c :: text)) := by
  have hrest : Within (configToken (c :: text)).2 text.length := by
    intro r hr
    have hlt := getToken_shrinks _ _ _ hr
    rw [List.length_cons] at hlt
    omega
  unfold configStep
  generalize configToken (c :: text) = p at hrest ⊢
  have hskip : Within (skipSpace p.2) text.length := by
    intro r hr
    obtain ⟨t, ht, rfl⟩ := Option.map_eq_some_iff.mp hr
    exact Nat.le_trans (List.length_dropWhile_le isSpace t) (hrest t ht)
  have hgetD : (p.2.getD []).length ≤ text.length := by
    cases hp : p.2 with
    | none => exact Nat.zero_le _
    | some r => exact hrest r hp
  have hbrace {r : Str} (hr : parserConfigCheckForBrace (p.2.getD []) = some r) :
      Within (some r) text.length := by
    rintro _ ⟨⟩
    exact Nat.le_trans (checkForBrace_spec hr).1 hgetD
  have hcomment : Within (getToken (p.2.getD []) ['\n'] .none).2 text.length := by
    intro r hr
    have hlt := getToken_shrinks _ _ _ hr
    omega
  dsimp only
  split
  · exact .note _ hcomment
  · exact .enter hrest
  · exact .blank _ hskip
  · exact .blank _ hskip
  · exact .blank _ hskip
  · exact .blank _ hskip
  · exact .note _ hrest
  · split
    · rename_i hr
      exact .leaveBrace _ (hbrace hr)
    · exact .leaveLine _ hskip
  · split
    · rename_i r hr
      exact .toBrace _ (hbrace hr r rfl) (checkForBrace_spec hr).2
    · exact .endLine _ hskip
  · exact .endLine _ hskip
  · exact .append _ hrest

theorem configStep_end (s : ConfigState) : configStep s [] = .next (s.append []) none := rfl

theorem parserConfigItems_none (n : Nat) (parentTag : Str) (s : ConfigState) :
    parserConfigItems n parentTag s none = (s.items, none) := by
  cases n <;> rfl

theorem parserConfigItems_within (n : Nat) (parentTag : Str) (s : ConfigState) {ptr : Option Str}
    {m : Nat} (h : Within ptr m) : Within (parserConfigItems n parentTag s ptr).2 m := by
  induction n generalizing parentTag s ptr m with
  | zero => exact h
  | succ n ih =>
    cases ptr with
    | none => exact nofun
    | some text =>
      cases text with
      | nil =>
        rw [parserConfigItems, configStep_end]
        dsimp only
        exact ih _ _ nofun
      | cons c text =>
        have hle : text.length ≤ m := by
          have hm := h _ rfl
          rw [List.length_cons] at hm
          omega
        have hmoves := configStep_moves s c text
        rw [parserConfigItems]
        generalize configStep s (c :: text) = step at hmoves
        cases hmoves with
        | note _ hptr => exact ih _ _ (hptr.mono hle)
        | enter hptr => exact ih _ _ (ih _ _ (hptr.mono hle))
        | blank _ hptr => exact ih _ _ (hptr.mono hle)
        | toBrace _ hlen _ =>
          refine ih _ _ ?_
          rintro _ ⟨⟩
          exact Nat.le_trans hlen hle
        | leaveBrace _ hptr => exact hptr.mono hle
        | endLine _ hptr => exact ih _ _ (hptr.mono hle)
        | leaveLine _ hptr => exact hptr.mono hle
        | append _ hptr => exact ih _ _ (hptr.mono hle)

/-- Fuel beyond the length of the text makes no difference. -/
theorem parserConfigItems_stable (n m : Nat) (parentTag : Str) (s : ConfigState) {ptr : Option Str}
    (hn : ∀ r, ptr = some r → r.length < n) (hm : ∀ r, ptr = some r → r.length < m) :
    parserConfigItems n parentTag s ptr = parserConfigItems m parentTag s ptr := by
  induction n generalizing m parentTag s ptr with
  | zero =>
    cases ptr with
    | none => rw [parserConfigItems_none, parserConfigItems_none]
    | some text => exact absurd (hn _ rfl) (Nat.not_lt_zero _)
  | succ n ih =>
    cases ptr with
    | none => rw [parserConfigItems_none, parserConfigItems_none]
    | some text =>
      cases m with
      | zero => exact absurd (hm _ rfl) (Nat.not_lt_zero _)
      | succ m =>
        rw [parserConfigItems, parserConfigItems]
        cases text with
        | nil =>
          rw [configStep_end]
          exact ih m parentTag _ nofun nofun
        | cons c text =>
          have hn' := hn _ rfl
          have hm' := hm _ rfl
          rw [List.length_cons] at hn' hm'
          have hmoves := configStep_moves s c text
          have hsame {parentTag : Str} {s : ConfigState} {ptr : Option Str}
              (hptr : Within ptr text.length) :
              parserConfigItems n parentTag s ptr = parserConfigItems m parentTag s ptr := by
            apply ih
            · intro r hr
              have hle := hptr r hr
              omega
            · intro r hr
              have hle := hptr r hr
              omega
          generalize configStep s (c :: text) = step at hmoves
          cases hmoves with
          | note _ hptr => exact hsame hptr
          | enter hptr =>
            dsimp only
            rw [hsame hptr]
            exact hsame (parserConfigItems_within m _ _ hptr)
          | blank _ hptr => exact hsame hptr
          | toBrace _ hlen _ =>
            refine hsame ?_
            rintro _ ⟨⟩
            exact hlen
          | leaveBrace _ hptr => rfl
          | endLine _ hptr => exact hsame hptr
          | leaveLine _ hptr => rfl
          | append _ hptr => exact hsame hptr

/-- `ParserConfigItems` from a state on, with enough fuel. -/
def parseFrom (parentTag : Str) (s : ConfigState) (ptr : Option Str) : List Node × Option Str :=
  parserConfigItems ((ptr.getD []).length + 1) parentTag s ptr

theorem parserConfigItems_eq {n : Nat} {ptr : Option Str} (h : Within ptr n) (parentTag : Str)
    (s : ConfigState) : parserConfigItems (n + 1) parentTag s ptr = parseFrom parentTag s ptr := by
  apply parserConfigItems_stable
  · intro r hr
    have hle := h r hr
    omega
  · rintro r rfl
    exact Nat.lt_succ_self _

section Loop

variable {parentTag : Str} {s s' : ConfigState} {c : Char} {text : Str} {ptr : Option Str}

@[simp] theorem parseFrom_none : parseFrom parentTag s none = (s.items, none) := rfl

@[simp] theorem parseFrom_nil : parseFrom parentTag s (some []) = (s.items, none) := rfl

theorem parseFrom_next (h : configStep s (c :: text) = .next s' ptr) :
    parseFrom parentTag s (some (c :: text)) = parseFrom parentTag s' ptr := by
  have hmoves := configStep_moves s c text
  rw [h] at hmoves
  have hptr : Within ptr text.length := by
    cases hmoves with
    | toBrace _ hlen _ =>
      rintro _ ⟨⟩
      exact hlen
    | note _ hptr => exact hptr
    | blank _ hptr => exact hptr
    | endLine _ hptr => exact hptr
    | append _ hptr => exact hptr
  have hunfold : parseFrom parentTag s (some (c :: text)) =
      parserConfigItems (text.length + 1) parentTag s' ptr := by
    show parserConfigItems (text.length + 1 + 1) parentTag s (some (c :: text)) = _
    rw [parserConfigItems, h]
  rw [hunfold, parserConfigItems_eq hptr]

theorem parseFrom_leave (h : configStep s (c :: text) = .leave s' ptr) :
    parseFrom parentTag s (some (c :: text)) = (s'.items, ptr) := by
  show parserConfigItems (text.length + 1 + 1) parentTag s (some (c :: text)) = _
  rw [parserConfigItems, h]

theorem parseFrom_enter {name : Str} (h : configStep s (c :: text) = .enter name s' ptr) :
    parseFrom parentTag s (some (c :: text)) =
      parseFrom parentTag
        (s'.addBlock (parserObjectTag parentTag s'.items name) (parseFrom name {} ptr).1)
        (parseFrom name {} ptr).2 := by
  have hmoves := configStep_moves s c text
  rw [h] at hmoves
  have hptr : Within ptr text.length := by cases hmoves; assumption
  have hsub := parserConfigItems_eq hptr name {}
  have hunfold : parseFrom parentTag s (some (c :: text)) =
      parserConfigItems (text.length + 1) parentTag
        (s'.addBlock (parserObjectTag parentTag s'.items name)
          (parserConfigItems (text.length + 1) name {} ptr).1)
        (parserConfigItems (text.length + 1) name {} ptr).2 := by
    show parserConfigItems (text.length + 1 + 1) parentTag s (some (c :: text)) = _
    rw [parserConfigItems, h]
  rw [hunfold, hsub]
  apply parserConfigItems_eq
  exact parserConfigItems_within _ _ _ hptr

theorem configStep_brace (h : (configToken text).1 = ['{']) : configStep s text =
    .enter (stripWhitespace s.name) s.opened (configToken text).2 := by
  rw [configStep, h]
  rfl

theorem endLine_grows (s : ConfigState) (token : Str) : s.items <+: (s.endLine token).items := by
  unfold ConfigState.endLine parserAddValue
  split
  · dsimp only
    split
    · exact List.prefix_append _ _
    · exact List.prefix_rfl
  · exact List.prefix_rfl

theorem blank_items (s : ConfigState) (token : Str) : (s.blank token).items = s.items := by
  unfold ConfigState.blank
  split <;> rfl

theorem parserConfigItems_grows (n : Nat) (parentTag : Str) (s : ConfigState) (ptr : Option Str) :
    s.items <+: (parserConfigItems n parentTag s ptr).1 := by
  induction n generalizing parentTag s ptr with
  | zero => exact List.prefix_rfl
  | succ n ih =>
    cases ptr with
    | none => exact List.prefix_rfl
    | some text =>
      cases text with
      | nil =>
        rw [parserConfigItems, configStep_end]
        exact ih parentTag (s.append []) none
      | cons c text =>
        have hmoves := configStep_moves s c text
        rw [parserConfigItems]
        generalize configStep s (c :: text) = step at hmoves
        cases hmoves with
        | @note ptr token _ => exact ih parentTag { s with prevToken := token } ptr
        | @enter ptr _ =>
            exact (List.prefix_append _ _).trans (ih parentTag (s.opened.addBlock _ _) _)
        | @blank ptr token _ =>
          have hgrows := ih parentTag (s.blank token) ptr
          rw [blank_items] at hgrows
          exact hgrows
        | @toBrace r token _ _ => exact ih parentTag (s.toBrace token) (some r)
        | leaveBrace _ _ => exact List.prefix_rfl
        | endLine token _ => exact (endLine_grows s token).trans (ih parentTag _ _)
        | leaveLine token _ => exact endLine_grows s token
        | @append ptr token _ => exact ih parentTag (s.append token) ptr

end Loop

end Invocation
