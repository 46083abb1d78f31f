import Invocation.Client
import Invocation.Permission
import Mathlib.Data.List.Forall2

/-!
# The arguments of invoke

The client strings its arguments together with blanks and puts no quotes around
values; the server takes the line apart at blanks that stand outside of quotes.
-/

namespace Invocation

set_option autoImplicit false

/-! ## The client's line -/

/-- The loop of `ParseCommandLineArgs`; none when it prints the version and exits. -/
def parseArgs : List Str → Str → Str → Option (Str × Str)
  | [], args, vars => some (args, vars)
  | a :: rest, args, vars =>
    if a = "-version".toList then none
    else if a = "--version".toList then none
    else if a.head? = some '-' ∨ '=' ∉ a then parseArgs rest (args ++ a ++ " ".toList) vars
    else parseArgs rest args (vars ++ a ++ " ".toList)

/-- `ParseCommandLineArgs` on the arguments behind the program's name. -/
def parseCommandLineArgs (argv : List Str) : Option (Str × Str) :=
  (parseArgs argv.tail [] []).map fun p =>
    (argv.head?.getD [],
      p.2 ++ if p.1 = [] then [] else " args='".toList ++ p.1 ++ "'".toList)

def requestLine (argv : List Str) : Option Str :=
  (parseCommandLineArgs argv).map fun p =>
    "invoke: ".toList ++ p.1 ++ " ".toList ++ p.2 ++ "\n".toList

/-! ## The server's reading -/

/-- What `HandleClientRequest` hands to `HandleInvoke`. -/
def invokeDetails (line : Str) : Option Str :=
  let p := getToken (stripTrailingWhitespace line) requestSeparator .multi
  if strCaseEq p.1 "INVOKE".toList then some (p.2.getD []) else none

/-! ## What they are to agree on -/

/-- A name that an argument can give a value to. -/
def isName (name : Str) : Bool :=
  name ≠ [] && name.all Char.isLower && name ≠ "args".toList

def argName (a : Str) : Str := a.takeWhile (· ≠ '=')

/-- An argument of the form name=value. -/
def isNamed (a : Str) : Bool := '=' ∈ a && isName (argName a)

def remaining (args : List Str) : List Str := args.filter fun a => ! isNamed a

def PlainWord (w : Str) : Prop :=
  w ≠ [] ∧ ∀ c ∈ w, c ≠ '\\' ∧ isQuote c = false ∧ isSpace c = false

def IsLast (args : List Str) (name value : Str) : Prop :=
  ∃ before after, args = before ++ (name ++ '=' :: value) :: after ∧
    ∀ a ∈ after, ¬ (name ++ ['=']) <+: a

/-- The server reads the command and the values that the client was called with. -/
structure Agrees (env : Env) (cmd : Str) (args : List Str) (details : Str) : Prop where
  command : (invokeCommand details).1 = cmd
  named : ∀ name value, isName name = true → IsLast args name value →
    getVar (invokeVars env details) name = value
  remaining : getVar (invokeVars env details) "args".toList = joinWords (remaining args)

/-! ## When they do -/

/-- A value without white space at its end and without quotes around it. -/
def Unchanged (value : Str) : Prop :=
  stripTrailingWhitespace value = value ∧ stripQuotes value = value

instance (value : Str) : Decidable (Unchanged value) :=
  inferInstanceAs (Decidable (_ ∧ _))

/-- A text that is not so long, with a blank behind it and quotes around it, that its length goes
to the cache. -/
def ShortText (text : Str) : Prop := text.length + 2 < StrLenCache.minLen

instance (text : Str) : Decidable (ShortText text) := inferInstanceAs (Decidable (_ < _))

def named (args : List Str) : List Str := args.filter isNamed

/-- The remaining arguments, each with the blank behind it. -/
def spaced (args : List Str) : Str := args.flatMap fun a => a ++ " ".toList

def argsWord (args : List Str) : Str := "args='".toList ++ spaced (remaining args) ++ "'".toList

theorem argsWord_eq (args : List Str) :
    argsWord args = "args='".toList ++ spaced (remaining args) ++ ['\''] := rfl

theorem argsWord_ne_nil (args : List Str) : argsWord args ≠ [] := by
  rw [argsWord_eq]
  exact List.append_ne_nil_of_right_ne_nil _ (List.cons_ne_nil _ _)

/-- The words of the line behind the command. -/
def requestWords (args : List Str) : List Str :=
  if remaining args = [] then named args
  else if named args = [] then [argsWord args]
  else named args ++ [[], argsWord args]

/-- No word is broken by a blank of its own, and only the last one leaves a quote open. Of two
blanks, the first may be taken by a backslash. -/
def apart : List Str → Bool
  | [] => true
  | [w] => unbroken blank none w
  | w :: v :: ws =>
    (wordFrom blank none w || (v = [] && ws ≠ [] && wordFrom blank none (w ++ [' ']))) &&
      apart (v :: ws)

/-- Whatever looks like an assignment is one that the client's user can name, each value comes
through unchanged, and no word runs into the next. -/
structure LineFits (args : List Str) : Prop where
  assignments : ∀ a ∈ args, a.head? ≠ some '-' → '=' ∈ a → isNamed a = true
  values : ∀ name value, isName name = true → IsLast args name value → Unchanged value
  words : apart (requestWords args) = true

/-- The remaining arguments come through unchanged as well. -/
structure RequestFits (args : List Str) : Prop extends LineFits args where
  rest : Unchanged (joinWords (remaining args))
  short : ShortText (joinWords (remaining args))

/-! ## The line -/

def isOther (a : Str) : Bool := a.head? = some '-' || '=' ∉ a

theorem parseArgs_some {rest : List Str} {args vars : Str} {p : Str × Str}
    (h : parseArgs rest args vars = some p) :
    p = (args ++ spaced (rest.filter isOther),
      vars ++ spaced (rest.filter fun a => ! isOther a)) := by
  induction rest generalizing args vars with
  | nil =>
    cases h
    simp [spaced]
  | cons a rest ih =>
    rw [parseArgs] at h
    split_ifs at h with _ _ hother
    · rw [ih h]
      have ha : isOther a = true := by simpa [isOther] using hother
      simp [spaced, ha, List.append_assoc]
    · rw [ih h]
      have ha : isOther a = false := by simpa [isOther] using hother
      simp [spaced, ha, List.append_assoc]

section Name

variable {name : Str} (h : isName name = true)
include h

theorem isName_ne : name ≠ [] := by
  rintro rfl
  cases h

theorem isName_lower : ∀ c ∈ name, c.isLower = true := by
  simp only [isName, Bool.and_eq_true, List.all_eq_true] at h
  exact h.1.2

theorem isName_ne_args : name ≠ "args".toList := by
  simp only [isName, Bool.and_eq_true, decide_eq_true_iff] at h
  exact h.2

theorem isName_fieldName : fieldName name = true := by
  have hplain : ∀ c ∈ name, ∀ d : Char, d.isLower = false → c ≠ d :=
    fun c hc d hd => ne_of_test (isName_lower h c hc) hd
  simp only [fieldName, Bool.and_eq_true, decide_eq_true_iff, List.all_eq_true]
  refine ⟨⟨isName_ne h, ?_⟩, ?_⟩
  · intro c hc
    rw [plainChar_iff]
    refine ⟨hplain c hc _ (by decide), ?_, ?_⟩
    · simp [isQuote, hplain c hc '"' (by decide), hplain c hc '\'' (by decide)]
    · exact decide_eq_false (Ne.symm (hplain c hc ' ' (by decide)))
  · intro c hc
    rw [plainChar_iff]
    refine ⟨hplain c hc _ (by decide), ?_, ?_⟩
    · simp [isQuote, hplain c hc '"' (by decide), hplain c hc '\'' (by decide)]
    · exact decide_eq_false (Ne.symm (hplain c hc '=' (by decide)))

theorem argName_assign (value : Str) : argName (name ++ '=' :: value) = name := by
  have hall : ∀ c ∈ name, decide (c ≠ '=') = true := by
    intro c hc
    exact decide_eq_true (ne_of_test (isName_lower h c hc) (by decide))
  unfold argName
  rw [List.takeWhile_append_of_pos hall, List.takeWhile_cons_of_neg (by simp), List.append_nil]

end Name

theorem isNamed_assign {name : Str} (h : isName name = true) (value : Str) :
    isNamed (name ++ '=' :: value) = true := by
  have hmem : '=' ∈ name ++ '=' :: value := List.mem_append_right _ List.mem_cons_self
  unfold isNamed
  rw [argName_assign h, h, decide_eq_true hmem]
  rfl

theorem isNamed_iff {a : Str} : isNamed a = true ↔
    ∃ name value, isName name = true ∧ a = name ++ '=' :: value := by
  constructor
  · intro h
    simp only [isNamed, Bool.and_eq_true, decide_eq_true_iff] at h
    obtain ⟨hmem, hname⟩ := h
    obtain ⟨name, value, rfl, hfree⟩ := List.eq_append_cons_of_mem hmem
    have hall : ∀ c ∈ name, decide (c ≠ '=') = true := by
      intro c hc
      rw [decide_eq_true_iff]
      rintro rfl
      exact hfree hc
    refine ⟨name, value, ?_, rfl⟩
    unfold argName at hname
    rw [List.takeWhile_append_of_pos hall, List.takeWhile_cons_of_neg (by simp),
      List.append_nil] at hname
    exact hname
  · rintro ⟨name, value, hname, rfl⟩
    exact isNamed_assign hname value

theorem isNamed_start {name a : Str} (h : isName name = true) (hstart : (name ++ ['=']) <+: a) :
    isNamed a = true := by
  obtain ⟨value, rfl⟩ := hstart
  rw [List.append_assoc]
  exact isNamed_assign h value

theorem isNamed_not_isOther {a : Str} (h : isNamed a = true) : isOther a = false := by
  obtain ⟨name, value, hname, rfl⟩ := isNamed_iff.mp h
  obtain ⟨c, rest, rfl⟩ := List.exists_cons_of_ne_nil (isName_ne hname)
  have hc : c ≠ '-' := ne_of_test (isName_lower hname c List.mem_cons_self) (by decide)
  simp [isOther, hc]

section Lists

variable {args : List Str} (hassign : ∀ a ∈ args, a.head? ≠ some '-' → '=' ∈ a → isNamed a = true)
include hassign

theorem isOther_eq {a : Str} (ha : a ∈ args) : isOther a = ! isNamed a := by
  cases hnamed : isNamed a with
  | true => exact isNamed_not_isOther hnamed
  | false =>
    by_contra hother
    simp only [isOther, Bool.not_false, Bool.not_eq_true, Bool.or_eq_false_iff,
      decide_eq_false_iff_not, not_not] at hother
    rw [hassign a ha hother.1 hother.2] at hnamed
    cases hnamed

theorem filter_isOther : args.filter isOther = remaining args :=
  List.filter_congr fun _ ha => isOther_eq hassign ha

theorem filter_not_isOther : (args.filter fun a => ! isOther a) = named args := by
  apply List.filter_congr
  intro a ha
  rw [isOther_eq hassign ha, Bool.not_not]

theorem requestLine_eq {cmd line : Str} (h : requestLine (cmd :: args) = some line) :
    line = "invoke: ".toList ++ cmd ++ " ".toList ++ (spaced (named args) ++
      if spaced (remaining args) = [] then [] else " ".toList ++ argsWord args) ++ "\n".toList := by
  obtain ⟨p, hp, rfl⟩ := Option.map_eq_some_iff.mp h
  obtain ⟨q, hq, rfl⟩ := Option.map_eq_some_iff.mp hp
  have hparts := parseArgs_some hq
  rw [List.nil_append, List.nil_append, List.tail_cons, filter_isOther hassign,
    filter_not_isOther hassign] at hparts
  rw [hparts]
  rfl

end Lists

/-! ## Pairs -/

def argValue (a : Str) : Str := (a.dropWhile (· ≠ '=')).tail

/-- What the server stores for a word of the line. A backslash at the end of a value keeps the
blank behind it, and with it the quotes around the value. -/
def Reads (w : Str) (pair : Str × Str) : Prop :=
  pair.1 = argName w ∧
    (pair.2 = requestValue (argValue w) ∨
      (argValue w).getLast? = some '\\' ∧
        pair.2 = stripQuotes (stripTrailingWhitespace (argValue w)))

def IsWord (w : Str) : Prop := ∃ name value, fieldName name = true ∧ w = name ++ '=' :: value

theorem fieldName_free {name : Str} (h : fieldName name = true) :
    ∀ c ∈ name, decide (c ≠ '=') = true := by
  simp only [fieldName, Bool.and_eq_true, List.all_eq_true] at h
  intro c hc
  have hplain := (plainChar_iff _ c).mp (h.2 c hc)
  rw [decide_eq_true_iff]
  rintro rfl
  exact absurd hplain.2.2 (by decide)

theorem argName_field {name : Str} (h : fieldName name = true) (value : Str) :
    argName (name ++ '=' :: value) = name := by
  unfold argName
  rw [List.takeWhile_append_of_pos (fieldName_free h), List.takeWhile_cons_of_neg (by simp),
    List.append_nil]

theorem argValue_field {name : Str} (h : fieldName name = true) (value : Str) :
    argValue (name ++ '=' :: value) = value := by
  unfold argValue
  rw [List.dropWhile_append_of_pos (fieldName_free h), List.dropWhile_cons_of_neg (by simp),
    List.tail_cons]

/-- A word that only a blank behind it closes ends in a backslash. -/
theorem wordFrom_blank {mode : Option Char} {w : Str} (hmode : mode ≠ some ' ')
    (h : wordFrom blank mode w = false) (hblank : wordFrom blank mode (w ++ [' ']) = true) :
    w.getLast? = some '\\' := by
  fun_induction wordFrom blank mode w with
  | case1 => cases h
  | case2 q =>
    have hq : ¬ ' ' = q := by
      rintro rfl
      exact hmode rfl
    simp [wordFrom, hq] at hblank
  | case3 => rfl
  | case4 _ t ih =>
    simp only [List.cons_append, wordFrom, if_true] at hblank
    have hlast := ih (by simp) h hblank
    simp [List.getLast?_cons, hlast]
  | case5 c s hne hc ih =>
    simp only [List.cons_append, wordFrom_quote hc] at hblank
    have hlast := ih (by rintro ⟨⟩; exact absurd hc (by decide)) h hblank
    simp [List.getLast?_cons, hlast]
  | case6 c s hne hc ih =>
    have hc' : isQuote c = false := by simpa using hc
    have hcons : wordFrom blank none (c :: (s ++ [' '])) =
        (! blank c && wordFrom blank none (s ++ [' '])) := by
      rw [wordFrom.eq_def]
      simp [hne, hc']
    rw [List.cons_append, hcons, Bool.and_eq_true] at hblank
    rw [hblank.1, Bool.true_and] at h
    have hlast := ih (by simp) h hblank.2
    simp [List.getLast?_cons, hlast]
  | case7 q s ih =>
    have hcons : wordFrom blank (some q) (q :: (s ++ [' '])) =
        wordFrom blank none (s ++ [' ']) := by
      rw [wordFrom.eq_def]
      simp
    rw [List.cons_append, hcons] at hblank
    have hlast := ih (by simp) h hblank
    simp [List.getLast?_cons, hlast]
  | case8 => rfl
  | case9 q c s hne ih =>
    simp only [List.cons_append, wordFrom, if_neg hne, if_true] at hblank
    have hlast := ih hmode h hblank
    simp [List.getLast?_cons, hlast]
  | case10 q c s h1 h2 ih =>
    have hcons : wordFrom blank (some q) (c :: (s ++ [' '])) =
        wordFrom blank (some q) (s ++ [' ']) := by
      rw [wordFrom.eq_def]
      simp [h1, h2]
    rw [List.cons_append, hcons] at hblank
    have hlast := ih hmode h hblank
    simp [List.getLast?_cons, hlast]

theorem not_quoted_blank {s : Str} (h : s.dropWhile isSpace ≠ []) :
    StrLenCache.quoted (s ++ [' ']) = false := by
  obtain ⟨q, t, hq⟩ := List.exists_cons_of_ne_nil h
  have hdrop : (s ++ [' ']).dropWhile isSpace = q :: (t ++ [' ']) := by
    rw [List.dropWhile_append, hq]
    rfl
  cases hquote : isQuote q with
  | false => simp [StrLenCache.quoted, hdrop, hquote]
  | true =>
    have hlast : (q :: (t ++ [' '])).getLast? = some ' ' := List.getLast?_concat (l := q :: t)
    have hne : ' ' ≠ q := by
      rintro rfl
      exact absurd hquote (by decide)
    rw [StrLenCache.quoted_of_rest hdrop hquote, hlast, beq_eq_false_iff_ne, ne_eq,
      Option.some_inj]
    exact hne

theorem Reads.name_ne {w : Str} (hw : IsWord w) {pair : Str × Str} (h : Reads w pair) :
    pair.1 ≠ [] := by
  obtain ⟨name, value, hname, rfl⟩ := hw
  rw [h.1, argName_field hname]
  simp only [fieldName, Bool.and_eq_true, decide_eq_true_iff] at hname
  exact hname.1.1

theorem requestAssign_field {name : Str} (h : fieldName name = true) (value : Str) :
    requestAssign (name ++ '=' :: value) = (name, requestValue value) := by
  simp only [fieldName, Bool.and_eq_true, decide_eq_true_iff] at h
  rw [requestAssign, splitNameText_assign h.1.1 h.2]

theorem dequote_field {name : Str} (h : fieldName name = true) (value : Str) :
    dequote (name ++ '=' :: value) = name ++ '=' :: value := by
  simp only [fieldName, Bool.and_eq_true, decide_eq_true_iff] at h
  exact dequote_plain h.1.1 h.1.2 _

theorem requestAssignments_next {s token rest : Str}
    (h : getToken s [' '] .quotes = (token, some rest)) :
    requestAssignments s = requestAssign token :: requestAssignments rest := by
  have hnext : nextToken [' '] .quotes s = some (token, rest) := by
    unfold nextToken
    rw [h]
  unfold requestAssignments tokens
  rw [Scan.unfold_some (nextToken_shrinks _ _) hnext, List.map_cons]

theorem requestAssignments_word {w : Str} (hw : wordFrom blank none w = true) (rest : Str) :
    requestAssignments (w ++ ' ' :: rest) =
      requestAssign (dequote w) :: requestAssignments rest :=
  requestAssignments_next
    (getToken_word true rest (List.cons_ne_nil _ _) rfl hw (by decide) (by decide) (by decide))

theorem requestAssignments_blank (rest : Str) :
    requestAssignments (' ' :: rest) = ([], []) :: requestAssignments rest := by
  have hword : wordFrom blank none [] = true := rfl
  exact requestAssignments_word hword rest

theorem requestValue_of_not_quoted {s : Str} (h : StrLenCache.quoted s = false) :
    requestValue s = stripQuotes (stripTrailingWhitespace s) := by
  have hno : ¬ (StrLenCache.quoted s = true ∧ StrLenCache.minLen < s.length) :=
    fun hquoted => Bool.false_ne_true (h.symm.trans hquoted.1)
  rw [requestValue, if_neg hno, readValue_eq (StrLenCache.stripQuotes_of_not_quoted h)]

theorem requestValue_unchanged {s : Str} (h : Unchanged s) : requestValue s = s := by
  have hstrip : stripQuotes (stripTrailingWhitespace s) = s := by rw [h.1, h.2]
  rw [requestValue, readValue_eq h.2]
  exact (ite_congr rfl (fun _ => h.2) fun _ => hstrip).trans (ite_self s)

section Word

variable {w : Str} (hw : IsWord w)
include hw

theorem reads_word (hword : wordFrom blank none w = true) (rest : Str) :
    ∃ pair, Reads w pair ∧ requestAssignments (w ++ ' ' :: rest) =
      pair :: requestAssignments rest := by
  obtain ⟨name, value, hname, rfl⟩ := hw
  have hnext := requestAssignments_word hword rest
  rw [dequote_field hname, requestAssign_field hname] at hnext
  refine ⟨_, ⟨?_, Or.inl ?_⟩, hnext⟩
  · rw [argName_field hname]
  · rw [argValue_field hname]

/-- A backslash at the end of the word takes the first of two blanks. -/
theorem reads_backslash (hword : wordFrom blank none w = false)
    (hblank : wordFrom blank none (w ++ [' ']) = true) (rest : Str) :
    ∃ pair, Reads w pair ∧
      requestAssignments (w ++ ' ' :: ' ' :: rest) = pair :: requestAssignments rest := by
  obtain ⟨name, value, hname, rfl⟩ := hw
  have hlast := wordFrom_blank (by simp) hword hblank
  have hvalue : value.getLast? = some '\\' := by
    rw [List.getLast?_append_cons] at hlast
    cases value with
    | nil => cases hlast
    | cons c value => rwa [List.getLast?_cons_cons] at hlast
  have hnext := requestAssignments_word hblank rest
  have happend : name ++ '=' :: value ++ [' '] = name ++ '=' :: (value ++ [' ']) := by simp
  rw [happend, dequote_field hname, requestAssign_field hname] at hnext
  have hdrop : value.dropWhile isSpace ≠ [] := by
    rw [ne_eq, List.dropWhile_eq_nil_iff]
    intro hspace
    exact absurd (hspace _ (List.mem_of_getLast? hvalue)) (by decide)
  have hlist : name ++ '=' :: (value ++ [' ']) ++ ' ' :: rest =
      name ++ '=' :: value ++ ' ' :: ' ' :: rest := by simp
  rw [requestValue_of_not_quoted (not_quoted_blank hdrop), hlist] at hnext
  refine ⟨_, ⟨?_, Or.inr ⟨?_, ?_⟩⟩, hnext⟩
  · rw [argName_field hname]
  · rwa [argValue_field hname]
  · rw [argValue_field hname, strip_concat, if_pos (by decide)]

theorem reads_last (hword : unbroken blank none w = true) :
    ∃ pair, Reads w pair ∧ requestAssignments w = [pair] := by
  obtain ⟨name, value, hname, rfl⟩ := hw
  have hparts := hname
  simp only [fieldName, Bool.and_eq_true, decide_eq_true_iff] at hparts
  have hnext := requestAssignments_next (getToken_lastAssignment hparts.1.1 hparts.1.2 hword)
  rw [requestAssign_field hname] at hnext
  refine ⟨_, ⟨?_, Or.inl ?_⟩, hnext⟩
  · rw [argName_field hname]
  · rw [argValue_field hname]

end Word

/-- Every word of the line is stored, in its place; the double blank only adds a nameless value. -/
theorem reads_words {ws : List Str} (hws : ∀ w ∈ ws, w = [] ∨ IsWord w)
    (hlast : ws.getLast? ≠ some []) (h : apart ws = true) :
    List.Forall₂ Reads (ws.filter fun w => decide (w ≠ []))
      ((requestAssignments (joinWords ws)).filter fun pair => decide (pair.1 ≠ [])) := by
  have keep {w : Str} {pair : Str × Str} (hw : IsWord w) (hpair : Reads w pair) {ws : List Str}
      {stored : List (Str × Str)}
      (ih : List.Forall₂ Reads (ws.filter fun w => decide (w ≠ []))
        (stored.filter fun pair => decide (pair.1 ≠ []))) :
      List.Forall₂ Reads ((w :: ws).filter fun w => decide (w ≠ []))
        ((pair :: stored).filter fun pair => decide (pair.1 ≠ [])) := by
    have hne : w ≠ [] := by
      obtain ⟨name, value, _, rfl⟩ := hw
      simp
    rw [List.filter_cons_of_pos (by simpa using hne),
      List.filter_cons_of_pos (by simpa using hpair.name_ne hw)]
    exact .cons hpair ih
  fun_induction apart ws with
  | case1 => exact .nil
  | case2 w =>
    rcases hws w List.mem_cons_self with rfl | hw
    · exact absurd rfl hlast
    · obtain ⟨pair, hpair, hstored⟩ := reads_last hw h
      rw [joinWords, hstored]
      exact keep hw hpair .nil
  | case3 w v ws ih =>
    simp only [Bool.and_eq_true, Bool.or_eq_true, decide_eq_true_iff] at h
    rw [List.getLast?_cons_cons] at hlast
    have hrest := ih (fun u hu => hws u (List.mem_cons_of_mem _ hu)) hlast h.2
    rw [joinWords]
    rcases hws w List.mem_cons_self with rfl | hw
    · rw [List.nil_append, requestAssignments_blank, List.filter_cons_of_neg (a := []) (by simp),
        List.filter_cons_of_neg (a := ([], [])) (by simp)]
      exact hrest
    · by_cases hword : wordFrom blank none w = true
      · obtain ⟨pair, hpair, hstored⟩ := reads_word hw hword (joinWords (v :: ws))
        rw [hstored]
        exact keep hw hpair hrest
      · obtain ⟨⟨rfl, hne⟩, hblank⟩ := h.1.resolve_left hword
        obtain ⟨u, us, rfl⟩ := List.exists_cons_of_ne_nil hne
        obtain ⟨pair, hpair, hstored⟩ :=
          reads_backslash hw (by simpa using hword) hblank (joinWords (u :: us))
        have hjoin : joinWords ([] :: u :: us) = ' ' :: joinWords (u :: us) := rfl
        rw [hjoin, requestAssignments_blank, List.filter_cons_of_neg (a := []) (by simp),
        List.filter_cons_of_neg (a := ([], [])) (by simp)] at hrest
        rw [hjoin, hstored]
        exact keep hw hpair hrest

/-! ## Values -/

theorem lower_colon {name : Str} (h : ∀ c ∈ name, c.isLower = true) : ':' ∉ name :=
  fun hmem => absurd (h ':' hmem) (by decide)

section Lookup

variable {name : Str} (hne : name ≠ []) (hcolon : ':' ∉ name)
include hne hcolon

omit hne in
theorem peerAssignments_other (peer : Peer) :
    ∀ p ∈ peerAssignments peer, sameTag p.1 name = false := by
  intro p hp
  have hnames : ∀ n ∈ ["invoke:user".toList, "invoke:group".toList, "invoke:uid".toList,
      "invoke:gid".toList, "invoke:peer_pid".toList, "invoke:peer_program".toList], ':' ∈ n := by
    decide +kernel
  have hmem : ':' ∈ p.1 := hnames p.1 (List.mem_map_of_mem (f := Prod.fst) hp)
  have hlower : ':' ∈ strlwr p.1 := List.mem_map_of_mem (f := Char.toLower) hmem
  apply Bool.eq_false_iff.mpr
  rw [ne_eq, sameTag_iff]
  rintro ⟨_, heq⟩
  rw [heq] at hlower
  obtain ⟨c, hc, hcolon'⟩ := List.mem_map.mp hlower
  rw [toLower_eq_colon hcolon'] at hc
  exact hcolon hc

theorem getVar_invokeVars (env : Env) (details : Str) : getVar (invokeVars env details) name =
    (((((requestAssignments (invokeCommand details).2).filter
      fun pair => decide (pair.1 ≠ [])).reverse.find? (sameTag ·.1 name)).map
        Prod.snd).getD []) := by
  have hpeer : (peerAssignments env.peer).reverse.find? (sameTag ·.1 name) = none := by
    rw [List.find?_eq_none]
    intro p hp
    rw [peerAssignments_other hcolon env.peer p (List.mem_reverse.mp hp)]
    simp
  have hnamed : ∀ stored : List (Str × Str), stored.find? (sameTag ·.1 name) =
      (stored.filter fun pair => decide (pair.1 ≠ [])).find? (sameTag ·.1 name) := by
    intro stored
    rw [List.find?_filter]
    congr 1
    funext pair
    by_cases hpair : pair.1 = []
    · have hsame : sameTag [] name = false := by
        apply Bool.eq_false_iff.mpr
        rw [ne_eq, sameTag_iff]
        rintro ⟨_, heq⟩
        exact hne (List.map_eq_nil_iff.mp heq.symm)
      simp [hpair, hsame]
    · simp [hpair]
  rw [invokeVars, getVar_setVars, List.reverse_append, List.find?_append, hpeer, Option.none_or,
    hnamed, List.filter_reverse]

end Lookup

theorem forall₂_split {α β : Type} {R : α → β → Prop} {before after : List α} {a : α} {l : List β}
    (h : List.Forall₂ R (before ++ a :: after) l) :
    ∃ first b rest, l = first ++ b :: rest ∧ R a b ∧ List.Forall₂ R after rest := by
  induction before generalizing l with
  | nil =>
    obtain ⟨b, rest, hb, hrest, rfl⟩ := List.forall₂_cons_left_iff.mp h
    exact ⟨[], b, rest, rfl, hb, hrest⟩
  | cons c before ih =>
    obtain ⟨d, more, _, hmore, rfl⟩ := List.forall₂_cons_left_iff.mp h
    obtain ⟨first, b, rest, rfl, hb, hrest⟩ := ih hmore
    exact ⟨d :: first, b, rest, rfl, hb, hrest⟩

theorem forall₂_mem {α β : Type} {R : α → β → Prop} {l : List α} {m : List β}
    (h : List.Forall₂ R l m) {b : β} (hb : b ∈ m) : ∃ a ∈ l, R a b := by
  obtain ⟨first, rest, rfl⟩ := List.append_of_mem hb
  obtain ⟨before, a, after, rfl, hab, _⟩ := forall₂_split h.flip
  exact ⟨a, by simp, hab⟩

def LowerName (w : Str) : Prop := ∀ c ∈ argName w, c.isLower = true

section Find

variable {name : Str} (hne : name ≠ []) (hlower : strlwr name = name)
include hne hlower

theorem sameTag_reads {w : Str} (hw : LowerName w) {pair : Str × Str} (hpair : Reads w pair) :
    sameTag pair.1 name = decide (argName w = name) := by
  rw [Bool.eq_iff_iff, sameTag_iff, decide_eq_true_iff, hpair.1, strlwr_lower hw, hlower]
  exact and_iff_right hne

theorem find_none {ws : List Str} {stored : List (Str × Str)} (h : List.Forall₂ Reads ws stored)
    (hws : ∀ w ∈ ws, LowerName w) (hother : ∀ w ∈ ws, argName w ≠ name) :
    stored.reverse.find? (sameTag ·.1 name) = none := by
  rw [List.find?_eq_none]
  intro pair hpair
  obtain ⟨w, hw, hreads⟩ := forall₂_mem h (List.mem_reverse.mp hpair)
  rw [sameTag_reads hne hlower (hws w hw) hreads]
  simpa using hother w hw

theorem find_last {before after : List Str} {w : Str} {stored : List (Str × Str)}
    (h : List.Forall₂ Reads (before ++ w :: after) stored)
    (hws : ∀ u ∈ before ++ w :: after, LowerName u) (hw : argName w = name)
    (hother : ∀ u ∈ after, argName u ≠ name) :
    ∃ pair, stored.reverse.find? (sameTag ·.1 name) = some pair ∧ Reads w pair := by
  obtain ⟨first, pair, rest, rfl, hpair, hrest⟩ := forall₂_split h
  have hafter := find_none hne hlower hrest (fun u hu => hws u (by simp [hu])) hother
  have hsame := sameTag_reads hne hlower (hws w (by simp)) hpair
  rw [hw, decide_eq_true rfl] at hsame
  refine ⟨pair, ?_, hpair⟩
  rw [List.reverse_append, List.reverse_cons, List.append_assoc, List.find?_append, hafter,
    Option.none_or, List.singleton_append]
  exact List.find?_cons_of_pos hsame

end Find

/-! ## The line as the server takes it apart -/

theorem spaced_eq_nil {ws : List Str} : spaced ws = [] ↔ ws = [] := by
  cases ws with
  | nil => simp [spaced]
  | cons w ws => simp [spaced]

theorem joinWords_concat (ws : List Str) (w : Str) : joinWords (ws ++ [w]) = spaced ws ++ w := by
  induction ws with
  | nil => rfl
  | cons v ws ih =>
    have hcons : spaced (v :: ws) = v ++ ' ' :: spaced ws := by simp [spaced]
    obtain ⟨u, us, hu⟩ := List.exists_cons_of_ne_nil (l := ws ++ [w]) (by simp)
    rw [List.cons_append, hcons, hu, joinWords, ← hu, ih]
    simp

theorem strip_assignment {name value : Str} (h : stripTrailingWhitespace value = value) :
    stripTrailingWhitespace (name ++ '=' :: value) = name ++ '=' :: value := by
  have hsplit : name ++ '=' :: value = (name ++ ['=']) ++ value := by simp
  rw [hsplit, strip_append, h]
  by_cases hvalue : value = []
  · rw [if_pos hvalue, strip_concat, if_neg (by decide), hvalue, List.append_nil]
  · rw [if_neg hvalue]

section Keyword

variable {keyword : Str} (h : pieceFrom (sepAny [.space, .lit ':']) keyword = true)
include h

theorem getToken_colon (rest : Str) :
    getToken (keyword ++ ':' :: rest) requestSeparator .multi = (keyword, some rest) := by
  have hitems : (buildMultiSeparators requestSeparator).map sepItems =
      ([SepItem.space] ++ SepItem.lit ':' :: []).map ([·]) := by decide +kernel
  exact getToken_piece [.space] [] (by decide) hitems h (c := ':') (by decide) (by decide)
    (by decide) rest

theorem getToken_keyword (rest : Str) : getToken (keyword ++ ' ' :: rest) requestSeparator .multi =
    (keyword, some (rest.dropWhile isSpace)) := by
  have hitems : (buildMultiSeparators requestSeparator).map sepItems =
      ([] ++ SepItem.space :: [.lit ':']).map ([·]) := by decide +kernel
  exact getToken_piece [] [.lit ':'] (by decide) hitems h (c :=
    ' ') (by decide) rfl (by decide) rest

end Keyword

theorem invokeCommand_word {cmd gap rest : Str} (hcmd : PlainWord cmd) (hgap : ∀ c ∈ gap, c = ' ')
    (hempty : gap = [] → rest = []) (hrest : rest.dropWhile isSpace = rest) :
    invokeCommand (cmd ++ gap ++ rest) = (cmd, rest) := by
  have hplain : cmd.all (plainChar (sepChar .space)) = true := by
    rw [List.all_eq_true]
    intro c hc
    obtain ⟨h1, h2, h3⟩ := hcmd.2 c hc
    rw [plainChar_iff]
    refine ⟨h1, h2, ?_⟩
    simp only [isSpace, Bool.or_eq_false_iff, beq_eq_false_iff_ne] at h3
    simp [sepChar, h3]
  have hlead : stripLeadingWhitespace (cmd ++ gap ++ rest) = cmd ++ gap ++ rest := by
    obtain ⟨c, t, rfl⟩ := List.exists_cons_of_ne_nil hcmd.1
    have hc := (hcmd.2 c List.mem_cons_self).2.2
    simp [stripLeadingWhitespace, hc]
  have hdequote : dequote cmd = cmd := by
    have h := dequote_plain hcmd.1 hplain []
    rwa [List.append_nil] at h
  have hitem : sepItems spaceSeparator = [SepItem.space] := rfl
  unfold invokeCommand
  rw [hlead]
  cases gap with
  | nil =>
    have htoken : getToken cmd spaceSeparator .quotes = (dequote cmd, some []) :=
      getToken_lastWord true (by decide) hitem (wordFrom_plain hplain) hcmd.1
    rw [hempty rfl, List.append_nil, List.append_nil]
    simp only [htoken, hdequote, Option.getD_some]
  | cons c gap =>
    have hc : c = ' ' := hgap c List.mem_cons_self
    have hskip : (gap ++ rest).dropWhile isSpace = rest := by
      rw [List.dropWhile_append_of_pos, hrest]
      intro d hd
      rw [hgap d (List.mem_cons_of_mem _ hd)]
      decide
    have htoken : getToken (cmd ++ ' ' :: (gap ++ rest)) spaceSeparator .quotes =
        (dequote cmd, some (sepEnd .space ' ' (gap ++ rest))) :=
      getToken_word true _ (by decide) rfl (wordFrom_plain hplain) (by decide) (by decide)
        (by decide)
    have hend : sepEnd .space ' ' (gap ++ rest) = rest := hskip
    rw [hc, List.append_assoc, List.cons_append]
    simp only [htoken, hdequote, hend, Option.getD_some]

section Fits

variable {args : List Str} (hfits : LineFits args)

theorem requestWords_filter (args : List Str) :
    (requestWords args).filter (fun w => decide (w ≠ [])) =
      named args ++ if remaining args = [] then [] else [argsWord args] := by
  have hnamed : (named args).filter (fun w => decide (w ≠ [])) = named args := by
    rw [List.filter_eq_self]
    intro w hw
    obtain ⟨name, value, _, rfl⟩ := isNamed_iff.mp (List.mem_filter.mp hw).2
    simp
  unfold requestWords
  split_ifs with hrest hnone
  · rw [hnamed, List.append_nil]
  · rw [hnone]
    rfl
  · rw [List.filter_append, hnamed]
    rfl

theorem requestWords_isWord {w : Str} (hw : w ∈ requestWords args) : w = [] ∨ IsWord w := by
  by_cases hne : w = []
  · exact Or.inl hne
  · right
    have hmem : w ∈ (requestWords args).filter (fun w => decide (w ≠ [])) :=
      List.mem_filter.mpr ⟨hw, decide_eq_true hne⟩
    rw [requestWords_filter, List.mem_append] at hmem
    rcases hmem with hmem | hmem
    · obtain ⟨name, value, hname, rfl⟩ := isNamed_iff.mp (List.mem_filter.mp hmem).2
      exact ⟨name, value, isName_fieldName hname, rfl⟩
    · split_ifs at hmem with hrest
      · cases hmem
      · rw [List.mem_singleton.mp hmem]
        exact ⟨"args".toList, '\'' :: spaced (remaining args) ++ ['\''], by decide, rfl⟩

theorem requestWords_getLast? : (requestWords args).getLast? ≠ some [] := by
  unfold requestWords
  split_ifs with hrest hnone
  · intro hlast
    obtain ⟨name, value, _, hnil⟩ :=
      isNamed_iff.mp (List.mem_filter.mp (List.mem_of_getLast? hlast)).2
    simp at hnil
  · simp [argsWord_ne_nil]
  · rw [List.getLast?_append]
    simp [argsWord_ne_nil]

theorem requestWords_lower {w : Str} (hw : w ∈ named args ++
    if remaining args = [] then [] else [argsWord args]) : LowerName w := by
  rw [List.mem_append] at hw
  rcases hw with hw | hw
  · obtain ⟨name, value, hname, rfl⟩ := isNamed_iff.mp (List.mem_filter.mp hw).2
    unfold LowerName
    rw [argName_assign hname]
    exact isName_lower hname
  · split_ifs at hw with hrest
    · cases hw
    · rw [List.mem_singleton.mp hw]
      have hargs : argName (argsWord args) = "args".toList := by
        have hfield : fieldName "args".toList = true := by decide
        exact argName_field hfield _
      unfold LowerName
      rw [hargs]
      decide

theorem joinWords_head {w : Str} (hw : LowerName w) (hword : IsWord w) (ws : List Str) :
    (joinWords (w :: ws)).dropWhile isSpace = joinWords (w :: ws) := by
  obtain ⟨name, value, hname, rfl⟩ := hword
  unfold LowerName at hw
  rw [argName_field hname] at hw
  simp only [fieldName, Bool.and_eq_true, decide_eq_true_iff] at hname
  obtain ⟨c, t, rfl⟩ := List.exists_cons_of_ne_nil hname.1.1
  have hc : isSpace c = false := not_space_of_test (by decide) (hw c List.mem_cons_self)
  exact joinWords_start hc _ ws

theorem joinWords_requestWords (args : List Str) :
    (joinWords (requestWords args)).dropWhile isSpace = joinWords (requestWords args) := by
  have head {w : Str} (hne : w ≠ []) (hmem : w ∈ requestWords args) (ws : List Str) :
      (joinWords (w :: ws)).dropWhile isSpace = joinWords (w :: ws) := by
    have hlower : LowerName w := by
      have hkept : w ∈ (requestWords args).filter (fun w => decide (w ≠ [])) :=
        List.mem_filter.mpr ⟨hmem, decide_eq_true hne⟩
      rw [requestWords_filter] at hkept
      exact requestWords_lower hkept
    exact joinWords_head hlower ((requestWords_isWord hmem).resolve_left hne) ws
  have hnamed : ∀ w ∈ named args, w ≠ [] := by
    intro w hw
    obtain ⟨name, value, _, rfl⟩ := isNamed_iff.mp (List.mem_filter.mp hw).2
    simp
  cases hws : requestWords args with
  | nil => rfl
  | cons w ws =>
    apply head
    · have hmem : w ∈ (requestWords args).head? := by simp [hws]
      unfold requestWords at hmem
      split_ifs at hmem with hrest hnone
      · exact hnamed w (List.mem_of_mem_head? hmem)
      · cases hmem
        rw [argsWord_eq]
        simp
      · rw [List.head?_append_of_ne_nil _ hnone] at hmem
        exact hnamed w (List.mem_of_mem_head? hmem)
    · rw [hws]
      exact List.mem_cons_self

include hfits in
/-- The last argument with a value is the last one with its name. -/
theorem strip_named {before : List Str} {w : Str} (h : named args = before ++ [w]) :
    stripTrailingWhitespace w = w := by
  obtain ⟨name, value, hname, rfl⟩ : ∃ name value, isName name = true ∧ w =
      name ++ '=' :: value := by
    have hmem : w ∈ named args := by simp [h]
    exact isNamed_iff.mp (List.mem_filter.mp hmem).2
  apply strip_assignment
  refine (hfits.values name value hname ?_).1
  obtain ⟨l₁, l₂, hargs, _, hlast⟩ := List.filter_eq_append_iff.mp h
  obtain ⟨l₃, after, rfl, _, _, hnone⟩ := List.filter_eq_cons_iff.mp hlast
  refine ⟨l₁ ++ l₃, after, by rw [hargs, List.append_assoc], ?_⟩
  intro a ha hstart
  exact List.filter_eq_nil_iff.mp hnone a ha (isNamed_start hname hstart)

include hfits in
theorem strip_requestLine {cmd line : Str} (hcmd : PlainWord cmd)
    (h : requestLine (cmd :: args) = some line) :
    ∃ gap, (∀ c ∈ gap, c = ' ') ∧ (gap = [] → requestWords args = []) ∧
      stripTrailingWhitespace line =
        "invoke: ".toList ++ cmd ++ gap ++ joinWords (requestWords args) := by
  have hspace : ∀ c ∈ [' '], c = ' ' := by simp
  have hblank : " ".toList = [' '] := rfl
  have hnewline : "\n".toList = ['\n'] := rfl
  rw [requestLine_eq hfits.assignments h, hnewline, stripTrailingWhitespace_newline, hblank]
  simp only [spaced_eq_nil]
  by_cases hrest : remaining args = []
  · rw [if_pos hrest, List.append_nil]
    have hwords : requestWords args = named args := if_pos hrest
    rw [hwords]
    rcases List.eq_nil_or_concat (named args) with hnone | ⟨before, w, hconcat⟩
    · refine ⟨[], by simp, fun _ => hnone, ?_⟩
      have hstrip : stripTrailingWhitespace cmd = cmd :=
        stripTrailingWhitespace_solid fun c hc => (hcmd.2 c hc).2.2
      have hnil : joinWords [] = [] := rfl
      have hspaced : spaced [] = [] := rfl
      rw [hnone, hspaced, hnil, List.append_nil, List.append_nil, List.append_nil, strip_concat,
        if_pos (by decide), strip_append, hstrip, if_neg hcmd.1]
    · rw [List.concat_eq_append] at hconcat
      refine ⟨[' '], hspace, by simp, ?_⟩
      have hw := strip_named hfits hconcat
      have hne : w ≠ [] := by
        have hmem : w ∈ named args := by simp [hconcat]
        obtain ⟨name, value, _, rfl⟩ := isNamed_iff.mp (List.mem_filter.mp hmem).2
        simp
      have hspaced : spaced (before ++ [w]) = spaced before ++ w ++ [' '] := by simp [spaced]
      rw [hconcat, hspaced, joinWords_concat, ← List.append_assoc, ← List.append_assoc,
        strip_concat,
        if_pos (by decide), strip_append, hw, if_neg hne, List.append_assoc]
  · rw [if_neg hrest]
    by_cases hnone : named args = []
    · refine ⟨[' ', ' '], by simp, by simp, ?_⟩
      have hwords : requestWords args = [argsWord args] := by
        rw [requestWords, if_neg hrest, if_pos hnone]
      have hjoin : joinWords [argsWord args] = argsWord args := rfl
      have hspaced : spaced [] = [] := rfl
      rw [hwords, hjoin, hnone, hspaced, argsWord_eq, List.nil_append, ← List.append_assoc,
        ← List.append_assoc, strip_concat, if_neg (by decide)]
      simp
    · refine ⟨[' '], hspace, by simp, ?_⟩
      have hwords : requestWords args = (named args ++ [[]]) ++ [argsWord args] := by
        rw [requestWords, if_neg hrest, if_neg hnone]
        simp
      have hspaced : spaced (named args ++ [[]]) = spaced (named args) ++ [' '] := by simp [spaced]
      rw [hwords, joinWords_concat, hspaced, argsWord_eq, ← List.append_assoc, ← List.append_assoc,
        ← List.append_assoc, ← List.append_assoc, strip_concat, if_neg (by decide)]
      simp

include hfits in
theorem invokeDetails_requestLine {cmd line : Str} (hcmd : PlainWord cmd)
    (h : requestLine (cmd :: args) = some line) : ∃ details, invokeDetails line = some details ∧
      invokeCommand details = (cmd, joinWords (requestWords args)) := by
  obtain ⟨gap, hgap, hempty, hstrip⟩ := strip_requestLine hfits hcmd h
  refine ⟨' ' :: cmd ++ gap ++ joinWords (requestWords args), ?_, ?_⟩
  · have hline : stripTrailingWhitespace line =
        "invoke".toList ++ ':' :: (' ' :: cmd ++ gap ++ joinWords (requestWords args)) := by
      rw [hstrip]
      simp
    have hinvoke : strCaseEq "invoke".toList "INVOKE".toList = true := by decide
    have hword : pieceFrom (sepAny [.space, .lit ':']) "invoke".toList = true := by decide +kernel
    unfold invokeDetails
    rw [hline]
    simp only [getToken_colon hword, hinvoke, if_true, Option.getD_some]
  · have hblank : invokeCommand (' ' :: cmd ++ gap ++ joinWords (requestWords args)) =
        invokeCommand (cmd ++ gap ++ joinWords (requestWords args)) := rfl
    rw [hblank]
    apply invokeCommand_word hcmd hgap
    · intro hnil
      rw [hempty hnil]
      rfl
    · exact joinWords_requestWords args

include hfits in
theorem stored_requestWords : List.Forall₂ Reads
    (named args ++ if remaining args = [] then [] else [argsWord args])
    ((requestAssignments (joinWords (requestWords args))).filter fun pair =>
      decide (pair.1 ≠ [])) := by
  rw [← requestWords_filter]
  exact reads_words (fun w hw => requestWords_isWord hw) requestWords_getLast? hfits.words

end Fits

theorem spaced_eq {ws : List Str} (h : ws ≠ []) : spaced ws = joinWords ws ++ [' '] := by
  obtain ⟨before, w, hconcat⟩ := List.eq_nil_or_concat ws |>.resolve_left h
  rw [List.concat_eq_append] at hconcat
  rw [hconcat, joinWords_concat]
  simp [spaced]

section RestOfLine

variable {ws : List Str} (hne : ws ≠ [])
include hne

theorem requestValue_short (h : ShortText (joinWords ws)) :
    requestValue ('\'' :: spaced ws ++ ['\'']) =
      stripQuotes (stripTrailingWhitespace (joinWords ws)) := by
  have hlen : ('\'' :: spaced ws ++ ['\'']).length = (joinWords ws).length + 3 := by
    rw [spaced_eq hne]
    simp
  have hread : readValue ('\'' :: spaced ws ++ ['\'']) = spaced ws := readValue_quote _
  have hfew : ¬ StrLenCache.minLen < (joinWords ws).length + 3 := Nat.not_lt.mpr h
  rw [requestValue, hlen, if_neg fun hlong => hfew hlong.2, hread, spaced_eq hne, strip_concat,
    if_pos (by decide)]

/-- The blank that the client puts behind the last argument stays when the text is long. -/
theorem requestValue_long (h : ¬ ShortText (joinWords ws))
    (htext : (joinWords ws).dropWhile isSpace ≠ []) :
    requestValue ('\'' :: spaced ws ++ ['\'']) = joinWords ws ++ [' '] := by
  have hlen : ('\'' :: spaced ws ++ ['\'']).length = (joinWords ws).length + 3 := by
    rw [spaced_eq hne]
    simp
  have hquoted : StrLenCache.quoted ('\'' :: spaced ws ++ ['\'']) = true := by
    have hdrop : ('\'' :: spaced ws ++ ['\'']).dropWhile isSpace =
        '\'' :: (spaced ws ++ ['\'']) := rfl
    have hlast : ('\'' :: (spaced ws ++ ['\''])).getLast? = some '\'' :=
      List.getLast?_concat (l := '\'' :: spaced ws)
    rw [StrLenCache.quoted_of_rest hdrop (by decide), hlast, beq_self_eq_true]
  have hread : readValue ('\'' :: spaced ws ++ ['\'']) = spaced ws := readValue_quote _
  have hlong : StrLenCache.minLen < (joinWords ws).length + 3 :=
    Nat.lt_succ_of_le (Nat.le_of_not_lt h)
  rw [requestValue, hlen, if_pos ⟨hquoted, hlong⟩, hread, spaced_eq hne,
    StrLenCache.stripQuotes_of_not_quoted (not_quoted_blank htext)]

end RestOfLine

section Stored

variable (env : Env) {cmd : Str} {args : List Str} {details : Str}
  (hcommand : invokeCommand details = (cmd, joinWords (requestWords args)))
include hcommand

theorem getVar_named (hfits : LineFits args) {name value : Str} (hname : isName name = true)
    (hlast : IsLast args name value) : getVar (invokeVars env details) name = value := by
  have hstored := stored_requestWords hfits
  have hlower : ∀ w ∈ named args ++ (if remaining args = [] then [] else [argsWord args]),
      LowerName w := fun w hw => requestWords_lower hw
  have hvalue := hfits.values name value hname hlast
  obtain ⟨before, after, hargs, hafter⟩ := hlast
  have hsplit : named args ++ (if remaining args = [] then [] else [argsWord args]) =
      named before ++ (name ++ '=' :: value) :: (named after ++
        if remaining args = [] then [] else [argsWord args]) := by
    have hfilter : named args = named before ++ (name ++ '=' :: value) :: named after := by
      unfold named
      rw [hargs, List.filter_append, List.filter_cons_of_pos (isNamed_assign hname value)]
    rw [hfilter, List.append_assoc, List.cons_append]
  have hother : ∀ u ∈ named after ++ (if remaining args = [] then [] else [argsWord args]),
      argName u ≠ name := by
    intro u hu
    rcases List.mem_append.mp hu with hu | hu
    · obtain ⟨hmem, hnamed⟩ := List.mem_filter.mp hu
      obtain ⟨other, text, hother, rfl⟩ := isNamed_iff.mp hnamed
      rw [argName_assign hother]
      rintro rfl
      apply hafter _ hmem
      simp
    · split_ifs at hu with hrest
      · cases hu
      · have hfield : fieldName "args".toList = true := by decide
        have hargsName : argName (argsWord args) = "args".toList := argName_field hfield _
        rw [List.mem_singleton.mp hu, hargsName]
        exact (isName_ne_args hname).symm
  rw [hsplit] at hstored hlower
  obtain ⟨pair, hfind, hreads⟩ := find_last (isName_ne hname) (strlwr_lower (isName_lower hname))
    hstored hlower (argName_assign hname value) hother
  rw [getVar_invokeVars (isName_ne hname) (lower_colon (isName_lower hname)), hcommand, hfind,
    Option.map_some, Option.getD_some]
  obtain ⟨_, hcase⟩ := hreads
  rw [argValue_field (isName_fieldName hname)] at hcase
  rcases hcase with h | ⟨_, h⟩
  · rw [h, requestValue_unchanged hvalue]
  · rw [h, hvalue.1, hvalue.2]

theorem getVar_args (hfits : LineFits args) : getVar (invokeVars env details) "args".toList =
    if remaining args = [] then []
    else requestValue ('\'' :: spaced (remaining args) ++ ['\'']) := by
  have hstored := stored_requestWords hfits
  have hlower : ∀ w ∈ named args ++ (if remaining args = [] then [] else [argsWord args]),
      LowerName w := fun w hw => requestWords_lower hw
  have hne : "args".toList ≠ [] := by decide
  have hargsLower : ∀ c ∈ "args".toList, c.isLower = true := by decide
  have hnamed : ∀ w ∈ named args, argName w ≠ "args".toList := by
    intro w hw
    obtain ⟨name, value, hname, rfl⟩ := isNamed_iff.mp (List.mem_filter.mp hw).2
    rw [argName_assign hname]
    exact isName_ne_args hname
  rw [getVar_invokeVars hne (lower_colon hargsLower), hcommand]
  by_cases hrest : remaining args = []
  · rw [if_pos hrest, List.append_nil] at hstored hlower
    rw [find_none hne (strlwr_lower hargsLower) hstored hlower hnamed, if_pos hrest]
    rfl
  · have hfield : fieldName "args".toList = true := by decide
    have hargsName : argName (argsWord args) = "args".toList := argName_field hfield _
    have hargsValue : argValue (argsWord args) = '\'' :: spaced (remaining args) ++ ['\''] :=
      argValue_field hfield _
    rw [if_neg hrest] at hstored hlower
    obtain ⟨pair, hfind, _, hcase⟩ := find_last hne (strlwr_lower hargsLower) hstored hlower
      hargsName (by simp)
    rw [hargsValue] at hcase
    rcases hcase with h | ⟨hbackslash, _⟩
    · rw [if_neg hrest, hfind, Option.map_some, Option.getD_some, h]
    · rw [List.getLast?_concat] at hbackslash
      cases hbackslash

theorem agrees_of_fits (hfits : RequestFits args) : Agrees env cmd args details := by
  refine ⟨by rw [hcommand], ?_, ?_⟩
  · intro name value hname hlast
    exact getVar_named env hcommand hfits.toLineFits hname hlast
  · rw [getVar_args env hcommand hfits.toLineFits]
    split_ifs with hrest
    · rw [hrest]
      rfl
    · rw [requestValue_short hrest hfits.short, hfits.rest.1, hfits.rest.2]

end Stored

/-! ## Agreement -/

theorem requestLine_newline {cmd line : Str} {args : List Str} (hcmd : PlainWord cmd)
    (hargs : ∀ a ∈ args, '\n' ∉ a) (h : requestLine (cmd :: args) = some line) :
    ∃ body, '\n' ∉ body ∧ line = body ++ ['\n'] := by
  obtain ⟨p, hp, rfl⟩ := Option.map_eq_some_iff.mp h
  obtain ⟨q, hq, rfl⟩ := Option.map_eq_some_iff.mp hp
  have hparts := parseArgs_some hq
  have hspaced : ∀ p : Str → Bool, '\n' ∉ spaced (args.filter p) := by
    intro p hmem
    obtain ⟨a, ha, hnewline⟩ := List.mem_flatMap.mp hmem
    have hfree := hargs a (List.mem_filter.mp ha).1
    simp [hfree] at hnewline
  have hword : '\n' ∉ cmd := fun hmem => absurd (hcmd.2 _ hmem).2.2 (by decide)
  refine ⟨_, ?_, rfl⟩
  have hargs' : '\n' ∉ q.1 := by
    rw [hparts]
    exact hspaced isOther
  have hvars : '\n' ∉ q.2 := by
    rw [hparts]
    exact hspaced fun a => ! isOther a
  by_cases hnil : q.1 = []
  · simp [hnil, hword, hvars]
  · simp [hnil, hword, hvars, hargs']

/-- The server takes the arguments that the client was called with. -/
theorem invoke_arguments_agree (env : Env) {cmd : Str} (hcmd : PlainWord cmd) {args : List Str}
    (hargs : ∀ a ∈ args, '\n' ∉ a) (hfits : RequestFits args) {line : Str}
    (hline : requestLine (cmd :: args) = some line) (more : Str) :
    readLine (line ++ more) = some (line, more) ∧
      ∃ details, invokeDetails line = some details ∧ Agrees env cmd args details := by
  obtain ⟨details, hdetails, hcommand⟩ := invokeDetails_requestLine hfits.toLineFits hcmd hline
  obtain ⟨body, hbody, hend⟩ := requestLine_newline hcmd hargs hline
  refine ⟨?_, details, hdetails, agrees_of_fits env hcommand hfits⟩
  rw [hend, List.append_assoc, List.singleton_append]
  exact readLine_line hbody more

theorem unchanged_values {args : List Str}
    (h : ∀ a ∈ args, isNamed a = true → Unchanged (argValue a)) :
    ∀ name value, isName name = true → IsLast args name value → Unchanged value := by
  rintro name value hname ⟨before, after, rfl, _⟩
  have hvalue := h (name ++ '=' :: value) (by simp) (isNamed_assign hname value)
  rwa [argValue_field (isName_fieldName hname)] at hvalue

/-- `invoke mount -r dev=/dev/sda1 label=my-disk now` -/
theorem invoke_arguments_agree_mount :
    readLine "invoke: mount dev=/dev/sda1 label=my-disk  args='-r now '\n".toList =
        some ("invoke: mount dev=/dev/sda1 label=my-disk  args='-r now '\n".toList, []) ∧
      ∃ details,
        invokeDetails "invoke: mount dev=/dev/sda1 label=my-disk  args='-r now '\n".toList =
          some details ∧
        Agrees quietEnv "mount".toList
          ["-r".toList, "dev=/dev/sda1".toList, "label=my-disk".toList, "now".toList] details := by
  have hcmd : PlainWord "mount".toList := ⟨by decide, by decide⟩
  have hfits : RequestFits
      ["-r".toList, "dev=/dev/sda1".toList, "label=my-disk".toList, "now".toList] :=
    { assignments := by decide +kernel
      values := unchanged_values (by decide +kernel)
      words := by decide +kernel
      rest := by decide +kernel
      short := by decide +kernel }
  have hline : requestLine ["mount".toList, "-r".toList, "dev=/dev/sda1".toList,
      "label=my-disk".toList, "now".toList] =
      some "invoke: mount dev=/dev/sda1 label=my-disk  args='-r now '\n".toList := by
    decide +kernel
  exact invoke_arguments_agree quietEnv hcmd (by decide +kernel) hfits hline []

/-- The documented `password='my secret'` arrives as `my`. -/
theorem invoke_arguments_differ :
    ¬ ∀ (env : Env) (cmd : Str) (args : List Str) (line : Str), PlainWord cmd →
      (∀ a ∈ args, '\n' ∉ a) → requestLine (cmd :: args) = some line →
        ∃ details, invokeDetails line = some details ∧ Agrees env cmd args details := by
  intro h
  obtain ⟨details, hdetails, hagrees⟩ := h quietEnv "wifi".toList
    ["essid=mywifi".toList, "password=my secret".toList]
    "invoke: wifi essid=mywifi password=my secret \n".toList ⟨by decide, by decide⟩
    (by decide +kernel) (by decide +kernel)
  have hvalue := hagrees.named "password".toList "my secret".toList (by decide)
    ⟨["essid=mywifi".toList], [], rfl, by simp⟩
  have hsome : invokeDetails "invoke: wifi essid=mywifi password=my secret \n".toList =
      some " wifi essid=mywifi password=my secret".toList := by decide +kernel
  rw [hsome] at hdetails
  cases hdetails
  revert hvalue
  decide +kernel

end Invocation
