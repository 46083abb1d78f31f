import Invocation.QuotedRequest
import Invocation.Template

/-!
# Positional arguments

A run template may name the arguments of the client one by one, `$(1)`, `$(2)`
and so on, or all of them, `$(args)`. The server sets a variable for all of
them and none for a single one.
-/

namespace Invocation

set_option autoImplicit false

open Process

/-! ## What the templates are to mean -/

/-- A word that the client collects among its arguments. -/
def IsArgument (a : Str) : Prop := PlainWord a ∧ isOther a = true

theorem decimal_closed (n : Nat) : ∀ c ∈ decimal n, c ≠ '$' ∧ c ≠ '\\' ∧ c ≠ ')' := by
  intro c hc
  have hdigit := decimal_digits n c hc
  refine ⟨?_, ?_, ?_⟩
  all_goals
    rintro rfl
    exact absurd hdigit (by decide)

theorem args_closed : ∀ c ∈ "args".toList, c ≠ '$' ∧ c ≠ '\\' ∧ c ≠ ')' := by decide

/-- The name of the variable for the argument with `k` others in front of it. -/
def argumentName (k : Nat) : VarName := ⟨decimal (k + 1), decimal_closed (k + 1)⟩

def argumentsName : VarName := ⟨"args".toList, args_closed⟩

inductive ArgumentPart
  | text (c : OrdinaryChar)
  | nth (k : Nat)
  | all

namespace ArgumentPart

def part : ArgumentPart → Part
  | text c => .text c
  | nth k => .ref (argumentName k)
  | all => .ref argumentsName

/-- What the documentation says it stands for. -/
def meaning (args : List Str) : ArgumentPart → Str
  | text c => [c.char]
  | nth k => makeShellSafeString (args[k]?.getD [])
  | all => makeShellSafeString (joinWords args)

def isNth : ArgumentPart → Bool
  | nth _ => true
  | _ => false

def isAll : ArgumentPart → Bool
  | all => true
  | _ => false

end ArgumentPart

def templateSource (template : List ArgumentPart) : Str :=
  template.flatMap fun part => part.part.source

/-- Every run entry with this template becomes the command that the documentation says. -/
def ExpandsTo (vars : Vars) (args : List Str) (template : List ArgumentPart) : Prop :=
  ∀ details, (getToken details spaceSeparator .quotes).1 = templateSource template →
    substitutedCommand details vars = some (template.flatMap (ArgumentPart.meaning args))

theorem blank_ordinary : ' ' ≠ '$' ∧ ' ' ≠ '\\' := by decide

def blankText : ArgumentPart := .text ⟨' ', blank_ordinary⟩

/-- References to `n` arguments one by one, the first of them with `k` others in front of it. -/
def eachArgument (k : Nat) : Nat → List ArgumentPart
  | 0 => []
  | 1 => [.nth k]
  | n + 2 => .nth k :: blankText :: eachArgument (k + 1) (n + 1)

/-- Every template means what it is documented to mean; so `prog $(1) ... $(n)` and `prog $(args)`
are the same command. -/
structure PositionsExpand (vars : Vars) (args : List Str) : Prop where
  template : ∀ template, ExpandsTo vars args template
  same : ∀ (prog : List OrdinaryChar) (each all : Str),
    (getToken each spaceSeparator .quotes).1 =
      templateSource (prog.map .text ++ blankText :: eachArgument 0 args.length) →
    (getToken all spaceSeparator .quotes).1 =
      templateSource (prog.map .text ++ [blankText, .all]) →
    substitutedCommand each vars = substitutedCommand all vars

/-! ## The expansion -/

theorem quoteCharsInStr_append (quoteChars s t : Str) :
    quoteCharsInStr quoteChars (s ++ t) = quoteCharsInStr quoteChars s ++
      quoteCharsInStr quoteChars t := by
  induction s with
  | nil => rfl
  | cons c s ih =>
    rw [List.cons_append, quoteCharsInStr, quoteCharsInStr, ih]
    split_ifs <;> rfl

theorem makeShellSafeString_ne_nil {s : Str} (h : s ≠ []) : makeShellSafeString s ≠ [] := by
  obtain ⟨c, t, rfl⟩ := List.exists_cons_of_ne_nil h
  rw [makeShellSafeString, quoteCharsInStr]
  split_ifs <;> exact List.cons_ne_nil _ _

theorem substitutedCommand_template (vars : Vars) {details : Str} {template : List ArgumentPart}
    (h : (getToken details spaceSeparator .quotes).1 = templateSource template) :
    substitutedCommand details vars =
      some (template.flatMap fun part => part.part.meaning vars) := by
  have hparts := substitution_parts vars (template.map ArgumentPart.part)
  rw [List.flatMap_map, List.flatMap_map] at hparts
  rw [substitutedCommand, h]
  exact hparts

theorem eachArgument_meaning (before rest : List Str) :
    (eachArgument before.length rest.length).flatMap (ArgumentPart.meaning (before ++ rest)) =
      makeShellSafeString (joinWords rest) := by
  induction rest generalizing before with
  | nil => rfl
  | cons a rest ih =>
    have hnth : (before ++ a :: rest)[before.length]? = some a := by simp
    cases rest with
    | nil => simp [eachArgument, ArgumentPart.meaning, joinWords]
    | cons b rest =>
      have hrest := ih (before ++ [a])
      rw [List.append_assoc, List.singleton_append, List.length_append] at hrest
      have hblank : quoteCharsInStr badChars (' ' :: joinWords (b :: rest)) =
          ' ' :: makeShellSafeString (joinWords (b :: rest)) := rfl
      rw [joinWords, makeShellSafeString, quoteCharsInStr_append, hblank, ← hrest]
      show makeShellSafeString ((before ++ a :: b :: rest)[before.length]?.getD []) ++ _ = _
      rw [hnth]
      rfl

/-- With the documented variables set, the documented commands are built. -/
theorem positionsExpand_of_vars {vars : Vars} {args : List Str}
    (hall : getVar vars "args".toList = joinWords args)
    (hnth : ∀ k, getVar vars (decimal (k + 1)) = args[k]?.getD []) : PositionsExpand vars args := by
  have hmeaning : ∀ part : ArgumentPart, part.part.meaning vars = part.meaning args := by
    intro part
    cases part with
    | text c => rfl
    | nth k => exact congrArg makeShellSafeString (hnth k)
    | all => exact congrArg makeShellSafeString hall
  have htemplate : ∀ template, ExpandsTo vars args template := by
    intro template details hdetails
    rw [substitutedCommand_template vars hdetails]
    simp only [hmeaning]
  refine ⟨htemplate, ?_⟩
  intro prog each all heach hall
  have hargs := eachArgument_meaning [] args
  rw [List.length_nil, List.nil_append] at hargs
  have hlast : [blankText, .all].flatMap (ArgumentPart.meaning args) =
      blankText.meaning args ++ makeShellSafeString (joinWords args) := by
    simp [ArgumentPart.meaning]
  rw [htemplate _ each heach, htemplate _ all hall, List.flatMap_append, List.flatMap_append,
    List.flatMap_cons, hargs, hlast]

/-! ## The variables of the server -/

theorem strlwr_digits {s : Str} (h : ∀ c ∈ s, c.isDigit = true) : strlwr s = s := by
  have hsame : ∀ c ∈ s, Char.toLower c = id c := by
    intro c hc
    apply toLower_of_not_upper
    rintro ⟨hA, _⟩
    have hrange : (decide (c.val ≥ '0'.val) && decide (c.val ≤ '9'.val)) = true := h c hc
    rw [Bool.and_eq_true, decide_eq_true_iff, decide_eq_true_iff] at hrange
    exact absurd (UInt32.le_trans hA hrange.2) (by decide)
  unfold strlwr
  rw [List.map_congr_left hsame, List.map_id]

theorem isLower_not_digit {c : Char} (h : c.isLower = true) : c.isDigit = false := by
  by_contra hdigit
  rw [Bool.not_eq_false] at hdigit
  have hlower : (decide (c.val ≥ 'a'.val) && decide (c.val ≤ 'z'.val)) = true := h
  have hrange : (decide (c.val ≥ '0'.val) && decide (c.val ≤ '9'.val)) = true := hdigit
  rw [Bool.and_eq_true, decide_eq_true_iff, decide_eq_true_iff] at hlower hrange
  exact absurd (UInt32.le_trans hlower.1 hrange.2) (by decide)

section Arguments

variable {args : List Str} (hargs : ∀ a ∈ args, IsArgument a)
include hargs

theorem remaining_arguments : remaining args = args := by
  apply List.filter_eq_self.mpr
  intro a ha
  have hother := (hargs a ha).2
  by_contra hnamed
  rw [Bool.not_eq_true, Bool.not_eq_false'] at hnamed
  rw [isNamed_not_isOther hnamed] at hother
  cases hother

theorem named_arguments : named args = [] := by
  apply List.filter_eq_nil_iff.mpr
  intro a ha hnamed
  have hother := (hargs a ha).2
  rw [isNamed_not_isOther hnamed] at hother
  cases hother

omit hargs in
theorem joinWords_arguments (hne : args ≠ []) :
    ∃ before a, args = before ++ [a] ∧ joinWords args = spaced before ++ a := by
  obtain ⟨before, a, hconcat⟩ := List.eq_nil_or_concat args |>.resolve_left hne
  rw [List.concat_eq_append] at hconcat
  exact ⟨before, a, hconcat, by rw [hconcat, joinWords_concat]⟩

theorem spaced_plain : ∀ c ∈ spaced args, c ≠ '\'' ∧ c ≠ '\\' ∧ isQuote c = false := by
  intro c hc
  obtain ⟨a, ha, hc⟩ := List.mem_flatMap.mp hc
  rcases List.mem_append.mp hc with hc | hc
  · obtain ⟨h1, h2, _⟩ := (hargs a ha).1.2 c hc
    refine ⟨?_, h1, h2⟩
    rintro rfl
    exact absurd h2 (by decide)
  · rw [List.mem_singleton.mp hc]
    decide

theorem arguments_unchanged : Unchanged (joinWords args) := by
  by_cases hne : args = []
  · subst hne
    exact ⟨rfl, rfl⟩
  · obtain ⟨before, a, rfl, hjoin⟩ := joinWords_arguments hne
    have hlast := (hargs a (by simp)).1
    have hbefore := spaced_plain fun b hb => hargs b (List.mem_append_left _ hb)
    rw [hjoin]
    constructor
    · rw [strip_append, stripTrailingWhitespace_solid fun c hc => (hlast.2 c hc).2.2,
        if_neg hlast.1]
    · apply stripQuotes_unquoted
      intro c hc
      rcases List.mem_append.mp hc with hc | hc
      · exact (hbefore c hc).2.2
      · exact (hlast.2 c hc).2.1

theorem argsWord_closed : wordFrom blank none (argsWord args) = true := by
  have hspaced : ∀ c ∈ spaced args, c ≠ '\'' ∧ c ≠ '\\' := fun c hc =>
    ⟨(spaced_plain hargs c hc).1, (spaced_plain hargs c hc).2.1⟩
  have hname : "args='".toList = "args=".toList ++ ['\''] := by decide
  rw [argsWord_eq, remaining_arguments hargs, hname, List.append_assoc, List.append_assoc,
    wordFrom_plain_append (by decide)]
  exact wordFrom_enclosed (by decide) hspaced

theorem lineFits_arguments : LineFits args := by
  refine ⟨?_, ?_, ?_⟩
  · intro a ha hhead hequals
    have hother := (hargs a ha).2
    simp [isOther, hhead, hequals] at hother
  · rintro name value hname ⟨before, after, rfl, _⟩
    have hother := (hargs (name ++ '=' :: value) (by simp)).2
    rw [isNamed_not_isOther (isNamed_assign hname value)] at hother
    cases hother
  · rw [requestWords, remaining_arguments hargs, named_arguments hargs]
    by_cases hnil : args = []
    · rw [if_pos hnil]
      rfl
    · rw [if_neg hnil, if_pos rfl]
      exact unbroken_of_wordFrom (argsWord_closed hargs)

theorem getVar_position (env : Env) {cmd details : Str}
    (hcommand : invokeCommand details = (cmd, joinWords (requestWords args))) (k : Nat) :
    getVar (invokeVars env details) (decimal (k + 1)) = [] := by
  have hdigits := decimal_digits (k + 1)
  have hne := decimal_ne_nil (k + 1)
  have hcolon : ':' ∉ decimal (k + 1) := fun hmem => absurd (hdigits _ hmem) (by decide)
  have hstored := stored_requestWords (lineFits_arguments hargs)
  have hother : ∀ w ∈ named args ++ (if remaining args = [] then [] else [argsWord args]),
      argName w ≠ decimal (k + 1) := by
    intro w hw heq
    have hname : ∀ c ∈ argName w, c.isLower = true := requestWords_lower hw
    obtain ⟨c, hc⟩ := List.exists_mem_of_ne_nil _ hne
    have hlower := hname c (heq ▸ hc)
    exact absurd (hdigits c hc) (by rw [isLower_not_digit hlower]; exact Bool.false_ne_true)
  have hnone := find_none hne (strlwr_digits hdigits) hstored (fun w hw => requestWords_lower hw)
    hother
  rw [getVar_invokeVars hne hcolon, hcommand, hnone]
  rfl

/-- All arguments at once arrive in order, a long text with the blank behind the last one. -/
theorem getVar_arguments (env : Env) {cmd details : Str}
    (hcommand : invokeCommand details = (cmd, joinWords (requestWords args))) :
    getVar (invokeVars env details) "args".toList =
      joinWords args ++ (if ShortText (joinWords args) then [] else [' ']) := by
  rw [getVar_args env hcommand (lineFits_arguments hargs), remaining_arguments hargs]
  by_cases hnil : args = []
  · subst hnil
    rfl
  · have hunchanged := arguments_unchanged hargs
    rw [if_neg hnil]
    by_cases hshort : ShortText (joinWords args)
    · rw [if_pos hshort, requestValue_short hnil hshort, hunchanged.1, hunchanged.2,
        List.append_nil]
    · have htext : (joinWords args).dropWhile isSpace ≠ [] := by
        rw [ne_eq, List.dropWhile_eq_nil_iff]
        intro hspace
        have hstrip : stripTrailingWhitespace (joinWords args) = [] :=
          List.rdropWhile_eq_nil_iff.mpr hspace
        rw [hunchanged.1] at hstrip
        rw [hstrip] at hshort
        exact hshort (by decide)
      rw [if_neg hshort, requestValue_long hnil hshort htext]

end Arguments

/-! ## When positions work -/

/-- A blank more for every `$(args)`. -/
theorem flatMap_blank_length {vars : Vars} {args : List Str}
    (hargs : getVar vars "args".toList = joinWords args ++ [' ']) {template : List ArgumentPart}
    (hnth : ∀ part ∈ template, part.isNth = false) :
    (template.flatMap fun part => part.part.meaning vars).length =
      (template.flatMap (ArgumentPart.meaning args)).length +
        template.countP ArgumentPart.isAll := by
  induction template with
  | nil => rfl
  | cons part template ih =>
    have hrest := ih fun p hp => hnth p (List.mem_cons_of_mem _ hp)
    rw [List.flatMap_cons, List.flatMap_cons, List.length_append, List.length_append, hrest]
    cases part with
    | text c =>
      rw [List.countP_cons_of_neg Bool.false_ne_true, ← Nat.add_assoc]
      rfl
    | nth k => cases hnth _ List.mem_cons_self
    | all =>
      have hmeaning : ArgumentPart.all.part.meaning vars = ArgumentPart.all.meaning args ++ [' '] :=
        (congrArg makeShellSafeString hargs).trans (quoteCharsInStr_append _ _ _)
      rw [hmeaning, List.countP_cons_of_pos rfl, List.length_append, List.length_singleton]
      omega

/-- A template without `$(k)` is expanded as it should be, except for the blank that `$(args)`
brings along when the text is long. -/
theorem all_expands_iff {vars : Vars} {args : List Str}
    (hargs : getVar vars "args".toList =
      joinWords args ++ (if ShortText (joinWords args) then [] else [' ']))
    {template : List ArgumentPart} (hnth : ∀ part ∈ template, part.isNth = false) {details : Str}
    (hentry : (getToken details spaceSeparator .quotes).1 = templateSource template) :
    substitutedCommand details vars = some (template.flatMap (ArgumentPart.meaning args)) ↔
      ShortText (joinWords args) ∨ ∀ part ∈ template, part.isAll = false := by
  rw [substitutedCommand_template _ hentry, Option.some_inj]
  constructor
  · intro heq
    by_cases hshort : ShortText (joinWords args)
    · exact .inl hshort
    · right
      rw [if_neg hshort] at hargs
      have hlen := flatMap_blank_length hargs hnth
      rw [heq] at hlen
      intro part hpart
      have hnone : template.countP ArgumentPart.isAll = 0 := by omega
      exact Bool.eq_false_iff.mpr (List.countP_eq_zero.mp hnone part hpart)
  · intro h
    apply List.flatMap_congr
    intro part hpart
    cases part with
    | text c => rfl
    | nth k => cases hnth _ hpart
    | all =>
      rcases h with hshort | hnone
      · rw [if_pos hshort, List.append_nil] at hargs
        exact congrArg makeShellSafeString hargs
      · cases hnone _ hpart

/-- All arguments at once arrive in order, but for a blank behind a long text; single ones are
empty, so the documented expansion is the one without arguments. -/
theorem positions_expand_iff (env : Env) {cmd : Str} (hcmd : PlainWord cmd) {args : List Str}
    (hargs : ∀ a ∈ args, IsArgument a) {line : Str} (hline : requestLine (cmd :: args) = some line)
    (checkAuth : Str → Server Bool) (types : Str) {more : Str} {s : ServerState}
    (hs : s.input = line ++ more) :
    ∃ details, exec (handleRequestWith env checkAuth types) s =
        exec (do
          handleInvoke env checkAuth details
          pure true) { s with
            input := more
            history := .request (stripTrailingWhitespace line) :: s.history } ∧
      (invokeCommand details).1 = cmd ∧
      (∀ template, (∀ part ∈ template, part.isNth = false) → ∀ entry,
        (getToken entry spaceSeparator .quotes).1 = templateSource template →
          (substitutedCommand entry (invokeVars env details) =
              some (template.flatMap (ArgumentPart.meaning args)) ↔
            ShortText (joinWords args) ∨ ∀ part ∈ template, part.isAll = false)) ∧
      (PositionsExpand (invokeVars env details) args ↔ args = []) := by
  obtain ⟨details, hdetails, hcommand⟩ :=
    invokeDetails_requestLine (lineFits_arguments hargs) hcmd hline
  have hall := getVar_arguments hargs env hcommand
  have hnth := getVar_position hargs env hcommand
  have hread : readLine s.input = some (line, more) := by
    have hnewline : ∀ a ∈ args, '\n' ∉ a :=
      fun a ha hmem => absurd ((hargs a ha).1.2 _ hmem).2.2 (by decide)
    obtain ⟨body, hbody, hend⟩ := requestLine_newline hcmd hnewline hline
    rw [hs, hend, List.append_assoc, List.singleton_append]
    exact readLine_line hbody more
  refine ⟨details, exec_invokeRequest env checkAuth types hdetails hread, by rw [hcommand], ?_, ?_⟩
  · intro template htemplate entry hentry
    exact all_expands_iff hall htemplate hentry
  · constructor
    · intro hexpand
      have hentry : (getToken "$(1)".toList spaceSeparator .quotes).1 =
          templateSource [.nth 0] := by
        decide +kernel
      have hfirst := hexpand.template [.nth 0] "$(1)".toList hentry
      rw [substitutedCommand_template _ hentry, Option.some_inj] at hfirst
      have hunset : (ArgumentPart.nth 0).part.meaning (invokeVars env details) = [] :=
        congrArg makeShellSafeString (hnth 0)
      rw [List.flatMap_singleton, List.flatMap_singleton, hunset] at hfirst
      cases args with
      | nil => rfl
      | cons a args =>
        have ha := (hargs a List.mem_cons_self).1.1
        exact absurd hfirst.symm (makeShellSafeString_ne_nil ha)
    · rintro rfl
      apply positionsExpand_of_vars hall
      intro k
      rw [hnth]
      rfl

/-- `invoke date` -/
theorem positions_expand_none : ∃ details, (invokeCommand details).1 = "date".toList ∧
    PositionsExpand (invokeVars quietEnv details) [] := by
  have hline : requestLine ["date".toList] = some "invoke: date \n".toList := by decide +kernel
  have hcmd : PlainWord "date".toList := ⟨by decide, by decide⟩
  have hargs : ∀ a ∈ ([] : List Str), IsArgument a := fun a ha => by cases ha
  obtain ⟨details, _, hcommand, _, hexpand⟩ := positions_expand_iff quietEnv hcmd hargs hline
    (fun _ => pure true) [] (s := ⟨_, [], false⟩) (List.append_nil _).symm
  exact ⟨details, hcommand, hexpand.mpr rfl⟩

/-- `invoke powersave` with `run "/usr/bin/cpufreq.sh $(1)"` runs the script without an argument. -/
theorem positions_not_expanded :
    ¬ ∀ (env : Env) (cmd : Str) (args : List Str) (line : Str), PlainWord cmd →
      (∀ a ∈ args, IsArgument a) → requestLine (cmd :: args) = some line →
        ∃ details, invokeDetails line = some details ∧
          PositionsExpand (invokeVars env details) args := by
  intro h
  obtain ⟨details, hdetails, hexpand⟩ := h quietEnv "cpufreq".toList ["powersave".toList]
    "invoke: cpufreq  args='powersave '\n".toList ⟨by decide, by decide⟩
    (fun a ha => by
      rw [List.mem_singleton.mp ha]
      exact ⟨⟨by decide, by decide⟩, by decide⟩)
    (by decide +kernel)
  have hsome : invokeDetails "invoke: cpufreq  args='powersave '\n".toList =
      some " cpufreq  args='powersave '".toList := by decide +kernel
  rw [hsome] at hdetails
  cases hdetails
  have hentry : (getToken "$(1)".toList spaceSeparator .quotes).1 = templateSource [.nth 0] := by
    decide +kernel
  have hfirst := hexpand.template [.nth 0] _ hentry
  revert hfirst
  decide +kernel

end Invocation
