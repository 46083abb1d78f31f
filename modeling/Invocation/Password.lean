import Invocation.Dialogue
import Invocation.Request
import Mathlib.Algebra.Order.BigOperators.Group.List
import Mathlib.Algebra.Order.Group.Nat

/-!
# The password of an AUTH request

The client puts the typed line behind `password=` as it is; the server takes
the request apart at its blanks. Only the first pair is split at its equals
sign: a later one would have to be split in front of a blank.
-/

namespace Invocation

set_option autoImplicit false

open Process

/-! ## What is checked -/

def Event.password? : Event → Option (Option Str)
  | .authCall _ _ password _ => some password
  | _ => none

def checkedPasswords (history : List Event) : List (Option Str) := history.filterMap Event.password?

/-- Handling the request checks this password and no other. -/
def ChecksPassword (env : Env) (types request password : Str) : Prop :=
  ∀ (checkAuth : Str → Server Bool) (s : ServerState) (more : Str), s.input = request ++ more →
    ∃ s', exec (handleRequestWith env checkAuth types) s = (.ok true, s') ∧ s'.input = more ∧
      checkedPasswords s'.history = some password :: checkedPasswords s.history

theorem exec_handleClientAuth (env : Env) (details types : Str) (s : ServerState) :
    ∃ s', exec (handleClientAuth env details types) s = (.ok ⟨⟩, s') ∧ s'.input = s.input ∧
      checkedPasswords s'.history = authPassword details :: checkedPasswords s.history := by
  by_cases h : env.authPAM s.history (requestedTypes types) env.peer.userName
      (authPassword details) = 0
  · refine ⟨{ s with
      history := .send "FAIL: Authentication failed\n".toList ::
        .authCall (requestedTypes types) env.peer.userName (authPassword details) false ::
          s.history }, ?_, rfl, rfl⟩
    simp [handleClientAuth, Server.observe, Server.emit, exec_bind, h]
  · refine ⟨{ s with
      authenticated := true
      history := .send "OKAY: Authenticated\n".toList ::
        .authCall (requestedTypes types) env.peer.userName (authPassword details) true ::
          s.history }, ?_, rfl, rfl⟩
    simp [handleClientAuth, Server.observe, Server.emit, exec_bind, h]

section Keyword

variable {keyword : Str} (h : strCaseEq keyword "AUTH".toList = true)
include h

theorem auth_letter {c : Char} (hc : c ∈ keyword) : c.toLower ∈ "auth".toList := by
  rw [strCaseEq_iff] at h
  have hmem : c.toLower ∈ strlwr keyword := List.mem_map_of_mem hc
  rw [h] at hmem
  exact hmem

theorem auth_ne {c d : Char} (hc : c ∈ keyword) (hd : d.toLower ∉ "auth".toList) : c ≠ d := by
  rintro rfl
  exact hd (auth_letter h hc)

theorem auth_piece : pieceFrom (sepAny [.space, .lit ':']) keyword = true := by
  have hletters : ∀ c ∈ keyword, c.toLower ∈ "auth".toList := fun c hc => auth_letter h hc
  clear h
  induction keyword with
  | nil => rfl
  | cons c t ih =>
    have hne {d : Char} (hd : d.toLower ∉ "auth".toList) : c ≠ d := by
      rintro rfl
      exact hd (hletters _ List.mem_cons_self)
    have hsep : sepAny [.space, .lit ':'] c = false := by
      have hcolon : ¬ ':' = c := (hne (by decide)).symm
      simp [sepAny, sepChar, hne (d := ' ') (by decide), hne (d := '\t') (by decide),
        hne (d := '\n') (by decide), hne (d := '\r') (by decide), hcolon]
    have hrest := ih fun a ha => hletters a (List.mem_cons_of_mem c ha)
    rw [pieceFrom.eq_def]
    simp [hne (d := '\\') (by decide), hsep, hrest]

theorem exec_authRequest (env : Env) (types : Str) (checkAuth : Str → Server Bool)
    {body details more : Str} (hbody : '\n' ∉ body)
    (hstrip : stripTrailingWhitespace body = keyword ++ ' ' :: details)
    (hdetails : details.dropWhile isSpace = details) {s : ServerState}
    (hs : s.input = body ++ '\n' :: more) :
    ∃ s', exec (handleRequestWith env checkAuth types) s = (.ok true, s') ∧ s'.input = more ∧
      checkedPasswords s'.history = authPassword details :: checkedPasswords s.history := by
  have hread : readLine s.input = some (body ++ ['\n'], more) := by
    rw [hs]
    exact readLine_line hbody more
  have hline : stripTrailingWhitespace (body ++ ['\n']) = keyword ++ ' ' :: details := by
    rw [stripTrailingWhitespace_newline, hstrip]
  have htoken : getToken (keyword ++ ' ' :: details) requestSeparator .multi =
      (keyword, some details) := by
    have hpiece := getToken_keyword (auth_piece h) details
    rwa [hdetails] at hpiece
  obtain ⟨s', hexec, hinput, hchecked⟩ := exec_handleClientAuth env details types
    { s with input := more, history := .request (keyword ++ ' ' :: details) :: s.history }
  refine ⟨s', ?_, hinput, hchecked⟩
  unfold handleRequestWith
  rw [exec_bind, Server.exec_readClientLine, hread]
  simp only [Option.getD_some, hline]
  rw [if_neg (List.append_ne_nil_of_right_ne_nil _ (List.cons_ne_nil _ _)), exec_bind,
    Server.exec_emit]
  simp only [htoken, Option.getD_some, h, if_true]
  rw [exec_bind, hexec]
  rfl

theorem checksPassword_iff (env : Env) (types : Str) {body details : Str} (hbody : '\n' ∉ body)
    (hstrip : stripTrailingWhitespace body = keyword ++ ' ' :: details)
    (hdetails : details.dropWhile isSpace = details) (password : Str) :
    ChecksPassword env types (body ++ ['\n']) password ↔ authPassword details = some password := by
  constructor
  · intro hchecks
    obtain ⟨s', hexec, _, hchecked⟩ := hchecks (fun _ => pure true) { input := body ++ ['\n'] } []
      (List.append_nil _).symm
    obtain ⟨t, hexec', _, hchecked'⟩ :=
      exec_authRequest h env types (fun _ => pure true) hbody hstrip
      hdetails (s := { input := body ++ ['\n'] }) rfl
    rw [hexec] at hexec'
    cases hexec'
    rw [hchecked] at hchecked'
    exact (List.cons.inj hchecked').1.symm
  · intro hpassword checkAuth s more hs
    rw [← hpassword]
    apply exec_authRequest h env types checkAuth hbody hstrip hdetails
    rw [hs, List.append_assoc]
    rfl

end Keyword

/-! ## The typed line -/

theorem authPairs_next {details rest : Str} {pair : Str × Str}
    (h : nextPair [' '] ['='] details = some (pair, rest)) :
    authPairs details = pair :: pairs [' '] ['=', ' '] rest := by
  unfold nextPair at h
  unfold authPairs
  generalize getNameValuePair details [' '] ['='] = first at h ⊢
  obtain ⟨p, left⟩ := first
  cases left with
  | none => cases h
  | some r =>
    cases h
    rfl

theorem authPassword_head {details value : Str} {rest : List (Str × Str)}
    (h : authPairs details = ("password".toList, value) :: rest)
    (hrest : ∀ p ∈ rest, p.1 ≠ "password".toList) : authPassword details = some value := by
  have hnone : rest.reverse.find? (fun p => decide (p.1 = "password".toList)) = none := by
    rw [List.find?_eq_none]
    intro p hp
    rw [decide_eq_true_iff]
    exact hrest p (List.mem_reverse.mp hp)
  have hlast : [("password".toList, value)].find? (fun p => decide (p.1 = "password".toList)) =
      some ("password".toList, value) := List.find?_cons_of_pos (decide_eq_true rfl)
  unfold authPassword
  rw [h, List.reverse_cons, List.find?_append, hnone, Option.none_or, hlast]
  rfl

theorem authPassword_mem {details value : Str} (h : authPassword details = some value) :
    ("password".toList, value) ∈ authPairs details := by
  obtain ⟨p, hp, rfl⟩ := Option.map_eq_some_iff.mp h
  have hname : p.1 = "password".toList :=
    of_decide_eq_true
      (List.find?_some (p := fun p : Str × Str => decide (p.1 = "password".toList)) hp)
  rw [← hname]
  exact List.mem_reverse.mp (List.mem_of_find?_eq_some hp)

theorem getTokenFindSeparator_broken (fl : TokenFlags) (hb : fl.backslash = false)
    (hq : fl.honorQuotes = true) (item : SepItem) (mode : Option Char) (w : Str)
    (h : unbroken (sepChar item) mode w = false) :
    ∃ c r, sepChar item c = true ∧
      getTokenFindSeparator fl [item] (leaveQuote mode w) = (c :: r, sepEnd item c r) := by
  have move {c : Char} {s t : Str} (hs : findSeparatorStep fl [item] (c :: s) = .inr t) :
      getTokenFindSeparator fl [item] (c :: s) = getTokenFindSeparator fl [item] t :=
    Scan.find_move (findSeparatorStep_advances fl [item]) hs
  fun_induction unbroken (sepChar item) mode w with
  | case1 => cases h
  | case2 => cases h
  | case3 a t ih =>
    obtain ⟨c, r, hc, hfind⟩ := ih h
    exact ⟨c, r, hc, (move (findSeparatorStep_backslash fl hb [item] (a :: t))).trans hfind⟩
  | case4 q s _ hquote ih =>
    obtain ⟨c, r, hc, hfind⟩ := ih h
    exact ⟨c, r, hc, (move (findSeparatorStep_quote fl hq item hquote s)).trans hfind⟩
  | case5 c s h1 h2 ih =>
    have hquote : isQuote c = false := by simpa using h2
    by_cases hsep : sepChar item c = true
    · exact ⟨c, s, hsep, Scan.find_stop (findSeparatorStep_separator fl item h1 hquote hsep s)⟩
    · rw [Bool.not_eq_true] at hsep
      rw [hsep, Bool.not_false, Bool.true_and] at h
      obtain ⟨d, r, hd, hfind⟩ := ih h
      exact ⟨d, r, hd, (move (findSeparatorStep_other fl item h1 hquote hsep s)).trans hfind⟩
  | case6 q s ih =>
    obtain ⟨c, r, hc, hfind⟩ := ih h
    refine ⟨c, r, hc, Eq.trans ?_ hfind⟩
    simp [leaveQuote, traverseUntil_self]
  | case7 => cases h
  | case8 q a s hne ih =>
    obtain ⟨c, r, hc, hfind⟩ := ih h
    refine ⟨c, r, hc, Eq.trans ?_ hfind⟩
    simp [leaveQuote, traverseUntil_backslash hne]
  | case9 q a s h1 h2 ih =>
    obtain ⟨c, r, hc, hfind⟩ := ih h
    refine ⟨c, r, hc, Eq.trans ?_ hfind⟩
    simp [leaveQuote, traverseUntil_other h1 h2]

theorem pairs_value_count (a : Char) {delim s : Str} (hdelim : delim ≠ []) {p : Str × Str}
    (hp : p ∈ pairs [' '] delim s) : p.2.count a ≤ s.count a := by
  have hsum := pairs_count a (List.cons_ne_nil ' ' []) hdelim s
  have hmem : p.1.count a + p.2.count a ∈
      (pairs [' '] delim s).map fun p => p.1.count a + p.2.count a :=
    List.mem_map_of_mem (f := fun p => p.1.count a + p.2.count a) hp
  have hle := List.le_sum_of_mem hmem
  omega

/-- A text that is broken at a blank has fewer blanks in each of its values. -/
theorem authPairs_broken {details : Str} (h : unbroken blank none details = false)
    {p : Str × Str} (hp : p ∈ authPairs details) : p.2.count ' ' < details.count ' ' := by
  obtain ⟨c, r, hc, hfind⟩ := getTokenFindSeparator_broken .quotes rfl rfl (.lit ' ') none details h
  have hblank : c = ' ' := (of_decide_eq_true hc).symm
  subst hblank
  have hne : details ≠ [] := by
    rintro rfl
    cases h
  have hblanks : [' '] ≠ [] := List.cons_ne_nil _ _
  obtain ⟨before, hbefore, htoken, hrest⟩ := getToken_parts hblanks hne hfind
  have hcount : details.count ' ' = before.count ' ' + r.count ' ' + 1 := by
    rw [← hbefore, List.count_append, List.count_cons_self]
    omega
  have hnext : nextPair [' '] ['='] details =
      some (splitNameValue (getToken details [' '] .quotes).1 ['='], r) := by
    have hpair : getToken details [' '] .quotes = ((getToken details [' '] .quotes).1, some r) :=
      Prod.ext rfl hrest
    unfold nextPair getNameValuePair
    rw [hpair]
  rw [authPairs_next hnext, List.mem_cons] at hp
  rcases hp with rfl | hp
  · have hsplit := splitNameValue_count ' ' (List.cons_ne_nil '=' [])
      (getToken details [' '] .quotes).1
    have hle := htoken.count_le ' '
    omega
  · have hle := pairs_value_count ' ' (List.cons_ne_nil '=' [' ']) hp
    omega

theorem authPassword_typed (typed : Str) :
    authPassword ("password=".toList ++ typed) = some typed ↔
      unbroken blank none typed = true ∧ stripQuotes typed = typed := by
  have hplain : "password=".toList.all (plainChar blank) = true := by decide +kernel
  have hlist : "password=".toList ++ typed = "password".toList ++ '=' :: typed := rfl
  have hunbroken : unbroken blank none ("password=".toList ++ typed) = unbroken blank none typed :=
    unbroken_plain_append hplain typed
  by_cases h : unbroken blank none typed = true
  · have hvalue : unbroken blank none ("password".toList ++ '=' :: typed) = true := by
      rw [← hlist, hunbroken, h]
    have hnext := nextPair_lastAssignment (by decide) (by decide +kernel) (by decide +kernel) hvalue
    have hpairs := authPairs_next hnext
    have hpassword := authPassword_head hpairs (fun p hp => by cases hp)
    rw [hlist, hpassword, Option.some_inj, and_iff_right h, readValue_stripQuotes]
  · rw [Bool.not_eq_true] at h
    constructor
    · intro hpassword
      have hlt := authPairs_broken (hunbroken.trans h) (authPassword_mem hpassword)
      have hcount : ("password=".toList ++ typed).count ' ' = typed.count ' ' := by
        rw [List.count_append]
        exact Nat.zero_add _
      rw [hcount] at hlt
      exact absurd hlt (Nat.lt_irrefl _)
    · rintro ⟨hunbroken, _⟩
      rw [hunbroken] at h
      cases h

/-! ## Pairs -/

/-- A name and a value that stand on a line as they are. -/
structure PlainPair (p : Str × Str) : Prop where
  name : PlainWord p.1
  noEquals : '=' ∉ p.1
  value : ∀ c ∈ p.2, c ≠ ' ' ∧ c ≠ '\n' ∧ c ≠ '\\' ∧ isQuote c = false

def assignment (p : Str × Str) : Str := p.1 ++ '=' :: p.2

/-- The pairs behind a keyword, with single blanks between them. -/
def authRequest (keyword : Str) (ps : List (Str × Str)) : Str :=
  keyword ++ ' ' :: joinWords (ps.map assignment) ++ ['\n']

namespace PlainPair

variable {p : Str × Str} (h : PlainPair p)
include h

theorem name_plain : p.1.all (plainChar blank) = true := by
  rw [List.all_eq_true]
  intro c hc
  obtain ⟨h1, h2, h3⟩ := h.name.2 c hc
  rw [plainChar_iff]
  refine ⟨h1, h2, decide_eq_false ?_⟩
  rintro rfl
  exact absurd h3 (by decide)

theorem name_fieldName : fieldName p.1 = true := by
  simp only [fieldName, Bool.and_eq_true, decide_eq_true_iff]
  refine ⟨⟨h.name.1, h.name_plain⟩, ?_⟩
  rw [List.all_eq_true]
  intro c hc
  obtain ⟨h1, h2, _⟩ := h.name.2 c hc
  rw [plainChar_iff]
  refine ⟨h1, h2, decide_eq_false ?_⟩
  rintro rfl
  exact h.noEquals hc

theorem value_plain : p.2.all (plainChar blank) = true := by
  rw [List.all_eq_true]
  intro c hc
  obtain ⟨h1, _, h2, h3⟩ := h.value c hc
  rw [plainChar_iff]
  exact ⟨h2, h3, decide_eq_false (Ne.symm h1)⟩

theorem assignment_plain : (assignment p).all (plainChar blank) = true := by
  unfold assignment
  rw [List.all_append, List.all_cons, h.name_plain, h.value_plain]
  decide

theorem word : assignment p ≠ [] ∧ wordFrom blank none (assignment p) = true :=
  ⟨List.append_ne_nil_of_right_ne_nil _ (List.cons_ne_nil _ _), wordFrom_plain h.assignment_plain⟩

theorem dequote_assignment : dequote (assignment p) = assignment p :=
  dequote_plain h.name.1 h.name_plain _

theorem newline : '\n' ∉ assignment p := by
  unfold assignment
  rw [List.mem_append, List.mem_cons, not_or, not_or]
  refine ⟨?_, by decide, fun hmem => (h.value _ hmem).2.1 rfl⟩
  intro hmem
  exact absurd (h.name.2 _ hmem).2.2 (by decide)

end PlainPair

/-- Where the pair delimiter is a blank, a delimiter that ends in one splits nothing. -/
theorem getTokenFindSeparator_equalsBlank (fl : TokenFlags) {w : Str}
    (hw : w.all (plainChar blank) = true) :
    getTokenFindSeparator fl [.lit '=', .lit ' '] w = ([], []) := by
  have move {c : Char} {s t : Str}
    (hs : findSeparatorStep fl [.lit '=', .lit ' '] (c :: s) = .inr t) :
      getTokenFindSeparator fl [.lit '=', .lit ' '] (c :: s) =
        getTokenFindSeparator fl [.lit '=', .lit ' '] t :=
    Scan.find_move (findSeparatorStep_advances fl _) hs
  induction w with
  | nil => rfl
  | cons c w ih =>
    simp only [List.all_cons, Bool.and_eq_true] at hw
    obtain ⟨h1, h2, h3⟩ := (plainChar_iff blank c).mp hw.1
    have hrest := ih hw.2
    have hstep : getTokenStepThru fl (c :: w) = w := by simp [getTokenStepThru, h1, h2]
    suffices hmatch : getTokenSepMatch fl (c :: w) [.lit '=', .lit ' '] (c :: w) =
      .failed (c :: w) ∨
        w = [] ∧ getTokenSepMatch fl (c :: w) [.lit '=', .lit ' '] (c :: w) = .failed [] by
      rcases hmatch with hmatch | ⟨rfl, hmatch⟩
      · refine (move (t := w) ?_).trans hrest
        simp [findSeparatorStep, h1, hmatch, hstep]
      · refine (move (t := []) ?_).trans rfl
        simp [findSeparatorStep, h1, hmatch, getTokenStepThru]
    by_cases hc : c = '='
    · subst hc
      cases w with
      | nil => exact Or.inr ⟨rfl, by simp [getTokenSepMatch, isQuote]⟩
      | cons d w =>
        simp only [List.all_cons, Bool.and_eq_true] at hw
        obtain ⟨h4, _, h6⟩ := (plainChar_iff blank d).mp hw.2.1
        have hblank : ¬ ' ' = d := of_decide_eq_false h6
        left
        simp [getTokenSepMatch, isQuote, h4, hblank]
    · left
      simp [getTokenSepMatch, h1, h2, Ne.symm hc]

theorem splitNameValue_equalsBlank {w : Str} (hne : w ≠ []) (hw : w.all (plainChar blank) = true) :
    splitNameValue w ['=', ' '] = (w, []) := by
  have hfind := getTokenFindSeparator_equalsBlank .quotes hw
  obtain ⟨c, t, rfl⟩ := List.exists_cons_of_ne_nil hne
  have hquote : isQuote c = false := by
    simp only [List.all_cons, Bool.and_eq_true] at hw
    exact ((plainChar_iff blank c).mp hw.1).2.1
  have hitems : sepItems ['=', ' '] = [.lit '=', .lit ' '] := rfl
  have htoken : getToken (c :: t) ['=', ' '] .quotes = (c :: t, some []) := by
    simp [getToken, TokenFlags.quotes, hitems] at hfind ⊢
    simp [hfind, getTokenPostProcess, stripTokenQuotes, hquote]
  unfold splitNameValue splitNameText
  rw [if_neg hne, htoken]
  rfl

/-- Every pair behind the first one keeps its equals sign in its name. -/
theorem authPairs_request {p : Str × Str} {ps : List (Str × Str)} (hp : PlainPair p)
    (hps : ∀ q ∈ ps, PlainPair q) :
    authPairs (joinWords ((p :: ps).map assignment)) =
      p :: ps.map fun q => (assignment q, []) := by
  have hfirst : splitNameValue (dequote (assignment p)) ['='] = p := by
    have hread : readValue p.2 = p.2 :=
      readValue_eq (stripQuotes_unquoted fun c hc => (hp.value c hc).2.2.2)
    exact (assignment_pair hp.name_fieldName p.2).trans (Prod.ext rfl hread)
  have hrest : pairs [' '] ['=', ' '] (joinWords (ps.map assignment)) =
      ps.map fun q => (assignment q, []) := by
    rw [pairs_joinWords, List.map_map]
    · apply List.map_congr_left
      intro q hq
      have hword := (hps q hq).word
      rw [Function.comp_apply, (hps q hq).dequote_assignment,
        splitNameValue_equalsBlank hword.1 (hps q hq).assignment_plain]
    · intro w hw
      obtain ⟨q, hq, rfl⟩ := List.mem_map.mp hw
      exact (hps q hq).word
  rw [← hrest]
  cases ps with
  | nil =>
    have hnext := nextPair_lastWord ['='] hp.word.2 hp.word.1
    rw [hfirst] at hnext
    exact authPairs_next hnext
  | cons q ps =>
    have hnext := nextPair_word ['='] hp.word.2 (joinWords ((q :: ps).map assignment))
    rw [hfirst] at hnext
    exact authPairs_next hnext

/-- The pairs of a line without the white space at its end. -/
def stripLast : List (Str × Str) → List (Str × Str)
  | [] => []
  | [p] => [(p.1, stripTrailingWhitespace p.2)]
  | p :: q :: ps => p :: stripLast (q :: ps)

theorem PlainPair.strip {p : Str × Str} (h : PlainPair p) :
    PlainPair (p.1, stripTrailingWhitespace p.2) :=
  ⟨h.name, h.noEquals, fun c hc => h.value c (strip_subset _ hc)⟩

theorem stripLast_plain {ps : List (Str × Str)} (h : ∀ p ∈ ps, PlainPair p) :
    ∀ p ∈ stripLast ps, PlainPair p := by
  fun_induction stripLast ps with
  | case1 => exact h
  | case2 p =>
    intro q hq
    rw [List.mem_singleton.mp hq]
    exact (h p List.mem_cons_self).strip
  | case3 p q ps ih =>
    rintro r hr
    rcases List.mem_cons.mp hr with rfl | hr
    · exact h r List.mem_cons_self
    · exact ih (fun p hp => h p (List.mem_cons_of_mem _ hp)) r hr

theorem stripLast_cons (p : Str × Str) (ps : List (Str × Str)) : stripLast (p :: ps) =
    (p.1, if ps = [] then stripTrailingWhitespace p.2 else p.2) :: stripLast ps := by
  cases ps with
  | nil => rfl
  | cons q ps => rfl

theorem strip_assignments {ps : List (Str × Str)} (hne : ps ≠ []) :
    stripTrailingWhitespace (joinWords (ps.map assignment)) =
        joinWords ((stripLast ps).map assignment) ∧
      joinWords ((stripLast ps).map assignment) ≠ [] := by
  fun_induction stripLast ps with
  | case1 => exact absurd rfl hne
  | case2 p =>
    have hsplit : assignment p = (p.1 ++ ['=']) ++ p.2 := by simp [assignment]
    refine ⟨?_, List.append_ne_nil_of_right_ne_nil _ (List.cons_ne_nil _ _)⟩
    show stripTrailingWhitespace (assignment p) = p.1 ++ '=' :: stripTrailingWhitespace p.2
    rw [hsplit, strip_append]
    split_ifs with hnil
    · rw [strip_concat, if_neg (by decide), hnil]
    · rw [List.append_assoc]
      rfl
  | case3 p q ps ih =>
    obtain ⟨hstrip, hrest⟩ := ih (List.cons_ne_nil _ _)
    obtain ⟨r, rs, hr⟩ := List.exists_cons_of_ne_nil (l := (stripLast (q :: ps)).map assignment) (by
      intro hnil
      rw [hnil] at hrest
      exact hrest rfl)
    have hjoin : joinWords ((p :: stripLast (q :: ps)).map assignment) =
        assignment p ++ ' ' :: joinWords ((stripLast (q :: ps)).map assignment) := by
      rw [List.map_cons, hr]
      rfl
    have hsplit : joinWords ((p :: q :: ps).map assignment) =
        (assignment p ++ [' ']) ++ joinWords ((q :: ps).map assignment) := by
      rw [List.append_assoc]
      rfl
    rw [hjoin, hsplit, strip_append, hstrip, if_neg hrest, List.append_assoc]
    exact ⟨rfl, List.append_ne_nil_of_right_ne_nil _ (List.cons_ne_nil _ _)⟩

theorem joinWords_newline {ps : List (Str × Str)} (h : ∀ p ∈ ps, PlainPair p) :
    '\n' ∉ joinWords (ps.map assignment) := by
  induction ps with
  | nil => exact List.not_mem_nil
  | cons p ps ih =>
    have hp := (h p List.mem_cons_self).newline
    have hrest := ih fun q hq => h q (List.mem_cons_of_mem p hq)
    cases ps with
    | nil => exact hp
    | cons q ps =>
      show '\n' ∉ assignment p ++ ' ' :: joinWords ((q :: ps).map assignment)
      rw [List.mem_append, List.mem_cons, not_or, not_or]
      exact ⟨hp, by decide, hrest⟩

theorem joinWords_assignments {name : Str} (hname : PlainWord name) (value : Str)
    (ws : List (Str × Str)) :
    (joinWords (((name, value) :: ws).map assignment)).dropWhile isSpace =
      joinWords (((name, value) :: ws).map assignment) := by
  obtain ⟨c, t, rfl⟩ := List.exists_cons_of_ne_nil hname.1
  exact joinWords_start (hname.2 c List.mem_cons_self).2.2 _ _

theorem authPassword_request {before after : List (Str × Str)} {value : Str}
    (hps : ∀ p ∈ before ++ ("password".toList, value) :: after, PlainPair p)
    (hother : ∀ p ∈ before, p.1 ≠ "password".toList) :
    authPassword (joinWords ((stripLast (before ++ ("password".toList, value) :: after)).map
        assignment)) = some value ↔
      before = [] ∧ (after = [] → stripTrailingWhitespace value = value) := by
  have hlater : ∀ ps : List (Str × Str), ∀ p ∈ ps.map (fun q => (assignment q, ([] : Str))),
      p.1 ≠ "password".toList := by
    intro ps p hp heq
    obtain ⟨q, _, rfl⟩ := List.mem_map.mp hp
    have hmem : '=' ∈ "password".toList := by
      rw [← heq]
      exact List.mem_append_right _ List.mem_cons_self
    exact absurd hmem (by decide)
  have hplain := stripLast_plain hps
  cases before with
  | nil =>
    rw [List.nil_append, stripLast_cons] at hplain ⊢
    rw [authPassword_head (authPairs_request (hplain _ List.mem_cons_self)
      fun q hq => hplain q (List.mem_cons_of_mem _ hq)) (hlater _), Option.some_inj]
    by_cases hafter : after = []
    · simp [hafter]
    · simp [hafter]
  | cons p before =>
    rw [List.cons_append, stripLast_cons] at hplain ⊢
    apply iff_of_false
    · intro hpassword
      have hmem := authPassword_mem hpassword
      rw [authPairs_request (hplain _ List.mem_cons_self)
        fun q hq => hplain q (List.mem_cons_of_mem _ hq), List.mem_cons] at hmem
      rcases hmem with hmem | hmem
      · exact hother p List.mem_cons_self (congrArg Prod.fst hmem).symm
      · exact hlater _ _ hmem rfl
    · rintro ⟨hnil, _⟩
      cases hnil

/-! ## When the right password is checked -/

section Checks

variable (env : Env) (types : Str)

theorem checksPassword_typed {typed : Str} (htyped : '\n' ∉ typed) :
    ChecksPassword env types (passwordLine typed) (stripTrailingWhitespace typed) ↔
      unbroken blank none (stripTrailingWhitespace typed) = true ∧
        stripQuotes (stripTrailingWhitespace typed) = stripTrailingWhitespace typed := by
  have hkeyword : strCaseEq "AUTH".toList "AUTH".toList = true := strCaseEq_refl _
  have hsplit : "AUTH password=".toList = "AUTH".toList ++ ' ' :: "password=".toList := by
    decide +kernel
  have hnewline : '\n' ∉ "AUTH password=".toList ++ stripTrailingWhitespace typed := by
    rw [List.mem_append, not_or]
    exact ⟨by decide +kernel, fun hmem => htyped (strip_subset _ hmem)⟩
  have hstrip : stripTrailingWhitespace
      ("AUTH password=".toList ++ stripTrailingWhitespace typed) =
      "AUTH".toList ++ ' ' :: ("password=".toList ++ stripTrailingWhitespace typed) := by
    have hlist : "AUTH".toList ++ ' ' :: ("password=".toList ++ stripTrailingWhitespace typed) =
        "AUTH password=".toList ++ stripTrailingWhitespace typed := by
      rw [hsplit, List.append_assoc, List.cons_append]
    rw [hlist, strip_append, stripTrailingWhitespace_idem]
    split_ifs with hnil
    · rw [hnil, List.append_nil]
      decide +kernel
    · rfl
  have hdetails : ("password=".toList ++ stripTrailingWhitespace typed).dropWhile isSpace =
      "password=".toList ++ stripTrailingWhitespace typed := rfl
  rw [← authPassword_typed]
  exact checksPassword_iff hkeyword env types hnewline hstrip hdetails _

theorem checksPassword_request {keyword value : Str} {before after : List (Str × Str)}
    (hkeyword : strCaseEq keyword "AUTH".toList = true)
    (hps : ∀ p ∈ before ++ ("password".toList, value) :: after, PlainPair p)
    (hother : ∀ p ∈ before, p.1 ≠ "password".toList) :
    ChecksPassword env types (authRequest keyword (before ++ ("password".toList, value) :: after))
        value ↔
      before = [] ∧ (after = [] → stripTrailingWhitespace value = value) := by
  rw [← authPassword_request hps hother]
  have hne : before ++ ("password".toList, value) :: after ≠ [] :=
    List.append_ne_nil_of_right_ne_nil _ (List.cons_ne_nil _ _)
  generalize before ++ ("password".toList, value) :: after = ps at *
  obtain ⟨hstrip, hstripped⟩ := strip_assignments hne
  have hnewline : '\n' ∉ keyword ++ ' ' :: joinWords (ps.map assignment) := by
    rw [List.mem_append, List.mem_cons, not_or, not_or]
    refine ⟨fun hmem => ?_, by decide, joinWords_newline hps⟩
    exact auth_ne hkeyword hmem (by decide) rfl
  have hline : stripTrailingWhitespace (keyword ++ ' ' :: joinWords (ps.map assignment)) =
      keyword ++ ' ' :: joinWords ((stripLast ps).map assignment) := by
    have hsplit : ∀ t : Str, keyword ++ ' ' :: t = (keyword ++ [' ']) ++ t := fun t => by simp
    rw [hsplit, strip_append, hstrip, if_neg hstripped, ← hsplit]
  have hdetails : (joinWords ((stripLast ps).map assignment)).dropWhile isSpace =
      joinWords ((stripLast ps).map assignment) := by
    obtain ⟨p, rest, rfl⟩ := List.exists_cons_of_ne_nil hne
    rw [stripLast_cons]
    exact joinWords_assignments (hps p List.mem_cons_self).name _ _
  exact checksPassword_iff hkeyword env types hnewline hline hdetails value

/-- The typed line is checked if and only if no blank stands outside of quotes and no quotes stand
around it, and the pair named password if and only if it is the first one and no white space at
the end of the line is taken from it. -/
theorem password_checked_iff :
    (∀ typed : Str, '\n' ∉ typed →
      (ChecksPassword env types (passwordLine typed) (stripTrailingWhitespace typed) ↔
        unbroken blank none (stripTrailingWhitespace typed) = true ∧
          stripQuotes (stripTrailingWhitespace typed) = stripTrailingWhitespace typed)) ∧
    ∀ (keyword value : Str) (before after : List (Str × Str)),
      strCaseEq keyword "AUTH".toList = true →
      (∀ p ∈ before ++ ("password".toList, value) :: after, PlainPair p) →
      (∀ p ∈ before ++ after, p.1 ≠ "password".toList) →
      (ChecksPassword env types
          (authRequest keyword (before ++ ("password".toList, value) :: after)) value ↔
        before = [] ∧ (after = [] → stripTrailingWhitespace value = value)) := by
  constructor
  · exact fun typed htyped => checksPassword_typed env types htyped
  · intro keyword value before after hkeyword hps hother
    exact checksPassword_request env types hkeyword hps fun p hp =>
      hother p (List.mem_append_left _ hp)

end Checks

theorem password_checked_plain :
    ChecksPassword quietEnv [] (passwordLine "hunter=2 ".toList) "hunter=2".toList ∧
      ChecksPassword quietEnv [] (authRequest "Auth".toList
        [("password".toList, "hunter2".toList), ("tty".toList, "3".toList)]) "hunter2".toList := by
  obtain ⟨htyped, hpairs⟩ := password_checked_iff quietEnv []
  constructor
  · exact (htyped "hunter=2 ".toList (by decide)).mpr ⟨by decide +kernel, by decide +kernel⟩
  · refine (hpairs "Auth".toList "hunter2".toList [] [("tty".toList, "3".toList)] (by decide)
      ?_ ?_).mpr
      ⟨rfl, fun hnil => by cases hnil⟩
    · intro p hp
      rw [List.nil_append, List.mem_cons, List.mem_singleton] at hp
      rcases hp with rfl | rfl
      · exact ⟨⟨by decide, by decide⟩, by decide, by decide⟩
      · exact ⟨⟨by decide, by decide⟩, by decide, by decide⟩
    · intro p hp
      rw [List.nil_append, List.mem_singleton] at hp
      rw [hp]
      decide

/-- `my secret` is cut at its blank, and a password behind another pair is not seen. -/
theorem password_not_checked :
    (¬ ∀ (env : Env) (types typed : Str), '\n' ∉ typed →
      ChecksPassword env types (passwordLine typed) (stripTrailingWhitespace typed)) ∧
    ¬ ∀ (env : Env) (types keyword value : Str) (before after : List (Str × Str)),
      strCaseEq keyword "AUTH".toList = true →
      (∀ p ∈ before ++ ("password".toList, value) :: after, PlainPair p) →
      (∀ p ∈ before ++ after, p.1 ≠ "password".toList) →
      ChecksPassword env types
        (authRequest keyword (before ++ ("password".toList, value) :: after)) value := by
  constructor
  · intro h
    have htyped : '\n' ∉ "my secret".toList := by decide
    have hchecks := (checksPassword_typed quietEnv [] htyped).mp (h quietEnv [] _ htyped)
    exact absurd hchecks.1 (by decide +kernel)
  · intro h
    have hplain : ∀ p ∈ [("user".toList, "x".toList)] ++ ("password".toList, "y".toList) :: [],
        PlainPair p := by
      intro p hp
      rw [List.singleton_append, List.mem_cons, List.mem_singleton] at hp
      rcases hp with rfl | rfl
      · exact ⟨⟨by decide, by decide⟩, by decide, by decide⟩
      · exact ⟨⟨by decide, by decide⟩, by decide, by decide⟩
    have hother : ∀ p ∈ [("user".toList, "x".toList)], p.1 ≠ "password".toList := by
      intro p hp
      rw [List.mem_singleton.mp hp]
      decide
    have hchecks := h quietEnv [] "AUTH".toList "y".toList [("user".toList, "x".toList)] []
      (by decide) hplain (fun p hp => hother p (by rwa [List.append_nil] at hp))
    cases ((checksPassword_request quietEnv [] (by decide) hplain hother).mp hchecks).1

end Invocation
