import Invocation.Request

/-!
# Quoted values of an INVOKE request

`GetNameValuePair` takes the double quotes off a value, and `HandleInvoke` then
strips white space and quotes once more: a value arrives as it was written if
there is nothing left for the second round to take.
-/

namespace Invocation

set_option autoImplicit false

open Process

/-! ## The line -/

/-- A name of letters and digits with a value that can stand between double quotes. -/
structure QuotablePair (p : Str × Str) : Prop where
  name : p.1 ≠ [] ∧ ∀ c ∈ p.1, c.isAlphanum = true
  value : ∀ c ∈ p.2, c ≠ '"' ∧ c ≠ '\\' ∧ c ≠ '\n'

def DistinctNames (ps : List (Str × Str)) : Prop := ps.Pairwise fun p q => strlwr p.1 ≠ strlwr q.1

def doubleQuoted (s : Str) : Str := '"' :: s ++ ['"']

def quotedWords (ps : List (Str × Str)) : List Str :=
  ps.map fun p => p.1 ++ '=' :: doubleQuoted p.2

def quotedLine (cmd : Str) (ps : List (Str × Str)) : Str :=
  "INVOKE ".toList ++ joinWords (cmd :: quotedWords ps) ++ ['\n']

namespace QuotablePair

variable {p : Str × Str} (h : QuotablePair p)
include h

theorem fieldName : fieldName p.1 = true := by
  have hplain (sep : Char) (hsep : sep.isAlphanum = false) :
      p.1.all (plainChar (sepChar (.lit sep))) = true := by
    rw [List.all_eq_true]
    intro c hc
    have hc := h.name.2 c hc
    rw [plainChar_iff]
    refine ⟨ne_of_test hc (by decide), ?_, decide_eq_false (ne_of_test hc hsep).symm⟩
    simp [isQuote, ne_of_test hc (d := '"') (by decide),
      ne_of_test hc (d := '\'') (by decide)]
  simp only [Invocation.fieldName, Bool.and_eq_true, decide_eq_true_iff]
  exact ⟨⟨h.name.1, hplain ' ' (by decide)⟩, hplain '=' (by decide)⟩

theorem newline : '\n' ∉ p.1 ++ '=' :: doubleQuoted p.2 := by
  intro hmem
  unfold doubleQuoted at hmem
  rw [List.mem_append, List.mem_cons, List.mem_append, List.mem_cons, List.mem_singleton] at hmem
  rcases hmem with hmem | hmem | (hmem | hmem) | hmem
  · exact absurd (h.name.2 _ hmem) (by decide)
  · exact absurd hmem (by decide)
  · exact absurd hmem (by decide)
  · exact (h.value _ hmem).2.2 rfl
  · exact absurd hmem (by decide)

end QuotablePair

/-- What arrives of a value in quotes: from 99 characters on its length is in the cache, and the
white space at its end is not found. -/
def arrived (v : Str) : Str :=
  if v.length + 1 < StrLenCache.minLen then stripQuotes (stripTrailingWhitespace v)
  else stripQuotes v

theorem requestValue_doubleQuoted (v : Str) : requestValue (doubleQuoted v) = arrived v := by
  have hread : readValue (doubleQuoted v) = v := by
    have hne : doubleQuoted v ≠ [] := List.cons_ne_nil _ _
    rw [readValue, if_neg hne]
    exact stripQuotes_enclosed (by decide) v
  have hlast : ('"' :: (v ++ ['"'])).getLast? = some '"' := List.getLast?_concat (l := '"' :: v)
  have hquoted : StrLenCache.quoted (doubleQuoted v) = true := by
    have hdrop : (doubleQuoted v).dropWhile isSpace = '"' :: (v ++ ['"']) := rfl
    rw [StrLenCache.quoted_of_rest hdrop (by decide), hlast, beq_self_eq_true]
  have hlen : (doubleQuoted v).length = v.length + 2 := by simp [doubleQuoted]
  unfold requestValue arrived
  rw [hread, hlen]
  by_cases hlong : StrLenCache.minLen < v.length + 2
  · rw [if_pos ⟨hquoted, hlong⟩, if_neg (by omega)]
  · rw [if_neg fun h => hlong h.2, if_pos (by omega)]

theorem tokens_joinWords {ws : List Str}
    (h : ∀ w ∈ ws, w ≠ [] ∧ wordFrom blank none w = true) :
    tokens [' '] .quotes (joinWords ws) = ws.map dequote := by
  have hnext {s token rest : Str} (hs : getToken s [' '] .quotes = (token, some rest)) :
      tokens [' '] .quotes s = token :: tokens [' '] .quotes rest := by
    have hstep : nextToken [' '] .quotes s = some (token, rest) := by
      unfold nextToken
      rw [hs]
    exact Scan.unfold_some (nextToken_shrinks _ _) hstep
  induction ws with
  | nil => rfl
  | cons w ws ih =>
    obtain ⟨hne, hw⟩ := h w List.mem_cons_self
    cases ws with
    | nil => exact hnext (getToken_lastWord true (List.cons_ne_nil _ _) rfl hw hne)
    | cons v ws =>
      have htoken : getToken (w ++ ' ' :: joinWords (v :: ws)) [' '] .quotes =
          (dequote w, some (joinWords (v :: ws))) :=
        getToken_word true _ (List.cons_ne_nil _ _) rfl hw (by decide) (by decide) (by decide)
      rw [joinWords, hnext htoken, ih fun u hu => h u (List.mem_cons_of_mem w hu)]
      rfl

theorem requestAssignments_quoted {ps : List (Str × Str)} (h : ∀ p ∈ ps, QuotablePair p) :
    requestAssignments (joinWords (quotedWords ps)) = ps.map fun p => (p.1, arrived p.2) := by
  unfold requestAssignments
  rw [tokens_joinWords, quotedWords, List.map_map, List.map_map]
  · apply List.map_congr_left
    intro p hp
    have hname := (h p hp).fieldName
    simp only [Function.comp_apply, dequote_field hname, requestAssign_field hname,
      requestValue_doubleQuoted]
  · intro w hw
    obtain ⟨p, hp, rfl⟩ := List.mem_map.mp hw
    exact assignment_word (h p hp).fieldName (wordFrom_enclosed (by decide) fun c hc =>
      ⟨((h p hp).value c hc).1, ((h p hp).value c hc).2.1⟩)

/-! ## The server's reading -/

theorem exec_invokeRequest (env : Env) (checkAuth : Str → Server Bool) (types : Str)
    {line details more : Str} (hdetails : invokeDetails line = some details) {s : ServerState}
    (hread : readLine s.input = some (line, more)) :
    exec (handleRequestWith env checkAuth types) s =
      exec (do
        handleInvoke env checkAuth details
        pure true) { s with
          input := more
          history := .request (stripTrailingWhitespace line) :: s.history } := by
  unfold invokeDetails at hdetails
  have hinvoke : strCaseEq (getToken (stripTrailingWhitespace line) requestSeparator .multi).1
      "INVOKE".toList = true := by
    by_contra hno
    rw [if_neg hno] at hdetails
    cases hdetails
  rw [if_pos hinvoke, Option.some_inj] at hdetails
  have hword : ∀ w : Str, strCaseEq w "INVOKE".toList = false →
      strCaseEq (getToken (stripTrailingWhitespace line) requestSeparator .multi).1 w = false := by
    intro w hw
    rw [strCaseEq_iff] at hinvoke
    rw [strCaseEq, hinvoke, ← strCaseEq, strCaseEq_comm, hw]
  have hne : stripTrailingWhitespace line ≠ [] := by
    intro hnil
    rw [hnil] at hinvoke
    revert hinvoke
    decide +kernel
  unfold handleRequestWith
  rw [exec_bind, Server.exec_readClientLine, hread]
  simp only [Option.getD_some]
  rw [if_neg hne, exec_bind, Server.exec_emit]
  simp only [hword "AUTH".toList (by decide), hword "EXEC".toList (by decide), hinvoke, hdetails,
    Bool.false_eq_true, if_false, if_true]

theorem quotedLine_strip {cmd : Str} (hcmd : PlainWord cmd) (ps : List (Str × Str)) :
    stripTrailingWhitespace (quotedLine cmd ps) =
      "INVOKE".toList ++ ' ' :: joinWords (cmd :: quotedWords ps) := by
  have hwords : ∀ ws : List Str, ws ≠ [] → (∀ w ∈ ws, w ≠ [] ∧ stripTrailingWhitespace w = w) →
      stripTrailingWhitespace (joinWords ws) = joinWords ws ∧ joinWords ws ≠ [] := by
    intro ws
    induction ws with
    | nil => exact fun hne => absurd rfl hne
    | cons w ws ih =>
      intro _ hws
      obtain ⟨hw, hstrip⟩ := hws w List.mem_cons_self
      cases ws with
      | nil => exact ⟨hstrip, hw⟩
      | cons v ws =>
        obtain ⟨hrest, hne⟩ := ih (List.cons_ne_nil _ _)
          fun u hu => hws u (List.mem_cons_of_mem w hu)
        have hsplit : joinWords (w :: v :: ws) = (w ++ [' ']) ++ joinWords (v :: ws) := by
          rw [List.append_assoc]
          rfl
        rw [hsplit, strip_append, hrest, if_neg hne]
        exact ⟨rfl, List.append_ne_nil_of_right_ne_nil _ hne⟩
  have hall : ∀ w ∈ cmd :: quotedWords ps, w ≠ [] ∧ stripTrailingWhitespace w = w := by
    intro w hw
    rcases List.mem_cons.mp hw with rfl | hw
    · exact ⟨hcmd.1, stripTrailingWhitespace_solid fun c hc => (hcmd.2 c hc).2.2⟩
    · obtain ⟨p, _, rfl⟩ := List.mem_map.mp hw
      have hsplit : p.1 ++ '=' :: doubleQuoted p.2 = (p.1 ++ '=' :: '"' :: p.2) ++ ['"'] := by
        simp [doubleQuoted]
      rw [hsplit, strip_concat, if_neg (by decide)]
      exact ⟨List.append_ne_nil_of_right_ne_nil _ (List.cons_ne_nil _ _), rfl⟩
  obtain ⟨hstrip, hne⟩ := hwords _ (List.cons_ne_nil _ _) hall
  have hkeyword : "INVOKE ".toList = "INVOKE".toList ++ [' '] := by decide +kernel
  have hsplit : ∀ t : Str, "INVOKE".toList ++ ' ' :: t = "INVOKE ".toList ++ t := by
    intro t
    rw [hkeyword, List.append_assoc, List.singleton_append]
  rw [hsplit]
  unfold quotedLine
  generalize "INVOKE ".toList = keyword
  rw [stripTrailingWhitespace_newline, strip_append, hstrip, if_neg hne]

theorem joinWords_quotedWords {ps : List (Str × Str)} (h : ∀ p ∈ ps, QuotablePair p) :
    (joinWords (quotedWords ps)).dropWhile isSpace = joinWords (quotedWords ps) := by
  cases ps with
  | nil => rfl
  | cons p ps =>
    obtain ⟨hne, hname⟩ := (h p List.mem_cons_self).name
    obtain ⟨c, t, ht⟩ := List.exists_cons_of_ne_nil hne
    have hc : isSpace c = false :=
      not_space_of_test (by decide) (hname c (ht ▸ List.mem_cons_self))
    unfold quotedWords
    rw [List.map_cons, ht]
    exact joinWords_start hc _ _

section Reading

variable {cmd : Str} (hcmd : PlainWord cmd) {ps : List (Str × Str)} (h : ∀ p ∈ ps, QuotablePair p)
include hcmd h

theorem quotedLine_newline : '\n' ∉ "INVOKE ".toList ++ joinWords (cmd :: quotedWords ps) := by
  have hwords : ∀ w ∈ cmd :: quotedWords ps, '\n' ∉ w := by
    intro w hw
    rcases List.mem_cons.mp hw with rfl | hw
    · exact fun hmem => absurd (hcmd.2 _ hmem).2.2 (by decide)
    · obtain ⟨p, hp, rfl⟩ := List.mem_map.mp hw
      exact (h p hp).newline
  rw [List.mem_append, not_or]
  refine ⟨by decide +kernel, ?_⟩
  generalize cmd :: quotedWords ps = ws at hwords
  fun_induction joinWords ws with
  | case1 => exact List.not_mem_nil
  | case2 w => exact hwords w List.mem_cons_self
  | case3 w v ws ih =>
    have hrest := ih fun u hu => hwords u (List.mem_cons_of_mem w hu)
    rw [List.mem_append, List.mem_cons, not_or, not_or]
    exact ⟨hwords w List.mem_cons_self, by decide, hrest⟩

theorem invokeDetails_quotedLine : ∃ details, invokeDetails (quotedLine cmd ps) = some details ∧
    invokeCommand details = (cmd, joinWords (quotedWords ps)) := by
  have hkeyword : pieceFrom (sepAny [.space, .lit ':']) "INVOKE".toList = true := by decide +kernel
  have hskip : (joinWords (cmd :: quotedWords ps)).dropWhile isSpace =
      joinWords (cmd :: quotedWords ps) := by
    obtain ⟨c, t, rfl⟩ := List.exists_cons_of_ne_nil hcmd.1
    have hc : isSpace c = false := (hcmd.2 c List.mem_cons_self).2.2
    obtain ⟨rest, hrest⟩ : ∃ rest, joinWords ((c :: t) :: quotedWords ps) = c :: rest := by
      cases quotedWords ps with
      | nil => exact ⟨_, rfl⟩
      | cons w ws => exact ⟨_, rfl⟩
    rw [hrest, List.dropWhile_cons_of_neg (by simp [hc])]
  refine ⟨joinWords (cmd :: quotedWords ps), ?_, ?_⟩
  · unfold invokeDetails
    rw [quotedLine_strip hcmd]
    have hinvoke : strCaseEq "INVOKE".toList "INVOKE".toList = true := strCaseEq_refl _
    simp only [getToken_keyword hkeyword, hskip, hinvoke, if_true, Option.getD_some]
  · cases hws : quotedWords ps with
    | nil =>
      have hgap : ∀ c ∈ ([] : Str), c = ' ' := fun c hc => by cases hc
      have hcommand := invokeCommand_word hcmd hgap (fun _ => rfl) List.dropWhile_nil
      rwa [List.append_nil, List.append_nil] at hcommand
    | cons w ws =>
      have hstart : (joinWords (w :: ws)).dropWhile isSpace = joinWords (w :: ws) := by
        rw [← hws]
        exact joinWords_quotedWords h
      have hgap : ∀ c ∈ [' '], c = ' ' := fun c hc => List.mem_singleton.mp hc
      have hcommand := invokeCommand_word hcmd hgap (fun hnil => by cases hnil) hstart
      rwa [List.append_assoc] at hcommand

end Reading

/-! ## Values -/

theorem getVar_quoted (env : Env) {cmd details : Str} {ps : List (Str × Str)}
    (h : ∀ p ∈ ps, QuotablePair p) (hdistinct : DistinctNames ps)
    (hcommand : invokeCommand details = (cmd, joinWords (quotedWords ps))) {p : Str × Str}
    (hp : p ∈ ps) : getVar (invokeVars env details) p.1 = arrived p.2 := by
  have hname := (h p hp).name
  have hcolon : ':' ∉ p.1 := fun hmem => absurd (hname.2 ':' hmem) (by decide)
  obtain ⟨before, after, rfl⟩ := List.append_of_mem hp
  have hafter : ∀ q ∈ after, sameTag q.1 p.1 = false := by
    intro q hq
    have hpair := (List.pairwise_append.mp hdistinct).2.1
    have hne := (List.pairwise_cons.mp hpair).1 q hq
    apply Bool.eq_false_iff.mpr
    rw [ne_eq, sameTag_iff]
    exact fun hsame => hne hsame.2.symm
  have hkept : ∀ q ∈ before ++ p :: after, q.1 ≠ [] := fun q hq => (h q hq).name.1
  have hfilter : (requestAssignments (invokeCommand details).2).filter
      (fun pair => decide (pair.1 ≠ [])) =
        (before ++ p :: after).map fun p => (p.1, arrived p.2) := by
    rw [hcommand, requestAssignments_quoted h, List.filter_eq_self]
    intro pair hpair
    obtain ⟨q, hq, rfl⟩ := List.mem_map.mp hpair
    exact decide_eq_true (hkept q hq)
  have hnone : (after.map fun p => (p.1, arrived p.2)).reverse.find? (sameTag ·.1 p.1) =
      none := by
    rw [List.find?_eq_none]
    intro pair hpair
    obtain ⟨q, hq, rfl⟩ := List.mem_map.mp (List.mem_reverse.mp hpair)
    rw [hafter q hq]
    exact Bool.false_ne_true
  have hfirst : ∀ (value : Str) (rest : List (Str × Str)),
      ((p.1, value) :: rest).find? (sameTag ·.1 p.1) = some (p.1, value) :=
    fun _ _ => List.find?_cons_of_pos (sameTag_self hname.1)
  rw [getVar_invokeVars hname.1 hcolon, hfilter, List.map_append, List.map_cons,
    List.reverse_append, List.reverse_cons, List.append_assoc, List.find?_append, hnone,
    Option.none_or, List.singleton_append, hfirst]
  rfl

theorem stripped_eq_iff (v : Str) :
    stripQuotes (stripTrailingWhitespace v) = v ↔ Unchanged v := by
  constructor
  · intro hv
    have hprefix : stripTrailingWhitespace v <+: v := List.rdropWhile_prefix isSpace v
    have hle := (stripQuotes_sublist (stripTrailingWhitespace v)).length_le
    rw [hv] at hle
    have hstrip : stripTrailingWhitespace v = v :=
      hprefix.eq_of_length (Nat.le_antisymm hprefix.length_le hle)
    exact ⟨hstrip, by rwa [hstrip] at hv⟩
  · rintro ⟨hstrip, hquotes⟩
    rw [hstrip, hquotes]

/-- A value that the server leaves as it is: of a long one it only looks at the quotes. -/
def Kept (v : Str) : Prop :=
  (v.length + 1 < StrLenCache.minLen → stripTrailingWhitespace v = v) ∧ stripQuotes v = v

theorem arrived_eq_iff (v : Str) : arrived v = v ↔ Kept v := by
  unfold arrived Kept
  by_cases hshort : v.length + 1 < StrLenCache.minLen
  · rw [if_pos hshort, stripped_eq_iff]
    exact and_congr_left' ⟨fun h _ => h, fun h => h hshort⟩
  · rw [if_neg hshort]
    exact ⟨fun h => ⟨fun hs => absurd hs hshort, h⟩, fun h => h.2⟩

/-- The quoted values arrive as they were written if and only if none of them stands between quotes
of its own, or ends in white space while it is short. -/
theorem invoke_quoted_iff (env : Env) {cmd : Str} (hcmd : PlainWord cmd) {ps : List (Str × Str)}
    (h : ∀ p ∈ ps, QuotablePair p) (hdistinct : DistinctNames ps) (checkAuth : Str → Server Bool)
    (types : Str) {more : Str} {s : ServerState} (hs : s.input = quotedLine cmd ps ++ more) :
    ∃ details, exec (handleRequestWith env checkAuth types) s =
        exec (do
          handleInvoke env checkAuth details
          pure true) { s with
            input := more
            history := .request (stripTrailingWhitespace (quotedLine cmd ps)) :: s.history } ∧
      (invokeCommand details).1 = cmd ∧
      ((∀ p ∈ ps, getVar (invokeVars env details) p.1 = p.2) ↔ ∀ p ∈ ps, Kept p.2) := by
  obtain ⟨details, hdetails, hcommand⟩ := invokeDetails_quotedLine hcmd h
  have hread : readLine s.input = some (quotedLine cmd ps, more) := by
    have hnewline := readLine_line (quotedLine_newline hcmd h) more
    rw [hs]
    unfold quotedLine
    rwa [List.append_assoc, List.singleton_append]
  refine ⟨details, exec_invokeRequest env checkAuth types hdetails hread, by rw [hcommand], ?_⟩
  refine forall₂_congr fun p hp => ?_
  rw [getVar_quoted env h hdistinct hcommand hp]
  exact arrived_eq_iff p.2

/-- `INVOKE mount Dev="a b=c" label=" it's"` -/
theorem invoke_quoted_mount : ∃ details, (invokeCommand details).1 = "mount".toList ∧
    ∀ p ∈ [("Dev".toList, "a b=c".toList), ("label".toList, " it's".toList)],
      getVar (invokeVars quietEnv details) p.1 = p.2 := by
  have hpairs : ∀ p ∈ [("Dev".toList, "a b=c".toList), ("label".toList, " it's".toList)],
      QuotablePair p ∧ Kept p.2 := by
    intro p hp
    rw [List.mem_cons, List.mem_singleton] at hp
    rcases hp with rfl | rfl
    · exact ⟨⟨⟨by decide, by decide⟩, by decide⟩, fun _ => by decide, by decide⟩
    · exact ⟨⟨⟨by decide, by decide⟩, by decide⟩, fun _ => by decide, by decide⟩
  have hdistinct : DistinctNames
      [("Dev".toList, "a b=c".toList), ("label".toList, " it's".toList)] := by
    unfold DistinctNames
    decide
  have hcmd : PlainWord "mount".toList := ⟨by decide, by decide⟩
  obtain ⟨details, _, hcommand, hvalues⟩ := invoke_quoted_iff quietEnv hcmd
    (fun p hp => (hpairs p hp).1) hdistinct (fun _ => pure true) []
    (s := ⟨_, [], false⟩) (List.append_nil _).symm
  exact ⟨details, hcommand, hvalues.mpr fun p hp => (hpairs p hp).2⟩

/-- `INVOKE mount dev="'a'"` loses the single quotes. -/
theorem invoke_quoted_differs :
    ¬ ∀ (env : Env) (cmd : Str) (ps : List (Str × Str)), PlainWord cmd →
      (∀ p ∈ ps, QuotablePair p) → DistinctNames ps →
        ∃ details, invokeDetails (quotedLine cmd ps) = some details ∧
          ∀ p ∈ ps, getVar (invokeVars env details) p.1 = p.2 := by
  intro h
  obtain ⟨details, hdetails, hvalues⟩ := h quietEnv "mount".toList
    [("dev".toList, "'a'".toList)] ⟨by decide, by decide⟩
    (fun p hp => by
      rw [List.mem_singleton.mp hp]
      exact ⟨⟨by decide, by decide⟩, by decide⟩)
    (List.pairwise_singleton _ _)
  have hsome : invokeDetails (quotedLine "mount".toList [("dev".toList, "'a'".toList)]) =
      some "mount dev=\"'a'\"".toList := by decide +kernel
  rw [hsome] at hdetails
  cases hdetails
  have hvalue := hvalues _ List.mem_cons_self
  revert hvalue
  decide +kernel

end Invocation
