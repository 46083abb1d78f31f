import Invocation.Growth
import Invocation.Termination

/-!
# The section that is judged and the section that is run

`FindPermission` and `RunInvoke` scan the same list for different names. What
else stands in the configuration matters to a request only while it waits for a
password: the requests that `CheckAuth` serves meanwhile go by all of it.
-/

namespace Invocation

set_option autoImplicit false

open Process Server

/-- The section whose rules decide: the first one named after the command, the peer's program or
the base name of it. -/
def judgedSection (env : Env) (command : Str) (sections : List (Str × List Node)) :
    Option (Str × List Node) := sections.find? fun s => relates env command s.1

/-- The section whose items are run: the first one named after the command. -/
def runSection (command : Str) (sections : List (Str × List Node)) : Option (Str × List Node) :=
  sections.find? fun s => s.1 = command

/-- The peer holds a grant for the command or satisfies the rules. -/
def Authorised (env : Env) (checkAuth : Str → Server Bool) (command : Str) (rules : List Node)
    (s s' : ServerState) : Prop :=
  exec (checkPermission env checkAuth command (some rules)) s = (.ok true, s')

/-- `CheckAuth` as the requests of a connection use it. -/
def serverCheckAuth (env : Env) (fuel : Nat) : Str → Server Bool :=
  checkAuthWith (handleClientRequest env fuel) (fuel + 1)

/-- The next line of the client is an INVOKE request with these details; it is handled in `s'`. -/
def AsksNext (s : ServerState) (details : Str) (s' : ServerState) : Prop :=
  ∃ line rest, readLine s.input = some (line, rest) ∧
    strCaseEq (requestWord (stripTrailingWhitespace line)) "INVOKE".toList = true ∧
    requestDetails (stripTrailingWhitespace line) = details ∧
    s' = { s with
      input := rest, history := .request (stripTrailingWhitespace line) :: s.history }

/-- The next request of the client enters `RunInvokeCommand` on a section with these items: it does
so right behind the verdict of its own, not of a request that is served meanwhile. -/
def Enters (env : Env) (fuel : Nat) (types details : Str) (s : ServerState) (items : List Node) :
    Prop :=
  ∃ s' vars, AsksNext s details s' ∧
    .enter (invokeCommand details).1 vars items ::
        (exec (findPermission env (serverCheckAuth env fuel) (invokeCommand details).1)
          s').2.history
      <:+ (exec (handleClientRequest env (fuel + 1) types) s).2.history

/-- What the server has done since it was in `s` includes no prompt. -/
def Unprompted (s s' : ServerState) : Prop :=
  ∀ types new, s'.history = new ++ s.history → .prompt types ∉ new

/-! ## The two scans -/

theorem findPermissionIn_sections (env : Env) (checkAuth : Str → Server Bool) (command : Str)
    (sections : List (Str × List Node)) :
    findPermissionIn env checkAuth command (sectionNodes sections) =
      match judgedSection env command sections with
      | some judged => checkPermission env checkAuth command (some judged.2)
      | none => pure false := by
  induction sections with
  | nil => rfl
  | cons s sections ih =>
    by_cases h : relates env command s.1 = true
    · have hjudged : judgedSection env command (s :: sections) = some s :=
        List.find?_cons_of_pos h
      rw [hjudged]
      show (if relates env command s.1 = true then _ else _ : Server Bool) = _
      rw [if_pos h]
      rfl
    · have hjudged : judgedSection env command (s :: sections) =
          judgedSection env command sections := List.find?_cons_of_neg h
      rw [hjudged, ← ih]
      show (if relates env command s.1 = true then _ else _ : Server Bool) = _
      rw [if_neg h]
      rfl

theorem runInvokeIn_sections (env : Env) (command : Str) (vars : Vars)
    (sections : List (Str × List Node)) :
    runInvokeIn env command vars (sectionNodes sections) =
      match runSection command sections with
      | some target => runInvokeCommand env command vars target.2
      | none => pure ⟨⟩ := by
  induction sections with
  | nil => rfl
  | cons s sections ih =>
    by_cases h : s.1 = command
    · have hrun : runSection command (s :: sections) = some s :=
        List.find?_cons_of_pos (by simpa using h)
      rw [hrun]
      show (if s.1 = command then _ else _ : Server PUnit) = _
      rw [if_pos h]
      rfl
    · have hrun : runSection command (s :: sections) = runSection command sections :=
        List.find?_cons_of_neg (by simpa using h)
      rw [hrun, ← ih]
      show (if s.1 = command then _ else _ : Server PUnit) = _
      rw [if_neg h]
      rfl

theorem runSection_name {command : Str} {sections : List (Str × List Node)}
    {target : Str × List Node} (h : runSection command sections = some target) :
    target.1 = command := by
  have hfound := List.find?_some h
  simpa using hfound

theorem judgedSection_of_split {env : Env} {command : Str} {before : List (Str × List Node)}
    {items : List Node} (after : List (Str × List Node))
    (hbefore : ∀ b ∈ before, relates env command b.1 = false) :
    judgedSection env command (before ++ (command, items) :: after) = some (command, items) ∧
      runSection command (before ++ (command, items) :: after) = some (command, items) := by
  constructor
  · apply List.find?_eq_some_iff_append.mpr
    refine ⟨by simp [relates], before, after, rfl, ?_⟩
    intro b hb
    rw [hbefore b hb]
    rfl
  · apply List.find?_eq_some_iff_append.mpr
    refine ⟨by simp, before, after, rfl, ?_⟩
    intro b hb
    have hno := hbefore b hb
    simp only [relates, Bool.or_eq_false_iff] at hno
    rw [hno.1.1]
    rfl

/-! ## One request -/

section Request

variable {env : Env} {fuel : Nat} {types details : Str} {s s' : ServerState}

theorem exec_asksNext (h : AsksNext s details s') :
    exec (handleClientRequest env (fuel + 1) types) s =
      exec (handleInvoke env (serverCheckAuth env fuel) details >>= fun _ => pure true) s' := by
  obtain ⟨line, rest, hread, hword, rfl, rfl⟩ := h
  have hlower := (strCaseEq_iff _ _).mp hword
  have hother {name : Str} (hne : strlwr "INVOKE".toList ≠ strlwr name) :
      ¬ strCaseEq (requestWord (stripTrailingWhitespace line)) name = true := by
    rw [strCaseEq_iff, hlower]
    exact hne
  have hline : stripTrailingWhitespace line ≠ [] := by
    intro hnil
    rw [hnil] at hlower
    revert hlower
    decide +kernel
  have hunfold : handleClientRequest env (fuel + 1) types =
      handleRequestWith env (serverCheckAuth env fuel) types := rfl
  rw [hunfold, handleRequestWith_eq, exec_bind, exec_readClientLine, hread]
  show exec (answerLine env _ types (stripTrailingWhitespace line)) _ = _
  rw [answerLine, if_neg hline, exec_bind, exec_emit, serveLine, if_neg (hother (by decide)),
    if_neg (hother (by decide)), if_pos hword]

theorem AsksNext.unique {t : ServerState} (h : AsksNext s details s') (h' : AsksNext s details t) :
    s' = t := by
  obtain ⟨line, rest, hread, _, _, rfl⟩ := h
  obtain ⟨line', rest', hread', _, _, rfl⟩ := h'
  rw [hread] at hread'
  cases hread'
  rfl

theorem exec_findPermission {checkAuth : Str → Server Bool} {command : Str} {allowed : Bool}
    (h : exec (findPermissionIn env checkAuth command env.config) s = (.ok allowed, s')) :
    exec (findPermission env checkAuth command) s =
      (.ok allowed, { s' with history := .verdict command allowed :: s'.history }) := by
  rw [findPermission, exec_bind, h]
  rfl

theorem exec_findPermission_error {checkAuth : Str → Server Bool} {command : Str} {e : Halt}
    (h : exec (findPermissionIn env checkAuth command env.config) s = (.error e, s')) :
    exec (findPermission env checkAuth command) s = (.error e, s') := by
  rw [findPermission, exec_bind, h]

theorem not_suffix_self (e : Event) (past : List Event) : ¬ e :: past <:+ past := by
  intro h
  have hle := h.length_le
  rw [List.length_cons] at hle
  omega

theorem suffix_head {e e' : Event} {past later : List Event} (h : e :: past <:+ later)
    (h' : e' :: past <:+ later) : e = e' := by
  have heq := (List.suffix_of_suffix_length_le h h' le_rfl).eq_of_length rfl
  exact (List.cons.inj heq).1

end Request

section Sections

variable (env : Env) (fuel : Nat) (types details : Str) (s : ServerState)
  (sections : List (Str × List Node))

/-- Behind its verdict an INVOKE request enters the section that is run, if it is allowed, and
nothing else. -/
theorem handleInvoke_enters_iff {s' : ServerState} {items : List Node} :
    (∃ vars, .enter (invokeCommand details).1 vars items ::
        (exec (findPermission (env.withSections sections)
          (serverCheckAuth (env.withSections sections) fuel) (invokeCommand details).1)
            s').2.history
      <:+ (exec (handleInvoke (env.withSections sections)
        (serverCheckAuth (env.withSections sections) fuel) details) s').2.history) ↔
      runSection (invokeCommand details).1 sections = some ((invokeCommand details).1, items) ∧
        ∃ s'', exec (findPermissionIn (env.withSections sections)
          (serverCheckAuth (env.withSections sections) fuel) (invokeCommand details).1
            (sectionNodes sections)) s' = (.ok true, s'') := by
  generalize hcommand : (invokeCommand details).1 = command
  have hconfig : (env.withSections sections).config = sectionNodes sections := rfl
  rw [handleInvoke, hcommand, ← hconfig]
  cases hfind : exec (findPermissionIn (env.withSections sections)
      (serverCheckAuth (env.withSections sections) fuel) command
      (env.withSections sections).config) s' with
  | mk r s'' =>
    cases r with
    | error e =>
      rw [exec_bind, exec_findPermission_error hfind]
      constructor
      · rintro ⟨vars, h⟩
        exact absurd h (not_suffix_self _ _)
      · rintro ⟨_, _, h⟩
        cases h
    | ok allowed =>
      rw [exec_bind, exec_findPermission hfind]
      cases allowed with
      | false =>
        constructor
        · rintro ⟨vars, h⟩
          have hhead := suffix_head h (List.suffix_refl _)
          cases hhead
        · rintro ⟨_, _, h⟩
          cases h
      | true =>
        dsimp only
        rw [if_pos rfl, hconfig, runInvokeIn_sections]
        cases hrun : runSection command sections with
        | none =>
          constructor
          · rintro ⟨vars, h⟩
            exact absurd h (not_suffix_self _ _)
          · rintro ⟨h, _⟩
            cases h
        | some target =>
          obtain ⟨name, items'⟩ := target
          obtain rfl : name = command := runSection_name hrun
          generalize invokeVars (env.withSections sections) details = vars
          have hgrows := (@runItems_grows (env.withSections sections) items' items' vars).suffix
            { s'' with history := .enter name vars items' :: .verdict name true :: s''.history }
          constructor
          · rintro ⟨_, h⟩
            have hhead := suffix_head h hgrows
            cases hhead
            exact ⟨rfl, s'', rfl⟩
          · rintro ⟨h, _⟩
            cases h
            exact ⟨_, hgrows⟩

theorem enters_iff (items : List Node) :
    Enters (env.withSections sections) fuel types details s items ↔
      runSection (invokeCommand details).1 sections = some ((invokeCommand details).1, items) ∧
        ∃ s' s'' judged, AsksNext s details s' ∧
          judgedSection env (invokeCommand details).1 sections = some judged ∧
          Authorised (env.withSections sections)
            (serverCheckAuth (env.withSections sections) fuel) (invokeCommand details).1 judged.2
            s' s'' := by
  have hfind (s' s'' : ServerState) : exec (findPermissionIn (env.withSections sections)
      (serverCheckAuth (env.withSections sections) fuel) (invokeCommand details).1
        (sectionNodes sections)) s' = (.ok true, s'') ↔
      ∃ judged, judgedSection env (invokeCommand details).1 sections = some judged ∧
        Authorised (env.withSections sections)
          (serverCheckAuth (env.withSections sections) fuel) (invokeCommand details).1 judged.2
          s' s'' := by
    have hsame : judgedSection (env.withSections sections) (invokeCommand details).1 sections =
        judgedSection env (invokeCommand details).1 sections := rfl
    rw [findPermissionIn_sections, hsame]
    cases judgedSection env (invokeCommand details).1 sections with
    | none => simp
    | some judged => simp [Authorised]
  have hrequest {s' : ServerState} (hasks : AsksNext s details s') :
      (exec (handleClientRequest (env.withSections sections) (fuel + 1) types) s).2.history =
        (exec (handleInvoke (env.withSections sections)
          (serverCheckAuth (env.withSections sections) fuel) details) s').2.history := by
    rw [exec_asksNext hasks, exec_bind]
    cases exec (handleInvoke (env.withSections sections)
        (serverCheckAuth (env.withSections sections) fuel) details) s' with
    | mk r t =>
      cases r with
      | ok _ => rfl
      | error _ => rfl
  constructor
  · rintro ⟨s', vars, hasks, h⟩
    rw [hrequest hasks] at h
    obtain ⟨hrun, s'', hallowed⟩ := (handleInvoke_enters_iff env fuel details sections).mp ⟨vars, h⟩
    obtain ⟨judged, hjudged⟩ := (hfind s' s'').mp hallowed
    exact ⟨hrun, s', s'', judged, hasks, hjudged⟩
  · rintro ⟨hrun, s', s'', judged, hasks, hjudged⟩
    have hallowed := (hfind s' s'').mpr ⟨judged, hjudged⟩
    obtain ⟨vars, h⟩ :=
      (handleInvoke_enters_iff env fuel details sections).mpr ⟨hrun, s'', hallowed⟩
    refine ⟨s', vars, hasks, ?_⟩
    rw [hrequest hasks]
    exact h

end Sections

/-! ## Other sections -/

theorem Unprompted.of_suffix {s t t' : ServerState} (h : Unprompted s t)
    (hsuffix : t'.history <:+ t.history) : Unprompted s t' := by
  intro types new hnew hmem
  obtain ⟨later, hlater⟩ := hsuffix
  refine h types (later ++ new) ?_ (List.mem_append_right later hmem)
  rw [← hlater, hnew, List.append_assoc]

/-- What a request relies on in `CheckAuth`: it asks for a password unless the flag is set. -/
structure Prompts (checkAuth : Str → Server Bool) : Prop where
  set : ∀ types s, s.authenticated = true → exec (checkAuth types) s = (.ok true, s)
  unset : ∀ types s, s.authenticated = false →
    .prompt types :: s.history <:+ (exec (checkAuth types) s).2.history
  grows : ∀ types, Grows (checkAuth types)

theorem serverCheckAuth_prompts (env : Env) (fuel : Nat) : Prompts (serverCheckAuth env fuel) where
  set := by
    intro types s h
    rw [serverCheckAuth, checkAuthWith, exec_bind, isAuthenticated, exec_read, h]
    rfl
  unset := by
    intro types s h
    have hrequest := handleClientRequest_grows env fuel types
    have hgrows := ((requestLoop_grows hrequest (fuel + 1)).bind fun _ =>
      isAuthenticated_grows).suffix
      { s with history := .send "AUTH\n".toList :: .prompt types :: s.history }
    rw [serverCheckAuth, checkAuthWith, exec_bind, isAuthenticated, exec_read, h]
    exact (List.suffix_cons _ _).trans hgrows
  grows := checkAuthWith_grows (handleClientRequest_grows env fuel) _

section Others

variable {env : Env} {checkAuth checkAuth' : Str → Server Bool} (hprompts : Prompts checkAuth)
  (hset : ∀ types s, s.authenticated = true → exec (checkAuth' types) s = (.ok true, s))
include hprompts hset

/-- Rules that are judged without a prompt do not depend on what `CheckAuth` would serve. -/
theorem checkRules_unprompted (peer : Peer) (rules : List Node) (result : Bool) (s : ServerState)
    (h : ∀ types, ¬ .prompt types :: s.history <:+
      (exec (checkRules peer checkAuth rules result) s).2.history) :
    exec (checkRules peer checkAuth' rules result) s =
      exec (checkRules peer checkAuth rules result) s := by
  induction rules generalizing result with
  | nil => rfl
  | cons node rules ih =>
    unfold checkRules at h ⊢
    cases htag : node.tag with
    | none => rfl
    | some tag =>
      rw [htag] at h
      simp only [exec_bind, exec_need_some] at h ⊢
      cases hid : ruleIdentity peer tag with
      | some identity =>
        rw [hid] at h
        cases htext : node.text? with
        | none => rfl
        | some text =>
          rw [htext] at h
          simp only [exec_bind, exec_need_some] at h ⊢
          by_cases hmem : isItemInList identity text = true
          · rw [if_pos hmem] at h ⊢
            rw [if_pos hmem]
            exact ih true h
          · rw [if_neg hmem, if_neg hmem]
      | none =>
        rw [hid] at h
        dsimp only at h ⊢
        by_cases hauth : strCaseEq tag "auth".toList = true
        · rw [if_pos hauth] at h ⊢
          rw [if_pos hauth]
          cases htext : node.text? with
          | none => rfl
          | some text =>
            rw [htext] at h
            simp only [exec_bind, exec_need_some] at h ⊢
            cases hflag : s.authenticated with
            | true =>
              rw [hprompts.set _ _ hflag] at h ⊢
              rw [hset _ _ hflag]
              exact ih true h
            | false =>
              -- the prompt stays in the history
              have hasked := hprompts.unset text s hflag
              have hstays := Grows.suffix_bind (x := checkAuth text) (f := fun passed =>
                if passed then checkRules peer checkAuth rules true else pure false)
                (fun passed => .ite (checkRules_grows hprompts.grows peer rules true) (.pure _)) s
              rw [exec_bind] at hstays
              exact absurd (hasked.trans hstays) (h text)
        · rw [if_neg hauth] at h ⊢
          rw [if_neg hauth]
          exact ih result h

theorem checkPermission_unprompted (command : Str) (rules : Option (List Node)) (s : ServerState)
    (h : Unprompted s (exec (checkPermission env checkAuth command rules) s).2) :
    exec (checkPermission env checkAuth' command rules) s =
      exec (checkPermission env checkAuth command rules) s := by
  unfold checkPermission at h ⊢
  cases hgrant : exec (grantCheck env command) s with
  | mk r t =>
    cases r with
    | error e => simp only [exec_bind, hgrant]
    | ok granted =>
      simp only [exec_bind, hgrant] at h ⊢
      cases granted with
      | true => rfl
      | false =>
        cases rules with
        | none => rfl
        | some rules =>
          have hbehind : s.history <:+ t.history := by
            have hgrows := (grantCheck_grows env command).suffix s
            rwa [hgrant] at hgrows
          apply checkRules_unprompted hprompts hset
          rintro types ⟨later, hlater⟩
          obtain ⟨new, hnew⟩ := hbehind
          refine h types (later ++ .prompt types :: new) ?_ (by simp)
          have hhistory : (exec (checkRules env.peer checkAuth rules false) t).2.history =
              (later ++ .prompt types :: new) ++ s.history := by
            rw [← hlater, ← hnew, List.append_assoc, List.cons_append]
          exact hhistory

end Others

/-- A request enters the section it names if and only if a grant or the rules of the first section
named after the command, the peer's program or its base name let the peer do so; when no section in
front of the one that is run bears the program's name, these are its own rules; and while no
password is asked for, configurations that agree on the two sections agree on the request. -/
theorem invoke_verdict (env : Env) (fuel : Nat) (types details : Str) (s : ServerState)
    (sections : List (Str × List Node)) (items : List Node) :
    (Enters (env.withSections sections) fuel types details s items ↔
      runSection (invokeCommand details).1 sections = some ((invokeCommand details).1, items) ∧
        ∃ s' s'' judged, AsksNext s details s' ∧
          judgedSection env (invokeCommand details).1 sections = some judged ∧
          Authorised (env.withSections sections)
            (serverCheckAuth (env.withSections sections) fuel) (invokeCommand details).1 judged.2
            s' s'') ∧
    (∀ before after, sections = before ++ ((invokeCommand details).1, items) :: after →
      (∀ b ∈ before, relates env (invokeCommand details).1 b.1 = false) →
      (Enters (env.withSections sections) fuel types details s items ↔
        ∃ s' s'', AsksNext s details s' ∧
          Authorised (env.withSections sections)
            (serverCheckAuth (env.withSections sections) fuel) (invokeCommand details).1 items
            s' s'')) ∧
    (∀ others, judgedSection env (invokeCommand details).1 others =
        judgedSection env (invokeCommand details).1 sections →
      runSection (invokeCommand details).1 others = runSection (invokeCommand details).1 sections →
      (∀ s', AsksNext s details s' → Unprompted s' (exec (findPermission (env.withSections sections)
        (serverCheckAuth (env.withSections sections) fuel) (invokeCommand details).1) s').2) →
      (Enters (env.withSections others) fuel types details s items ↔
        Enters (env.withSections sections) fuel types details s items)) := by
  refine ⟨enters_iff env fuel types details s sections items, ?_, ?_⟩
  · intro before after hsplit hbefore
    obtain ⟨hjudged, hrun⟩ := judgedSection_of_split after hbefore
    rw [enters_iff, hsplit, hjudged, hrun]
    simp
  · intro others hjudged hrun hquiet
    rw [enters_iff, enters_iff, hjudged, hrun]
    apply and_congr_right
    intro _
    refine exists_congr fun s' => exists_congr fun s'' => exists_congr fun judged => ?_
    apply and_congr_right
    intro hasks
    apply and_congr_right
    intro hfound
    have hprompts := serverCheckAuth_prompts (env.withSections sections) fuel
    have hset := (serverCheckAuth_prompts (env.withSections others) fuel).set
    have hpermission : Unprompted s' (exec (checkPermission (env.withSections sections)
        (serverCheckAuth (env.withSections sections) fuel) (invokeCommand details).1
        (some judged.2)) s').2 := by
      apply (hquiet s' hasks).of_suffix
      have hsections :
          judgedSection (env.withSections sections) (invokeCommand details).1 sections =
          some judged := hfound
      have hfind : findPermissionIn (env.withSections sections)
          (serverCheckAuth (env.withSections sections) fuel) (invokeCommand details).1
          (sectionNodes sections) = checkPermission (env.withSections sections)
            (serverCheckAuth (env.withSections sections) fuel) (invokeCommand details).1
            (some judged.2) := by
        rw [findPermissionIn_sections, hsections]
      rw [← hfind]
      exact Grows.suffix_bind (fun allowed =>
        (Grows.emit (.verdict (invokeCommand details).1 allowed)).bind fun _ => .pure allowed) s'
    have hsame := checkPermission_unprompted hprompts hset _ _ s' hpermission
    exact Eq.congr_left hsame

def rootsItems : List Node :=
  [.value (some "user".toList) "root".toList, .value (some "run".toList) "/bin/mount".toList]

/-- A section named after the peer's program, in front of the one that is run. -/
def shadowingSections : List (Str × List Node) :=
  [("/bin/tool".toList, [.value (some "user".toList) "alice".toList]),
    ("mount".toList, rootsItems)]

/-- The rules of the section that is run need not be satisfied. -/
theorem invoke_runs_unauthorised_section :
    ¬ ∀ (env : Env) (fuel : Nat) (types details : Str) (s : ServerState)
      (sections : List (Str × List Node)) (items : List Node),
      runSection (invokeCommand details).1 sections = some ((invokeCommand details).1, items) →
        (Enters (env.withSections sections) fuel types details s items ↔
          ∃ s' s'', AsksNext s details s' ∧
            Authorised (env.withSections sections)
              (serverCheckAuth (env.withSections sections) fuel) (invokeCommand details).1 items
              s' s'') := by
  intro h
  have hiff := h quietEnv 1 [] "mount".toList { input := "INVOKE mount\n".toList }
    shadowingSections rootsItems (by decide +kernel)
  have hasks : AsksNext { input := "INVOKE mount\n".toList } "mount".toList
      { input := [], history := [.request "INVOKE mount".toList] } :=
    ⟨"INVOKE mount\n".toList, [], by decide +kernel, by decide +kernel, by decide +kernel,
      by decide +kernel⟩
  have henters : Enters (quietEnv.withSections shadowingSections) 1 [] "mount".toList
      { input := "INVOKE mount\n".toList } rootsItems := by
    refine ⟨_, invokeVars quietEnv "mount".toList, hasks, ?_⟩
    decide +kernel
  obtain ⟨s', s'', hasks', hallowed⟩ := hiff.mp henters
  obtain rfl := hasks.unique hasks'
  have hfalse : (exec (checkPermission (quietEnv.withSections shadowingSections)
      (serverCheckAuth (quietEnv.withSections shadowingSections) 1)
      (invokeCommand "mount".toList).1 (some rootsItems))
      { input := [], history := [.request "INVOKE mount".toList] }).1 = .ok false := by
    decide +kernel
  rw [hallowed] at hfalse
  cases hfalse

end Invocation
