import Invocation.ConnectionSafety

/-!
# What a list of rules says

`CheckPermission` on a section of named values: every user, group, program and
auth rule has to be satisfied, and there has to be one. The auth rules are
asked in their order; no other order and no other entry matters.
-/

namespace Invocation

set_option autoImplicit false

open Process

def ruleNodes (rules : List (Str × Str)) : List Node :=
  rules.map fun rule => .value (some rule.1) rule.2

def isIdentityRule (rule : Str × Str) : Bool :=
  strCaseEq rule.1 "user".toList || strCaseEq rule.1 "group".toList ||
    strCaseEq rule.1 "program".toList

def isAuthRule (rule : Str × Str) : Bool := strCaseEq rule.1 "auth".toList

def isRule (rule : Str × Str) : Bool := isIdentityRule rule || isAuthRule rule

/-- A user, group or program rule lists what the peer is. -/
def IdentityMet (peer : Peer) (rule : Str × Str) : Prop :=
  ∀ identity, ruleIdentity peer rule.1 = some identity → isItemInList identity rule.2 = true

def ruleTypes (rules : List (Str × Str)) : List Str := (rules.filter isAuthRule).map Prod.snd

/-- `CheckAuth` is called for one list of types after the other, and each call leaves the peer
authenticated. -/
def AuthMet (checkAuth : Str → Server Bool) : List Str → ServerState → ServerState → Prop
  | [], s, s' => s' = s
  | types :: rest, s, s' => ∃ passed after, exec (checkAuth types) s = (.ok passed, after) ∧
      after.authenticated = true ∧ AuthMet checkAuth rest after s'

/-- There is a rule, and every rule is satisfied. -/
def RulesMet (peer : Peer) (checkAuth : Str → Server Bool) (rules : List (Str × Str))
    (s s' : ServerState) : Prop :=
  (∃ rule ∈ rules, isRule rule = true) ∧ (∀ rule ∈ rules, IdentityMet peer rule) ∧
    AuthMet checkAuth (ruleTypes rules) s s'

/-! ## One rule -/

theorem isIdentityRule_eq (peer : Peer) (rule : Str × Str) :
    isIdentityRule rule = (ruleIdentity peer rule.1).isSome := by
  unfold isIdentityRule ruleIdentity
  cases strCaseEq rule.1 "user".toList with
  | true => rfl
  | false =>
    cases strCaseEq rule.1 "group".toList with
    | true => rfl
    | false =>
      cases strCaseEq rule.1 "program".toList with
      | true => rfl
      | false => rfl

section Rule

variable (peer : Peer) (checkAuth : Str → Server Bool) (name value : Str)
  (rules : List (Str × Str)) (result : Bool)

theorem checkRules_cons : checkRules peer checkAuth (ruleNodes ((name, value) :: rules)) result =
    match ruleIdentity peer name with
    | some identity =>
      if isItemInList identity value = true then checkRules peer checkAuth (ruleNodes rules) true
      else pure false
    | none =>
      if strCaseEq name "auth".toList = true then checkAuth value >>= fun passed =>
        if passed = true then checkRules peer checkAuth (ruleNodes rules) true else pure false
      else checkRules peer checkAuth (ruleNodes rules) result := rfl

theorem checkRules_identity {identity : Str} (h : ruleIdentity peer name = some identity) :
    checkRules peer checkAuth (ruleNodes ((name, value) :: rules)) result =
      if isItemInList identity value = true then
        checkRules peer checkAuth (ruleNodes rules) true
      else pure false := by
  rw [checkRules_cons, h]

theorem checkRules_auth (h : ruleIdentity peer name = none)
    (hauth : strCaseEq name "auth".toList = true) :
    checkRules peer checkAuth (ruleNodes ((name, value) :: rules)) result =
      checkAuth value >>= fun passed =>
        if passed = true then checkRules peer checkAuth (ruleNodes rules) true else pure false := by
  rw [checkRules_cons, h]
  exact if_pos hauth

theorem checkRules_other (h : ruleIdentity peer name = none)
    (hauth : strCaseEq name "auth".toList = false) :
    checkRules peer checkAuth (ruleNodes ((name, value) :: rules)) result =
      checkRules peer checkAuth (ruleNodes rules) result := by
  rw [checkRules_cons, h, hauth]
  rfl

end Rule

/-! ## All rules -/

/-- What `CheckAuth` returns is the flag it leaves. -/
def AnswersFlag (checkAuth : Str → Server Bool) : Prop :=
  ∀ types s passed after, exec (checkAuth types) s = (.ok passed, after) →
    passed = after.authenticated

theorem checkAuthWith_answersFlag (handle : Str → Server Bool) (fuel : Nat) :
    AnswersFlag (checkAuthWith handle fuel) := by
  intro types s passed after h
  unfold checkAuthWith Server.isAuthenticated at h
  rw [exec_bind, exec_read] at h
  cases hflag : s.authenticated with
  | true =>
    simp only [hflag, if_true, exec_pure, Prod.mk.injEq, Except.ok.injEq] at h
    rw [← h.1, ← h.2, hflag]
  | false =>
    simp only [hflag, Bool.false_eq_true, if_false, exec_bind, Server.exec_emit] at h
    generalize exec (requestLoop (handle types) fuel) _ = loop at h
    obtain ⟨r, left⟩ := loop
    cases r with
    | error e => cases h
    | ok u =>
      simp only [exec_read, Prod.mk.injEq, Except.ok.injEq] at h
      rw [← h.1, ← h.2]

theorem isRule_identity {rule : Str × Str} {peer : Peer} {identity : Str}
    (h : ruleIdentity peer rule.1 = some identity) : isRule rule = true := by
  rw [isRule, isIdentityRule_eq peer, h]
  rfl

theorem isRule_none {rule : Str × Str} {peer : Peer} (h : ruleIdentity peer rule.1 = none) :
    isRule rule = isAuthRule rule := by
  rw [isRule, isIdentityRule_eq peer, h]
  rfl

theorem identityMet_some {rule : Str × Str} {peer : Peer} {identity : Str}
    (h : ruleIdentity peer rule.1 = some identity) :
    IdentityMet peer rule ↔ isItemInList identity rule.2 = true := by
  unfold IdentityMet
  rw [h]
  simp

theorem identityMet_none {rule : Str × Str} {peer : Peer} (h : ruleIdentity peer rule.1 = none) :
    IdentityMet peer rule := by
  unfold IdentityMet
  rw [h]
  simp

/-- The walk returns TRUE exactly when every rule is satisfied, and one has been seen. -/
theorem checkRules_true_iff {peer : Peer} {checkAuth : Str → Server Bool}
    (hflag : AnswersFlag checkAuth) (rules : List (Str × Str)) (result : Bool)
    (s s' : ServerState) :
    exec (checkRules peer checkAuth (ruleNodes rules) result) s = (.ok true, s') ↔
      (result = true ∨ ∃ rule ∈ rules, isRule rule = true) ∧
        (∀ rule ∈ rules, IdentityMet peer rule) ∧ AuthMet checkAuth (ruleTypes rules) s s' := by
  induction rules generalizing result s with
  | nil =>
    have hnil : AuthMet checkAuth (ruleTypes []) s s' ↔ s' = s := Iff.rfl
    have hexec : exec (checkRules peer checkAuth (ruleNodes []) result) s = (.ok result, s) := rfl
    rw [hexec, hnil, Prod.mk.injEq, Except.ok.injEq, eq_comm (a := s)]
    simp
  | cons rule rules ih =>
    obtain ⟨name, value⟩ := rule
    cases hid : ruleIdentity peer name with
    | some identity =>
      have hauth : isAuthRule (name, value) = false := ruleIdentity_auth hid
      have htypes : ruleTypes ((name, value) :: rules) = ruleTypes rules := by
        rw [ruleTypes, List.filter_cons_of_neg (by simp [hauth]), ruleTypes]
      have hmet : IdentityMet peer (name, value) ↔ isItemInList identity value = true :=
        identityMet_some hid
      have hrule : isRule (name, value) = true := isRule_identity hid
      rw [checkRules_identity peer checkAuth name value rules result hid, htypes,
        List.forall_mem_cons, hmet]
      by_cases hlist : isItemInList identity value = true
      · rw [if_pos hlist, ih]
        simp [hlist, hrule]
      · rw [if_neg hlist]
        simp [hlist]
    | none =>
      have hmet : IdentityMet peer (name, value) := identityMet_none hid
      have hrule : isRule (name, value) = isAuthRule (name, value) := isRule_none hid
      rw [List.forall_mem_cons]
      cases hauth : strCaseEq name "auth".toList with
      | true =>
        have hauth' : isAuthRule (name, value) = true := hauth
        have htypes : ruleTypes ((name, value) :: rules) = value :: ruleTypes rules := by
          rw [ruleTypes, List.filter_cons_of_pos hauth']
          rfl
        rw [checkRules_auth peer checkAuth name value rules result hid hauth, htypes, exec_bind]
        cases hcall : exec (checkAuth value) s with
        | mk r after =>
          cases r with
          | error e => simp [AuthMet, hcall]
          | ok passed =>
            have hpassed := hflag value s passed after hcall
            cases passed with
            | true =>
              simp only [if_true]
              rw [ih]
              simp [AuthMet, hcall, hrule, hauth', hmet, ← hpassed]
            | false => simp [AuthMet, hcall, ← hpassed]
      | false =>
        have hauth' : isAuthRule (name, value) = false := hauth
        have htypes : ruleTypes ((name, value) :: rules) = ruleTypes rules := by
          rw [ruleTypes, List.filter_cons_of_neg (by simp [hauth']), ruleTypes]
        rw [checkRules_other peer checkAuth name value rules result hid hauth, htypes, ih]
        simp [hrule, hauth', hmet]

theorem checkRules_filter (peer : Peer) (checkAuth : Str → Server Bool) (rules : List (Str × Str))
    (result : Bool) : checkRules peer checkAuth (ruleNodes (rules.filter isRule)) result =
      checkRules peer checkAuth (ruleNodes rules) result := by
  induction rules generalizing result with
  | nil => rfl
  | cons rule rules ih =>
    obtain ⟨name, value⟩ := rule
    cases hid : ruleIdentity peer name with
    | some identity =>
      have hrule : isRule (name, value) = true := isRule_identity hid
      rw [List.filter_cons_of_pos hrule, checkRules_identity peer checkAuth name value _ result hid,
        checkRules_identity peer checkAuth name value rules result hid, ih]
    | none =>
      have hrule : isRule (name, value) = isAuthRule (name, value) := isRule_none hid
      cases hauth : strCaseEq name "auth".toList with
      | true =>
        have hkeep : isRule (name, value) = true := hrule.trans hauth
        rw [List.filter_cons_of_pos hkeep,
          checkRules_auth peer checkAuth name value _ result hid hauth,
          checkRules_auth peer checkAuth name value rules result hid hauth, ih]
      | false =>
        have hdrop : isRule (name, value) = false := hrule.trans hauth
        rw [List.filter_cons_of_neg (by simp [hdrop]), ih,
          checkRules_other peer checkAuth name value rules result hid hauth]

theorem rulesMet_congr {peer : Peer} {checkAuth : Str → Server Bool}
    {rules others : List (Str × Str)}
    (hidentity : (others.filter isIdentityRule).Perm (rules.filter isIdentityRule))
    (hauth : others.filter isAuthRule = rules.filter isAuthRule) (s s' : ServerState) :
    RulesMet peer checkAuth others s s' ↔ RulesMet peer checkAuth rules s s' := by
  have hmem : ∀ rule, isRule rule = true → (rule ∈ others ↔ rule ∈ rules) := by
    intro rule hrule
    rw [isRule, Bool.or_eq_true] at hrule
    rcases hrule with h | h
    · have hperm := hidentity.mem_iff (a := rule)
      simpa [List.mem_filter, h] using hperm
    · have hsame : rule ∈ others.filter isAuthRule ↔ rule ∈ rules.filter isAuthRule := by rw [hauth]
      simpa [List.mem_filter, h] using hsame
  have hexists : (∃ rule ∈ others, isRule rule = true) ↔ ∃ rule ∈ rules, isRule rule = true := by
    constructor
    · rintro ⟨rule, hrule, h⟩
      exact ⟨rule, (hmem rule h).mp hrule, h⟩
    · rintro ⟨rule, hrule, h⟩
      exact ⟨rule, (hmem rule h).mpr hrule, h⟩
  have hmet : (∀ rule ∈ others, IdentityMet peer rule) ↔ ∀ rule ∈ rules, IdentityMet peer rule := by
    constructor
    · intro h rule hrule identity hid
      exact h rule ((hmem rule (isRule_identity hid)).mpr hrule) identity hid
    · intro h rule hrule identity hid
      exact h rule ((hmem rule (isRule_identity hid)).mp hrule) identity hid
  unfold RulesMet ruleTypes
  rw [hexists, hmet, hauth]

/-! ## The verdict -/

section Verdict

variable (env : Env) (checkAuth : Str → Server Bool) (command : Str) (rules : List (Str × Str))
  (s : ServerState)

/-- What `AppDBCheck` says to the command for the peer's program. -/
def grantVerdict : Option Bool :=
  appDBCheck (env.files s.history) (env.clientsDB s.history) command env.peer.exePath

/-- The state in which the rules are checked. -/
def notGranted : ServerState := { s with history := .grantCheck command false :: s.history }

/-- `CheckPermission` on the rules. -/
def judge : Except Halt Bool × ServerState :=
  exec (checkPermission env checkAuth command (some (ruleNodes rules))) s

theorem exec_grantCheck : exec (grantCheck env command) s =
    match grantVerdict env command s with
    | none => (.error .undefined, s)
    | some granted =>
        (.ok granted, { s with history := .grantCheck command granted :: s.history }) := by
  unfold grantCheck
  rw [exec_bind, Server.exec_observe]
  show exec (Server.need (grantVerdict env command s) >>= _) s = _
  rw [exec_bind]
  cases grantVerdict env command s with
  | none => rfl
  | some granted => rfl

theorem judge_eq : judge env checkAuth command rules s =
    match grantVerdict env command s with
    | none => (.error .undefined, s)
    | some true => (.ok true, { s with history := .grantCheck command true :: s.history })
    | some false =>
      exec (checkRules env.peer checkAuth (ruleNodes rules) false) (notGranted command s) := by
  have hbody : judge env checkAuth command rules s =
      exec (grantCheck env command >>= fun granted =>
        if granted = true then pure true
        else checkRules env.peer checkAuth (ruleNodes rules) false) s := rfl
  rw [hbody, exec_bind, exec_grantCheck]
  cases grantVerdict env command s with
  | none => rfl
  | some granted => cases granted <;> rfl

/-- The verdict says what the grants and the rules say, whatever else the section holds and in
whatever order it asks about the peer. -/
structure VerdictRight : Prop where
  verdict : (∃ s', judge env checkAuth command rules s = (.ok true, s')) ↔
    grantVerdict env command s = some true ∨
      ∃ s', RulesMet env.peer checkAuth rules (notGranted command s) s'
  others : ∀ more, more.filter isRule = rules.filter isRule →
    judge env checkAuth command more s = judge env checkAuth command rules s
  order : ∀ reordered, (reordered.filter isIdentityRule).Perm (rules.filter isIdentityRule) →
    reordered.filter isAuthRule = rules.filter isAuthRule →
      ∀ s', judge env checkAuth command reordered s = (.ok true, s') ↔
        judge env checkAuth command rules s = (.ok true, s')

variable {checkAuth}

theorem judge_true_iff (hflag : AnswersFlag checkAuth) (s' : ServerState) :
    judge env checkAuth command rules s = (.ok true, s') ↔
      (grantVerdict env command s = some true ∧
        s' = { s with history := .grantCheck command true :: s.history }) ∨
      (grantVerdict env command s = some false ∧
        RulesMet env.peer checkAuth rules (notGranted command s) s') := by
  rw [judge_eq]
  cases grantVerdict env command s with
  | none => simp
  | some granted =>
    cases granted with
    | true => simp [eq_comm (a := s')]
    | false => simp [checkRules_true_iff hflag, RulesMet]

/-- `CheckPermission` is right on every input on which `AppDBCheck` reaches a verdict; on the
others it is right only in not saying TRUE. -/
theorem checkPermission_right_iff (handle : Str → Server Bool) (fuel : Nat) :
    VerdictRight env (checkAuthWith handle fuel) command rules s ↔
      grantVerdict env command s ≠ none ∨
        ¬ ∃ s', RulesMet env.peer (checkAuthWith handle fuel) rules (notGranted command s) s' := by
  have hflag := checkAuthWith_answersFlag handle fuel
  have htrue := fun rules => judge_true_iff env command rules s hflag
  constructor
  · intro h
    by_contra hcond
    rw [not_or, not_not, not_not] at hcond
    obtain ⟨hnone, hmet⟩ := hcond
    obtain ⟨s', hs'⟩ := h.verdict.mpr (Or.inr hmet)
    rw [htrue, hnone] at hs'
    simp at hs'
  · intro hcond
    refine ⟨?_, ?_, ?_⟩
    · simp only [htrue, exists_or, exists_and_left, exists_eq, and_true]
      rcases hverdict : grantVerdict env command s with _ | granted
      · have hnot := hcond.resolve_left (by simp [hverdict])
        simp [hnot]
      · cases granted <;> simp
    · intro more hmore
      rw [judge_eq, judge_eq, ← checkRules_filter env.peer _ more, hmore, checkRules_filter]
    · intro reordered hidentity hauth s'
      rw [htrue, htrue, rulesMet_congr hidentity hauth]

end Verdict

/-- A database that starts with a comment. -/
def commentedEnv : Env := { quietEnv with clientsDB := fun _ => some "# by hand\n".toList }

/-- A comment in the database keeps out a peer that the rules let in. -/
theorem commented_database_refuses :
    ¬ ∀ (env : Env) (handle : Str → Server Bool) (fuel : Nat) (command : Str)
      (rules : List (Str × Str)) (s : ServerState),
      VerdictRight env (checkAuthWith handle fuel) command rules s := by
  intro h
  have hright := h commentedEnv (fun _ => pure false) 0 "mount".toList
    [("user".toList, "alice".toList)] { input := [] }
  have hnone : grantVerdict commentedEnv "mount".toList { input := [] } = none := by decide +kernel
  have hmet : RulesMet commentedEnv.peer (checkAuthWith (fun _ => pure false) 0)
      [("user".toList, "alice".toList)] (notGranted "mount".toList { input := [] })
      (notGranted "mount".toList { input := [] }) := by
    refine ⟨⟨("user".toList, "alice".toList), by simp, by decide⟩, ?_, rfl⟩
    intro rule hrule identity hid
    rw [List.mem_singleton.mp hrule] at hid ⊢
    have halice : ruleIdentity commentedEnv.peer "user".toList = some "alice".toList := by decide
    rw [halice, Option.some.injEq] at hid
    rw [← hid]
    decide +kernel
  obtain ⟨s', hs'⟩ := hright.verdict.mpr (Or.inr ⟨_, hmet⟩)
  rw [judge_eq, hnone] at hs'
  cases hs'

end Invocation
