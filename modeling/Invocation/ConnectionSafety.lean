import Invocation.Permission
import Invocation.ServerSafety

/-!
# Connections

From a permission check to everything one client sends: a request nested in an
authentication prompt keeps the invariant of the request that waits for it, and
each request consumes a line.
-/

namespace Invocation

set_option autoImplicit false

open Process Server

/-! ## Permissions -/

theorem ruleIdentity_auth {peer : Peer} {tag identity : Str}
    (h : ruleIdentity peer tag = some identity) : strCaseEq tag "auth".toList = false := by
  have hother : ∀ name : Str, strCaseEq tag name = true → strlwr name ≠ strlwr "auth".toList →
      strCaseEq tag "auth".toList = false := by
    intro name hname hne
    rw [Bool.eq_false_iff, Ne, strCaseEq_iff]
    intro hauth
    exact hne (((strCaseEq_iff tag name).mp hname).symm.trans hauth)
  unfold ruleIdentity at h
  split at h
  · exact hother _ ‹_› (by decide)
  · split at h
    · exact hother _ ‹_› (by decide)
    · split at h
      · exact hother _ ‹_› (by decide)
      · cases h

theorem authRule_cons {types tag text : Str} {rules : List Node}
    (h : AuthRule types (.value (some tag) text :: rules))
    (htag : strCaseEq tag "auth".toList = false) :
    AuthRule types rules := by
  obtain ⟨t, hmem, hauth⟩ := h
  rcases List.mem_cons.mp hmem with heq | hmem
  · cases heq
    rw [htag] at hauth
    cases hauth
  · exact ⟨t, hmem, hauth⟩

theorem authRule_cons_block {types : Str} {tag : Option Str} {items rules : List Node}
    (h : AuthRule types (.block tag items :: rules)) : AuthRule types rules := by
  obtain ⟨t, hmem, hauth⟩ := h
  rcases List.mem_cons.mp hmem with heq | hmem
  · cases heq
  · exact ⟨t, hmem, hauth⟩

section Requests

variable {env : Env} {k : Nat} {known : List Event} {checkAuth : Str → Server Bool}

/-- `CheckAuth` as the rules of the configuration use it. -/
def CheckAuthSpec (env : Env) (k : Nat) (checkAuth : Str → Server Bool) : Prop :=
  ∀ b known types, AuthRuleIn env types →
    Triple (Inv env k b known) (checkAuth types) (fun r => Inv env k (b || r) known) (Stopped env)

theorem grantCheck_spec (b : Bool) (command : Str) :
    Triple (Inv env k b known) (grantCheck env command)
      (fun r s => Inv env k b known s ∧
        (r = true → s.history.head? = some (.grantCheck command true))) (Stopped env) := by
  apply Triple.bind ((Quietly.observe _).within stable_inv safely_inv)
  intro result
  apply need_bind safely_inv
  intro granted _ s hs
  refine ⟨stable_inv.emit s _ trivial hs, ?_⟩
  intro hgranted
  have htrue : granted = true := hgranted
  rw [htrue]
  rfl

/-- Rules that are satisfied and contain an `auth` rule leave the peer authenticated. -/
theorem checkRules_spec (hauth : CheckAuthSpec env k checkAuth) {rules : List Node}
    (hrules : ∀ types, AuthRule types rules → AuthRuleIn env types) (b result : Bool) :
    Triple (Inv env k b known) (checkRules env.peer checkAuth rules result)
      (fun r s => Inv env k b known s ∧
        (r = true → (∃ types, AuthRule types rules) → s.authenticated = true)) (Stopped env) := by
  induction rules generalizing b result with
  | nil =>
    intro s hs
    refine ⟨hs, ?_⟩
    rintro - ⟨types, tag, hmem, -⟩
    cases hmem
  | cons node rules ih =>
    have hrest : ∀ types, AuthRule types rules → AuthRuleIn env types := by
      rintro types ⟨tag, hmem, htag⟩
      exact hrules types ⟨tag, List.mem_cons_of_mem _ hmem, htag⟩
    have hfalse : Triple (Inv env k b known) (pure false)
        (fun r s => Inv env k b known s ∧
          (r = true → (∃ types, AuthRule types (node :: rules)) → s.authenticated = true))
        (Stopped env) := fun s hs => ⟨hs, fun h => nomatch h⟩
    -- A node that is no `auth` rule asks for nothing more than the rules behind it.
    have hskip : (∀ types, AuthRule types (node :: rules) → AuthRule types rules) → ∀ result,
        Triple (Inv env k b known) (checkRules env.peer checkAuth rules result)
          (fun r s => Inv env k b known s ∧
            (r = true → (∃ types, AuthRule types (node :: rules)) → s.authenticated = true))
          (Stopped env) := by
      intro hnode result
      refine (ih hrest b result).mono (fun _ hs => hs) ?_ fun _ _ hs => hs
      intro r s hs
      refine ⟨hs.1, fun hr hex => hs.2 hr ?_⟩
      obtain ⟨types, hex⟩ := hex
      exact ⟨types, hnode types hex⟩
    apply need_bind safely_inv
    intro tag htag
    cases hid : ruleIdentity env.peer tag with
    | some identity =>
      have hne := ruleIdentity_auth hid
      apply need_bind safely_inv
      intro text htext
      refine Triple.ite (fun _ => hskip ?_ true) fun _ => hfalse
      intro types h
      cases node with
      | block tag' items => cases htext
      | value tag' text' =>
        cases htag
        exact authRule_cons h hne
    | none =>
      refine Triple.ite (fun htagAuth => ?_) fun htagAuth => hskip ?_ result
      · apply need_bind safely_inv
        intro text htext
        cases node with
        | block tag' items => cases htext
        | value tag' text' =>
          cases htag
          cases htext
          have hin : AuthRuleIn env text := hrules text ⟨tag, List.mem_cons_self, htagAuth⟩
          apply Triple.bind (hauth b known text hin)
          intro passed
          cases passed with
          | false =>
            intro s hs
            exact hfalse s (hs.weaken le_rfl (fun h => by simp [h]) fun _ he => he)
          | true =>
            -- From here on the flag is known to be set.
            rw [Bool.or_true]
            refine (ih hrest true true).mono (fun _ hs => hs) ?_ fun _ _ hs => hs
            intro r s hs
            exact ⟨hs.1.weaken le_rfl (fun _ => rfl) fun _ he => he, fun _ _ => hs.1.auth rfl⟩
      · intro types h
        cases node with
        | block tag' items => exact authRule_cons_block h
        | value tag' text' =>
          cases htag
          exact authRule_cons h (by simpa using htagAuth)

def Backed (command : Str) (rules : Option (List Node)) (s : ServerState) : Prop :=
  s.history.head? = some (.grantCheck command true) ∨
    ∀ items, rules = some items → (∃ types, AuthRule types items) → s.authenticated = true

theorem checkPermission_spec (hauth : CheckAuthSpec env k checkAuth) (b : Bool) (command : Str)
    {rules : Option (List Node)}
    (hrules : ∀ items types, rules = some items → AuthRule types items → AuthRuleIn env types) :
    Triple (Inv env k b known) (checkPermission env checkAuth command rules)
      (fun r s => Inv env k b known s ∧ (r = true → Backed command rules s)) (Stopped env) := by
  apply Triple.bind (grantCheck_spec b command)
  intro granted
  cases granted with
  | true => exact fun s hs => ⟨hs.1, fun _ => Or.inl (hs.2 rfl)⟩
  | false =>
    have hneed : Triple (Inv env k b known)
        (need rules >>= fun rules => checkRules env.peer checkAuth rules false)
        (fun r s => Inv env k b known s ∧ (r = true → Backed command rules s)) (Stopped env) := by
      apply need_bind safely_inv
      intro items hitems
      refine (checkRules_spec hauth (fun types h => hrules items types hitems h) b false).mono
        (fun _ hs => hs) ?_ fun _ _ hs => hs
      intro r s hs
      refine ⟨hs.1, fun hr => Or.inr ?_⟩
      intro items' hitems' hex
      rw [hitems] at hitems'
      cases hitems'
      exact hs.2 hr hex
    exact fun s hs => hneed s hs.1

theorem findPermissionIn_spec (hauth : CheckAuthSpec env k checkAuth) (b : Bool) (command : Str)
    {sections : List Node} (hsub : ∀ n ∈ sections, n ∈ env.config)
    (hfind : sections.find? (fun n => n.tag.any (relates env command)) =
      env.config.find? fun n => n.tag.any (relates env command)) :
    Triple (Inv env k b known) (findPermissionIn env checkAuth command sections)
      (fun r s => Inv env k b known s ∧
        (r = true → ∀ rules, JudgedRules env command rules → Backed command (some rules) s))
      (Stopped env) := by
  induction sections with
  | nil => exact fun s hs => ⟨hs, fun h => nomatch h⟩
  | cons node sections ih =>
    apply need_bind safely_inv
    intro tag htag
    refine Triple.ite (fun h => ?_) fun h => ?_
    · have hfirst : env.config.find? (fun n => n.tag.any (relates env command)) = some node := by
        rw [← hfind, List.find?_cons_of_pos (by simp [htag, h])]
      have hrules : ∀ items types, node.items? = some items → AuthRule types items →
          AuthRuleIn env types := by
        intro items types hitems hrule
        cases node with
        | value tag' text => cases hitems
        | block tag' items' =>
          cases hitems
          exact ⟨tag', items, hsub _ List.mem_cons_self, hrule⟩
      refine (checkPermission_spec hauth b command hrules).mono (fun _ hs => hs) ?_
        fun _ _ hs => hs
      intro r s hs
      refine ⟨hs.1, fun hr rules hjudged => ?_⟩
      obtain ⟨judged, hj, hitems⟩ := hjudged
      rw [hfirst] at hj
      cases hj
      rw [← hitems]
      exact hs.2 hr
    · apply ih fun n hn => hsub n (List.mem_cons_of_mem node hn)
      rw [← hfind, List.find?_cons_of_neg (by simp [htag, h])]

theorem findPermission_spec (hauth : CheckAuthSpec env k checkAuth) (b : Bool) (command : Str) :
    Triple (Inv env k b known) (findPermission env checkAuth command)
      (fun r s => Inv env k b known s ∧ (r = true → Permitted env command s.history))
      (Stopped env) := by
  apply Triple.bind (findPermissionIn_spec hauth b command (fun _ hn => hn) rfl)
  intro allowed s hs
  obtain ⟨hinv, hbacked⟩ := hs
  refine ⟨stable_inv.emit s _ trivial hinv, ?_⟩
  intro hallowed
  have htrue : allowed = true := hallowed
  subst htrue
  refine ⟨rfl, fun rules hjudged hex => ?_⟩
  rcases hbacked rfl rules hjudged with hgrant | hflag
  · left
    rw [← hgrant]
    exact List.head?_eq_getElem?.symm
  · right
    exact (hinv.flag (hflag rules rfl hex)).cons _

/-! ## Requests -/

def Prompted (env : Env) (types : Str) (known : List Event) : Prop :=
  AuthRuleIn env types ∧ .prompt types ∈ known

/-- Only an AUTH request that answers no prompt may leave the flag without a reason. -/
def Answered (env : Env) (k : Nat) (b : Bool) (known : List Event) (types : Str)
    (s : ServerState) : Prop :=
  EachEvent (Allowed env) s.history ∧ (Prompted env types known → Inv env k b known s)

theorem Inv.answered {b : Bool} {s : ServerState} (h : Inv env k b known s) (types : Str) :
    Answered env k b known types s := ⟨h.safe, fun _ => h⟩

theorem stable_answered {b : Bool} {types : Str} : Stable (Answered env k b known types) where
  emit := fun s e he hs =>
    ⟨.cons (he.allowed env s.history) hs.1, fun hp => stable_inv.emit s e he (hs.2 hp)⟩
  input := fun _ _ hrest hs => ⟨hs.1, fun hp => (hs.2 hp).read hrest⟩

theorem safely_answered {b : Bool} {types : Str} : Safely env (Answered env k b known types) :=
  fun _ hs => hs.1

theorem handleClientAuth_spec (b : Bool) (details types : Str) :
    Triple (Inv env k b known) (handleClientAuth env details types)
      (fun _ => Answered env k b known types) (Stopped env) := by
  apply Triple.bind ((Quietly.observe _).within stable_inv safely_inv)
  intro result
  have hcall : Triple (Inv env k b known)
      (Server.emit (.authCall (requestedTypes types) env.peer.userName (authPassword details)
        (decide (result ≠ 0))))
      (fun _ s => Inv env k b known s ∧ ∃ earlier, (∀ e ∈ known, e ∈ earlier) ∧
        s.history = .authCall (requestedTypes types) env.peer.userName (authPassword details)
          (decide (result ≠ 0)) :: earlier) (Stopped env) := by
    intro s hs
    exact ⟨stable_inv.emit s _ trivial hs, s.history, hs.past, rfl⟩
  apply Triple.bind hcall
  intro _
  refine Triple.ite (fun haccepted => ?_) fun _ => ?_
  · have hset : Triple (fun s => Inv env k b known s ∧ ∃ earlier, (∀ e ∈ known, e ∈ earlier) ∧
          s.history = .authCall (requestedTypes types) env.peer.userName (authPassword details)
            (decide (result ≠ 0)) :: earlier)
        (Process.update fun s => { s with authenticated := true })
        (fun _ => Answered env k b known types) (Stopped env) := by
      intro s hs
      obtain ⟨hinv, earlier, hknown, hhistory⟩ := hs
      rw [decide_eq_true haccepted] at hhistory
      refine ⟨hinv.safe, fun hprompted => ?_⟩
      exact {
        safe := hinv.safe
        flag := fun _ => ⟨types, _, [], earlier, hprompted.1, hknown _ hprompted.2, hhistory⟩
        short := hinv.short
        auth := fun _ => rfl
        past := hinv.past }
    apply Triple.bind hset
    intro _
    have hsend : Quietly (Server.emit (.send "OKAY: Authenticated\n".toList)) :=
      Quietly.emit trivial
    exact hsend.within stable_answered safely_answered
  · have hsend : Quietly (Server.emit (.send "FAIL: Authentication failed\n".toList)) :=
      Quietly.emit trivial
    exact (hsend.within stable_inv safely_inv).mono (fun _ hs => hs.1)
      (fun _ _ hs => hs.answered types) fun _ _ hs => hs

theorem handleInvoke_spec (hauth : CheckAuthSpec env k checkAuth) (b : Bool) {line : Str}
    (hline : .request line ∈ known) (hword : strCaseEq (requestWord line) "INVOKE".toList = true) :
    Triple (Inv env k b known) (handleInvoke env checkAuth (requestDetails line))
      (fun _ => Inv env k b known) (Stopped env) := by
  apply Triple.bind (findPermission_spec hauth b _)
  intro allowed
  cases allowed with
  | false =>
    have hfail : Quietly (Server.emit (.send "FAIL: Not authorized\n".toList)) :=
      Quietly.emit trivial
    exact fun s hs => (hfail.within stable_inv safely_inv) s hs.1
  | true =>
    refine (runInvokeIn_allowed rfl).mono ?_ (fun _ _ hs => hs) fun _ _ hs => hs
    intro s hs
    exact ⟨hs.1, fun items hitems =>
      ⟨hs.2 rfl, hitems, line, hs.1.past _ hline, ⟨hword, rfl⟩, rfl⟩⟩

theorem handleExec_spec (hauth : CheckAuthSpec env k checkAuth) (b : Bool) {line : Str}
    (hline : .request line ∈ known) (hword : strCaseEq (requestWord line) "EXEC".toList = true) :
    Triple (Inv env k b known) (handleExec env checkAuth (requestDetails line))
      (fun _ => Inv env k b known) (Stopped env) := by
  apply Triple.bind (findPermission_spec hauth b _)
  intro allowed
  cases allowed with
  | false =>
    have hfail : Quietly (Server.emit (.send "FAIL: Not authorized\n".toList)) :=
      Quietly.emit trivial
    exact fun s hs => (hfail.within stable_inv safely_inv) s hs.1
  | true =>
    have hexec : Triple
        (fun s => Inv env k b known s ∧ (true = true → Permitted env
          (getToken (requestDetails line) spaceSeparator .none).1 s.history))
        (Server.emit (.execText (requestDetails line)))
        (fun _ => InvIn env k b known (.execText (requestDetails line))) (Stopped env) := by
      intro s hs
      have hallowed : Allowed env (.execText (requestDetails line)) s.history :=
        ⟨hs.2 rfl, line, hs.1.past _ hline, hword, rfl⟩
      exact ⟨(hs.1.push hallowed).weaken le_rfl id fun e he => by simp [he], rfl⟩
    apply Triple.bind hexec
    intro _
    have hmay : MayRun (some (.execText (requestDetails line))) (requestDetails line) [] :=
      ⟨rfl, rfl⟩
    exact (runCommand_allowed hmay none).mono (fun _ hs => hs) (fun _ _ hs => hs.1)
      fun _ _ hs => hs

theorem readClientLine_spec (b : Bool) :
    Triple (Inv env k b known) readClientLine
      (fun read s => Inv env (k - read.isSome.toNat) b known s ∧ (read.isSome = true → 0 < k))
      (Stopped env) := by
  intro s hs
  unfold Server.readClientLine
  rw [exec_bind, exec_read]
  cases hr : readLine s.input with
  | none => exact ⟨hs, fun h => nomatch h⟩
  | some p =>
    have hlt := readLine_shrinks s.input p.1 p.2 hr
    have hk := hs.short
    refine ⟨⟨hs.safe, hs.flag, ?_, hs.auth, hs.past⟩, fun _ => by omega⟩
    show p.2.length ≤ k - 1
    omega

/-- A handler of requests: one that goes on has consumed input. -/
def HandleSpec (env : Env) (k : Nat) (handle : Str → Server Bool) : Prop :=
  ∀ b known types, Triple (Inv env k b known) (handle types)
    (fun more s => Answered env (k - more.toNat) b known types s ∧ (more = true → 0 < k))
    (Stopped env)

theorem handleRequestWith_spec (hauth : 0 < k → CheckAuthSpec env (k - 1) checkAuth) :
    HandleSpec env k (handleRequestWith env checkAuth) := by
  intro b known types
  apply Triple.bind (readClientLine_spec b)
  intro read
  cases read with
  | none =>
    intro s hs
    exact ⟨hs.1.answered types, fun h => nomatch h⟩
  | some text =>
    by_cases hk : 0 < k
    · refine Triple.mono (P := Inv env (k - 1) b known) (E := Stopped env) ?_ (fun _ hs => hs.1)
        (fun _ _ hs => hs) fun _ _ hs => hs
      refine Triple.ite (fun _ => ?_) fun _ => ?_
      · intro s hs
        exact ⟨(hs.weaken (Nat.sub_le k 1) id fun _ he => he).answered types, fun h => nomatch h⟩
      · have hrequest : Triple (Inv env (k - 1) b known)
            (Server.emit (.request (stripTrailingWhitespace text)))
            (fun _ => Inv env (k - 1) b (.request (stripTrailingWhitespace text) :: known))
            (Stopped env) := fun s hs => hs.push trivial
        apply Triple.bind hrequest
        intro _
        have hforget : ∀ s,
            Answered env (k - 1) b (.request (stripTrailingWhitespace text) :: known) types s →
            Answered env (k - 1) b known types s := by
          intro s hs
          refine ⟨hs.1, fun hp => ?_⟩
          have hinv := hs.2 ⟨hp.1, List.mem_cons_of_mem _ hp.2⟩
          exact hinv.weaken le_rfl id fun e he => List.mem_cons_of_mem _ he
        have hmore : ∀ {m : Server PUnit},
            Triple (Inv env (k - 1) b (.request (stripTrailingWhitespace text) :: known)) m
              (fun _ => Answered env (k - 1) b (.request (stripTrailingWhitespace text) :: known)
                types) (Stopped env) →
            Triple (Inv env (k - 1) b (.request (stripTrailingWhitespace text) :: known))
              (m >>= fun _ => pure true)
              (fun more s => Answered env (k - more.toNat) b known types s ∧ (more = true → 0 < k))
              (Stopped env) := by
          intro m hm
          apply Triple.bind hm
          exact fun _ s hs => ⟨hforget s hs, fun _ => hk⟩
        have hinv : ∀ {m : Server PUnit},
            Triple (Inv env (k - 1) b (.request (stripTrailingWhitespace text) :: known)) m
              (fun _ => Inv env (k - 1) b (.request (stripTrailingWhitespace text) :: known))
              (Stopped env) →
            Triple (Inv env (k - 1) b (.request (stripTrailingWhitespace text) :: known)) m
              (fun _ => Answered env (k - 1) b (.request (stripTrailingWhitespace text) :: known)
                types) (Stopped env) :=
          fun hm => hm.mono (fun _ hs => hs) (fun _ _ hs => hs.answered types) fun _ _ hs => hs
        refine Triple.ite (fun _ => hmore (handleClientAuth_spec b _ types)) fun _ => ?_
        refine Triple.ite (fun hword => ?_) fun _ => ?_
        · exact hmore (hinv (handleExec_spec (hauth hk) b List.mem_cons_self hword))
        · refine Triple.ite (fun hword => ?_) fun _ => ?_
          · exact hmore (hinv (handleInvoke_spec (hauth hk) b List.mem_cons_self hword))
          · exact fun s hs => ⟨hforget s (hs.answered types), fun _ => hk⟩
    · intro s hs
      exact absurd (hs.2 rfl) hk

theorem requestLoop_spec {handle : Str → Server Bool} (hhandle : ∀ j ≤ k, HandleSpec env j handle)
    {fuel : Nat} (hfuel : k < fuel) {types : Str} (hprompted : Prompted env types known)
    (b : Bool) :
    Triple (Inv env k b known) (requestLoop (handle types) fuel) (fun _ => Inv env k b known)
      (Stopped env) := by
  induction fuel generalizing k with
  | zero => omega
  | succ fuel ih =>
    apply Triple.bind (hhandle k le_rfl b known types)
    intro more
    cases more with
    | false => exact fun s hs => hs.1.2 hprompted
    | true =>
      by_cases hk : 0 < k
      · have hnext := ih (k := k - 1) (fun j hj => hhandle j (by omega)) (by omega)
        intro s hs
        refine (hnext.mono (fun _ hs => hs) ?_ fun _ _ hs => hs) s (hs.1.2 hprompted)
        exact fun _ _ hs => hs.weaken (Nat.sub_le k 1) id fun _ he => he
      · intro s hs
        exact absurd (hs.2 rfl) hk

theorem checkAuthWith_spec {handle : Str → Server Bool} (hhandle : ∀ j ≤ k, HandleSpec env j handle)
    {fuel : Nat} (hfuel : k < fuel) : CheckAuthSpec env k (checkAuthWith handle fuel) := by
  intro b known types hrule
  have hread : ∀ known, Triple (Inv env k b known) isAuthenticated
      (fun r s => Inv env k (b || r) known s) (Stopped env) := by
    intro known s hs
    exact ⟨hs.safe, hs.flag, hs.short, fun h => (Bool.or_eq_true _ _).mp h |>.elim hs.auth id,
      hs.past⟩
  apply Triple.bind (hread known)
  intro already
  refine Triple.ite (fun halready => ?_) fun halready => ?_
  · rw [halready]
    exact fun s hs => hs
  · rw [Bool.not_eq_true] at halready
    rw [halready, Bool.or_false]
    have hprompt : Triple (Inv env k b known) (Server.emit (.prompt types))
        (fun _ => Inv env k b (.prompt types :: known)) (Stopped env) := fun s hs => hs.push trivial
    apply Triple.bind hprompt
    intro _
    have hsend : Quietly (Server.emit (.send "AUTH\n".toList)) := Quietly.emit trivial
    apply Triple.bind (hsend.within stable_inv safely_inv)
    intro _
    apply Triple.bind (requestLoop_spec hhandle hfuel ⟨hrule, List.mem_cons_self⟩ b)
    intro _
    refine (hread _).mono (fun _ hs => hs) ?_ fun _ _ hs => hs
    exact fun r s hs => hs.weaken le_rfl id fun e he => List.mem_cons_of_mem _ he

/-- Fuel that exceeds the unread input is enough, however deep the requests nest. -/
theorem handleClientRequest_spec {fuel : Nat} (hfuel : k < fuel) :
    HandleSpec env k (handleClientRequest env fuel) := by
  induction fuel generalizing k with
  | zero => omega
  | succ fuel ih =>
    apply handleRequestWith_spec
    intro hk
    apply checkAuthWith_spec
    · intro j hj
      exact ih (by omega)
    · omega

end Requests

/-! ## Whole connections -/

/-- Every connection ends, and everything the server did in it was allowed. -/
theorem handleClient_allowed (env : Env) (input : Str) :
    (handleClient env input).1 ≠ .error .outOfFuel ∧
      EachEvent (Allowed env) (handleClient env input).2.history := by
  have hstart : Inv env input.length false [] { input := input } :=
    ⟨.nil, fun h => (nomatch h), le_rfl, fun h => (nomatch h), fun _ he => nomatch he⟩
  have hend := handleClientRequest_spec (Nat.lt_succ_self _) false [] [] _ hstart
  unfold handleClient
  cases hres : exec (handleClientRequest env (input.length + 1) []) { input := input } with
  | mk r s' =>
    rw [hres] at hend
    cases r with
    | ok more => exact ⟨fun h => (nomatch h), hend.1.1⟩
    | error e =>
      refine ⟨fun h => hend.1 ?_, hend.2⟩
      cases h
      rfl

/-- An item with the tag of the section that an INVOKE request names, which was permitted, with the
variables of the request. -/
def RequestsItem (env : Env) (past : List Event) (tag text : Str) (vars : Vars) : Prop :=
  ∃ line command items limits, .request line ∈ past ∧ AsksInvoke line command ∧
    .verdict command true ∈ past ∧ SectionItems env command items ∧
    .value (some tag) text ∈ items ∧
    vars = limitArgs (invokeVars env (requestDetails line)) limits

/-- A command line made from a `run` entry of the section that an INVOKE request names, with the
variables of the request. -/
def InvokesEntry (env : Env) (past : List Event) (cmd config : Str) : Prop :=
  ∃ text vars, RequestsItem env past "run".toList text vars ∧ BuiltFrom text vars cmd config

def ExecutesText (past : List Event) (cmd config : Str) : Prop :=
  ∃ line, .request line ∈ past ∧ strCaseEq (requestWord line) "EXEC".toList = true ∧
    .verdict (getToken (requestDetails line) spaceSeparator .none).1 true ∈ past ∧
    BuiltFrom (requestDetails line) [] cmd config

/-- The names that `STREAMOpen` is given, with its configuration: the path of a bookout, the path of
a bookin with a plus behind it, and the program of the peer. -/
inductive OpenedName (env : Env) (past : List Event) : Str → Str → Prop
  | bookout {text path : Str} {vars : Vars} : RequestsItem env past "bookout".toList text vars →
    substituteVarsInString vars false text = some path → OpenedName env past path "r".toList
  | bookin {text path : Str} {vars : Vars} : RequestsItem env past "bookin".toList text vars →
    substituteVarsInString vars false text = some path →
    OpenedName env past (path ++ "+".toList) "w".toList
  | program : OpenedName env past env.peer.exePath "r".toList

/-- A command line that `STREAMOpen` takes from a URL. -/
def OpensURL (env : Env) (past : List Event) (cmd config : Str) : Prop :=
  ∃ url mode, OpenedName env past url mode ∧
    (cmd, config) ∈ streamOpenSpawns env.networkSpawns url mode

theorem context_split {past : List Event} {ctx : Event} (h : context past = some ctx) :
    ∃ later earlier, past = later ++ ctx :: earlier := by
  obtain ⟨-, later, earlier, hsplit, -⟩ := List.find?_eq_some_iff_append.mp h
  exact ⟨later, earlier, hsplit⟩

theorem Permitted.verdict_mem {env : Env} {command : Str} {past : List Event}
    (h : Permitted env command past) : .verdict command true ∈ past := List.mem_of_head? h.1

theorem MayUse.requests {env : Env} {past : List Event} (hpast : EachEvent (Allowed env) past)
    {tag text : Str} {vars : Vars} (h : MayUse tag (context past) text vars) :
    RequestsItem env past tag text vars := by
  cases hctx : context past with
  | none =>
    rw [hctx] at h
    exact h.elim
  | some ctx =>
    rw [hctx] at h
    obtain ⟨later, earlier, hsplit⟩ := context_split hctx
    have hin : ∀ x ∈ earlier, x ∈ past := by
      intro x hx
      rw [hsplit]
      exact List.mem_append_right _ (List.mem_cons_of_mem _ hx)
    rw [hsplit] at hpast
    have hallowed := EachEvent.of_append hpast
    cases ctx with
    | enter command entered items =>
      obtain ⟨hmem, limits, hvars⟩ := h
      obtain ⟨hpermitted, hsection, line, hline, hasks, hentered⟩ := hallowed
      rw [hentered] at hvars
      exact ⟨line, command, items, limits, hin _ hline, hasks, hin _ hpermitted.verdict_mem,
        hsection, hmem, hvars⟩
    | _ => exact h.elim

theorem MayRun.cases {env : Env} {past : List Event} (hpast : EachEvent (Allowed env) past)
    {text cmd config : Str} {vars : Vars} (h : MayRun (context past) text vars)
    (hbuilt : BuiltFrom text vars cmd config) :
    InvokesEntry env past cmd config ∨ ExecutesText past cmd config := by
  cases hctx : context past with
  | none =>
    rw [hctx] at h
    exact h.elim
  | some ctx =>
    rw [hctx] at h
    cases ctx with
    | execText details =>
      obtain ⟨htext, hvars⟩ := h
      obtain ⟨later, earlier, hsplit⟩ := context_split hctx
      have hin : ∀ x ∈ earlier, x ∈ past := by
        intro x hx
        rw [hsplit]
        exact List.mem_append_right _ (List.mem_cons_of_mem _ hx)
      rw [hsplit] at hpast
      obtain ⟨hpermitted, line, hline, hword, hdetails⟩ := EachEvent.of_append hpast
      subst htext hvars hdetails
      exact Or.inr ⟨line, hin _ hline, hword, hin _ hpermitted.verdict_mem, hbuilt⟩
    | enter command entered items =>
      have hmay : MayUse "run".toList (context past) text vars := by
        rw [hctx]
        exact h
      exact Or.inl ⟨text, vars, hmay.requests hpast, hbuilt⟩
    | _ => exact h.elim

/-- Every connection ends; what it handed to `STREAMSpawnCommand` was made from a `run` entry of a
section that an INVOKE request names, or from the text of an EXEC request whose first word was
permitted, or by `STREAMOpen` from a URL. -/
theorem spawned_from_entry_or_exec (env : Env) (input : Str) :
    (handleClient env input).1 ≠ .error .outOfFuel ∧
      EachEvent (fun e past => ∀ cmd config, (cmd, config) ∈ e.spawns env →
        InvokesEntry env past cmd config ∨ ExecutesText past cmd config ∨
          OpensURL env past cmd config)
        (handleClient env input).2.history := by
  obtain ⟨hends, hall⟩ := handleClient_allowed env input
  refine ⟨hends, EachEvent.imp ?_ hall⟩
  intro e past hevents cmd config hspawns
  have hpast := hevents.tail
  have hallowed := hevents.head
  cases e with
  | spawn command options =>
    obtain ⟨rfl, rfl⟩ : cmd = command ∧ config = options := by simpa [Event.spawns] using hspawns
    obtain ⟨text, vars, hmay, hbuilt⟩ := hallowed
    exact (hmay.cases hpast hbuilt).imp id Or.inl
  | openRead url =>
    obtain ⟨text, vars, hmay, hpath⟩ := hallowed
    exact Or.inr (Or.inr ⟨url, _, .bookout (hmay.requests hpast) hpath, hspawns⟩)
  | openWrite url =>
    obtain ⟨text, vars, path, hmay, hpath, rfl⟩ := hallowed
    exact Or.inr (Or.inr ⟨_, _, .bookin (hmay.requests hpast) hpath, hspawns⟩)
  | grantCheck command granted => exact Or.inr (Or.inr ⟨_, _, .program, hspawns⟩)
  | _ => exact absurd hspawns List.not_mem_nil

def uploadEnv : Env :=
  { quietEnv.withSections
      [("up".toList, [.value (some "user".toList) "alice".toList,
        .value (some "bookin".toList) "$(file)".toList])] with
    openWrite := fun _ _ => true }

example : ((handleClient uploadEnv "INVOKE up file=cmd:reboot;\n".toList).2.history.flatMap
    (Event.spawns uploadEnv)) = [("reboot;+".toList, "w".toList)] := by decide +kernel

def execEnv : Env := quietEnv.withSections
  [("mount".toList, [.value (some "user".toList) "alice".toList,
    .value (some "run".toList) "/bin/true".toList])]

/-- An EXEC request is a command line of the client's own. -/
theorem exec_spawns_client_text :
    ¬ ∀ (env : Env) (input : Str), EachEvent (fun e _ => ∀ cmd config, e = .spawn cmd config →
      ∃ command items text vars first, SectionItems env command items ∧
        .value (some "run".toList) text ∈ items ∧ substitutedCommand text vars = some first ∧
        cmd = first ++ ownWords text) (handleClient env input).2.history := by
  intro h
  have hall := h execEnv "EXEC mount -o remount,rw / caps=all\n".toList
  have hspawn :
      (handleClient execEnv "EXEC mount -o remount,rw / caps=all\n".toList).2.history[1]? =
      some (.spawn "mount -o remount,rw /".toList "capabilities='all' ".toList) := by
    decide +kernel
  obtain ⟨command, items, text, vars, first, ⟨node, hnode, hitems⟩, hrun, hfirst, hcmd⟩ :=
    hall.get hspawn _ _ rfl
  have hmem := List.mem_of_find?_eq_some hnode
  rw [show execEnv.config = [_] from rfl, List.mem_singleton] at hmem
  subst hmem
  cases hitems
  have htext : text = "/bin/true".toList := by simpa using hrun
  subst htext
  have htoken : (getToken "/bin/true".toList spaceSeparator .quotes).1 = "/bin/true".toList := by
    decide +kernel
  rw [substitutedCommand, htoken, substituteVarsInString_plain _ _ (by decide)] at hfirst
  cases hfirst
  revert hcmd
  decide +kernel

/-- An `auth` rule among the rules that decide a request is met by a grant or by an authentication
for the types of a rule whose prompt was open. -/
theorem auth_rule_enforced (env : Env) (input : Str) :
    EachEvent (fun e past => ∀ command vars items rules, e = .enter command vars items →
      JudgedRules env command rules → (∃ types, AuthRule types rules) →
        past[1]? = some (.grantCheck command true) ∨ AuthSucceeded env past)
      (handleClient env input).2.history := by
  refine EachEvent.imp ?_ (handleClient_allowed env input).2
  intro e past hevents command vars items rules he hjudged hex
  subst he
  exact hevents.head.1.2 rules hjudged hex

def nestedEnv : Env :=
  { quietEnv.withSections
      [("secret".toList, [.value (some "auth".toList) "strong".toList]),
        ("open".toList, [.value (some "auth".toList) "weak".toList])] with
    authPAM := fun _ types _ _ => if types = "weak".toList then cTrue else cFalse }

def Event.calledTypes : Event → Option Str
  | .authCall types _ _ _ => some types
  | _ => none

/-- An authentication for a request nested in a prompt answers the prompt. -/
theorem nested_auth_opens_other_section :
    ¬ ∀ (env : Env) (input : Str), EachEvent (fun e past => ∀ command vars items types,
      e = .enter command vars items → AuthRule types items →
        .grantCheck command true ∉ past →
          ∃ password, .authCall types env.peer.userName password true ∈ past)
      (handleClient env input).2.history := by
  intro h
  have hall := h nestedEnv "INVOKE secret\nINVOKE open\nAUTH password=x\n".toList
  have henter :
      (handleClient nestedEnv
        "INVOKE secret\nINVOKE open\nAUTH password=x\n".toList).2.history[0]? =
        some (.enter "secret".toList (invokeVars nestedEnv "secret".toList)
          [.value (some "auth".toList) "strong".toList]) := by
    decide +kernel
  have hgrant : .grantCheck "secret".toList true ∉
      (handleClient nestedEnv
        "INVOKE secret\nINVOKE open\nAUTH password=x\n".toList).2.history.drop 1 := by
    decide +kernel
  have hcalls : ((handleClient nestedEnv
      "INVOKE secret\nINVOKE open\nAUTH password=x\n".toList).2.history.drop 1).filterMap
        Event.calledTypes = ["weak".toList] := by
    decide +kernel
  obtain ⟨password, hcall⟩ := hall.get henter _ _ _ "strong".toList rfl
    ⟨"auth".toList, List.mem_cons_self, by decide⟩ hgrant
  have hstrong : "strong".toList ∈ ["weak".toList] := by
    rw [← hcalls]
    exact List.mem_filterMap.mpr ⟨_, hcall, rfl⟩
  revert hstrong
  decide

end Invocation
