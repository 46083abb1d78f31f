import Invocation.ConnectionSafety
import Invocation.Lib.Recursion
import Invocation.SectionLoop

/-!
# Termination

The functions that serve a connection as the source writes them: the request
handler and the loop that waits for the answers to an authentication prompt
call each other. Each request the handler goes on with has consumed a line, so
the unread input bounds how deep the calls nest.
-/

namespace Invocation

set_option autoImplicit false

open Process Server Recursion

/-! ## The recursion of the source -/

/-- The calls that may come back to themselves: `HandleClientRequest`, and the loop of `CheckAuth`
that waits for answers. -/
inductive ServerCall
  | request (types : Str)
  | answers (types : Str)

abbrev ServerCall.Result : ServerCall → Type
  | .request _ => Bool
  | .answers _ => PUnit

/-- `CheckAuth`, with the loop that answers its prompt. -/
def checkAuth (answers : Str → Server PUnit) (types : Str) : Server Bool := do
  let already ← isAuthenticated
  if already then pure true
  else do
    emit (.prompt types)
    emit (.send "AUTH\n".toList)
    answers types
    isAuthenticated

/-- One round of `while (HandleClientRequest(...));` -/
def answersRound (request : Str → Server Bool) (answers : Str → Server PUnit) (types : Str) :
    Server PUnit := do
  let more ← request types
  if more then answers types else pure ⟨⟩

/-- The bodies of the functions, over the calls that they make. -/
def serverBody (env : Env) (h : ∀ c : ServerCall, Server c.Result) :
    ∀ c : ServerCall, Server c.Result
  | .request types => handleRequestWith env (checkAuth fun types => h (.answers types)) types
  | .answers types =>
    answersRound (fun types => h (.request types)) (fun types => h (.answers types)) types

/-- A bound for the calls that are still to come: each line is read by a request, and each request
is made by a loop. -/
def callSize : ServerCall → ServerState → Nat
  | .request _, s => 2 * s.input.length
  | .answers _, s => 2 * s.input.length + 1

/-- A request that goes on has read something; nothing is ever put back. -/
def Consumed : ∀ c : ServerCall, ServerState → c.Result → ServerState → Prop
  | .request _, s, more, s' => s'.input.length + more.toNat ≤ s.input.length
  | .answers _, s, _, s' => s'.input.length ≤ s.input.length

/-! ## Input is only consumed -/

def Short (k : Nat) (s : ServerState) : Prop := s.input.length ≤ k

/-- With at most `k` bytes unread both do the same, and leave at most `k`. -/
abbrev SameWithin {α : Type} (k : Nat) (m m' : Server α) : Prop :=
  Agree (Short k) m m' fun _ => Short k

section Short

variable {env : Env} {k : Nat}

theorem stable_short : Stable (Short k) where
  emit := fun _ _ _ hs => hs
  input := fun _ _ hrest hs => Nat.le_trans hrest hs

theorem Quietly.same {α : Type} {m : Server α} (h : Quietly m) : SameWithin k m m :=
  Agree.of_triple (h (Short k) stable_short)

theorem emit_same (e : Event) : SameWithin k (Server.emit e) (Server.emit e) := by
  intro s hs
  refine ⟨rfl, ?_⟩
  intro _ s' hres
  cases hres
  exact hs

theorem pure_same {α : Type} (a : α) : SameWithin k (pure a) (pure a) := (Quietly.pure a).same

theorem runItem_same (items : List Node) (item : Node) (vars : Vars) :
    SameWithin k (runItem env items item vars) (runItem env items item vars) := by
  have hon (m : Server PUnit) (hm : SameWithin k m m) :
      SameWithin k (m >>= fun _ => pure (some vars)) (m >>= fun _ => pure (some vars)) :=
    hm.bind fun _ => pure_same _
  have hswitch (result : SwitchResult) (e : Event) :
      SameWithin k (switchTo result e) (switchTo result e) :=
    Agree.of_triple (switchTo_keeps (fun _ hs => hs) result)
  cases item with
  | block tag sub => exact pure_same _
  | value tag text =>
    apply (Quietly.need tag).same.bind
    intro tag
    refine Agree.ite (fun _ => ?_) fun _ => ?_
    · have hreq := checkRequirement_limits env (stable_short (k := k)) text vars
      apply (Agree.of_triple hreq).bind
      intro p s hs
      exact pure_same _ s hs.2
    · refine Agree.ite (fun _ => ?_) fun _ => ?_
      · exact (Quietly.observe _).same.bind fun result => hon _ (hswitch result _)
      · refine Agree.ite (fun _ => ?_) fun _ => ?_
        · exact (Quietly.observe _).same.bind fun result => hon _ (hswitch result _)
        · refine Agree.ite (fun _ => hon _ ?_) fun _ => ?_
          · exact Agree.of_triple (bookout_keeps env stable_short fun _ _ hs _ => hs)
          refine Agree.ite (fun _ => hon _ ?_) fun _ => ?_
          · exact Agree.of_triple (bookin_keeps env stable_short fun _ _ hs _ => hs)
          refine Agree.ite (fun _ => hon _ (emit_same _)) fun _ => ?_
          refine Agree.ite (fun _ => hon _ ?_) fun _ => pure_same _
          exact Agree.of_triple (runCommand_keeps stable_short (fun _ _ hs _ => hs) _)

theorem runItems_same (items rest : List Node) (vars : Vars) :
    SameWithin k (runItems env items rest vars) (runItems env items rest vars) := by
  induction rest generalizing vars with
  | nil => exact pure_same _
  | cons item rest ih =>
    rw [runItems_cons]
    apply (runItem_same items item vars).bind
    intro result
    cases result with
    | none => exact pure_same _
    | some vars => exact ih vars

theorem runInvokeIn_same (command : Str) (vars : Vars) (sections : List Node) :
    SameWithin k (runInvokeIn env command vars sections)
    (runInvokeIn env command vars sections) := by
  induction sections with
  | nil => exact pure_same _
  | cons node sections ih =>
    apply (Quietly.need node.tag).same.bind
    intro tag
    refine Agree.ite (fun _ => ?_) fun _ => ih
    apply (Quietly.need node.items?).same.bind
    intro items
    exact (emit_same _).bind fun _ => runItems_same items items vars

theorem handleClientAuth_same (details types : Str) :
    SameWithin k (handleClientAuth env details types) (handleClientAuth env details types) := by
  apply (Quietly.observe _).same.bind
  intro result
  apply (emit_same _).bind
  intro _
  refine Agree.ite (fun _ => ?_) fun _ => emit_same _
  have hset : Triple (Short k) (Process.update fun s => { s with authenticated := true })
      (fun _ => Short k) (fun (_ : Halt) _ => True) := fun _ hs => hs
  exact (Agree.of_triple hset).bind fun _ => emit_same _

/-! ## What a request does depends on shorter input -/

variable {auth auth' : Str → Server Bool}

theorem grantCheck_same (command : Str) :
    SameWithin k (grantCheck env command) (grantCheck env command) := by
  apply (Quietly.observe _).same.bind
  intro result
  apply (Quietly.need result).same.bind
  intro granted
  exact (emit_same _).bind fun _ => pure_same _

/-- The rules are walked once, whatever the authentications among them do. -/
theorem checkRules_same (hauth : ∀ types, SameWithin k (auth types) (auth' types)) (peer : Peer)
    (rules : List Node) (result : Bool) :
    SameWithin k (checkRules peer auth rules result) (checkRules peer auth' rules result) := by
  induction rules generalizing result with
  | nil => exact pure_same _
  | cons node rules ih =>
    apply (Quietly.need node.tag).same.bind
    intro tag
    cases ruleIdentity peer tag with
    | some identity =>
      apply (Quietly.need node.text?).same.bind
      intro text
      exact Agree.ite (fun _ => ih true) fun _ => pure_same _
    | none =>
      refine Agree.ite (fun _ => ?_) fun _ => ih result
      apply (Quietly.need node.text?).same.bind
      intro text
      apply (hauth text).bind
      intro passed
      exact Agree.ite (fun _ => ih true) fun _ => pure_same _

theorem checkPermission_same (hauth : ∀ types, SameWithin k (auth types) (auth' types))
    (command : Str) (rules : Option (List Node)) :
    SameWithin k (checkPermission env auth command rules)
      (checkPermission env auth' command rules) := by
  apply (grantCheck_same command).bind
  intro granted
  refine Agree.ite (fun _ => pure_same _) fun _ => ?_
  apply (Quietly.need rules).same.bind
  intro rules
  exact checkRules_same hauth env.peer rules false

theorem findPermission_same (hauth : ∀ types, SameWithin k (auth types) (auth' types))
    (command : Str) :
    SameWithin k (findPermission env auth command) (findPermission env auth' command) := by
  have hsections (sections : List Node) : SameWithin k (findPermissionIn env auth command sections)
      (findPermissionIn env auth' command sections) := by
    induction sections with
    | nil => exact pure_same _
    | cons node sections ih =>
      apply (Quietly.need node.tag).same.bind
      intro tag
      exact Agree.ite (fun _ => checkPermission_same hauth command node.items?) fun _ => ih
  apply (hsections env.config).bind
  intro allowed
  exact (emit_same _).bind fun _ => pure_same _

theorem handleInvoke_same (hauth : ∀ types, SameWithin k (auth types) (auth' types))
    (details : Str) :
    SameWithin k (handleInvoke env auth details) (handleInvoke env auth' details) := by
  apply (findPermission_same hauth _).bind
  intro allowed
  exact Agree.ite (fun _ => runInvokeIn_same _ _ _) fun _ => emit_same _

theorem handleExec_same (hauth : ∀ types, SameWithin k (auth types) (auth' types))
    (details : Str) :
    SameWithin k (handleExec env auth details) (handleExec env auth' details) := by
  apply (findPermission_same hauth _).bind
  intro allowed
  refine Agree.ite (fun _ => ?_) fun _ => emit_same _
  apply (emit_same _).bind
  intro _
  exact Agree.of_triple (runCommand_keeps stable_short (fun _ _ hs _ => hs) none)

/-- What a request that goes on has left. -/
def ShortAfter (k : Nat) (more : Bool) (s : ServerState) : Prop := s.input.length + more.toNat ≤ k

theorem readClientLine_consumes :
    Agree (Short k) readClientLine readClientLine fun line s => ShortAfter k line.isSome s := by
  intro s hs
  refine ⟨rfl, ?_⟩
  intro line s' hres
  rw [exec_readClientLine] at hres
  unfold Short at hs
  unfold ShortAfter
  cases hr : readLine s.input with
  | none =>
    rw [hr] at hres
    cases hres
    simpa using hs
  | some p =>
    rw [hr] at hres
    cases hres
    have hlt := readLine_shrinks s.input p.1 p.2 hr
    simp only [Option.isSome_some, Bool.toNat_true]
    omega

/-- What `HandleClientRequest` does with a line that is not empty. -/
def serveLine (env : Env) (auth : Str → Server Bool) (types line : Str) : Server PUnit :=
  if strCaseEq (requestWord line) "AUTH".toList then
    handleClientAuth env (requestDetails line) types
  else if strCaseEq (requestWord line) "EXEC".toList then
    handleExec env auth (requestDetails line)
  else if strCaseEq (requestWord line) "INVOKE".toList then
    handleInvoke env auth (requestDetails line)
  else pure ⟨⟩

theorem serveLine_same (hauth : ∀ types, SameWithin k (auth types) (auth' types))
    (types line : Str) :
    SameWithin k (serveLine env auth types line) (serveLine env auth' types line) := by
  unfold serveLine
  refine Agree.ite (fun _ => handleClientAuth_same _ types) fun _ => ?_
  refine Agree.ite (fun _ => handleExec_same hauth _) fun _ => ?_
  exact Agree.ite (fun _ => handleInvoke_same hauth _) fun _ => pure_same _

def answerLine (env : Env) (auth : Str → Server Bool) (types line : Str) : Server Bool :=
  if line = [] then pure false
  else do
    emit (.request line)
    serveLine env auth types line
    pure true

theorem handleRequestWith_eq (auth : Str → Server Bool) (types : Str) :
    handleRequestWith env auth types = readClientLine >>= fun read =>
      answerLine env auth types (stripTrailingWhitespace (read.getD [])) := by
  unfold handleRequestWith
  apply bind_congr
  intro read
  unfold answerLine serveLine requestWord requestDetails
  simp only [ite_bind, pure_bind]

theorem answerLine_agree {j : Nat} (hauth : ∀ types, SameWithin j (auth types) (auth' types))
    (types line : Str) :
    Agree (Short j) (answerLine env auth types line) (answerLine env auth' types line)
      (ShortAfter (j + 1)) := by
  have hmore (more : Bool) : Agree (Short j) (pure more : Server Bool) (pure more)
      (ShortAfter (j + 1)) := by
    apply (pure_same more).mono (fun _ hs => hs)
    intro more s hs
    have hle : more.toNat ≤ 1 := Bool.toNat_le more
    exact Nat.add_le_add hs hle
  refine Agree.ite (fun _ => hmore false) fun _ => ?_
  apply (emit_same _).bind
  intro _
  exact (serveLine_same hauth types line).bind fun _ => hmore true

/-- The handler depends on the authentications it meets behind its own line only. -/
theorem handleRequestWith_agree
    (hauth : ∀ j < k, ∀ types, SameWithin j (auth types) (auth' types)) (types : Str) :
    Agree (Short k) (handleRequestWith env auth types) (handleRequestWith env auth' types)
      (ShortAfter k) := by
  rw [handleRequestWith_eq, handleRequestWith_eq]
  apply readClientLine_consumes.bind
  intro read
  cases read with
  | none =>
    have hnil (auth : Str → Server Bool) :
        answerLine env auth types (stripTrailingWhitespace ((none : Option Str).getD [])) =
          pure false := if_pos rfl
    rw [hnil, hnil]
    intro s hs
    refine ⟨rfl, ?_⟩
    intro more s' hres
    cases hres
    exact hs
  | some text =>
    intro s hs
    have hread : s.input.length + 1 ≤ k := hs
    obtain ⟨j, rfl⟩ : ∃ j, k = j + 1 := ⟨k - 1, by omega⟩
    exact answerLine_agree (hauth j (Nat.lt_succ_self j)) types _ s (Nat.le_of_succ_le_succ hread)

end Short

/-! ## The recursion decreases -/

variable (env : Env)

theorem checkAuth_same {k : Nat} {answers answers' : Str → Server PUnit}
    (hanswers : ∀ types, SameWithin k (answers types) (answers' types)) (types : Str) :
    SameWithin k (checkAuth answers types) (checkAuth answers' types) := by
  have hflag : SameWithin k isAuthenticated isAuthenticated := by
    have hread : Triple (Short k) isAuthenticated (fun _ => Short k) fun (_ : Halt) _ => True :=
      fun _ hs => hs
    exact Agree.of_triple hread
  apply hflag.bind
  intro already
  refine Agree.ite (fun _ => pure_same true) fun _ => ?_
  apply (emit_same _).bind
  intro _
  apply (emit_same _).bind
  intro _
  exact (hanswers types).bind fun _ => hflag

/-- A round of the loop that goes on has consumed a line. -/
theorem answersRound_same {k : Nat} {request request' : Str → Server Bool}
    {answers answers' : Str → Server PUnit} {types : Str}
    (hrequest : Agree (Short k) (request types) (request' types) (ShortAfter k))
    (hanswers : ∀ j < k, SameWithin j (answers types) (answers' types)) :
    SameWithin k (answersRound request answers types) (answersRound request' answers' types) := by
  apply hrequest.bind
  intro more s hs
  cases more with
  | false => exact pure_same PUnit.unit s hs
  | true =>
    have hread : s.input.length + 1 ≤ k := hs
    obtain ⟨j, rfl⟩ : ∃ j, k = j + 1 := ⟨k - 1, by omega⟩
    have hnext : Agree (Short j) (answers types) (answers' types) fun _ => Short (j + 1) :=
      (hanswers j (Nat.lt_succ_self j)).mono (fun _ ht => ht) fun _ _ ht => Nat.le_succ_of_le ht
    exact hnext s (Nat.le_of_succ_le_succ hread)

theorem AgreeBelow.request {n k : Nat} {h h' : ∀ c : ServerCall, Server c.Result}
    (hagree : AgreeBelow callSize Consumed n h h') (hk : 2 * k < n) (types : Str) :
    Agree (Short k) (h (.request types)) (h' (.request types)) (ShortAfter k) := by
  intro s hs
  have hsize : callSize (.request types) s < n := by
    unfold Short at hs
    show 2 * s.input.length < n
    omega
  obtain ⟨heq, hpost⟩ := hagree (.request types) s hsize s rfl
  exact ⟨heq, fun more s' hres => Nat.le_trans (hpost more s' hres) hs⟩

theorem AgreeBelow.answers {n k : Nat} {h h' : ∀ c : ServerCall, Server c.Result}
    (hagree : AgreeBelow callSize Consumed n h h') (hk : 2 * k + 1 < n) (types : Str) :
    SameWithin k (h (.answers types)) (h' (.answers types)) := by
  intro s hs
  have hsize : callSize (.answers types) s < n := by
    unfold Short at hs
    show 2 * s.input.length + 1 < n
    omega
  obtain ⟨heq, hpost⟩ := hagree (.answers types) s hsize s rfl
  exact ⟨heq, fun _ s' hres => Nat.le_trans (hpost _ s' hres) hs⟩

theorem serverBody_decreasing : Decreasing callSize Consumed (serverBody env) := by
  intro h h' c s hagree t ht
  subst ht
  cases c with
  | request types =>
    have hauth : ∀ j < t.input.length, ∀ types,
        SameWithin j (checkAuth (fun types => h (.answers types)) types)
          (checkAuth (fun types => h' (.answers types)) types) := by
      intro j hj
      have hsize : 2 * j + 1 < 2 * t.input.length := by omega
      exact checkAuth_same fun types => AgreeBelow.answers hagree hsize types
    exact handleRequestWith_agree hauth types t (Nat.le_refl _)
  | answers types =>
    have hrequest := AgreeBelow.request hagree (Nat.lt_succ_self (2 * t.input.length)) types
    have hanswers : ∀ j < t.input.length, SameWithin j (h (.answers types))
        (h' (.answers types)) := by
      intro j hj
      have hsize : 2 * j + 1 < 2 * t.input.length + 1 := by omega
      exact AgreeBelow.answers hagree hsize types
    have hround : SameWithin t.input.length
        (answersRound (fun types => h (.request types)) (fun types => h (.answers types)) types)
        (answersRound (fun types => h' (.request types))
          (fun types => h' (.answers types)) types) :=
      answersRound_same hrequest hanswers
    exact hround t (Nat.le_refl _)

/-! ## The handler with fuel -/

/-- A loop with more fuel than unread bytes does what the loop without fuel does. -/
theorem requestLoop_same {h : ∀ c : ServerCall, Server c.Result} (hh : serverBody env h = h)
    {request : Str → Server Bool} {types : Str} {n k fuel : Nat} (hk : k < fuel) (hn : k ≤ n)
    (hrequest : ∀ j ≤ n, Agree (Short j) (request types) (h (.request types)) (ShortAfter j)) :
    SameWithin k (requestLoop (request types) fuel) (h (.answers types)) := by
  induction fuel generalizing k with
  | zero => omega
  | succ fuel ih =>
    have hround :
      SameWithin k (answersRound request (fun _ => requestLoop (request types) fuel) types)
        (answersRound (fun types => h (.request types)) (fun types => h (.answers types)) types) :=
      answersRound_same (hrequest k hn) fun j hj => ih (by omega) (by omega)
    have heq : h (.answers types) = serverBody env h (.answers types) := by rw [hh]
    rw [heq]
    exact hround

theorem handleClientRequest_agree {h : ∀ c : ServerCall, Server c.Result}
    (hh : serverBody env h = h)
    {n k : Nat} (hk : k < n) (types : Str) :
    Agree (Short k) (handleClientRequest env n types) (h (.request types)) (ShortAfter k) := by
  induction n generalizing k types with
  | zero => omega
  | succ n ih =>
    have heq : h (.request types) =
        handleRequestWith env (checkAuth fun types => h (.answers types)) types := by
      show h (.request types) = serverBody env h (.request types)
      rw [hh]
    rw [heq]
    apply handleRequestWith_agree
    intro j hj types
    have hloop : ∀ types, SameWithin j (requestLoop (handleClientRequest env n types) (n + 1))
        (h (.answers types)) := by
      intro types
      exact requestLoop_same env hh (by omega) (Nat.le_refl j) fun i hi => ih (by omega) types
    exact checkAuth_same hloop types

/-- The functions that serve a connection have exactly one meaning on every input: their calls
cannot nest for ever, and none nests deeper than the unread input allows. Every loop over tokens
moves its cursor forward and stops, whatever the separators, the flags and the text. -/
theorem connection_terminates :
    (∃ h : ∀ c : ServerCall, Server c.Result,
      (∀ h', serverBody env h' = h' ↔ h' = h) ∧
      WellFounded (CalledBy (serverBody env) h) ∧
      (∀ start n c s, callSize c s < n →
        exec (rounds (serverBody env) start n c) s = exec (h c) s) ∧
      ∀ input, handleClient env input = exec (h (.request [])) { input := input } ∧
        (handleClient env input).1 ≠ .error .outOfFuel) ∧
      (∀ separator fl, Scan.Finishes (nextToken separator fl)) ∧
      (∀ pairDelim nameValueDelim, Scan.Finishes (nextPair pairDelim nameValueDelim)) ∧
      (∀ fl items, Scan.Advances (findSeparatorStep fl items)) ∧
      ∀ fl seps, Scan.Advances (multiSepStep fl seps) := by
  refine ⟨?_, nextToken_finishes, nextPair_finishes, findSeparatorStep_advances,
    multiSepStep_advances⟩
  have hbody := serverBody_decreasing env
  have hsolves := hbody.solves fun _ => Process.stop .outOfFuel
  refine ⟨solution callSize (serverBody env) fun _ => Process.stop .outOfFuel, ?_, ?_, ?_, ?_⟩
  · intro h'
    constructor
    · intro hh'
      exact hbody.unique hh' hsolves
    · intro heq
      rw [heq, hsolves]
  · exact hbody.calledBy_wellFounded hsolves
  · intro start n c s hs
    exact hbody.rounds_eq hsolves start hs
  · intro input
    refine ⟨?_, (handleClient_allowed env input).1⟩
    exact (handleClientRequest_agree env hsolves (Nat.lt_succ_self input.length) [] _
      (Nat.le_refl _)).1

end Invocation
