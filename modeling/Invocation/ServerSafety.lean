import Invocation.AppDBLine
import Invocation.Server

/-!
# What holds of every connection

Every spawned command, every section entered and every text executed is
justified by the events before it, whatever the client sends and however its
requests nest inside authentication prompts; and the handler always ends.
-/

namespace Invocation

set_option autoImplicit false

open Process Server

/-! ## What an event needs -/

/-- The first word of a request line, and the text behind it. -/
def requestWord (line : Str) : Str := (getToken line requestSeparator .multi).1

def requestDetails (line : Str) : Str := ((getToken line requestSeparator .multi).2).getD []

/-- The line asks to invoke the command. -/
def AsksInvoke (line command : Str) : Prop :=
  strCaseEq (requestWord line) "INVOKE".toList = true ∧
    (invokeCommand (requestDetails line)).1 = command

/-- The line asks to execute the text. -/
def AsksExec (line details : Str) : Prop :=
  strCaseEq (requestWord line) "EXEC".toList = true ∧ requestDetails line = details

/-- The section that `RunInvoke` runs for a command has these items. -/
def SectionItems (env : Env) (command : Str) (items : List Node) : Prop :=
  ∃ node, env.config.find? (fun n => n.tag = some command) = some node ∧ node.items? = some items

/-- The section that `FindPermission` judges a command by has these rules. -/
def JudgedRules (env : Env) (command : Str) (rules : List Node) : Prop :=
  ∃ node, env.config.find? (fun n => n.tag.any (relates env command)) = some node ∧
    node.items? = some rules

def AuthRule (types : Str) (rules : List Node) : Prop :=
  ∃ tag, .value (some tag) types ∈ rules ∧ strCaseEq tag "auth".toList = true

/-- Some section of the configuration has a rule `auth types`. -/
def AuthRuleIn (env : Env) (types : Str) : Prop :=
  ∃ tag rules, .block tag rules ∈ env.config ∧ AuthRule types rules

/-- The words of an entry that `RunCommand` appends to the command: no options. -/
def isWord (token : Str) : Bool := '=' ∉ token && token ≠ "pty".toList

def ownWords (text : Str) : Str :=
  ((commandOptions text).filter isWord).flatMap fun token => " ".toList ++ token

/-- The spawn configuration that the options of an entry ask for. -/
def ownConfig (text : Str) : Str :=
  ((commandOptions text).foldl SpawnRequest.addToken { cmd := [] }).capabilities

/-- The command line is the first token of the entry with its variables substituted and the
entry's own words; the spawn configuration is its own. -/
def BuiltFrom (text : Str) (vars : Vars) (cmd config : Str) : Prop :=
  ∃ first, substitutedCommand text vars = some first ∧ cmd = first ++ ownWords text ∧
    config = ownConfig text

/-- The variables of a request after some `require arglen` items have limited its arguments. -/
def limitArgs (vars : Vars) (limits : List Str) : Vars :=
  limits.foldl (fun vars arg => setVar vars "InvokeMaxArgLen".toList arg) vars

def isContext : Event → Bool
  | .enter _ _ _ => true
  | .execText _ => true
  | _ => false

/-- What the server is doing: the section entered or the text executed last. -/
def context (history : List Event) : Option Event := history.find? isContext

/-- The texts that an item with the tag may have in a context, with the variables it may use. -/
def MayUse (tag : Str) : Option Event → Str → Vars → Prop
  | some (.enter _ entered items), text, vars =>
    .value (some tag) text ∈ items ∧ ∃ limits, vars = limitArgs entered limits
  | _, _, _ => False

/-- The texts that may be run in a context, with the variables they may use. -/
def MayRun : Option Event → Str → Vars → Prop
  | some (.execText details), text, vars => text = details ∧ vars = []
  | ctx, text, vars => MayUse "run".toList ctx text vars

/-- An authentication for the types of some configured rule has succeeded behind its prompt. -/
def AuthSucceeded (env : Env) (past : List Event) : Prop :=
  ∃ types password later earlier, AuthRuleIn env types ∧ .prompt types ∈ earlier ∧
    past = later ++ .authCall (requestedTypes types) env.peer.userName password true :: earlier

/-- The verdict that was just given lets the peer use the command: an `auth` rule among the rules
that decided it is met by a grant or by an authentication. -/
def Permitted (env : Env) (command : Str) (past : List Event) : Prop :=
  past.head? = some (.verdict command true) ∧
    ∀ rules, JudgedRules env command rules → (∃ types, AuthRule types rules) →
      past[1]? = some (.grantCheck command true) ∨ AuthSucceeded env past

/-- An event is allowed after what has happened. -/
def Allowed (env : Env) : Event → List Event → Prop
  | .spawn cmd config, past =>
    ∃ text vars, MayRun (context past) text vars ∧ BuiltFrom text vars cmd config
  | .openRead url, past =>
    ∃ text vars, MayUse "bookout".toList (context past) text vars ∧
      substituteVarsInString vars false text = some url
  | .openWrite url, past =>
    ∃ text vars path, MayUse "bookin".toList (context past) text vars ∧
      substituteVarsInString vars false text = some path ∧ url = path ++ "+".toList
  | .enter command vars items, past =>
    Permitted env command past ∧ SectionItems env command items ∧
      ∃ line, .request line ∈ past ∧ AsksInvoke line command ∧
        vars = invokeVars env (requestDetails line)
  | .execText details, past =>
    Permitted env (getToken details spaceSeparator .none).1 past ∧
      ∃ line, .request line ∈ past ∧ AsksExec line details
  | _, _ => True

/-! ## The invariant -/

/-- Holds while a connection is served: the history is justified, the flag has a reason, at most
`k` bytes are unread, the flag is set if `b` says so, and the events of `known` have happened. -/
structure Inv (env : Env) (k : Nat) (b : Bool) (known : List Event) (s : ServerState) : Prop where
  safe : EachEvent (Allowed env) s.history
  flag : s.authenticated = true → AuthSucceeded env s.history
  short : s.input.length ≤ k
  auth : b = true → s.authenticated = true
  past : ∀ e ∈ known, e ∈ s.history

/-- How the process may stop. -/
def Stopped (env : Env) (e : Halt) (s : ServerState) : Prop :=
  e ≠ .outOfFuel ∧ EachEvent (Allowed env) s.history

/-- Events that need no justification and change neither the context nor the server's identity. -/
def Quiet : Event → Prop
  | .spawn _ _ => False
  | .openRead _ => False
  | .openWrite _ => False
  | .enter _ _ _ => False
  | .execText _ => False
  | .switchUser _ => False
  | .switchGroup _ => False
  | _ => True

theorem Quiet.allowed {e : Event} (h : Quiet e) (env : Env) (past : List Event) :
    Allowed env e past := by
  cases e <;> trivial

theorem Quiet.context {e : Event} (h : Quiet e) (past : List Event) :
    Invocation.context (e :: past) = Invocation.context past := by
  cases e <;> first | rfl | exact h.elim

theorem AuthSucceeded.cons {env : Env} {past : List Event} (h : AuthSucceeded env past)
    (e : Event) :
    AuthSucceeded env (e :: past) := by
  obtain ⟨types, password, later, earlier, hrule, hprompt, hcall⟩ := h
  refine ⟨types, password, e :: later, earlier, hrule, hprompt, ?_⟩
  rw [hcall, List.cons_append]

section Inv

variable {env : Env} {k : Nat} {b : Bool} {known : List Event} {s : ServerState}

theorem Inv.push (h : Inv env k b known s) {e : Event} (he : Allowed env e s.history) :
    Inv env k b (e :: known) { s with history := e :: s.history } where
  safe := .cons he h.safe
  flag := fun hs => (h.flag hs).cons e
  short := h.short
  auth := h.auth
  past := by
    intro x hx
    rcases List.mem_cons.mp hx with rfl | hx
    · exact List.mem_cons_self
    · exact List.mem_cons_of_mem _ (h.past x hx)

theorem Inv.weaken (h : Inv env k b known s) {k' : Nat} {b' : Bool} {known' : List Event}
    (hk : k ≤ k') (hb : b' = true → b = true) (hknown : ∀ e ∈ known', e ∈ known) :
    Inv env k' b' known' s where
  safe := h.safe
  flag := h.flag
  short := Nat.le_trans h.short hk
  auth := fun hb' => h.auth (hb hb')
  past := fun e he => h.past e (hknown e he)

theorem Inv.read (h : Inv env k b known s) {rest : Str} (hrest : rest.length ≤ s.input.length) :
    Inv env k b known { s with input := rest } where
  safe := h.safe
  flag := h.flag
  short := Nat.le_trans hrest h.short
  auth := h.auth
  past := h.past

end Inv

/-! ## Quiet processes -/

/-- A property of states that quiet events and reading input leave alone. -/
structure Stable (I : ServerState → Prop) : Prop where
  emit : ∀ s e, Quiet e → I s → I { s with history := e :: s.history }
  input : ∀ s rest, rest.length ≤ s.input.length → I s → I { s with input := rest }

/-- The process keeps every stable property, and never runs out of fuel. -/
def Quietly {α : Type} (m : Server α) : Prop :=
  ∀ I, Stable I → Triple I m (fun _ => I) (fun e s => e ≠ .outOfFuel ∧ I s)

namespace Quietly

variable {α β : Type}

theorem bind {x : Server α} {f : α → Server β} (hx : Quietly x) (hf : ∀ a, Quietly (f a)) :
    Quietly (x >>= f) := fun I hI => Triple.bind (hx I hI) fun a => hf a I hI

theorem pure (a : α) : Quietly (Pure.pure a : Server α) := fun _ _ _ hs => hs

theorem observe (f : List Event → α) : Quietly (Server.observe f) := fun _ _ _ hs => hs

theorem emit {e : Event} (he : Quiet e) : Quietly (Server.emit e) :=
  fun _ hI s hs => hI.emit s e he hs

theorem stop {e : Halt} (he : e ≠ .outOfFuel) : Quietly (Process.stop e : Server α) :=
  fun _ _ _ hs => ⟨he, hs⟩

theorem need (o : Option α) : Quietly (Server.need o) := by
  cases o with
  | none => exact stop (by decide)
  | some a => exact pure a

theorem ite {c : Prop} [Decidable c] {x y : Server α} (hx : Quietly x) (hy : Quietly y) :
    Quietly (if c then x else y) :=
  fun I hI => Triple.ite (fun _ => hx I hI) (fun _ => hy I hI)

theorem readClientLine : Quietly readClientLine := by
  intro I hI s hs
  unfold Server.readClientLine
  rw [exec_bind, exec_read]
  cases hr : readLine s.input with
  | none => exact hs
  | some p =>
    have hlt := readLine_shrinks s.input p.1 p.2 hr
    exact hI.input s p.2 (by omega) hs

theorem readClientBytes (size : Nat) : Quietly (readClientBytes size) := by
  intro I hI s hs
  exact hI.input s _ (by simp) hs

end Quietly

theorem need_keeps {α β : Type} {I : ServerState → Prop} {o : Option α} {f : α → Server β}
    {Q : β → ServerState → Prop}
    (h : ∀ a, o = some a → Triple I (f a) Q (fun e s => e ≠ .outOfFuel ∧ I s)) :
    Triple I (need o >>= f) Q (fun e s => e ≠ .outOfFuel ∧ I s) := by
  cases o with
  | none => exact fun s hs => ⟨by decide, hs⟩
  | some a =>
    intro s hs
    rw [exec_bind]
    exact h a rfl s hs

section Parts

variable (env : Env)

theorem expectDialogs_quietly (vars : Vars) (items : List Node) :
    Quietly (expectDialogs vars items) := by
  induction items with
  | nil => exact Quietly.pure []
  | cons item items ih =>
    cases item with
    | block tag sub => exact ih
    | value tag text =>
      apply Quietly.bind (Quietly.need _)
      intro expect
      apply Quietly.bind (Quietly.need _)
      intro reply
      apply Quietly.bind (Quietly.need _)
      intro tag
      exact Quietly.bind ih fun rest => Quietly.pure _

theorem openDialog_quietly (section? : Option (List Node)) (name : Str) :
    Quietly (openDialog section? name) := by
  cases section? with
  | none => exact Quietly.ite (Quietly.pure _) (Quietly.stop (by decide))
  | some items => exact Quietly.pure _

theorem processExpect_quietly (name : Str) (vars : Vars) (section? : Option (List Node))
    (timeout : Int) (output : List (Option Char)) :
    Quietly (processExpect name vars section? timeout output) := by
  apply Quietly.bind (openDialog_quietly section? name)
  intro items
  apply Quietly.bind (expectDialogs_quietly vars items)
  intro dialogs
  have hreply : Quietly (emit (.reply (streamExpectDialog timeout output dialogs).1.flatten)) :=
    Quietly.emit trivial
  exact Quietly.bind hreply fun _ => Quietly.ite (Quietly.stop (by decide)) (Quietly.pure _)

theorem sendOutput_quietly (r : SpawnRequest) (vars : Vars) (section? : Option (List Node))
    (output : List (Option Char)) : Quietly (sendOutput r vars section? output) := by
  have hanswer (p : Bool × List (Option Char)) : Quietly (if p.1 = true then do
      emit (.send "OKAY: Command output follows\n".toList)
      emit (.send (p.2.filterMap id))
      else emit (.send "FAIL: convo failed\n".toList)) := by
    refine Quietly.ite ?_ (Quietly.emit trivial)
    exact Quietly.bind (Quietly.emit trivial) fun _ => Quietly.emit trivial
  apply Quietly.ite
  · exact Quietly.bind (Quietly.pure _) hanswer
  · exact Quietly.bind (processExpect_quietly _ _ _ _ _) hanswer

theorem checkRequirement_limits {I : ServerState → Prop} (hI : Stable I) (details : Str)
    (vars : Vars) :
    Triple I (checkRequirement env details vars)
      (fun r s => (∃ limits, r.2 = limitArgs vars limits) ∧ I s)
      (fun e s => e ≠ .outOfFuel ∧ I s) := by
  have hsame : ∀ met : Bool, Triple I (pure (met, vars))
      (fun r s => (∃ limits, r.2 = limitArgs vars limits) ∧ I s)
      (fun e s => e ≠ Halt.outOfFuel ∧ I s) := fun _ _ hs => ⟨⟨[], rfl⟩, hs⟩
  refine Triple.ite (fun _ => ?_) fun _ => ?_
  · exact Triple.bind (Quietly.observe _ I hI) fun _ => hsame _
  · refine Triple.ite (fun _ => ?_) fun _ => ?_
    · exact fun _ hs => ⟨⟨[_], rfl⟩, hs⟩
    · refine Triple.ite (fun _ => ?_) fun _ => ?_
      · exact Triple.bind (Quietly.observe _ I hI) fun _ => hsame _
      · refine Triple.ite (fun _ => ?_) fun _ => ?_
        · exact Triple.bind (Quietly.observe _ I hI) fun _ => hsame _
        · refine Triple.ite (fun _ => ?_) fun _ => hsame _
          apply Triple.bind (Quietly.observe _ I hI)
          intro result
          exact Triple.bind (Quietly.emit (e := .lock _) trivial I hI) fun _ => hsame _

theorem switchTo_keeps {I : ServerState → Prop} {e : Event}
    (he : ∀ s, I s → I { s with history := e :: s.history }) (result : SwitchResult) :
    Triple I (switchTo result e) (fun _ => I) (fun e s => e ≠ .outOfFuel ∧ I s) := by
  cases result with
  | unknown => exact fun _ hs => hs
  | switched => exact fun s hs => he s hs
  | refused => exact fun _ hs => ⟨by decide, hs⟩

theorem bookout_keeps {I : ServerState → Prop} (hI : Stable I) {text : Str} {vars : Vars}
    (hopen : ∀ s path, I s → substituteVarsInString vars false text = some path →
      I { s with history := .openRead path :: s.history }) :
    Triple I (bookoutFileToClient env text vars) (fun _ => I)
      (fun e s => e ≠ .outOfFuel ∧ I s) := by
  apply need_keeps
  intro path hpath
  apply Triple.bind (Quietly.observe _ I hI)
  intro stat
  cases stat with
  | none => exact Quietly.pure _ I hI
  | some stat =>
    refine Triple.ite (fun _ => ?_) fun _ => Quietly.pure _ I hI
    apply Triple.bind (Quietly.observe _ I hI)
    intro content
    have hread : Triple I (Server.emit (.openRead path)) (fun _ => I)
        (fun e s => e ≠ .outOfFuel ∧ I s) := fun s hs => hopen s path hs hpath
    apply Triple.bind hread
    intro _
    cases content with
    | none => exact Quietly.pure _ I hI
    | some content =>
      have hsend : Quietly (do
          Server.emit (.send ("bookout ".toList ++ decimal stat.size ++ " ".toList ++
            getBasename path ++ "\n".toList))
          Server.emit (.send content)) :=
        Quietly.bind (Quietly.emit trivial) fun _ => Quietly.emit trivial
      exact hsend I hI

theorem bookin_keeps {I : ServerState → Prop} (hI : Stable I) {text : Str} {vars : Vars}
    (hopen : ∀ s path, I s → substituteVarsInString vars false text = some path →
      I { s with history := .openWrite (path ++ "+".toList) :: s.history }) :
    Triple I (bookinFileFromClient env text vars) (fun _ => I)
      (fun e s => e ≠ .outOfFuel ∧ I s) := by
  apply need_keeps
  intro path hpath
  apply Triple.bind (Quietly.observe _ I hI)
  intro opened
  refine Triple.ite (fun _ => ?_) fun _ => Quietly.pure _ I hI
  have hwrite : Triple I (Server.emit (.openWrite (path ++ "+".toList))) (fun _ => I)
      (fun e s => e ≠ .outOfFuel ∧ I s) := fun s hs => hopen s path hs hpath
  apply Triple.bind hwrite
  intro _
  have hask : Quietly (Server.emit (.send ("bookin ".toList ++ getBasename path ++ "\n".toList))) :=
    Quietly.emit trivial
  refine Quietly.bind hask (fun _ => ?_) I hI
  apply Quietly.bind Quietly.readClientLine
  intro answer
  refine Quietly.ite ?_ (Quietly.emit trivial)
  apply Quietly.bind (Quietly.readClientBytes _)
  intro content
  refine Quietly.bind (Quietly.emit trivial) fun _ => ?_
  exact Quietly.bind (Quietly.emit trivial) fun _ => Quietly.emit trivial

end Parts

/-! ## Commands -/

theorem isWord_iff (token : Str) : isWord token = true ↔ '=' ∉ token ∧ token ≠ "pty".toList := by
  unfold isWord
  rw [Bool.and_eq_true, decide_eq_true_iff, decide_eq_true_iff]

theorem SpawnRequest.addToken_cmd (r : SpawnRequest) (token : Str) :
    (r.addToken token).cmd = r.cmd ++ (if isWord token then " ".toList ++ token else []) := by
  unfold SpawnRequest.addToken
  by_cases heq : '=' ∈ token
  · rw [if_pos heq, if_neg (fun h => ((isWord_iff token).mp h).1 heq), List.append_nil]
    dsimp only
    split_ifs <;> rfl
  · rw [if_neg heq]
    by_cases hpty : token = "pty".toList
    · rw [if_pos hpty, if_neg (fun h => ((isWord_iff token).mp h).2 hpty), List.append_nil]
    · rw [if_neg hpty, if_pos ((isWord_iff token).mpr ⟨heq, hpty⟩), List.append_assoc]

theorem SpawnRequest.addToken_capabilities {r r' : SpawnRequest}
    (h : r.capabilities = r'.capabilities) (token : Str) :
    (r.addToken token).capabilities = (r'.addToken token).capabilities := by
  unfold SpawnRequest.addToken
  by_cases heq : '=' ∈ token
  · rw [if_pos heq, if_pos heq]
    dsimp only
    split_ifs <;> simp only [h]
  · rw [if_neg heq, if_neg heq]
    split_ifs <;> simp only [h]

theorem foldl_addToken_cmd (options : List Str) (r : SpawnRequest) :
    (options.foldl SpawnRequest.addToken r).cmd =
      r.cmd ++ (options.filter isWord).flatMap fun token => " ".toList ++ token := by
  induction options generalizing r with
  | nil => simp
  | cons token options ih =>
    rw [List.foldl_cons, ih, SpawnRequest.addToken_cmd, List.append_assoc]
    by_cases hword : isWord token = true
    · rw [if_pos hword, List.filter_cons_of_pos hword, List.flatMap_cons]
    · rw [if_neg hword, List.filter_cons_of_neg hword, List.nil_append]

theorem foldl_addToken_capabilities (options : List Str) {r r' : SpawnRequest}
    (h : r.capabilities = r'.capabilities) :
    (options.foldl SpawnRequest.addToken r).capabilities =
      (options.foldl SpawnRequest.addToken r').capabilities := by
  induction options generalizing r r' with
  | nil => exact h
  | cons token options ih => exact ih (SpawnRequest.addToken_capabilities h token)

theorem spawnRequest_builtFrom {text : Str} {vars : Vars} {r : SpawnRequest}
    (h : spawnRequest text vars = some r) : BuiltFrom text vars r.cmd r.capabilities := by
  unfold spawnRequest at h
  cases hfirst : substitutedCommand text vars with
  | none =>
    rw [hfirst] at h
    cases h
  | some first =>
    rw [hfirst] at h
    cases h
    exact ⟨first, hfirst, foldl_addToken_cmd _ _, foldl_addToken_capabilities _ rfl⟩

/-! ## What a request may do -/

section Requests

variable {env : Env}

theorem runCommand_keeps {I : ServerState → Prop} (hI : Stable I) {text : Str} {vars : Vars}
    (hspawn : ∀ s r, I s → spawnRequest text vars = some r →
      I { s with history := .spawn r.cmd r.capabilities :: s.history })
    (section? : Option (List Node)) :
    Triple I (runCommand env text vars section?) (fun _ => I)
    (fun e s => e ≠ .outOfFuel ∧ I s) := by
  apply need_keeps
  intro cmd _
  refine Triple.ite (fun _ => ?_) fun _ => Quietly.pure _ I hI
  apply need_keeps
  intro r hr
  apply Triple.bind (Quietly.observe _ I hI)
  intro spawned
  have hemit : Triple I (Server.emit (.spawn r.cmd r.capabilities)) (fun _ => I)
      (fun e s => e ≠ .outOfFuel ∧ I s) := fun s hs => hspawn s r hs hr
  apply Triple.bind hemit
  intro _
  cases spawned with
  | none =>
    have hfail : Quietly (Server.emit (.send "FAIL: No such command\n".toList)) :=
      Quietly.emit trivial
    exact hfail I hI
  | some output => exact sendOutput_quietly _ _ _ _ I hI

/-- A property that implies the safety of the history. -/
def Safely (env : Env) (I : ServerState → Prop) : Prop :=
  ∀ s, I s → EachEvent (Allowed env) s.history

theorem keeps_within {α : Type} {m : Server α} {I : ServerState → Prop} (hsafe : Safely env I)
    (h : Triple I m (fun _ => I) (fun e s => e ≠ .outOfFuel ∧ I s)) :
    Triple I m (fun _ => I) (Stopped env) :=
  h.mono (fun _ hs => hs) (fun _ _ hs => hs) fun _ s hs => ⟨hs.1, hsafe s hs.2⟩

theorem Quietly.within {α : Type} {m : Server α} (h : Quietly m) {I : ServerState → Prop}
    (hI : Stable I) (hsafe : Safely env I) : Triple I m (fun _ => I) (Stopped env) :=
  keeps_within hsafe (h I hI)

theorem need_bind {α β : Type} {I : ServerState → Prop} (hsafe : Safely env I) {o : Option α}
    {f : α → Server β} {Q : β → ServerState → Prop}
    (h : ∀ a, o = some a → Triple I (f a) Q (Stopped env)) :
    Triple I (need o >>= f) Q (Stopped env) := by
  cases o with
  | none => exact fun s hs => ⟨by decide, hsafe s hs⟩
  | some a =>
    intro s hs
    rw [exec_bind]
    exact h a rfl s hs

section Inv

variable {k : Nat} {b : Bool} {known : List Event}

/-- The invariant, in a context. -/
def InvIn (env : Env) (k : Nat) (b : Bool) (known : List Event) (ctx : Event) (s : ServerState) :
    Prop := Inv env k b known s ∧ Invocation.context s.history = some ctx

theorem stable_inv : Stable (Inv env k b known) where
  emit := by
    intro s e he hs
    exact (hs.push (he.allowed env s.history)).weaken le_rfl id fun e he => by simp [he]
  input := fun _ _ hrest hs => hs.read hrest

theorem safely_inv : Safely env (Inv env k b known) := fun _ hs => hs.safe

theorem stable_invIn {ctx : Event} : Stable (InvIn env k b known ctx) where
  emit := by
    intro s e he hs
    exact ⟨stable_inv.emit s e he hs.1, (he.context s.history).trans hs.2⟩
  input := fun s rest hrest hs => ⟨stable_inv.input s rest hrest hs.1, hs.2⟩

theorem safely_invIn {ctx : Event} : Safely env (InvIn env k b known ctx) := fun _ hs => hs.1.safe

theorem InvIn.push {ctx e : Event} {s : ServerState} (h : InvIn env k b known ctx s)
    (he : Allowed env e s.history) (hctx : isContext e = false) :
    InvIn env k b known ctx { s with history := e :: s.history } := by
  refine ⟨(h.1.push he).weaken le_rfl id fun x hx => by simp [hx], ?_⟩
  exact (List.find?_cons_of_neg (by simp [hctx])).trans h.2

section Items

variable {ctx : Event} {text : Str} {vars : Vars}

theorem runCommand_allowed (hmay : MayRun (some ctx) text vars)
    (section? : Option (List Node)) :
    Triple (InvIn env k b known ctx) (runCommand env text vars section?)
      (fun _ => InvIn env k b known ctx) (Stopped env) := by
  apply keeps_within safely_invIn
  apply runCommand_keeps stable_invIn
  intro s r hs hr
  refine InvIn.push hs ⟨text, vars, ?_, spawnRequest_builtFrom hr⟩ rfl
  rw [hs.2]
  exact hmay

theorem bookout_allowed (hmay : MayUse "bookout".toList (some ctx) text vars) :
    Triple (InvIn env k b known ctx) (bookoutFileToClient env text vars)
      (fun _ => InvIn env k b known ctx) (Stopped env) := by
  apply keeps_within safely_invIn
  apply bookout_keeps env stable_invIn
  intro s path hs hpath
  refine InvIn.push hs ⟨text, vars, ?_, hpath⟩ rfl
  rw [hs.2]
  exact hmay

theorem bookin_allowed (hmay : MayUse "bookin".toList (some ctx) text vars) :
    Triple (InvIn env k b known ctx) (bookinFileFromClient env text vars)
      (fun _ => InvIn env k b known ctx) (Stopped env) := by
  apply keeps_within safely_invIn
  apply bookin_keeps env stable_invIn
  intro s path hs hpath
  refine InvIn.push hs ⟨text, vars, path, ?_, hpath, rfl⟩ rfl
  rw [hs.2]
  exact hmay

end Items

/-- One item of a section after the other: `run` entries are the section's own. -/
theorem runItems_allowed {command : Str} {entered : Vars} {items rest : List Node}
    (hrest : ∀ n ∈ rest, n ∈ items) (limits : List Str) :
    Triple (InvIn env k b known (.enter command entered items))
      (runItems env items rest (limitArgs entered limits))
      (fun _ => InvIn env k b known (.enter command entered items)) (Stopped env) := by
  induction rest generalizing limits with
  | nil => exact (Quietly.pure _).within stable_invIn safely_invIn
  | cons item rest ih =>
    have hnext := ih fun n hn => hrest n (List.mem_cons_of_mem item hn)
    cases item with
    | block tag sub => exact hnext limits
    | value tag text =>
      apply need_bind safely_invIn
      intro tag htag
      have hquiet : ∀ m : Server PUnit, Quietly m →
          Triple (InvIn env k b known (.enter command entered items))
            (m >>= fun _ => runItems env items rest (limitArgs entered limits))
            (fun _ => InvIn env k b known (.enter command entered items)) (Stopped env) := by
        intro m hm
        exact Triple.bind (hm.within stable_invIn safely_invIn) fun _ => hnext limits
      have hswitch : ∀ (e : Event), (∀ past, Allowed env e past) → isContext e = false →
          ∀ result, Triple (InvIn env k b known (.enter command entered items))
            (switchTo result e >>= fun _ => runItems env items rest (limitArgs entered limits))
            (fun _ => InvIn env k b known (.enter command entered items)) (Stopped env) := by
        intro e he hctx result
        have hpush : ∀ s, InvIn env k b known (.enter command entered items) s →
            InvIn env k b known (.enter command entered items)
              { s with history := e :: s.history } := fun _ hs => hs.push (he _) hctx
        exact Triple.bind (keeps_within safely_invIn (switchTo_keeps hpush result))
          fun _ => hnext limits
      refine Triple.ite (fun _ => ?_) fun _ => ?_
      · have hI : Stable (InvIn env k b known (.enter command entered items)) := stable_invIn
        have hreq := (checkRequirement_limits env hI text (limitArgs entered limits)).mono
          (fun _ hs => hs) (fun _ _ hs => hs)
          fun _ s hs => (⟨hs.1, safely_invIn s hs.2⟩ : Stopped env _ s)
        apply Triple.bind hreq
        intro r s hs
        obtain ⟨met, vars⟩ := r
        obtain ⟨⟨more, hmore⟩, hs⟩ := hs
        have hvars : vars = limitArgs entered (limits ++ more) := by
          rw [limitArgs, List.foldl_append]
          exact hmore
        subst hvars
        exact Triple.ite (fun _ => hnext (limits ++ more))
          (fun _ => (Quietly.pure _).within stable_invIn safely_invIn) s hs
      · refine Triple.ite (fun _ => ?_) fun _ => ?_
        · apply Triple.bind ((Quietly.observe _).within stable_invIn safely_invIn)
          exact hswitch _ (fun _ => trivial) rfl
        · refine Triple.ite (fun _ => ?_) fun _ => ?_
          · apply Triple.bind ((Quietly.observe _).within stable_invIn safely_invIn)
            exact hswitch _ (fun _ => trivial) rfl
          · have hmay {t : Str} (ht : tag = t) :
                MayUse t (some (.enter command entered items)) text
                  (limitArgs entered limits) := by
              have hmem : .value (some t) text ∈ items := by
                rw [← ht, ← htag]
                exact hrest _ List.mem_cons_self
              exact ⟨hmem, limits, rfl⟩
            refine Triple.ite (fun htext => ?_) fun _ => ?_
            · exact Triple.bind (bookout_allowed (hmay htext)) fun _ => hnext limits
            refine Triple.ite (fun htext => ?_) fun _ => ?_
            · exact Triple.bind (bookin_allowed (hmay htext)) fun _ => hnext limits
            refine Triple.ite (fun _ => hquiet _ (Quietly.emit trivial)) fun _ => ?_
            refine Triple.ite (fun htext => ?_) fun _ => hnext limits
            have hrun : MayRun (some (.enter command entered items)) text
                (limitArgs entered limits) := hmay htext
            exact Triple.bind (runCommand_allowed hrun _) fun _ => hnext limits

/-- The first section named after the command is the one that is run. -/
theorem runInvokeIn_allowed {command : Str} {vars : Vars} {sections : List Node}
    (hfind : sections.find? (fun n => n.tag = some command) =
      env.config.find? fun n => n.tag = some command) :
    Triple (fun s => Inv env k b known s ∧
        ∀ items, SectionItems env command items →
          Allowed env (.enter command vars items) s.history)
      (runInvokeIn env command vars sections) (fun _ => Inv env k b known) (Stopped env) := by
  induction sections with
  | nil => exact fun s hs => hs.1
  | cons node sections ih =>
    apply need_bind (fun s hs => hs.1.safe)
    intro tag htag
    refine Triple.ite (fun h => ?_) fun h => ?_
    · have hfirst : env.config.find? (fun n => n.tag = some command) = some node := by
        rw [← hfind, List.find?_cons_of_pos (by simp [htag, h])]
      apply need_bind (fun s hs => hs.1.safe)
      intro items hitems
      have henter : Triple (fun s => Inv env k b known s ∧
            ∀ items, SectionItems env command items →
              Allowed env (.enter command vars items) s.history)
          (Server.emit (.enter command vars items))
          (fun _ => InvIn env k b known (.enter command vars items)) (Stopped env) := by
        intro s hs
        have hallowed := hs.2 items ⟨node, hfirst, hitems⟩
        exact ⟨(hs.1.push hallowed).weaken le_rfl id fun e he => by simp [he], rfl⟩
      apply Triple.bind henter
      intro _
      exact (runItems_allowed (fun _ hn => hn) []).mono (fun _ hs => hs)
        (fun _ _ hs => hs.1) fun _ _ hs => hs
    · apply ih
      rw [← hfind, List.find?_cons_of_neg (by simp [htag, h])]

end Inv

end Requests

end Invocation
