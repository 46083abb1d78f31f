import Invocation.Replay

/-!
# The server and its client, side by side

`invoked` stops at its reads: in front of a request, an answer to a bookin or
the bytes of an upload, possibly inside prompts. The client stops in front of a
line, of the content of a bookout or of the output of a command. Both go on
when the connection has what they wait for.
-/

namespace Invocation

set_option autoImplicit false

open Process Server

/-! ## The server at its reads -/

/-- What a permission is asked for. -/
inductive Goal
  | invoke (command : Str) (vars : Vars)
  | exec (command details : Str)
deriving DecidableEq

def Goal.command : Goal → Str
  | .invoke command _ => command
  | .exec command _ => command

/-- A prompt that waits for the client: its types, the rules behind it, and what they are for. -/
structure Prompt where
  types : Str
  rules : List Node
  goal : Goal

inductive ServerPhase
  | request
  | items (section_ rest : List Node) (vars : Vars)
  | answer (section_ rest : List Node) (vars : Vars) (path : Str)
  | upload (section_ rest : List Node) (vars : Vars) (path : Str) (left : Nat) (content : Str)
  | finished

structure Position where
  prompts : List Prompt
  phase : ServerPhase

inductive Judgement
  | verdict (allowed : Bool)
  | prompt (types : Str) (rules : List Node)

def judgeRules (peer : Peer) : List Node → Bool → Server Judgement
  | [], result => pure (.verdict result)
  | node :: rules, result => do
    let tag ← need node.tag
    match ruleIdentity peer tag with
    | some identity => do
      let text ← need node.text?
      if isItemInList identity text then judgeRules peer rules true else pure (.verdict false)
    | none =>
      if strCaseEq tag "auth".toList then do
        let text ← need node.text?
        let already ← isAuthenticated
        if already then judgeRules peer rules true else pure (.prompt text rules)
      else judgeRules peer rules result

section Pieces

variable (env : Env)

def judgePermission (command : Str) (rules : Option (List Node)) : Server Judgement := do
  let granted ← grantCheck env command
  if granted then pure (.verdict true)
  else do
    let rules ← need rules
    judgeRules env.peer rules false

def judgeSections (command : Str) : List Node → Server Judgement
  | [] => pure (.verdict false)
  | node :: sections => do
    let tag ← need node.tag
    if relates env command tag then judgePermission env command node.items?
    else judgeSections command sections

/-- Behind a request: the connection is served, or the prompt reads the next one. -/
def endRequest : List Prompt → Position
  | [] => ⟨[], .finished⟩
  | prompts => ⟨prompts, .request⟩

/-- `RunInvoke` up to the first item. -/
def enterSection (prompts : List Prompt) (command : Str) (vars : Vars) :
    List Node → Server Position
  | [] => pure (endRequest prompts)
  | node :: sections => do
    let tag ← need node.tag
    if tag = command then do
      let items ← need node.items?
      emit (.enter command vars items)
      pure ⟨prompts, .items items items vars⟩
    else enterSection prompts command vars sections

def afterVerdict (prompts : List Prompt) : Goal → Server Position
  | .invoke command vars => enterSection prompts command vars env.config
  | .exec _ details => do
    emit (.execText details)
    runCommand env details [] none
    pure (endRequest prompts)

def afterJudgement (prompts : List Prompt) (goal : Goal) : Judgement → Server Position
  | .verdict allowed => do
    emit (.verdict goal.command allowed)
    if allowed then afterVerdict env prompts goal
    else do
      emit (.send "FAIL: Not authorized\n".toList)
      pure (endRequest prompts)
  | .prompt types rules => do
    emit (.prompt types)
    emit (.send "AUTH\n".toList)
    pure ⟨⟨types, rules, goal⟩ :: prompts, .request⟩

/-- The end of `CheckAuth`, and the rules behind it. -/
def leavePrompt : List Prompt → Server Position
  | [] => pure ⟨[], .finished⟩
  | p :: prompts => do
    let passed ← isAuthenticated
    let judgement ← if passed then judgeRules env.peer p.rules true else pure (.verdict false)
    afterJudgement env prompts p.goal judgement

def askedTypes : List Prompt → Str
  | [] => []
  | p :: _ => p.types

/-- `HandleClientRequest` on the line it has read, up to its next read. -/
def onRequest (prompts : List Prompt) (line : Str) : Server Position :=
  let line := stripTrailingWhitespace line
  if line = [] then leavePrompt env prompts
  else do
    emit (.request line)
    let p := getToken line requestSeparator .multi
    let details := p.2.getD []
    if strCaseEq p.1 "AUTH".toList then do
      handleClientAuth env details (askedTypes prompts)
      pure (endRequest prompts)
    else if strCaseEq p.1 "EXEC".toList then do
      let goal := Goal.exec (getToken details spaceSeparator .none).1 details
      let judgement ← judgeSections env goal.command env.config
      afterJudgement env prompts goal judgement
    else if strCaseEq p.1 "INVOKE".toList then do
      let goal := Goal.invoke (invokeCommand details).1 (invokeVars env details)
      let judgement ← judgeSections env goal.command env.config
      afterJudgement env prompts goal judgement
    else pure (endRequest prompts)

def bookinPath? : Node → Option Str
  | .value (some tag) path => if tag = "bookin".toList then some path else none
  | _ => none

/-- `BookinFileFromClient` up to its read. -/
def askBookin (prompts : List Prompt) (section_ rest : List Node) (vars : Vars) (path : Str) :
    Server Position := do
  let path ← need (substituteVarsInString vars false path)
  let opened ← observe fun h => env.openWrite h (path ++ "+".toList)
  if opened then do
    emit (.openWrite (path ++ "+".toList))
    emit (.send ("bookin ".toList ++ getBasename path ++ "\n".toList))
    pure ⟨prompts, .answer section_ rest vars path⟩
  else pure ⟨prompts, .items section_ rest vars⟩

/-- One item of a section, up to its end or its read. -/
def onItem (prompts : List Prompt) (section_ : List Node) (vars : Vars) :
    List Node → Server Position
  | [] => pure (endRequest prompts)
  | item :: rest =>
    match bookinPath? item with
    | some path => askBookin env prompts section_ rest vars path
    | none => do
      let vars? ← runItem env section_ item vars
      match vars? with
      | some vars => pure ⟨prompts, .items section_ rest vars⟩
      | none => pure (endRequest prompts)

end Pieces

def onAnswer (prompts : List Prompt) (section_ rest : List Node) (vars : Vars) (path line : Str) :
    Server Position :=
  match announced line with
  | some size => pure ⟨prompts, .upload section_ rest vars path (sendLimit size) []⟩
  | none => do
    emit (.unlink (path ++ "+".toList))
    pure ⟨prompts, .items section_ rest vars⟩

def onUpload (prompts : List Prompt) (section_ rest : List Node) (vars : Vars)
    (path content : Str) :
    Server Position := do
  emit (.writeFile (path ++ "+".toList) content)
  emit (.rename (path ++ "+".toList) path)
  emit (.restoreOwner path)
  pure ⟨prompts, .items section_ rest vars⟩

/-! ## The connection -/

inductive ClientPhase
  | lines
  | content (name got : Str) (left : Nat)
  | output (got : Str)
  | gone
deriving DecidableEq

/-- Both programs; `server.input` is what the client has sent and the server has not read. -/
structure Connection where
  position : Position
  server : ServerState
  toClient : Str := []
  client : ClientPhase := .lines
  past : List ClientAction := []

/-- A line that has come to its end. -/
def completeLine (s : Str) : Option (Str × Str) := if '\n' ∈ s then readLine s else none

/-- A piece of the server's work; a process that stops closes the connection. -/
def Connection.work (c : Connection) (input : Str) (m : Server Position) : Connection :=
  let r := exec m { c.server with input := input }
  { c with
    position := match r.1 with
      | .ok position => position
      | .error _ => ⟨[], .finished⟩
    server := r.2
    toClient := c.toClient ++
      (sentBytes r.2.history).drop (sentBytes c.server.history).length }

/-- The server goes on if it can; of an upload it takes at most `n + 1` bytes at once. -/
def Connection.serverTurn (env : Env) (n : Nat) (c : Connection) : Connection :=
  match c.position.phase with
  | .finished => c
  | .request =>
    match completeLine c.server.input with
    | none => c
    | some (line, rest) => c.work rest (onRequest env c.position.prompts line)
  | .items section_ rest vars =>
    c.work c.server.input (onItem env c.position.prompts section_ vars rest)
  | .answer section_ rest vars path =>
    match completeLine c.server.input with
    | none => c
    | some (line, input) => c.work input (onAnswer c.position.prompts section_ rest vars path line)
  | .upload section_ rest vars path left content =>
    if left = 0 then
      c.work c.server.input (onUpload c.position.prompts section_ rest vars path content)
    else
      let k := min (n + 1) left
      { c with
        position := ⟨c.position.prompts, .upload section_ rest vars path
          (left - (c.server.input.take k).length) (content ++ c.server.input.take k)⟩
        server := { c.server with input := c.server.input.drop k } }

/-- `ClientAuth` -/
def passwordLine (password : Str) : Str :=
  "AUTH password=".toList ++ stripTrailingWhitespace password ++ "\n".toList

/-- The client's main loop on a line, up to its next read. -/
def Connection.respond (client : Client) (c : Connection) : ClientCommand → Connection
  | .bookout details =>
    let p := bookoutDetails details
    if client.creates c.past p.2 then { c with client := .content p.2 [] (sendLimit p.1) }
    else { c with past := .cannotCreate p.2 :: c.past }
  | .bookin details =>
    let name := stripTrailingWhitespace details
    match client.readFile c.past name with
    | some content =>
      { c with
        server := { c.server with
          input := c.server.input ++ clientBookinFile (client.size c.past) name content }
        past := .answer name :: c.past }
    | none => { c with past := .cannotOpen name :: c.past }
  | .clientrun details => { c with past := .execute (stripTrailingWhitespace details) :: c.past }
  | .auth =>
    { c with
      server := { c.server with input := c.server.input ++ passwordLine client.password }
      past := .authenticate :: c.past }
  | .okay => { c with client := .output [] }
  | .other line => { c with past := .print line :: c.past }

/-- The client goes on if it can. -/
def Connection.clientTurn (client : Client) (n : Nat) (c : Connection) : Connection :=
  match c.client with
  | .gone => c
  | .lines =>
    match completeLine c.toClient with
    | some (line, rest) => { c with toClient := rest }.respond client (clientCommand line)
    | none =>
      match c.position.phase with
      | .finished =>
        match readLine c.toClient with
        | some (line, rest) => { c with toClient := rest }.respond client (clientCommand line)
        | none => { c with client := .gone }
      | _ => c
  | .content name got left =>
    if left = 0 then { c with client := .lines, past := .create name got :: c.past }
    else
      let k := min (n + 1) left
      match c.toClient, c.position.phase with
      | [], .finished => { c with client := .lines, past := .create name got :: c.past }
      | bytes, _ =>
        { c with
          toClient := bytes.drop k
          client := .content name (got ++ bytes.take k) (left - (bytes.take k).length) }
  | .output got =>
    match c.toClient, c.position.phase with
    | [], .finished => { c with client := .gone, past := .output got :: c.past }
    | bytes, _ =>
      { c with toClient := bytes.drop (n + 1), client := .output (got ++ bytes.take (n + 1)) }

inductive Turn
  | server (n : Nat)
  | client (n : Nat)
deriving DecidableEq

def Connection.step (env : Env) (client : Client) (c : Connection) : Turn → Connection
  | .server n => c.serverTurn env n
  | .client n => c.clientTurn client n

/-- The server waits for bytes that have not come. -/
def ServerPhase.Waits (input : Str) : ServerPhase → Prop
  | .request => '\n' ∉ input
  | .answer _ _ _ _ => '\n' ∉ input
  | .upload _ _ _ _ left _ => 0 < left ∧ input = []
  | .items _ _ _ => False
  | .finished => False

def ClientPhase.Waits (input : Str) : ClientPhase → Prop
  | .lines => '\n' ∉ input
  | .content _ _ left => 0 < left ∧ input = []
  | .output _ => input = []
  | .gone => False

instance decidableServerWaits (input : Str) : ∀ phase : ServerPhase, Decidable (phase.Waits input)
  | .request => inferInstanceAs (Decidable ('\n' ∉ input))
  | .answer _ _ _ _ => inferInstanceAs (Decidable ('\n' ∉ input))
  | .upload _ _ _ _ left _ => inferInstanceAs (Decidable (0 < left ∧ input = []))
  | .items _ _ _ => inferInstanceAs (Decidable False)
  | .finished => inferInstanceAs (Decidable False)

instance decidableClientWaits (input : Str) : ∀ phase : ClientPhase, Decidable (phase.Waits input)
  | .lines => inferInstanceAs (Decidable ('\n' ∉ input))
  | .content _ _ left => inferInstanceAs (Decidable (0 < left ∧ input = []))
  | .output _ => inferInstanceAs (Decidable (input = []))
  | .gone => inferInstanceAs (Decidable False)

/-- Both wait for each other. -/
def Connection.Deadlocked (c : Connection) : Prop :=
  c.position.phase.Waits c.server.input ∧ c.client.Waits c.toClient

instance decidableDeadlocked (c : Connection) : Decidable c.Deadlocked :=
  inferInstanceAs (Decidable (_ ∧ _))

def Connection.start (line : Str) : Connection where
  position := ⟨[], .request⟩
  server := { input := line ++ ['\n'] }

end Invocation
