import Invocation.AppDB
import Invocation.Auth
import Invocation.Config
import Invocation.Expect
import Invocation.Lib.Process
import Invocation.StreamOpen
import Invocation.Strings
import Invocation.Substitute

/-!
# invoked

The process that serves one connection. What the outside answers (the file
system, the account switches, PAM, the spawned commands) is a function of the
history so far, newest event first. Undefined behaviour stops the process:
NULL names that are compared, nodes of the wrong kind, substitutions that run
past the end of their template.
-/

namespace Invocation

set_option autoImplicit false

structure Peer where
  userName : Str
  groupName : Str
  exePath : Str
  uid : Int
  gid : Int
  pid : Int

inductive Event
  | request (line : Str)
  | send (text : Str)
  | grantCheck (command : Str) (granted : Bool)
  | prompt (types : Str)
  | authCall (types user : Str) (password : Option Str) (accepted : Bool)
  | verdict (command : Str) (allowed : Bool)
  | enter (command : Str) (vars : Vars) (items : List Node)
  | execText (details : Str)
  | spawn (command config : Str)
  | reply (text : Str)
  | switchUser (name : Str)
  | switchGroup (name : Str)
  | lock (path : Str)
  | openRead (path : Str)
  | openWrite (path : Str)
  | writeFile (path content : Str)
  | rename (source target : Str)
  | restoreOwner (path : Str)
  | unlink (path : Str)
deriving DecidableEq

inductive Halt
  | exited
  | undefined
  | outOfFuel
deriving DecidableEq

/-- What `SwitchUser` and `SwitchGroup` do: an unknown name changes nothing, a switch that the
kernel refuses ends the process. -/
inductive SwitchResult
  | unknown
  | switched
  | refused
deriving DecidableEq

structure Env where
  config : List Node
  peer : Peer
  files : List Event → FileView
  clientsDB : List Event → Option Str
  access : List Event → Str → Bool
  createLockFile : List Event → Str → Int
  switchUser : List Event → Str → SwitchResult
  switchGroup : List Event → Str → SwitchResult
  readFile : List Event → Str → Option Str
  openWrite : List Event → Str → Bool
  authPAM : List Event → Str → Str → Option Str → Int
  spawn : List Event → Str → Str → Option (List (Option Char))
  networkSpawns : Str → Str → List (Str × Str) := fun _ _ => []

/-- The command lines that an event hands to `STREAMSpawnCommand`, with their configurations:
`RunCommand` hands over its own, and `STREAMOpen` those of a URL. `AppDBCheck` may have the peer's
program hashed, which `HashFile` opens. -/
def Event.spawns (env : Env) : Event → List (Str × Str)
  | .spawn command config => [(command, config)]
  | .openRead path => streamOpenSpawns env.networkSpawns path "r".toList
  | .openWrite path => streamOpenSpawns env.networkSpawns path "w".toList
  | .grantCheck _ _ => streamOpenSpawns env.networkSpawns env.peer.exePath "r".toList
  | _ => []

structure ServerState where
  input : Str
  history : List Event := []
  authenticated : Bool := false
deriving DecidableEq

abbrev Server := Process ServerState Halt

namespace Server

def emit (e : Event) : Server PUnit :=
  Process.update fun s => { s with history := e :: s.history }

def observe {α : Type} (f : List Event → α) : Server α := Process.read fun s => f s.history

def isAuthenticated : Server Bool := Process.read ServerState.authenticated

def undefined {α : Type} : Server α := Process.stop .undefined

/-- A value C code relies on; its absence is undefined behaviour. -/
def need {α : Type} : Option α → Server α
  | some a => pure a
  | none => undefined

/-- `STREAMReadLine` on the connection, NULL at its end. -/
def readClientLine : Server (Option Str) := do
  let read ← Process.read fun s => readLine s.input
  match read with
  | none => pure none
  | some (line, rest) => do
    Process.update fun s => { s with input := rest }
    pure (some line)

/-- Up to `size` bytes from the connection. -/
def readClientBytes (size : Nat) : Server Str := do
  let bytes ← Process.read fun s => s.input.take size
  Process.update fun s => { s with input := s.input.drop size }
  pure bytes

@[simp] theorem exec_emit (e : Event) (s : ServerState) :
    Process.exec (emit e) s = (.ok ⟨⟩, { s with history := e :: s.history }) := rfl

@[simp] theorem exec_observe {α : Type} (f : List Event → α) (s : ServerState) :
    Process.exec (observe f) s = (.ok (f s.history), s) := rfl

@[simp] theorem exec_need_some {α : Type} (a : α) (s : ServerState) :
    Process.exec (need (some a)) s = (.ok a, s) := rfl

@[simp] theorem exec_readClientBytes (size : Nat) (s : ServerState) :
    Process.exec (readClientBytes size) s =
      (.ok (s.input.take size), { s with input := s.input.drop size }) := rfl

theorem exec_readClientLine (s : ServerState) : Process.exec readClientLine s =
    match readLine s.input with
    | none => (.ok none, s)
    | some (line, rest) => (.ok (some line), { s with input := rest }) := by
  unfold readClientLine
  rw [Process.exec_bind, Process.exec_read]
  cases readLine s.input with
  | none => rfl
  | some p => rfl

end Server

open Server

section Handlers

variable (env : Env)

/-! ## Permissions -/

def grantCheck (command : Str) : Server Bool := do
  let result ← observe fun h =>
    appDBCheck (env.files h) (env.clientsDB h) command env.peer.exePath
  let granted ← need result
  emit (.grantCheck command granted)
  pure granted

/-- A node read as a string. -/
def Node.text? : Node → Option Str
  | .value _ text => some text
  | .block _ _ => none

/-- A node read as a list. -/
def Node.items? : Node → Option (List Node)
  | .value _ _ => none
  | .block _ items => some items

/-- The rules of `CheckPermission` that compare an identity of the peer with a list. -/
def ruleIdentity (peer : Peer) (tag : Str) : Option Str :=
  if strCaseEq tag "user".toList then some peer.userName
  else if strCaseEq tag "group".toList then some peer.groupName
  else if strCaseEq tag "program".toList then some peer.exePath
  else none

/-- The loop of `CheckPermission` over the rules. -/
def checkRules (peer : Peer) (checkAuth : Str → Server Bool) : List Node → Bool → Server Bool
  | [], result => pure result
  | node :: rules, result => do
    let tag ← need node.tag
    match ruleIdentity peer tag with
    | some identity => do
      let text ← need node.text?
      if isItemInList identity text then checkRules peer checkAuth rules true else pure false
    | none =>
      if strCaseEq tag "auth".toList then do
        let text ← need node.text?
        let passed ← checkAuth text
        if passed then checkRules peer checkAuth rules true else pure false
      else checkRules peer checkAuth rules result

/-- `CheckPermission`; the rules are not a list when the section is a plain value. -/
def checkPermission (checkAuth : Str → Server Bool) (command : Str) (rules : Option (List Node)) :
    Server Bool := do
  let granted ← grantCheck env command
  if granted then pure true
  else do
    let rules ← need rules
    checkRules env.peer checkAuth rules false

/-- The names `FindPermission` looks for, in the order it compares them. -/
def relates (command tag : Str) : Bool :=
  tag = command || tag = env.peer.exePath || tag = getBasename env.peer.exePath

/-- The loop of `FindPermission` over the sections. -/
def findPermissionIn (checkAuth : Str → Server Bool) (command : Str) : List Node → Server Bool
  | [] => pure false
  | node :: sections => do
    let tag ← need node.tag
    if relates env command tag then checkPermission env checkAuth command node.items?
    else findPermissionIn checkAuth command sections

def findPermission (checkAuth : Str → Server Bool) (command : Str) : Server Bool := do
  let allowed ← findPermissionIn env checkAuth command env.config
  emit (.verdict command allowed)
  pure allowed

/-! ## Commands -/

def spaceSeparator : Str := "\\S".toList

def invokeCheckArgs (cmd : Str) (maxLen : Int) : Bool :=
  (tokens spaceSeparator .none cmd).all fun token => decide ((token.length : Int) ≤ maxLen)

/-- What `RunCommand` collects from an entry. -/
structure SpawnRequest where
  cmd : Str
  capabilities : Str := []
  expect : Str := []
  timeout : Int := 0
deriving DecidableEq

/-- One token behind the command of a run entry. -/
def SpawnRequest.addToken (r : SpawnRequest) (token : Str) : SpawnRequest :=
  if '=' ∈ token then
    let p := (getNameValuePair token spaceSeparator ['=']).1
    if p.1 = "expect".toList then { r with expect := p.2 }
    else if p.1 = "pty".toList then { r with capabilities := r.capabilities ++ "pty ".toList }
    else if p.1 = "timeout".toList then { r with timeout := atoi p.2 }
    else if p.1 = "capabilities".toList then { r with capabilities := r.capabilities ++ p.2 }
    else if p.1 = "caps".toList then
      { r with capabilities := r.capabilities ++ "capabilities='".toList ++ p.2 ++ "' ".toList }
    else
      { r with capabilities := r.capabilities ++ p.1 ++ "='".toList ++ p.2 ++ "' ".toList }
  else if token = "pty".toList then { r with capabilities := r.capabilities ++ "pty ".toList }
  else { r with cmd := r.cmd ++ " ".toList ++ token }

/-- The command of an entry, with its variables substituted. -/
def substitutedCommand (details : Str) (vars : Vars) : Option Str :=
  substituteVarsInString vars true (getToken details spaceSeparator .quotes).1

def commandOptions (details : Str) : List Str :=
  tokens spaceSeparator .honor ((getToken details spaceSeparator .quotes).2.getD [])

/-- What an entry asks `STREAMSpawnCommand` for. -/
def spawnRequest (details : Str) (vars : Vars) : Option SpawnRequest :=
  (substitutedCommand details vars).map fun cmd =>
    (commandOptions details).foldl SpawnRequest.addToken { cmd := cmd }

def argsFit (vars : Vars) (cmd : Str) : Bool :=
  let maxLen := atoi (getVar vars "InvokeMaxArgLen".toList)
  ! (maxLen > 0 && ! invokeCheckArgs cmd maxLen)

def expectDialog (tag expect reply : Str) : Option ExpectDialog :=
  let d : ExpectDialog := { expect := expect, reply := reply ++ "\n".toList }
  if tag = "expect".toList then some d
  else if tag = "optional".toList then some { d with isOptional := true }
  else if tag = "fail".toList then some { d with isOptional := true, isFail := true }
  else if tag = "end".toList then some { d with isEnd := true }
  else none

/-- The dialogs `ProcessExpect` builds from the entries of a block. -/
def expectDialogs (vars : Vars) : List Node → Server (List ExpectDialog)
  | [] => pure []
  | .block _ _ :: items => expectDialogs vars items
  | .value tag text :: items => do
    let first := getToken text spaceSeparator .quotes
    let second := getToken (first.2.getD []) spaceSeparator .quotes
    let expect ← need (substituteVarsInString vars false first.1)
    let reply ← need (substituteVarsInString vars false second.1)
    let tag ← need tag
    let rest ← expectDialogs vars items
    pure ((expectDialog tag expect reply).toList ++ rest)

/-- The block that `ProcessExpect` opens; without a section only an absolute name is looked up. -/
def openDialog (section? : Option (List Node)) (name : Str) : Server (List Node) :=
  match section? with
  | some items => pure ((parserOpenItem items name).getD [])
  | none => if name.head? = some '/' then pure [] else undefined

/-- `ProcessExpect`: the verdict, and the output that is left to send. `ExpectDialogDestroy` is
given the head of the list: it frees the last node and then the head, and the head twice when the
list is empty. -/
def processExpect (name : Str) (vars : Vars) (section? : Option (List Node)) (timeout : Int)
    (output : List (Option Char)) : Server (Bool × List (Option Char)) := do
  let items ← openDialog section? name
  let dialogs ← expectDialogs vars items
  let r := streamExpectDialog timeout output dialogs
  emit (.reply (r.1.flatten))
  if dialogs = [] then undefined else pure r.2

/-- What `RunCommand` does with the output of a spawned command. -/
def sendOutput (r : SpawnRequest) (vars : Vars) (section? : Option (List Node))
    (output : List (Option Char)) : Server PUnit := do
  let (passed, left) ←
    if r.expect = [] then pure (true, output)
    else processExpect r.expect vars section? r.timeout output
  if passed then do
    emit (.send "OKAY: Command output follows\n".toList)
    emit (.send (left.filterMap id))
  else emit (.send "FAIL: convo failed\n".toList)

def runCommand (details : Str) (vars : Vars) (section? : Option (List Node)) : Server PUnit := do
  let cmd ← need (substitutedCommand details vars)
  if argsFit vars cmd then do
    let r ← need (spawnRequest details vars)
    let spawned ← observe fun h => env.spawn h r.cmd r.capabilities
    emit (.spawn r.cmd r.capabilities)
    match spawned with
    | some output => sendOutput r vars section? output
    | none => emit (.send "FAIL: No such command\n".toList)
  else pure ⟨⟩

/-! ## Sections -/

/-- `CheckRequirement`: the verdict, and the variables it leaves. -/
def checkRequirement (details : Str) (vars : Vars) : Server (Bool × Vars) := do
  let p := getToken details spaceSeparator .none
  let arg := p.2.getD []
  if strCaseEq p.1 "absent".toList then do
    let present ← observe fun h => env.access h arg
    pure (! present, vars)
  else if strCaseEq p.1 "arglen".toList then pure (true, setVar vars "InvokeMaxArgLen".toList arg)
  else if strCaseEq p.1 "directory".toList then do
    let stat ← observe fun h => (env.files h).stat arg
    pure (stat.any (·.kind = .directory), vars)
  else if strCaseEq p.1 "exists".toList then do
    let present ← observe fun h => env.access h arg
    pure (present, vars)
  else if strCaseEq p.1 "lock".toList then do
    let result ← observe fun h => env.createLockFile h arg
    emit (.lock arg)
    pure (result ≠ 0, vars)
  else pure (true, vars)

def switchTo (result : SwitchResult) (e : Event) : Server PUnit :=
  match result with
  | .unknown => pure ⟨⟩
  | .switched => emit e
  | .refused => Process.stop .exited

def bookoutFileToClient (path : Str) (vars : Vars) : Server PUnit := do
  let path ← need (substituteVarsInString vars false path)
  let stat ← observe fun h => (env.files h).stat path
  match stat with
  | some stat =>
    if stat.kind = .regular then do
      let content ← observe fun h => env.readFile h path
      emit (.openRead path)
      match content with
      | some content => do
        emit (.send ("bookout ".toList ++ decimal stat.size ++ " ".toList ++ getBasename path ++
          "\n".toList))
        emit (.send content)
      | none => pure ⟨⟩
    else pure ⟨⟩
  | none => pure ⟨⟩

/-- `BookinFileFromClient`; what `STREAMOpen` gives for a URL is written to like a file. -/
def bookinFileFromClient (path : Str) (vars : Vars) : Server PUnit := do
  let path ← need (substituteVarsInString vars false path)
  let temporary := path ++ "+".toList
  let opened ← observe fun h => env.openWrite h temporary
  if opened then do
    emit (.openWrite temporary)
    emit (.send ("bookin ".toList ++ getBasename path ++ "\n".toList))
    let answer ← readClientLine
    let p := getToken (answer.getD []) [' '] .none
    if p.1 = "bookin".toList then do
      let size := sizeValue (p.2.getD [])
      let content ← readClientBytes (sendLimit size)
      emit (.writeFile temporary content)
      emit (.rename temporary path)
      emit (.restoreOwner path)
    else emit (.unlink temporary)
  else pure ⟨⟩

/-- The loop of `RunInvokeCommand` over the items that are left. -/
def runItems (items : List Node) : List Node → Vars → Server PUnit
  | [], _ => pure ⟨⟩
  | .block _ _ :: rest, vars => runItems items rest vars
  | .value tag text :: rest, vars => do
    let tag ← need tag
    if tag = "require".toList then do
      let (met, vars) ← checkRequirement env text vars
      if met then runItems items rest vars else pure ⟨⟩
    else if tag = "chuser".toList then do
      let result ← observe fun h => env.switchUser h text
      switchTo result (.switchUser text)
      runItems items rest vars
    else if tag = "chgrp".toList then do
      let result ← observe fun h => env.switchGroup h text
      switchTo result (.switchGroup text)
      runItems items rest vars
    else if tag = "bookout".toList then do
      bookoutFileToClient env text vars
      runItems items rest vars
    else if tag = "bookin".toList then do
      bookinFileFromClient env text vars
      runItems items rest vars
    else if tag = "clientrun".toList then do
      emit (.send ("clientrun ".toList ++ text ++ "\n".toList))
      runItems items rest vars
    else if tag = "run".toList then do
      runCommand env text vars (some items)
      runItems items rest vars
    else runItems items rest vars

def runInvokeCommand (command : Str) (vars : Vars) (items : List Node) : Server PUnit := do
  emit (.enter command vars items)
  runItems env items items vars

/-- The loop of `RunInvoke` over the sections. -/
def runInvokeIn (command : Str) (vars : Vars) : List Node → Server PUnit
  | [] => pure ⟨⟩
  | node :: sections => do
    let tag ← need node.tag
    if tag = command then do
      let items ← need node.items?
      runInvokeCommand env command vars items
    else runInvokeIn command vars sections

/-! ## Requests -/

def handleClientAuth (details types : Str) : Server PUnit := do
  let password := authPassword details
  let types := requestedTypes types
  let result ← observe fun h => env.authPAM h types env.peer.userName password
  emit (.authCall types env.peer.userName password (decide (result ≠ 0)))
  if result ≠ 0 then do
    Process.update fun s => { s with authenticated := true }
    emit (.send "OKAY: Authenticated\n".toList)
  else emit (.send "FAIL: Authentication failed\n".toList)

/-- What the loop of `HandleInvoke` stores for the text that `GetNameValuePair` copies to a value.
The length that `StripQuotes` leaves in the cache for a long text counts the NUL, and
`StripTrailingWhitespace` then finds no white space at the end. -/
def requestValue (text : Str) : Str :=
  let value := readValue text
  if StrLenCache.quoted text ∧ StrLenCache.minLen < text.length then stripQuotes value
  else stripQuotes (stripTrailingWhitespace value)

/-- The assignment in one token of an INVOKE request. -/
def requestAssign (token : Str) : Str × Str :=
  let p := splitNameText token ['=']
  (p.1, requestValue p.2)

/-- The assignments of an INVOKE request, as the server stores them. -/
def requestAssignments (rest : Str) : List (Str × Str) :=
  (tokens [' '] .quotes rest).map requestAssign

/-- The variables that the server asserts about the peer. -/
def peerAssignments (peer : Peer) : List (Str × Str) :=
  [("invoke:user".toList, peer.userName), ("invoke:group".toList, peer.groupName),
    ("invoke:uid".toList, decimalInt peer.uid), ("invoke:gid".toList, decimalInt peer.gid),
    ("invoke:peer_pid".toList, decimalInt peer.pid), ("invoke:peer_program".toList, peer.exePath)]

/-- The command an INVOKE request names, and the text behind it. -/
def invokeCommand (details : Str) : Str × Str :=
  let p := getToken (stripLeadingWhitespace details) spaceSeparator .quotes
  (p.1, p.2.getD [])

/-- The variable list that `HandleInvoke` builds. -/
def invokeVars (details : Str) : Vars :=
  setVars (requestAssignments (invokeCommand details).2 ++ peerAssignments env.peer)

def handleInvoke (checkAuth : Str → Server Bool) (details : Str) : Server PUnit := do
  let command := (invokeCommand details).1
  let allowed ← findPermission env checkAuth command
  if allowed then runInvokeIn env command (invokeVars env details) env.config
  else emit (.send "FAIL: Not authorized\n".toList)

def handleExec (checkAuth : Str → Server Bool) (details : Str) : Server PUnit := do
  let command := (getToken details spaceSeparator .none).1
  let allowed ← findPermission env checkAuth command
  if allowed then do
    emit (.execText details)
    runCommand env details [] none
  else emit (.send "FAIL: Not authorized\n".toList)

def requestSeparator : Str := "\\S|:".toList

/-- `HandleClientRequest`, with `CheckAuth` for the rules it meets. -/
def handleRequestWith (checkAuth : Str → Server Bool) (types : Str) : Server Bool := do
  let read ← readClientLine
  let line := stripTrailingWhitespace (read.getD [])
  if line = [] then pure false
  else do
    emit (.request line)
    let p := getToken line requestSeparator .multi
    let details := p.2.getD []
    if strCaseEq p.1 "AUTH".toList then handleClientAuth env details types
    else if strCaseEq p.1 "EXEC".toList then handleExec env checkAuth details
    else if strCaseEq p.1 "INVOKE".toList then handleInvoke env checkAuth details
    else pure ⟨⟩
    pure true

end Handlers

/-- `while (HandleClientRequest(...));` -/
def requestLoop (handle : Server Bool) : Nat → Server PUnit
  | 0 => Process.stop .outOfFuel
  | n + 1 => do
    let more ← handle
    if more then requestLoop handle n else pure ⟨⟩

/-- `CheckAuth`, answering its prompt with `handle`. -/
def checkAuthWith (handle : Str → Server Bool) (fuel : Nat) (types : Str) : Server Bool := do
  let already ← isAuthenticated
  if already then pure true
  else do
    emit (.prompt types)
    emit (.send "AUTH\n".toList)
    requestLoop (handle types) fuel
    isAuthenticated

/-- `HandleClientRequest` and `CheckAuth` call each other as long as the client sends lines. -/
def handleClientRequest (env : Env) : Nat → Str → Server Bool
  | 0, _ => Process.stop .outOfFuel
  | n + 1, types => handleRequestWith env (checkAuthWith (handleClientRequest env n) (n + 1)) types

/-- `HandleClient`: one request, with everything the client will ever send. -/
def handleClient (env : Env) (input : Str) : Except Halt Bool × ServerState :=
  Process.exec (handleClientRequest env (input.length + 1) []) { input := input }

end Invocation
