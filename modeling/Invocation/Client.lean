import Invocation.Wire

/-!
# invoke

The client: the request it makes of its arguments, and its main loop over the
lines that the server sends. What its working directory answers depends on what
it has done so far, newest action first.
-/

namespace Invocation

set_option autoImplicit false

/-! ## Messages -/

inductive ClientAction
  | print (text : Str)
  | output (bytes : Str)
  | create (name content : Str)
  | cannotCreate (name : Str)
  | answer (name : Str)
  | cannotOpen (name : Str)
  | execute (program : Str)
  | authenticate
deriving DecidableEq

/-- The branches of the main loop, with the text behind the word. -/
inductive ClientCommand
  | bookout (details : Str)
  | bookin (details : Str)
  | clientrun (details : Str)
  | auth
  | okay
  | other (line : Str)
deriving DecidableEq

def commandOf (line word details : Str) : ClientCommand :=
  if strCaseEq word "bookout".toList then .bookout details
  else if strCaseEq word "bookin".toList then .bookin details
  else if strCaseEq word "clientrun".toList then .clientrun details
  else if strCaseEq word "auth".toList then .auth
  else if strCaseEq word "okay:".toList then .okay
  else .other line

def clientCommand (line : Str) : ClientCommand :=
  let line := stripTrailingWhitespace line
  let p := getToken line [' '] .none
  commandOf line p.1 (p.2.getD [])

theorem clientCommand_newline (line : Str) : clientCommand (line ++ ['\n']) =
    clientCommand line := by
  unfold clientCommand
  rw [stripTrailingWhitespace_newline]

/-- `ClientBookoutFile`: how many bytes of content it asks its copy loop for, and the name. -/
def bookoutDetails (details : Str) : Nat × Str :=
  let p := getToken details [' '] .none
  (sizeValue p.1, stripTrailingWhitespace (p.2.getD []))

/-- The client's surroundings. `size` is what the local variable `Size` of `ClientBookinFile`
happens to hold: nothing is ever stored in it. -/
structure Client where
  readFile : List ClientAction → Str → Option Str
  creates : List ClientAction → Str → Bool
  size : List ClientAction → Nat
  password : Str := []

/-- `%d` of a 64-bit number: its low 32 bits as an `int`. -/
def printfInt (n : Nat) : Str := decimalInt (Int.bmod n (2 ^ 32))

def bookinHeader (name content : Str) : Str :=
  "bookin ".toList ++ printfInt content.length ++ " ".toList ++ name ++ "\n".toList

/-- What `ClientBookinFile` sends of a file that it can open. -/
def clientBookinFile (size : Nat) (name content : Str) : Str :=
  bookinHeader name content ++ if 0 < size then content else []

/-- What the client does on a line, and what it leaves of everything the server sends behind it. -/
def clientRespond (client : Client) (past : List ClientAction) (rest : Str) :
    ClientCommand → ClientAction × Str
  | .bookout details =>
    let p := bookoutDetails details
    if client.creates past p.2 then
      (.create p.2 (rest.take (sendLimit p.1)), rest.drop (sendLimit p.1))
    else (.cannotCreate p.2, rest)
  | .bookin details =>
    let name := stripTrailingWhitespace details
    if (client.readFile past name).isSome then (.answer name, rest) else (.cannotOpen name, rest)
  | .clientrun details => (.execute (stripTrailingWhitespace details), rest)
  | .auth => (.authenticate, rest)
  | .okay => (.output rest, [])
  | .other line => (.print line, rest)

def clientStep (client : Client) (past : List ClientAction) (input : Str) :
    Option (ClientAction × Str) :=
  match readLine input with
  | none => none
  | some (line, rest) => some (clientRespond client past rest (clientCommand line))

def clientActions (client : Client) (input : Str) : List ClientAction :=
  Scan.pieces (clientStep client) [] input

theorem clientRespond_length (client : Client) (past : List ClientAction) (rest : Str)
    (command : ClientCommand) :
    (clientRespond client past rest command).2.length ≤ rest.length := by
  have hdrop : ∀ n, (rest.drop n).length ≤ rest.length := fun n => by
    rw [List.length_drop]
    omega
  unfold clientRespond
  cases command with
  | bookout details =>
    dsimp only
    split
    · exact hdrop _
    · exact Nat.le_refl _
  | bookin details =>
    dsimp only
    split <;> exact Nat.le_refl _
  | clientrun details => exact Nat.le_refl _
  | auth => exact Nat.le_refl _
  | okay => exact Nat.zero_le _
  | other line => exact Nat.le_refl _

theorem clientStep_shrinks (client : Client) (past : List ClientAction) :
    Scan.Shrinks (clientStep client past) := by
  intro s b t h
  unfold clientStep at h
  split at h
  · cases h
  · rename_i line rest hline
    have hlt := readLine_shrinks s line rest hline
    have hle := clientRespond_length client past rest (clientCommand line)
    rw [Option.some.injEq] at h
    rw [h] at hle
    exact Nat.lt_of_le_of_lt hle hlt

end Invocation
