import Invocation.Tokenizer
import Invocation.Vars

/-!
# clients.db

The grant database is a text file of `name=value` lines. `none` in a result
stands for what C leaves undefined: the record pointer that `AppDBParseEntry`
never sets for an empty or commented line, a hash compared through a NULL
pointer, and the message that `AppDBCheck` builds in a string literal when it
cannot stat the program.
-/

namespace Invocation

set_option autoImplicit false

inductive FileKind
  | regular
  | directory
  | other
deriving DecidableEq

structure FileStat where
  size : Nat
  size_lt : size < 2 ^ 63
  kind : FileKind := .regular
deriving DecidableEq

def base64Char (c : Char) : Bool := c.isAlphanum || c == '+' || c == '/' || c == '='

/-- A SHA-256 hash in base64, as `HashFile` returns it. -/
structure Digest where
  text : Str
  base64 : ∀ c ∈ text, base64Char c = true
deriving DecidableEq

/-- What the file system answers about a path; the empty one names no file. -/
structure FileView where
  stat : Str → Option FileStat
  hashFile : Str → Option Digest
  stat_nil : stat [] = none

/-- `STREAMReadLine`: a line keeps its newline, the last one may lack it. -/
def readLine : Str → Option (Str × Str)
  | [] => none
  | s =>
    match s.dropWhile (· ≠ '\n') with
    | [] => some (s, [])
    | nl :: rest => some (s.takeWhile (· ≠ '\n') ++ [nl], rest)

def readLines (text : Str) : List Str := Scan.unfold readLine text

/-- The separators `\S|,` of `IsItemInList`. -/
def listSeparator : Str := "\\S|,".toList

def isItemInList (item strList : Str) : Bool :=
  if item = ['*'] then true
  else (tokens listSeparator .multi strList).any (· = item)

structure TGrant where
  type : Str := []
  user : Str := []
  group : Str := []
  program : Str := []
  hash : Option Str := none
  size : Nat := 0
deriving DecidableEq

/-- `(size_t) strtoll(Value, NULL, 10)` -/
def sizeValue (value : Str) : Nat := (strtoll value % 2 ^ 64).toNat

def TGrant.setField (grant : TGrant) (name value : Str) : TGrant :=
  if name = "grant".toList then { grant with type := value }
  else if name = "user".toList then { grant with user := value }
  else if name = "group".toList then { grant with group := value }
  else if name = "program".toList then { grant with program := value }
  else if name = "hash".toList then { grant with hash := some value }
  else if name = "size".toList then { grant with size := sizeValue value }
  else grant

def TGrant.setFields (grant : TGrant) (fields : List (Str × Str)) : TGrant :=
  fields.foldl (fun g p => g.setField p.1 p.2) grant

def appDBParseEntry (config : Str) : Option TGrant :=
  match config with
  | [] => none
  | '#' :: _ => none
  | _ => some (TGrant.setFields {} (pairs [' '] ['='] config))

def appDBCheckEntry (entry : TGrant) (grant appPath : Str) (stat : FileStat)
    (hash : Option Digest) : Option Bool :=
  if grant = [] then some false
  else if appPath = [] then some false
  else if isItemInList grant entry.type = false then some false
  else if entry.program ≠ [] ∧ entry.program ≠ appPath then some false
  else if stat.size = entry.size then
    match hash, entry.hash with
    | some h, some e => some (h.text = e)
    | _, _ => none
  else some false

/-- The loop of `AppDBCheck` over the lines of the file. -/
def appDBCheckLines (grant appPath : Str) (stat : FileStat) (hash : Option Digest) :
    List Str → Option Bool
  | [] => some false
  | line :: lines =>
    match appDBParseEntry (stripLeadingWhitespace (stripTrailingWhitespace line)) with
    | none => none
    | some entry =>
      match appDBCheckEntry entry grant appPath stat hash with
      | none => none
      | some true => some true
      | some false => appDBCheckLines grant appPath stat hash lines

/-- `AppDBCheck` on the text of the database, `none` when it cannot be opened. -/
def appDBCheck (files : FileView) (db : Option Str) (grant appPath : Str) : Option Bool :=
  match files.stat appPath with
  | none => none
  | some stat =>
    match db with
    | none => some false
    | some text => appDBCheckLines grant appPath stat (files.hashFile appPath) (readLines text)

/-- The name under which `AppDBAdd` stores a line it has read back. -/
def lineKey (line : Str) : Str := (getToken line "\\S".toList .quotes).1

/-- The lines of the file as `AppDBAdd` keeps them, each under its key. -/
def readItems (db : Option Str) : Vars :=
  setVars ((readLines (db.getD [])).map fun line =>
    (lineKey (stripTrailingWhitespace line), stripTrailingWhitespace line))

def hashText : Option Digest → Str
  | some digest => digest.text
  | none => "(null)".toList

def grantLine (grant user group appPath : Str) (size : Nat) (hash : Option Digest) : Str :=
  "grant='".toList ++ grant ++ "' program='".toList ++ appPath ++ "' size=".toList ++
    decimal size ++
    " hash=".toList ++ hashText hash ++
    (if user = [] then [] else " user=".toList ++ user) ++
    (if group = [] then [] else " group=".toList ++ group)

def writeItems (items : Vars) : Str := items.flatMap fun item => item.2 ++ ['\n']

/-- `AppDBAdd`: a program that cannot be stat-ed leaves the file alone. -/
def appDBAdd (files : FileView) (db : Option Str) (grant user group appPath : Str) : Option Str :=
  match files.stat appPath with
  | none => db
  | some stat =>
    some (writeItems (setVar (readItems db) appPath
      (grantLine grant user group appPath stat.size (files.hashFile appPath))))

/-- `MCatStr(List, Name, ",", NULL)` for every name in turn, as `grant` collects its arguments. -/
def nameList (names : List Str) : Str := names.flatMap (· ++ [','])

end Invocation
