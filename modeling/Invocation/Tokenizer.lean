import Invocation.Lib.Scan
import Invocation.Text

/-!
# GetToken

Pointers into the searched string are the suffixes they point to, so a NULL
result is `none` and the end of the string is `some []`.
-/

namespace Invocation

set_option autoImplicit false

/-- The `GETTOKEN_...` bits. -/
structure TokenFlags where
  multiSep : Bool := false
  honorQuotes : Bool := false
  stripQuotes : Bool := false
  includeSep : Bool := false
  appendSep : Bool := false
  backslash : Bool := false
  stripSpace : Bool := false
deriving DecidableEq

namespace TokenFlags

def none : TokenFlags := {}
/-- `GETTOKEN_QUOTES` -/
def quotes : TokenFlags := { honorQuotes := true, stripQuotes := true }
/-- `GETTOKEN_HONOR_QUOTES` -/
def honor : TokenFlags := { honorQuotes := true }
/-- `GETTOKEN_MULTI_SEP` -/
def multi : TokenFlags := { multiSep := true }

end TokenFlags

/-- One character of a separator pattern: `\S`, `\X`, or a character that stands for itself. -/
inductive SepItem
  | space
  | code
  | lit (c : Char)
deriving DecidableEq

def sepItems : Str → List SepItem
  | [] => []
  | '\\' :: 'S' :: p => .space :: sepItems p
  | '\\' :: 'X' :: p => .code :: sepItems p
  | '\\' :: c :: p => .lit c :: sepItems p
  | c :: p => .lit c :: sepItems p

/-- `BuildMultiSeparators`: the non-empty pieces between bars. -/
def buildMultiSeparators (pattern : Str) : List Str :=
  (pattern.splitOn '|').filter (· ≠ [])

def traverseUntil (terminator : Char) : Str → Str
  | [] => []
  | c :: s =>
    if c = terminator then c :: s
    else if c = '\\' then
      match s with
      | [] => []
      | _ :: t => traverseUntil terminator t
    else traverseUntil terminator s

def getTokenStepThru (fl : TokenFlags) : Str → Str
  | [] => []
  | c :: s =>
    if c = '\\' ∧ fl.backslash = false ∧ s ≠ [] then s.tail
    else if isQuote c ∧ fl.honorQuotes then (traverseUntil c s).tail
    else s

/-- `GetTokenSepMatch` either ends a match at a cursor or fails and leaves the
start pointer somewhere. -/
inductive SepMatch
  | matched (sepEnd : Str)
  | failed (start : Str)

def getTokenSepMatch (fl : TokenFlags) (start : Str) : List SepItem → Str → SepMatch
  | [], s => .matched s
  | _ :: _, [] => .failed []
  | item :: items, c :: s =>
    if c = '\\' then
      if fl.backslash then
        if item = .lit c then getTokenSepMatch fl start items s else .failed start
      else .failed s
    else if isQuote c then
      if fl.honorQuotes then .failed start
      else if item = .lit c then getTokenSepMatch fl start items s else .failed start
    else if c = ' ' ∨ c = '\t' ∨ c = '\n' ∨ c = '\r' then
      if item = .space ∨ item = .code then
        getTokenSepMatch fl start items (s.dropWhile isSpace)
      else if item = .lit c then getTokenSepMatch fl start items s
      else .failed start
    else if c = '(' ∨ c = ')' ∨ c = '=' ∨ c = '!' ∨ c = '<' ∨ c = '>' then
      if item = .code ∨ item = .lit c then getTokenSepMatch fl start items s
      else .failed start
    else if item = .lit c then getTokenSepMatch fl start items s
    else .failed start

/-- One round of the loop of `GetTokenFindSeparator`. -/
def findSeparatorStep (fl : TokenFlags) (items : List SepItem) (s : Str) :
    (Str × Str) ⊕ Str :=
  match s with
  | '\\' :: t =>
    if fl.backslash = false then .inr t.tail
    else
      match getTokenSepMatch fl s items s with
      | .matched e => .inl (s, e)
      | .failed u => .inr (getTokenStepThru fl u)
  | _ =>
    match getTokenSepMatch fl s items s with
    | .matched e => .inl (s, e)
    | .failed u => .inr (getTokenStepThru fl u)

/-- `SepStart` and `SepEnd`; both stand on the NUL when there is no separator. -/
def getTokenFindSeparator (fl : TokenFlags) (items : List SepItem) (s : Str) : Str × Str :=
  Scan.find (findSeparatorStep fl items) ([], []) s

/-- The inner loop of `GetTokenMultiSepMatch`: the first alternative that matches at the cursor. -/
def matchAnySeparator (fl : TokenFlags) (seps : List (List SepItem)) (s : Str) :
    Option (Str × Str) :=
  seps.findSome? fun items =>
    match getTokenSepMatch fl s items s with
    | .matched e => some (s, e)
    | .failed _ => none

/-- One round of the outer loop of `GetTokenMultiSepMatch`. -/
def multiSepStep (fl : TokenFlags) (seps : List (List SepItem)) (s : Str) :
    Option (Str × Str) ⊕ Str :=
  match matchAnySeparator fl seps s with
  | some p => .inl (some p)
  | none => .inr (getTokenStepThru fl s)

def getTokenMultiSepMatch (fl : TokenFlags) (seps : List (List SepItem)) (s : Str) :
    Option (Str × Str) :=
  Scan.find (multiSepStep fl seps) none s

/-- The quotes at both ends of the token text `tok`, which starts the searched string. -/
def stripTokenQuotes (search tok : Str) : Str :=
  match tok with
  | [] => []
  | q :: t =>
    if isQuote q then
      if t = [] then search.tail
      else if t.getLast? = some q then t.dropLast
      else tok
    else tok

/-- `GetTokenPostProcess` with a separator between the cursors `sepStart` and `sepEnd`. -/
def getTokenPostProcess (fl : TokenFlags) (search sepStart sepEnd : Str) : Str × Option Str :=
  let upTo (p : Str) : Str := search.take (search.length - p.length)
  let atStart := sepStart.length = search.length
  let raw :=
    if fl.includeSep then (if atStart then upTo sepEnd else upTo sepStart)
    else if fl.appendSep then upTo sepEnd
    else upTo sepStart
  let rest := if fl.includeSep ∧ ¬ atStart then sepStart else sepEnd
  let token := if fl.stripQuotes then stripTokenQuotes search raw else raw
  let token :=
    if fl.stripSpace then stripLeadingWhitespace (stripTrailingWhitespace token) else token
  (token, some rest)

/-- `strchr` followed by the character behind it: the path for a one-character
separator when quotes are not honoured. -/
def getTokenSimple (fl : TokenFlags) (sep : Char) (search : Str) : Str × Option Str :=
  match search.dropWhile (· ≠ sep) with
  | [] => (search, some [])
  | c :: rest =>
    if fl = TokenFlags.none then (search.takeWhile (· ≠ sep), some rest)
    else getTokenPostProcess fl search (c :: rest) rest

/-- `GetToken`: the token and the pointer it returns. -/
def getToken (search separator : Str) (fl : TokenFlags) : Str × Option Str :=
  match search, separator with
  | [], _ => ([], none)
  | _, [] => (search, none)
  | _, sep :: more =>
    if fl.honorQuotes = false ∧ more = [] then getTokenSimple fl sep search
    else if fl.multiSep then
      match getTokenMultiSepMatch fl ((buildMultiSeparators separator).map sepItems) search with
      | some (sepStart, sepEnd) => getTokenPostProcess fl search sepStart sepEnd
      | none => (search, some [])
    else
      let p := getTokenFindSeparator fl (sepItems separator) search
      getTokenPostProcess fl search p.1 p.2

/-- A token and the rest of the string, as a loop `while (ptr)` takes them off. -/
def nextToken (separator : Str) (fl : TokenFlags) (s : Str) : Option (Str × Str) :=
  match getToken s separator fl with
  | (token, some rest) => some (token, rest)
  | (_, none) => none

/-- The tokens that `ptr=GetToken(...); while (ptr) {...; ptr=GetToken(ptr, ...);}` runs through. -/
def tokens (separator : Str) (fl : TokenFlags) (s : Str) : List Str :=
  Scan.unfold (nextToken separator fl) s

/-- The name of a `GetNameValuePair` token, and the text that is copied to its value. -/
def splitNameText (token nameValueDelim : Str) : Str × Str :=
  if token = [] then ([], [])
  else
    let p := getToken token nameValueDelim .quotes
    (p.1, p.2.getD [])

/-- The text of a value without the quotes around it. -/
def readValue (text : Str) : Str := if text = [] then [] else stripQuotes text

/-- Name and value of one `GetNameValuePair` token. -/
def splitNameValue (token nameValueDelim : Str) : Str × Str :=
  let p := splitNameText token nameValueDelim
  (p.1, readValue p.2)

/-- `GetNameValuePair`: name, value and the pointer it returns. -/
def getNameValuePair (input pairDelim nameValueDelim : Str) : (Str × Str) × Option Str :=
  let p := getToken input pairDelim .quotes
  (splitNameValue p.1 nameValueDelim, p.2)

def nextPair (pairDelim nameValueDelim : Str) (s : Str) : Option ((Str × Str) × Str) :=
  match getNameValuePair s pairDelim nameValueDelim with
  | (pair, some rest) => some (pair, rest)
  | (_, none) => none

/-- The pairs that a loop over `GetNameValuePair` runs through. -/
def pairs (pairDelim nameValueDelim : Str) (s : Str) : List (Str × Str) :=
  Scan.unfold (nextPair pairDelim nameValueDelim) s

end Invocation
