import Invocation.Vars

/-!
# SubstituteVarsInString

The cursor is the rest of the template, so moving it past the empty rest is a
read beyond the terminating NUL; such a substitution has no result. What is
written is kept in pieces, a character of the template or a whole value, and
the C string is their concatenation.
-/

namespace Invocation

set_option autoImplicit false

/-- The characters that `MakeShellSafeString` puts a backslash in front of. -/
def badChars : Str := ";|&`".toList

def quoteCharsInStr (quoteChars : Str) : Str → Str
  | [] => []
  | c :: s =>
    if c ∈ quoteChars then
      '\\' :: (if c = '\n' then 'n' else if c = '\r' then 'r' else c) ::
        quoteCharsInStr quoteChars s
    else c :: quoteCharsInStr quoteChars s

def makeShellSafeString (s : Str) : Str := quoteCharsInStr badChars s

section ParseVar

variable (vars : Vars) (shellSafe : Bool)

/-- The text that a variable name stands for. -/
def varValue (name : Str) : Str :=
  if shellSafe then makeShellSafeString (getVar vars (strlwr name)) else getVar vars (strlwr name)

mutual

/-- `ParseVar` behind a dollar sign: the value, and the cursor on the last character it consumed. -/
def parseVar : Nat → Str → Option (Str × Str)
  | 0, _ => none
  | _ + 1, [] => none
  | n + 1, c :: s =>
    if c = '$' then
      match parseVar n s with
      | none => none
      | some (_, rest) => some (varValue vars shellSafe [], rest)
    else if c = '(' then parseVarName n (· == ')') [] [] s
    else parseVarName n isSpace [] [] s

/-- The loops of `ParseVar` that collect a name; values of nested variables pile up in `tempstr`. -/
def parseVarName : Nat → (Char → Bool) → Str → Str → Str → Option (Str × Str)
  | 0, _, _, _, _ => none
  | _ + 1, _, _, name, [] => some (varValue vars shellSafe name, [])
  | n + 1, stop, tempstr, name, c :: s =>
    if stop c then some (varValue vars shellSafe name, c :: s)
    else if c = '$' then
      match parseVar n s with
      | some (value, _ :: rest) =>
        parseVarName n stop (tempstr ++ value) (name ++ (tempstr ++ value)) rest
      | _ => none
    else parseVarName n stop tempstr (name ++ [c]) s

end

/-- What a substitution writes. -/
inductive Piece
  | char (c : Char)
  | value (s : Str)
deriving DecidableEq

def Piece.text : Piece → Str
  | .char c => [c]
  | .value s => s

def substitutePieces : Nat → Str → Option (List Piece)
  | _, [] => some []
  | 0, _ :: _ => none
  | n + 1, c :: s =>
    if c = '$' then
      match parseVar vars shellSafe n s with
      | some (value, _ :: rest) => (substitutePieces n rest).map (.value value :: ·)
      | _ => none
    else (substitutePieces n s).map (.char c :: ·)

/-- `SubstituteVarsInString` with the flags 0 or `SUBS_SHELL_SAFE`. -/
def substituteVarsInString (fmt : Str) : Option Str :=
  (substitutePieces vars shellSafe (2 * fmt.length + 2) fmt).map fun pieces =>
    pieces.flatMap Piece.text

/-- `AddCharToBuffer`: the text ends behind the character. -/
def addCharToBuffer (dest : Str) (destLen : Nat) (c : Char) : Str := dest.take destLen ++ [c]

/-- The loop of `SubstituteVarsInString` with the length that it keeps beside its output. -/
def substituteLoop : Nat → Str → Nat → Str → Option (Str × Nat)
  | _, returnStr, len, [] => some (returnStr, len)
  | 0, _, _, _ :: _ => none
  | n + 1, returnStr, len, c :: s =>
    if c = '$' then
      match parseVar vars shellSafe n s with
      | some (value, _ :: rest) =>
        substituteLoop n (returnStr ++ value) (returnStr ++ value).length rest
      | _ => none
    else substituteLoop n (addCharToBuffer returnStr len c) (len + 1) s

theorem addCharToBuffer_length (dest : Str) (c : Char) :
    addCharToBuffer dest dest.length c = dest ++ [c] := by
  rw [addCharToBuffer, List.take_length]

/-- The length that is kept is the length of the output, whatever the values are. -/
theorem substituteLoop_eq (n : Nat) (returnStr fmt : Str) :
    substituteLoop vars shellSafe n returnStr returnStr.length fmt =
      (substitutePieces vars shellSafe n fmt).map fun pieces =>
        (returnStr ++ pieces.flatMap Piece.text,
          (returnStr ++ pieces.flatMap Piece.text).length) := by
  induction n generalizing returnStr fmt with
  | zero =>
    cases fmt with
    | nil => simp [substituteLoop, substitutePieces]
    | cons c s => rfl
  | succ n ih =>
    cases fmt with
    | nil => simp [substituteLoop, substitutePieces]
    | cons c s =>
      rw [substituteLoop, substitutePieces]
      split
      · split
        · rename_i value d rest hvar
          rw [ih, Option.map_map]
          simp only [Function.comp_def, List.flatMap_cons, Piece.text, List.append_assoc]
        · rfl
      · have hlength : returnStr.length + 1 = (returnStr ++ [c]).length := by simp
        rw [addCharToBuffer_length, hlength, ih, Option.map_map]
        simp only [Function.comp_def, List.flatMap_cons, Piece.text, List.append_assoc]

theorem substituteVarsInString_length (fmt : Str) :
    substituteLoop vars shellSafe (2 * fmt.length + 2) [] 0 fmt =
      (substituteVarsInString vars shellSafe fmt).map fun s => (s, s.length) := by
  have hloop := substituteLoop_eq vars shellSafe (2 * fmt.length + 2) [] fmt
  rw [substituteVarsInString, Option.map_map]
  exact hloop

theorem substitutePieces_plain {n : Nat} {fmt : Str} (hlength : fmt.length ≤ n)
    (hplain : '$' ∉ fmt) : substitutePieces vars shellSafe n fmt = some (fmt.map .char) := by
  induction fmt generalizing n with
  | nil => cases n <;> rfl
  | cons c s ih =>
    rw [List.mem_cons, not_or] at hplain
    cases n with
    | zero => cases hlength
    | succ n =>
      have hrest := ih (Nat.le_of_succ_le_succ hlength) hplain.2
      rw [substitutePieces, if_neg (Ne.symm hplain.1), hrest]
      rfl

theorem substituteVarsInString_plain {fmt : Str} (hplain : '$' ∉ fmt) :
    substituteVarsInString vars shellSafe fmt = some fmt := by
  rw [substituteVarsInString, substitutePieces_plain vars shellSafe (by omega) hplain]
  simp [List.flatMap_map, Piece.text]

end ParseVar

end Invocation
