import Mathlib.Data.List.Basic

/-!
# Quoting and operators of sh

What the lexical rules of a POSIX shell make of each character of a command
line: part of a word, blank, operator, quoting, part of a parameter expansion,
the start of a command substitution, or comment. Double quotes and parameter
expansions nest. A backslash in front of a newline continues the line: what
stands behind the two is read as if it stood in front of them. Where the rules
leave the reading to the shell a character is unspecified: a dollar sign in
front of a quote or a square bracket, a name that no parameter has, and a
double quote in an expansion that stands in double quotes. Here-documents are
not read.
-/

namespace Shell

set_option autoImplicit false

inductive Role
  | word
  | blank
  | operator
  | numbered
  | escaping
  | opening
  | closing
  | quoted
  | quotedEscaping
  | parameter
  | naming
  | unspecified
  | expansion
  | quotedExpansion
  | inner
  | comment
deriving DecidableEq

/-- What stands in front of an unquoted character. -/
inductive Prev
  | boundary
  | number
  | dollar
  | inside
deriving DecidableEq

/-- What a character can stand in: `"..."`, and `${...}`, which may follow the rules of the double
quotes around it. -/
inductive Frame
  | quotes
  | braces
  | quotedBraces
deriving DecidableEq

/-- How much has been read of a parameter, or of its length, and of what is done with it. -/
inductive Naming
  | expect
  | hash
  | name (length : Bool)
  | digits (length : Bool)
  | special (length : Bool)
  | colon
deriving DecidableEq

inductive Cursor
  | plain (prev : Prev)
  | escape (prev : Prev)
  | naming (n : Naming)
  | namingEscape (n : Naming)
  | single
  | back
  | backEscape
  | comment
deriving DecidableEq

/-- The frames that are open, the innermost first. -/
structure State where
  frames : List Frame
  cursor : Cursor
deriving DecidableEq

def start : State := ⟨[], .plain .boundary⟩

def operators : List Char := [';', '|', '&', '\n', '(', ')', '<', '>']

def blanks : List Char := [' ', '\t']

/-- What stands in front of the character behind `c`. -/
def Prev.behind (prev : Prev) (c : Char) : Prev :=
  if c.isDigit ∧ (prev = .boundary ∨ prev = .number) then .number else .inside

/-- A character that neither quotes nor expands. A number in front of a redirection belongs to
it. -/
def stepOrdinary (frames : List Frame) (prev : Prev) (c : Char) : Role × State :=
  match frames with
  | [] =>
    if c = '#' ∧ prev = .boundary then (.comment, ⟨[], .comment⟩)
    else if c ∈ ['<', '>'] ∧ prev = .number then (.numbered, ⟨[], .plain .boundary⟩)
    else if c ∈ operators then (.operator, ⟨[], .plain .boundary⟩)
    else if c ∈ blanks then (.blank, ⟨[], .plain .boundary⟩)
    else (.word, ⟨[], .plain (prev.behind c)⟩)
  | frame :: outer =>
    if c = '}' then (.parameter, ⟨outer, .plain .inside⟩)
    else (.word, ⟨frame :: outer, .plain .inside⟩)

/-- Outside of quotes, perhaps in a parameter expansion. The second of two dollar signs ends the
name of a parameter. -/
def stepUnquoted (frames : List Frame) (prev : Prev) (c : Char) : Role × State :=
  if c = '\\' then (.escaping, ⟨frames, .escape prev⟩)
  else if c ∈ ['\'', '['] ∧ prev = .dollar then (.unspecified, ⟨frames, .plain .inside⟩)
  else if c = '\'' then (.opening, ⟨frames, .single⟩)
  else if c = '"' then (.opening, ⟨.quotes :: frames, .plain .inside⟩)
  else if c = '`' then (.expansion, ⟨frames, .back⟩)
  else if c = '$' ∧ prev = .dollar then (.parameter, ⟨frames, .plain .inside⟩)
  else if c = '$' then (.word, ⟨frames, .plain .dollar⟩)
  else if c = '(' ∧ prev = .dollar then (.expansion, ⟨frames, .plain .boundary⟩)
  else if c = '{' ∧ prev = .dollar then (.parameter, ⟨.braces :: frames, .naming .expect⟩)
  else stepOrdinary frames prev c

/-- In double quotes, or in an expansion that follows their rules. -/
def stepQuoted (head : Frame) (outer : List Frame) (prev : Prev) (c : Char) : Role × State :=
  let frames := head :: outer
  if c = '"' then
    if head = .quotes then (.closing, ⟨outer, .plain .inside⟩)
    else (.unspecified, ⟨frames, .plain .inside⟩)
  else if c = '\\' then (.quotedEscaping, ⟨frames, .escape prev⟩)
  else if c = '`' then (.quotedExpansion, ⟨frames, .back⟩)
  else if c = '$' ∧ prev ≠ .dollar then (.quoted, ⟨frames, .plain .dollar⟩)
  else if c = '(' ∧ prev = .dollar then (.quotedExpansion, ⟨frames, .plain .inside⟩)
  else if c = '{' ∧ prev = .dollar then (.quoted, ⟨.quotedBraces :: frames, .naming .expect⟩)
  else if c = '[' ∧ prev = .dollar then (.unspecified, ⟨frames, .plain .inside⟩)
  else if c = '}' ∧ head = .quotedBraces then (.quoted, ⟨outer, .plain .inside⟩)
  else (.quoted, ⟨frames, .plain .inside⟩)

def stepPlain (frames : List Frame) (prev : Prev) (c : Char) : Role × State :=
  match frames with
  | .quotes :: outer => stepQuoted .quotes outer prev c
  | .quotedBraces :: outer => stepQuoted .quotedBraces outer prev c
  | _ => stepUnquoted frames prev c

/-- The first character of a name, of the number of an argument, or a special parameter. -/
def Naming.first (length : Bool) (c : Char) : Option Naming :=
  if c.isAlpha ∨ c = '_' then some (.name length)
  else if c.isDigit then some (.digits length)
  else if c ∈ ['@', '*', '!', '$'] ∨ (c ∈ ['?', '-'] ∧ length = false) then some (.special length)
  else none

/-- The parameter goes on. -/
def Naming.next : Naming → Char → Option Naming
  | .expect, c => if c = '#' then some .hash else first false c
  | .hash, c => first true c
  | .name length, c => if c.isAlphanum ∨ c = '_' then some (.name length) else none
  | .digits length, c => if c.isDigit then some (.digits length) else none
  | .special _, _ => none
  | .colon, _ => none

/-- Behind a parameter: its brace, or what is done where it is not set, or a pattern. -/
def stepOperator (frames : List Frame) (length : Bool) (c : Char) : Role × State :=
  if c = '}' then (.naming, ⟨frames.tail, .plain .inside⟩)
  else if length then (.unspecified, ⟨frames, .plain .inside⟩)
  else if c = ':' then (.naming, ⟨frames, .naming .colon⟩)
  else if c ∈ ['-', '=', '?', '+'] then (.naming, ⟨frames, .plain .inside⟩)
  else if c ∈ ['%', '#'] then (.naming, ⟨.braces :: frames.tail, .plain .inside⟩)
  else (.unspecified, ⟨frames, .plain .inside⟩)

/-- The rules of double quotes do not reach into a pattern. -/
def stepNaming (frames : List Frame) (n : Naming) (c : Char) : Role × State :=
  if c = '\\' then (.naming, ⟨frames, .namingEscape n⟩)
  else
    match n.next c, n with
    | some n', _ => (.naming, ⟨frames, .naming n'⟩)
    | none, .expect => (.unspecified, ⟨frames, .plain .inside⟩)
    | none, .colon =>
      if c ∈ ['-', '=', '?', '+'] then (.naming, ⟨frames, .plain .inside⟩)
      else (.unspecified, ⟨frames, .plain .inside⟩)
    | none, .hash => stepOperator frames false c
    | none, .name length => stepOperator frames length c
    | none, .digits length => stepOperator frames length c
    | none, .special length => stepOperator frames length c

def step (s : State) (c : Char) : Role × State :=
  match s.cursor with
  | .plain prev => stepPlain s.frames prev c
  | .escape prev => (.quoted, ⟨s.frames, .plain (if c = '\n' then prev else .inside)⟩)
  | .naming n => stepNaming s.frames n c
  | .namingEscape n =>
    if c = '\n' then (.naming, ⟨s.frames, .naming n⟩)
    else (.unspecified, ⟨s.frames, .plain .inside⟩)
  | .single => if c = '\'' then (.closing, ⟨s.frames, .plain .inside⟩) else (.quoted, s)
  | .back =>
    if c = '`' then (.closing, ⟨s.frames, .plain .inside⟩)
    else if c = '\\' then (.inner, ⟨s.frames, .backEscape⟩)
    else (.inner, s)
  | .backEscape => (.inner, ⟨s.frames, .back⟩)
  | .comment => if c = '\n' then (.operator, ⟨s.frames, .plain .boundary⟩) else (.comment, s)

def roles : State → List Char → List Role
  | _, [] => []
  | s, c :: cs => (step s c).1 :: roles (step s c).2 cs

def after (s : State) (text : List Char) : State := text.foldl (fun s c => (step s c).2) s

/-- The parameter expansions do not count as quotes. -/
def State.unquoted (s : State) : Bool :=
  s.frames.all (· = .braces) && match s.cursor with
    | .plain _ => true
    | .comment => true
    | _ => false

/-- A line may end here. A backslash at its end stands for itself. -/
def State.complete (s : State) : Bool :=
  s.frames.isEmpty && match s.cursor with
    | .plain _ => true
    | .escape _ => true
    | .comment => true
    | _ => false

/-- The shell acts on a character that has this role, or may do so. -/
def Role.active : Role → Bool
  | .operator => true
  | .numbered => true
  | .unspecified => true
  | .expansion => true
  | .quotedExpansion => true
  | _ => false

@[simp] theorem roles_nil (s : State) : roles s [] = [] := rfl

@[simp] theorem roles_cons (s : State) (c : Char) (cs : List Char) :
    roles s (c :: cs) = (step s c).1 :: roles (step s c).2 cs := rfl

@[simp] theorem after_nil (s : State) : after s [] = s := rfl

@[simp] theorem after_cons (s : State) (c : Char) (cs : List Char) :
    after s (c :: cs) = after (step s c).2 cs := rfl

theorem roles_append (s : State) (xs ys : List Char) :
    roles s (xs ++ ys) = roles s xs ++ roles (after s xs) ys := by
  induction xs generalizing s with
  | nil => rfl
  | cons c xs ih => rw [List.cons_append, roles_cons, roles_cons, ih, after_cons, List.cons_append]

theorem after_append (s : State) (xs ys : List Char) :
    after s (xs ++ ys) = after (after s xs) ys := List.foldl_append

/-! ## Behind a word -/

/-- A character acts as it does behind a word. -/
def Prev.Harmless (frames : List Frame) (prev : Prev) (c : Char) : Prop :=
  ¬ (c = '#' ∧ prev = .boundary ∧ frames = []) ∧
    ¬ (c ∈ ['(', '{', '$', '\'', '['] ∧ prev = .dollar) ∧
    ¬ (c ∈ ['<', '>'] ∧ prev = .number ∧ frames = [])

def Role.unquoted : Role → Bool
  | .word => true
  | .blank => true
  | .operator => true
  | .escaping => true
  | .opening => true
  | .parameter => true
  | .expansion => true
  | _ => false

/-- The frames around text that is not quoted. -/
def Unquoted (frames : List Frame) : Prop := ∀ frame ∈ frames, frame = .braces

theorem step_plain {frames : List Frame} (hframes : Unquoted frames) (prev : Prev) (c : Char) :
    step ⟨frames, .plain prev⟩ c = stepUnquoted frames prev c := by
  cases frames with
  | nil => rfl
  | cons frame outer =>
    rw [hframes frame List.mem_cons_self]
    rfl

theorem stepOrdinary_inside {frames : List Frame} {prev : Prev} {c : Char}
    (hhash : ¬ (c = '#' ∧ prev = .boundary ∧ frames = []))
    (hnumber : ¬ (c ∈ ['<', '>'] ∧ prev = .number ∧ frames = [])) :
    (stepOrdinary frames prev c).1 = (stepOrdinary frames .inside c).1 ∧
      (¬ (frames = [] ∧ c.isDigit) →
        (stepOrdinary frames prev c).2 = (stepOrdinary frames .inside c).2) := by
  cases frames with
  | nil =>
    have hcomment : ¬ (c = '#' ∧ prev = .boundary) := fun ⟨hc, hprev⟩ => hhash ⟨hc, hprev, rfl⟩
    have hredirect : ¬ (c ∈ ['<', '>'] ∧ prev = .number) :=
      fun ⟨hc, hprev⟩ => hnumber ⟨hc, hprev, rfl⟩
    have hcomment' : ¬ (c = '#' ∧ Prev.inside = .boundary) := nofun
    have hredirect' : ¬ (c ∈ ['<', '>'] ∧ Prev.inside = .number) := nofun
    simp only [stepOrdinary, if_neg hcomment, if_neg hredirect, if_neg hcomment',
      if_neg hredirect']
    split_ifs
    · simp
    · simp
    · refine ⟨rfl, fun hdigit => ?_⟩
      have hno : c.isDigit = false := by simpa using hdigit
      simp [Prev.behind, hno]
  | cons frame outer => exact ⟨rfl, fun _ => rfl⟩

theorem stepUnquoted_inside {frames : List Frame} {prev : Prev} {c : Char}
    (h : prev.Harmless frames c) (hc : c ≠ '\\') :
    (stepUnquoted frames prev c).1 = (stepUnquoted frames .inside c).1 ∧
      (¬ (frames = [] ∧ c.isDigit) →
        (stepUnquoted frames prev c).2 = (stepUnquoted frames .inside c).2) := by
  obtain ⟨hhash, hbracket, hnumber⟩ := h
  have hnot {d : Char} (hd : d ∈ ['(', '{', '$']) : ¬ (c = d ∧ prev = .dollar) := by
    rintro ⟨rfl, hprev⟩
    exact hbracket ⟨List.mem_append_left ['\'', '['] hd, hprev⟩
  have hquote : ¬ (c ∈ ['\'', '['] ∧ prev = .dollar) := by
    rintro ⟨hd, hprev⟩
    exact hbracket ⟨List.mem_append_right ['(', '{', '$'] hd, hprev⟩
  have hinside (p : Prop) : ¬ (p ∧ Prev.inside = .dollar) := nofun
  unfold stepUnquoted
  rw [if_neg hc, if_neg hc, if_neg hquote, if_neg (hnot (d := '$') (by decide)),
    if_neg (hnot (d := '(') (by decide)), if_neg (hnot (d := '{') (by decide)),
    if_neg (hinside _), if_neg (hinside _), if_neg (hinside _), if_neg (hinside _)]
  split_ifs
  all_goals first
    | exact ⟨rfl, fun _ => rfl⟩
    | exact stepOrdinary_inside hhash hnumber

theorem stepUnquoted_ne {frames : List Frame} {prev : Prev} {c : Char}
    (h : ¬ prev.Harmless frames c) :
    (stepUnquoted frames prev c).1 ≠ (stepUnquoted frames .inside c).1 := by
  by_cases hhash : c = '#' ∧ prev = .boundary ∧ frames = []
  · obtain ⟨rfl, rfl, rfl⟩ := hhash
    decide
  by_cases hbracket : c ∈ ['(', '{', '$', '\'', '['] ∧ prev = .dollar
  · obtain ⟨hmem, rfl⟩ := hbracket
    simp only [List.mem_cons, List.not_mem_nil, or_false] at hmem
    rcases hmem with rfl | rfl | rfl | rfl | rfl <;> cases frames <;> nofun
  by_cases hnumber : c ∈ ['<', '>'] ∧ prev = .number ∧ frames = []
  · obtain ⟨hmem, rfl, rfl⟩ := hnumber
    simp only [List.mem_cons, List.not_mem_nil, or_false] at hmem
    rcases hmem with rfl | rfl <;> decide
  · exact absurd ⟨hhash, hbracket, hnumber⟩ h

theorem stepOrdinary_unquoted (frames : List Frame) (c : Char) :
    (stepOrdinary frames .inside c).1.unquoted = true := by
  cases frames with
  | nil =>
    have hhash : ¬ (c = '#' ∧ Prev.inside = .boundary) := nofun
    have hnumber : ¬ (c ∈ ['<', '>'] ∧ Prev.inside = .number) := nofun
    rw [stepOrdinary, if_neg hhash, if_neg hnumber]
    split_ifs <;> rfl
  | cons frame outer =>
    rw [stepOrdinary]
    split_ifs <;> rfl

theorem stepUnquoted_unquoted (frames : List Frame) (c : Char) :
    (stepUnquoted frames .inside c).1.unquoted = true := by
  have hinside (p : Prop) : ¬ (p ∧ Prev.inside = .dollar) := nofun
  unfold stepUnquoted
  rw [if_neg (hinside (c ∈ ['\'', '[']))]
  split_ifs
  all_goals first
    | rfl
    | exact stepOrdinary_unquoted frames c

theorem stepOperator_role (frames : List Frame) (length : Bool) (c : Char) :
    (stepOperator frames length c).1 = .naming ∨
      (stepOperator frames length c).1 = .unspecified := by
  unfold stepOperator
  split_ifs <;> simp

theorem stepNaming_role (frames : List Frame) (n : Naming) (c : Char) :
    (stepNaming frames n c).1 = .naming ∨ (stepNaming frames n c).1 = .unspecified := by
  unfold stepNaming
  by_cases hc : c = '\\'
  · rw [if_pos hc]
    exact Or.inl rfl
  · rw [if_neg hc]
    split
    · exact Or.inl rfl
    · exact Or.inr rfl
    · split_ifs
      · exact Or.inl rfl
      · exact Or.inr rfl
    all_goals exact stepOperator_role frames _ c

/-- What `c` is read as behind the text that led to `s`, it is read as behind a word. -/
def Leaves (frames : List Frame) (s : State) (c : Char) : Prop :=
  s.frames = frames ∧ match s.cursor with
    | .plain prev => prev.Harmless frames c
    | .comment => frames = [] ∧ c = '\n'
    | _ => False

instance decidableLeaves (frames : List Frame) (s : State) (c : Char) :
    Decidable (Leaves frames s c) := by
  unfold Leaves Prev.Harmless
  split <;> infer_instance

section Leaves

variable {frames : List Frame} (hframes : Unquoted frames) {s : State} {c : Char}
include hframes

theorem leaves_iff : Leaves frames s c ↔
    s.frames = frames ∧ (step s c).1 = (step ⟨frames, .plain .inside⟩ c).1 := by
  obtain ⟨inner, cursor⟩ := s
  unfold Leaves
  refine and_congr_right fun hsame => ?_
  obtain rfl : inner = frames := hsame
  have hunquoted := stepUnquoted_unquoted inner c
  rw [step_plain hframes]
  have hquoted (role : Role) (hrole : role.unquoted = false)
      (hstep : (step ⟨inner, cursor⟩ c).1 = role) :
      ¬ (step ⟨inner, cursor⟩ c).1 = (stepUnquoted inner .inside c).1 := by
    intro heq
    rw [← heq, hstep, hrole] at hunquoted
    cases hunquoted
  cases cursor with
  | plain prev =>
    rw [step_plain hframes]
    constructor
    · intro h
      by_cases hc : c = '\\'
      · rw [hc]
        rfl
      · exact (stepUnquoted_inside h hc).1
    · intro heq
      by_contra h
      exact stepUnquoted_ne h heq
  | escape prev => exact iff_of_false not_false (hquoted .quoted rfl rfl)
  | naming n =>
    refine iff_of_false not_false ?_
    rcases stepNaming_role inner n c with hrole | hrole
    · exact hquoted .naming rfl hrole
    · exact hquoted .unspecified rfl hrole
  | namingEscape n =>
    refine iff_of_false not_false ?_
    by_cases hc : c = '\n'
    · exact hquoted .naming rfl (by simp [step, hc])
    · exact hquoted .unspecified rfl (by simp [step, hc])
  | single =>
    refine iff_of_false not_false ?_
    by_cases hc : c = '\''
    · exact hquoted .closing rfl (by simp [step, hc])
    · exact hquoted .quoted rfl (by simp [step, hc])
  | back =>
    refine iff_of_false not_false ?_
    by_cases hc : c = '`'
    · exact hquoted .closing rfl (by simp [step, hc])
    · exact hquoted .inner rfl (by simp only [step, if_neg hc]; split_ifs <;> rfl)
  | backEscape => exact iff_of_false not_false (hquoted .inner rfl rfl)
  | comment =>
    by_cases hc : c = '\n'
    · subst hc
      cases inner with
      | nil => exact iff_of_true ⟨rfl, rfl⟩ rfl
      | cons frame outer =>
        exact iff_of_false (fun h => nomatch h.1)
          (by simp [step, stepUnquoted, stepOrdinary])
    · exact iff_of_false (fun h => hc h.2) (hquoted .comment rfl (by simp [step, hc]))

omit hframes in
theorem leaves_cases (h : Leaves frames s c) :
    (∃ prev, s = ⟨frames, .plain prev⟩ ∧ prev.Harmless frames c) ∨
      (s = ⟨[], .comment⟩ ∧ frames = [] ∧ c = '\n') := by
  obtain ⟨inner, cursor⟩ := s
  obtain ⟨hsame, hcursor⟩ := h
  obtain rfl : inner = frames := hsame
  cases cursor with
  | plain prev => exact Or.inl ⟨prev, rfl, hcursor⟩
  | comment =>
    obtain ⟨rfl, hc⟩ := hcursor
    exact Or.inr ⟨rfl, rfl, hc⟩
  | escape prev => cases hcursor
  | naming n => cases hcursor
  | namingEscape n => cases hcursor
  | single => cases hcursor
  | back => cases hcursor
  | backEscape => cases hcursor

theorem leaves_step (h : Leaves frames s c) (hc : c ≠ '\\')
    (hdigit : ¬ (frames = [] ∧ c.isDigit)) :
    (step s c).2 = (step ⟨frames, .plain .inside⟩ c).2 := by
  obtain ⟨prev, rfl, hharmless⟩ | ⟨rfl, rfl, rfl⟩ := leaves_cases h
  · rw [step_plain hframes, step_plain hframes]
    exact (stepUnquoted_inside hharmless hc).2 hdigit
  · rfl

omit hframes in
/-- A digit may go on with a number that has stood in front of it. -/
theorem leaves_digit (h : Leaves [] s c) (hdigit : c.isDigit = true) :
    ∃ prev, (step s c).2 = ⟨[], .plain prev⟩ ∧
      (step ⟨[], .plain .inside⟩ c).2 = ⟨[], .plain .inside⟩ := by
  have hne (d : Char) (hd : d.isDigit = false) : c ≠ d := by
    rintro rfl
    rw [hdigit] at hd
    cases hd
  have hstep (prev : Prev) : (stepUnquoted [] prev c).2 = ⟨[], .plain (prev.behind c)⟩ := by
    simp [stepUnquoted, stepOrdinary, operators, blanks, hne]
  obtain ⟨prev, rfl, -⟩ | ⟨-, -, hc⟩ := leaves_cases h
  · refine ⟨_, hstep prev, (hstep .inside).trans ?_⟩
    simp [Prev.behind]
  · exact absurd hc (hne '\n' rfl)

omit hframes in
theorem leaves_plain (h : Leaves frames s '\\') : ∃ prev, s = ⟨frames, .plain prev⟩ := by
  obtain ⟨prev, rfl, -⟩ | ⟨-, -, hc⟩ := leaves_cases h
  · exact ⟨prev, rfl⟩
  · exact absurd hc (by decide)

end Leaves

/-! ## Lines with inserted texts -/

/-- The roles of the characters that were not inserted, and what they stand in; the mark says that
one was. -/
def fixedRoles : State → List (Bool × Char) → List (List Frame × Role)
  | _, [] => []
  | s, (inserted, c) :: line =>
    if inserted then fixedRoles (step s c).2 line
    else (s.frames, (step s c).1) :: fixedRoles (step s c).2 line

def insertedRoles : State → List (Bool × Char) → List Role
  | _, [] => []
  | s, (inserted, c) :: line =>
    if inserted then (step s c).1 :: insertedRoles (step s c).2 line
    else insertedRoles (step s c).2 line

def afterLine (s : State) (line : List (Bool × Char)) : State := after s (line.map Prod.snd)

/-- Two fillings of one template: its characters keep their roles and what they stand in, the shell
acts on no inserted character of the first, and both lines are complete or neither is. -/
structure SameStructure (s t : State) (line reference : List (Bool × Char)) : Prop where
  fixed : fixedRoles s line = fixedRoles t reference
  passive : ∀ role ∈ insertedRoles s line, role.active = false
  complete : (afterLine s line).complete = (afterLine t reference).complete

variable {s t : State} {line reference : List (Bool × Char)}

instance decidableSameStructure (s t : State) (line reference : List (Bool × Char)) :
    Decidable (SameStructure s t line reference) :=
  decidable_of_iff (fixedRoles s line = fixedRoles t reference ∧
      (∀ role ∈ insertedRoles s line, role.active = false) ∧
      (afterLine s line).complete = (afterLine t reference).complete)
    ⟨fun h => ⟨h.1, h.2.1, h.2.2⟩, fun h => ⟨h.fixed, h.passive, h.complete⟩⟩

theorem sameStructure_nil : SameStructure s t [] [] ↔ s.complete = t.complete :=
  ⟨fun h => h.complete, fun h => ⟨rfl, nofun, h⟩⟩

theorem sameStructure_fixed (c : Char) :
    SameStructure s t ((false, c) :: line) ((false, c) :: reference) ↔
      (s.frames = t.frames ∧ (step s c).1 = (step t c).1) ∧
        SameStructure (step s c).2 (step t c).2 line reference := by
  constructor
  · rintro ⟨hfixed, hpassive, hcomplete⟩
    obtain ⟨hrole, hrest⟩ := List.cons.inj hfixed
    exact ⟨Prod.ext_iff.mp hrole, hrest, hpassive, hcomplete⟩
  · rintro ⟨⟨hframes, hrole⟩, hfixed, hpassive, hcomplete⟩
    refine ⟨?_, hpassive, hcomplete⟩
    show (s.frames, (step s c).1) :: _ = (t.frames, (step t c).1) :: _
    rw [hframes, hrole, hfixed]

theorem fixedRoles_inserted (text : List Char) :
    fixedRoles s (text.map (true, ·) ++ line) = fixedRoles (after s text) line := by
  induction text generalizing s with
  | nil => rfl
  | cons c text ih => exact ih

theorem insertedRoles_inserted (text : List Char) :
    insertedRoles s (text.map (true, ·) ++ line) =
      roles s text ++ insertedRoles (after s text) line := by
  induction text generalizing s with
  | nil => rfl
  | cons c text ih =>
    show (step s c).1 :: insertedRoles (step s c).2 (text.map (true, ·) ++ line) = _
    rw [ih]
    rfl

theorem afterLine_inserted (text : List Char) :
    afterLine s (text.map (true, ·) ++ line) = afterLine (after s text) line := by
  unfold afterLine
  rw [List.map_append, after_append, List.map_map]
  have hsame : text.map (Prod.snd ∘ (true, ·)) = text := List.map_id text
  rw [hsame]

/-- The shell acts on no character of an inserted text. -/
theorem sameStructure_inserted (text other : List Char) :
    SameStructure s t (text.map (true, ·) ++ line) (other.map (true, ·) ++ reference) ↔
      (∀ role ∈ roles s text, role.active = false) ∧
        SameStructure (after s text) (after t other) line reference := by
  constructor
  · rintro ⟨hfixed, hpassive, hcomplete⟩
    rw [fixedRoles_inserted, fixedRoles_inserted] at hfixed
    rw [insertedRoles_inserted, List.forall_mem_append] at hpassive
    rw [afterLine_inserted, afterLine_inserted] at hcomplete
    exact ⟨hpassive.1, hfixed, hpassive.2, hcomplete⟩
  · rintro ⟨htext, hfixed, hpassive, hcomplete⟩
    refine ⟨?_, ?_, ?_⟩
    · rw [fixedRoles_inserted, fixedRoles_inserted, hfixed]
    · rw [insertedRoles_inserted, List.forall_mem_append]
      exact ⟨htext, hpassive⟩
    · rw [afterLine_inserted, afterLine_inserted, hcomplete]

end Shell
