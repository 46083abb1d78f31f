import Invocation.Lib.Shell
import Invocation.Server

/-!
# What the shell makes of the values

`SUBS_SHELL_SAFE` puts a backslash in front of four characters. Whether a value
stays a value depends on everything else that the shell reads in it, and on
what stands next to it in the template.
-/

namespace Invocation

set_option autoImplicit false

open Shell

/-! ## The command line -/

/-- A piece whose value is the one of the variable, as the substitution writes it. -/
def Piece.escaped : Piece → Piece
  | .char c => .char c
  | .value s => .value (makeShellSafeString s)

/-- A plain word in the place of the value. -/
def Piece.plainWord : Piece → Piece
  | .char c => .char c
  | .value _ => .value ['x']

/-- The characters of a piece, marked when they come from a value. -/
def Piece.marked : Piece → List (Bool × Char)
  | .char c => [(false, c)]
  | .value s => s.map (true, ·)

def Piece.fixed : Piece → Bool
  | .char _ => true
  | .value _ => false

def marked (pieces : List Piece) : List (Bool × Char) := pieces.flatMap Piece.marked

/-- The text that `RunCommand` substitutes in. -/
def commandTemplate (details : Str) : Str := (getToken details spaceSeparator .quotes).1

/-- The tokens behind the command that become a part of it. -/
def commandSuffix (details : Str) : Str :=
  (commandOptions details).flatMap fun token =>
    if '=' ∈ token ∨ token = "pty".toList then [] else ' ' :: token

/-- The command line of an entry around the values of its variables. -/
def commandLine (details : Str) (pieces : List Piece) : List Piece :=
  pieces ++ (commandSuffix details).map Piece.char

theorem addToken_cmd (r : SpawnRequest) (token : Str) : (r.addToken token).cmd =
    r.cmd ++ if '=' ∈ token ∨ token = "pty".toList then [] else ' ' :: token := by
  unfold SpawnRequest.addToken
  by_cases hname : '=' ∈ token
  · rw [if_pos hname, if_pos (Or.inl hname), List.append_nil]
    dsimp only
    split_ifs <;> rfl
  · rw [if_neg hname]
    by_cases hpty : token = "pty".toList
    · rw [if_pos hpty, if_pos (Or.inr hpty), List.append_nil]
    · rw [if_neg hpty, if_neg (not_or.mpr ⟨hname, hpty⟩), List.append_assoc]
      rfl

theorem addTokens_cmd (tokens : List Str) (r : SpawnRequest) :
    (tokens.foldl SpawnRequest.addToken r).cmd = r.cmd ++ tokens.flatMap fun token =>
      if '=' ∈ token ∨ token = "pty".toList then [] else ' ' :: token := by
  induction tokens generalizing r with
  | nil => exact (List.append_nil _).symm
  | cons token tokens ih =>
    rw [List.foldl_cons, ih, addToken_cmd, List.flatMap_cons, List.append_assoc]

theorem marked_text (pieces : List Piece) :
    (marked pieces).map Prod.snd = pieces.flatMap Piece.text := by
  induction pieces with
  | nil => rfl
  | cons piece pieces ih =>
    have hpiece : piece.marked.map Prod.snd = piece.text := by
      cases piece with
      | char c => rfl
      | value s =>
        show (s.map (true, ·)).map Prod.snd = s
        rw [List.map_map]
        exact List.map_id s
    unfold marked at ih ⊢
    rw [List.flatMap_cons, List.map_append, ih, hpiece, List.flatMap_cons]

theorem spawnRequest_line {details : Str} {vars : Vars} {pieces : List Piece}
    (h : substitutePieces vars true (2 * (commandTemplate details).length + 2)
      (commandTemplate details) = some pieces) :
    ∃ r, spawnRequest details vars = some r ∧
      r.cmd = (marked (commandLine details pieces)).map Prod.snd := by
  have hcmd : substitutedCommand details vars = some (pieces.flatMap Piece.text) := by
    unfold substitutedCommand substituteVarsInString
    unfold commandTemplate at h
    rw [h]
    rfl
  unfold spawnRequest
  rw [hcmd]
  refine ⟨_, rfl, ?_⟩
  rw [addTokens_cmd, marked_text, commandLine, List.flatMap_append, List.flatMap_map]
  congr 1
  exact (List.flatMap_singleton' _).symm

/-! ## What a value may contain -/

/-- A character that is written as it stands; none when the shell acts on it. -/
def passiveStep (s : State) (c : Char) : Option State :=
  if (step s c).1.active then none else some (step s c).2

/-- A character of a value, in the state that the value has led to; none when the shell acts on it.
Outside of single quotes the backslash in front of it protects one of the four characters, unless
the value's own backslash stands there too; in the name of a parameter there is no backslash. -/
def valueStep (s : State) (c : Char) : Option State :=
  match s.cursor with
  | .plain _ => if c ∈ badChars then some ⟨s.frames, .plain .inside⟩ else passiveStep s c
  | .escape _ =>
    if c ∈ badChars then
      if s.frames = [] ∨ c = '`' then none else some ⟨s.frames, .plain .inside⟩
    else passiveStep s c
  | .naming _ => if c ∈ badChars then none else passiveStep s c
  | .namingEscape _ => if c ∈ badChars then none else passiveStep s c
  | .single => some (step s c).2
  | .comment => if c = '\n' then none else some s
  | .back => none
  | .backEscape => none

def valueScan : State → Str → Option State
  | s, [] => some s
  | s, c :: value => (valueStep s c).bind fun s' => valueScan s' value

/-- The state in front of a piece: in the template, behind adjacent values, or behind a backslash of
the template that follows them. -/
inductive Mode
  | template (s : State)
  | value (frames : List Frame) (s : State)
  | continued (frames : List Frame) (s : State)

/-- Every group of adjacent values ends in the quotes and expansions in which it starts, acts on
nothing, and leaves the template behind it as it is. -/
def Contained : Mode → List Piece → Prop
  | .template _, [] => True
  | .template s, .char c :: rest => Contained (.template (step s c).2) rest
  | .template s, .value r :: rest =>
    if s.cursor = .comment then '\n' ∉ r ∧ Contained (.template s) rest
    else ∃ s' ∈ valueScan s r, Contained (.value s.frames s') rest
  | .value frames s, [] => s.complete = frames.isEmpty
  | .value frames s, .char c :: rest =>
    Leaves frames s c ∧
      if c = '\\' then Contained (.continued frames (step s c).2) rest
      else if frames = [] ∧ c.isDigit then Contained (.value frames (step s c).2) rest
      else Contained (.template (step s c).2) rest
  | .value frames s, .value r :: rest => ∃ s' ∈ valueScan s r, Contained (.value frames s') rest
  | .continued _ _, [] => True
  | .continued frames s, .char c :: rest =>
    if c = '\n' then Contained (.value frames (step s c).2) rest
    else Contained (.template (step s c).2) rest
  | .continued _ _, .value _ :: _ => True

/-- The next character of the template, with the lines joined. -/
def nextChar : List Piece → Option Char
  | .char '\\' :: .char '\n' :: rest => nextChar rest
  | .char c :: _ => some c
  | _ => none

/-- The template starts a here-document. -/
def HereDocument (s : State) (c : Char) (rest : List Piece) : Prop :=
  c = '<' ∧ (step s c).1.active = true ∧ nextChar rest = some '<'

instance (s : State) (c : Char) (rest : List Piece) : Decidable (HereDocument s c rest) :=
  inferInstanceAs (Decidable (_ ∧ _ ∧ _))

/-- References stand for words or parts of words, outside of quotes and in front of the
here-documents. -/
def Outside : State → List Piece → Prop
  | _, [] => True
  | s, .char c :: rest =>
    (HereDocument s c rest → rest.all Piece.fixed) ∧ Outside (step s c).2 rest
  | s, .value _ :: rest => s.unquoted = true ∧ Outside (after s ['x']) rest

instance decidableOutside : ∀ s pieces, Decidable (Outside s pieces)
  | _, [] => inferInstanceAs (Decidable True)
  | s, .char c :: rest =>
    have := decidableOutside (step s c).2 rest
    inferInstanceAs (Decidable
      ((HereDocument s c rest → rest.all Piece.fixed) ∧ Outside (step s c).2 rest))
  | s, .value _ :: rest =>
    have := decidableOutside (after s ['x']) rest
    inferInstanceAs (Decidable (s.unquoted = true ∧ Outside (after s ['x']) rest))

instance decidableContained : ∀ mode pieces, Decidable (Contained mode pieces)
  | .template _, [] => inferInstanceAs (Decidable True)
  | .value frames s, [] => inferInstanceAs (Decidable (s.complete = frames.isEmpty))
  | .continued _ _, [] => inferInstanceAs (Decidable True)
  | .template _, .char _ :: rest => decidableContained _ rest
  | .value frames s, .char c :: rest =>
    have := decidableContained (.continued frames (step s c).2) rest
    have := decidableContained (.value frames (step s c).2) rest
    have := decidableContained (.template (step s c).2) rest
    inferInstanceAs (Decidable (Leaves frames s c ∧
      if c = '\\' then Contained _ rest
      else if frames = [] ∧ c.isDigit then Contained _ rest else Contained _ rest))
  | .value frames s, .value r :: rest =>
    have := fun s' => decidableContained (.value frames s') rest
    inferInstanceAs (Decidable (∃ s' ∈ valueScan s r, Contained (.value frames s') rest))
  | .template s, .value r :: rest =>
    have := decidableContained (.template s) rest
    have := fun s' => decidableContained (.value s.frames s') rest
    inferInstanceAs (Decidable (if s.cursor = .comment then '\n' ∉ r ∧ Contained (.template s) rest
      else ∃ s' ∈ valueScan s r, Contained (.value s.frames s') rest))
  | .continued frames s, .char c :: rest =>
    have := decidableContained (.value frames (step s c).2) rest
    have := decidableContained (.template (step s c).2) rest
    inferInstanceAs (Decidable (if c = '\n' then Contained _ rest else Contained _ rest))
  | .continued _ _, .value _ :: _ => inferInstanceAs (Decidable True)

/-- The states that a value can lead to. -/
def ofValue (s : State) : Bool :=
  match s.cursor with
  | .back => false
  | .backEscape => false
  | _ => true

theorem mem_badChars {c : Char} : c ∈ badChars ↔ c = ';' ∨ c = '|' ∨ c = '&' ∨ c = '`' := by
  simp [badChars]

theorem quoteChars_cons (c : Char) (value : Str) : makeShellSafeString (c :: value) =
    (if c ∈ badChars then ['\\', c] else [c]) ++ makeShellSafeString value := by
  unfold makeShellSafeString
  rw [quoteCharsInStr]
  by_cases hbad : c ∈ badChars
  · have hn : c ≠ '\n' := by
      rintro rfl
      exact absurd hbad (by decide)
    have hr : c ≠ '\r' := by
      rintro rfl
      exact absurd hbad (by decide)
    rw [if_pos hbad, if_pos hbad, if_neg hn, if_neg hr]
    rfl
  · rw [if_neg hbad, if_neg hbad]
    rfl

/-- What the shell makes of a character of a value, as it is written. -/
def ShellReads (s : State) (text : Str) : Option State → Prop
  | some s' => (∀ role ∈ roles s text, role.active = false) ∧ after s text = s' ∧ ofValue s' = true
  | none => ∃ role ∈ roles s text, role.active = true

theorem reads_one {s s' : State} {c : Char} (hactive : (step s c).1.active = false)
    (hstep : (step s c).2 = s') (hvalue : ofValue s' = true) : ShellReads s [c] (some s') := by
  refine ⟨?_, hstep, hvalue⟩
  intro role hrole
  rw [roles_cons, roles_nil, List.mem_singleton] at hrole
  rw [hrole]
  exact hactive

theorem reads_two {s s' : State} {c : Char} (hfirst : (step s '\\').1.active = false)
    (hsecond : (step (step s '\\').2 c).1.active = false) (hstep : (step (step s '\\').2 c).2 = s')
    (hvalue : ofValue s' = true) : ShellReads s ['\\', c] (some s') := by
  refine ⟨?_, hstep, hvalue⟩
  intro role hrole
  rw [roles_cons, roles_cons, roles_nil, List.mem_cons, List.mem_singleton] at hrole
  rcases hrole with rfl | rfl
  · exact hfirst
  · exact hsecond

theorem reads_active {s : State} {c : Char} (h : (step s c).1.active = true) :
    ShellReads s [c] none := ⟨_, List.mem_cons_self, h⟩

theorem badChars_backslash {c : Char} (hbad : c ∈ badChars) : c ≠ '\n' ∧ c ≠ '\'' := by
  rcases mem_badChars.mp hbad with rfl | rfl | rfl | rfl <;> decide

/-- The backslash that the substitution writes hides the character behind it. -/
theorem plain_reads_bad (frames : List Frame) (prev : Prev) {c : Char} (hbad : c ∈ badChars) :
    ShellReads ⟨frames, .plain prev⟩ ['\\', c] (some ⟨frames, .plain .inside⟩) := by
  have hstep : (step ⟨frames, .plain prev⟩ '\\').1.active = false ∧
      (step ⟨frames, .plain prev⟩ '\\').2 = ⟨frames, .escape prev⟩ := by
    cases frames with
    | nil => exact ⟨rfl, rfl⟩
    | cons frame outer => cases frame <;> exact ⟨rfl, rfl⟩
  refine reads_two hstep.1 ?_ ?_ rfl
  · rw [hstep.2]
    rfl
  · rw [hstep.2]
    simp only [step, if_neg (badChars_backslash hbad).1]

/-- A backslash of the value hides the written one, and the character behind it stands open. -/
theorem escape_reads_bad (frames : List Frame) (prev : Prev) {c : Char} (hbad : c ∈ badChars) :
    ShellReads ⟨frames, .escape prev⟩ ['\\', c]
      (if frames = [] ∨ c = '`' then none else some ⟨frames, .plain .inside⟩) := by
  have hfirst : step ⟨frames, .escape prev⟩ '\\' = (.quoted, ⟨frames, .plain .inside⟩) := rfl
  have hactive (h : (step ⟨frames, .plain .inside⟩ c).1.active = true) :
      ShellReads ⟨frames, .escape prev⟩ ['\\', c] none :=
    ⟨_, List.mem_cons_of_mem _ List.mem_cons_self, by rw [hfirst]; exact h⟩
  have hpassive (h : (step ⟨frames, .plain .inside⟩ c).1.active = false)
      (hstep : (step ⟨frames, .plain .inside⟩ c).2 = ⟨frames, .plain .inside⟩) :
      ShellReads ⟨frames, .escape prev⟩ ['\\', c] (some ⟨frames, .plain .inside⟩) :=
    reads_two rfl (by rw [hfirst]; exact h) (by rw [hfirst]; exact hstep) rfl
  have hfour := mem_badChars.mp hbad
  cases frames with
  | nil =>
    rw [if_pos (Or.inl rfl)]
    apply hactive
    rcases hfour with rfl | rfl | rfl | rfl <;> decide
  | cons frame outer =>
    by_cases hback : c = '`'
    · rw [if_pos (Or.inr hback)]
      apply hactive
      subst hback
      cases frame <;> rfl
    · rw [if_neg (by simp [hback])]
      rcases hfour with rfl | rfl | rfl | rfl
      · cases frame <;> exact hpassive rfl rfl
      · cases frame <;> exact hpassive rfl rfl
      · cases frame <;> exact hpassive rfl rfl
      · exact absurd rfl hback

theorem ofValue_ite {p : Prop} [Decidable p] {a b : Role × State} (ha : p → ofValue a.2 = true)
    (hb : ofValue b.2 = true) : ofValue (if p then a else b).2 = true := by
  split
  · rename_i h
    exact ha h
  · exact hb

theorem ofValue_ordinary (frames : List Frame) (prev : Prev) (c : Char) :
    ofValue (stepOrdinary frames prev c).2 = true := by
  cases frames with
  | nil =>
    exact ofValue_ite (fun _ => rfl) (ofValue_ite (fun _ => rfl) (ofValue_ite (fun _ => rfl)
      (ofValue_ite (fun _ => rfl) rfl)))
  | cons frame outer => exact ofValue_ite (fun _ => rfl) rfl

theorem ofValue_unquoted (frames : List Frame) (prev : Prev) {c : Char} (hc : c ≠ '`') :
    ofValue (stepUnquoted frames prev c).2 = true := by
  unfold stepUnquoted
  refine ofValue_ite (fun _ => rfl) (ofValue_ite (fun _ => rfl) (ofValue_ite (fun _ => rfl)
    (ofValue_ite (fun _ => rfl) (ofValue_ite (fun h => absurd h hc) ?_))))
  exact ofValue_ite (fun _ => rfl) (ofValue_ite (fun _ => rfl) (ofValue_ite (fun _ => rfl)
    (ofValue_ite (fun _ => rfl) (ofValue_ordinary frames prev c))))

theorem ofValue_quoted (head : Frame) (outer : List Frame) (prev : Prev) {c : Char}
    (hc : c ≠ '`') : ofValue (stepQuoted head outer prev c).2 = true := by
  unfold stepQuoted
  refine ofValue_ite (fun _ => ofValue_ite (fun _ => rfl) rfl) (ofValue_ite (fun _ => rfl)
    (ofValue_ite (fun h => absurd h hc) ?_))
  exact ofValue_ite (fun _ => rfl) (ofValue_ite (fun _ => rfl) (ofValue_ite (fun _ => rfl)
    (ofValue_ite (fun _ => rfl) (ofValue_ite (fun _ => rfl) rfl))))

theorem ofValue_naming (frames : List Frame) (n : Naming) (c : Char) :
    ofValue (stepNaming frames n c).2 = true := by
  have hoperator (length : Bool) : ofValue (stepOperator frames length c).2 = true := by
    unfold stepOperator
    exact ofValue_ite (fun _ => rfl) (ofValue_ite (fun _ => rfl) (ofValue_ite (fun _ => rfl)
      (ofValue_ite (fun _ => rfl) (ofValue_ite (fun _ => rfl) rfl))))
  refine ofValue_ite (fun _ => rfl) ?_
  split
  · rfl
  · rfl
  · exact ofValue_ite (fun _ => rfl) rfl
  all_goals exact hoperator _

theorem ofValue_step {s : State} (hs : ofValue s = true) {c : Char} (hc : c ≠ '`') :
    ofValue (step s c).2 = true := by
  obtain ⟨frames, cursor⟩ := s
  cases cursor with
  | plain prev =>
    cases frames with
    | nil => exact ofValue_unquoted [] prev hc
    | cons frame outer =>
      cases frame with
      | quotes => exact ofValue_quoted .quotes outer prev hc
      | quotedBraces => exact ofValue_quoted .quotedBraces outer prev hc
      | braces => exact ofValue_unquoted (.braces :: outer) prev hc
  | escape prev => rfl
  | naming n => exact ofValue_naming frames n c
  | namingEscape n => exact ofValue_ite (fun _ => rfl) rfl
  | single => exact ofValue_ite (fun _ => rfl) rfl
  | comment => exact ofValue_ite (fun _ => rfl) rfl
  | back => cases hs
  | backEscape => cases hs

/-- A character that is written as it stands. -/
theorem passive_reads {s : State} (hs : ofValue s = true) {c : Char} (hbad : c ∉ badChars) :
    ShellReads s [c] (passiveStep s c) := by
  have hc : c ≠ '`' := by
    rintro rfl
    exact hbad (by decide)
  unfold passiveStep
  by_cases hactive : (step s c).1.active = true
  · rw [if_pos hactive]
    exact reads_active hactive
  · rw [if_neg hactive]
    exact reads_one (Bool.eq_false_iff.mpr hactive) rfl (ofValue_step hs hc)

/-- The name of a parameter has no backslash. -/
theorem naming_reads_bad (frames : List Frame) {c : Char} (hbad : c ∈ badChars) (n : Naming) :
    ShellReads ⟨frames, .naming n⟩ ['\\', c] none ∧
      ShellReads ⟨frames, .namingEscape n⟩ ['\\', c] none := by
  have hne := (badChars_backslash hbad).1
  constructor
  · refine ⟨.unspecified, List.mem_cons_of_mem _ ?_, rfl⟩
    have hfirst : (step ⟨frames, .naming n⟩ '\\').2 = ⟨frames, .namingEscape n⟩ := rfl
    rw [hfirst, roles_cons, List.mem_cons]
    left
    simp only [step, if_neg hne]
  · exact ⟨.unspecified, List.mem_cons_self, rfl⟩

theorem valueStep_reads {s : State} (hs : ofValue s = true) (c : Char) :
    ShellReads s (if c ∈ badChars then ['\\', c] else [c]) (valueStep s c) := by
  obtain ⟨frames, cursor⟩ := s
  by_cases hbad : c ∈ badChars
  · have hne := badChars_backslash hbad
    rw [if_pos hbad]
    cases cursor with
    | plain prev =>
      simp only [valueStep, if_pos hbad]
      exact plain_reads_bad frames prev hbad
    | escape prev =>
      simp only [valueStep, if_pos hbad]
      exact escape_reads_bad frames prev hbad
    | naming n =>
      simp only [valueStep, if_pos hbad]
      exact (naming_reads_bad frames hbad n).1
    | namingEscape n =>
      simp only [valueStep, if_pos hbad]
      exact (naming_reads_bad frames hbad n).2
    | single => apply reads_two <;> simp [step, hne.2, ofValue, Role.active]
    | comment =>
      simp only [valueStep, if_neg hne.1]
      apply reads_two <;> simp [step, hne.1, ofValue, Role.active]
    | back => cases hs
    | backEscape => cases hs
  · rw [if_neg hbad]
    cases cursor with
    | plain prev =>
      simp only [valueStep, if_neg hbad]
      exact passive_reads hs hbad
    | escape prev =>
      simp only [valueStep, if_neg hbad]
      exact passive_reads hs hbad
    | naming n =>
      simp only [valueStep, if_neg hbad]
      exact passive_reads hs hbad
    | namingEscape n =>
      simp only [valueStep, if_neg hbad]
      exact passive_reads hs hbad
    | single =>
      by_cases hc : c = '\'' <;> apply reads_one <;> simp [step, hc, ofValue, Role.active]
    | comment =>
      by_cases hc : c = '\n'
      · subst hc
        exact reads_active rfl
      · simp only [valueStep, if_neg hc]
        apply reads_one <;> simp [step, hc, ofValue, Role.active]
    | back => cases hs
    | backEscape => cases hs

/-- What the shell makes of a value, as it is written. -/
theorem valueScan_reads {s : State} (hs : ofValue s = true) (value : Str) :
    ShellReads s (makeShellSafeString value) (valueScan s value) := by
  induction value generalizing s with
  | nil => exact ⟨nofun, rfl, hs⟩
  | cons c value ih =>
    have hfirst := valueStep_reads hs c
    rw [quoteChars_cons, valueScan]
    generalize (if c ∈ badChars then ['\\', c] else [c]) = text at hfirst
    cases hstep : valueStep s c with
    | none =>
      rw [hstep] at hfirst
      obtain ⟨role, hrole, hactive⟩ := hfirst
      refine ⟨role, ?_, hactive⟩
      rw [roles_append]
      exact List.mem_append_left _ hrole
    | some s' =>
      rw [hstep] at hfirst
      obtain ⟨hpassive, hafter, hvalue⟩ := hfirst
      have hrest := ih hvalue
      rw [Option.bind_some]
      cases hscan : valueScan s' value with
      | none =>
        rw [hscan] at hrest
        obtain ⟨role, hrole, hactive⟩ := hrest
        refine ⟨role, ?_, hactive⟩
        rw [roles_append, hafter]
        exact List.mem_append_right _ hrole
      | some s'' =>
        rw [hscan] at hrest
        obtain ⟨hlater, hend, hkind⟩ := hrest
        refine ⟨?_, ?_, hkind⟩
        · rw [roles_append, hafter, List.forall_mem_append]
          exact ⟨hpassive, hlater⟩
        · rw [after_append, hafter, hend]

/-- A value that the shell does not act on leads where the scan says. -/
theorem passive_iff {s : State} (hs : ofValue s = true) (value : Str) (s' : State) :
    ((∀ role ∈ roles s (makeShellSafeString value), role.active = false) ∧
      after s (makeShellSafeString value) = s') ↔ s' ∈ valueScan s value := by
  have hreads := valueScan_reads hs value
  cases hscan : valueScan s value with
  | none =>
    rw [hscan] at hreads
    obtain ⟨role, hrole, hactive⟩ := hreads
    constructor
    · rintro ⟨hpassive, -⟩
      rw [hpassive role hrole] at hactive
      cases hactive
    · nofun
  | some t =>
    rw [hscan] at hreads
    obtain ⟨hpassive, hafter, -⟩ := hreads
    constructor
    · rintro ⟨-, rfl⟩
      rw [hafter]
      rfl
    · rintro ⟨⟩
      exact ⟨hpassive, hafter⟩

theorem ofValue_scan {s s' : State} (hs : ofValue s = true) {value : Str}
    (h : s' ∈ valueScan s value) : ofValue s' = true := by
  have hreads := valueScan_reads hs value
  rw [Option.mem_def.mp h] at hreads
  exact hreads.2.2

/-! ## Behind a value -/

/-- The state of the line, and the one of the line of plain words. -/
def Mode.actual : Mode → State
  | .template s => s
  | .value _ s => s
  | .continued _ s => s

def Mode.reference : Mode → State
  | .template s => s
  | .value frames _ => ⟨frames, .plain .inside⟩
  | .continued frames _ => ⟨frames, .escape .inside⟩

def Mode.Reached : Mode → Prop
  | .template _ => True
  | .value frames s => Unquoted frames ∧ ofValue s = true
  | .continued frames s => Unquoted frames ∧ ∃ prev, s = ⟨frames, .escape prev⟩

/-- The filled line and the line of plain words, in front of the pieces. -/
def Keeps (s t : State) (pieces : List Piece) : Prop :=
  SameStructure s t (marked (pieces.map Piece.escaped)) (marked (pieces.map Piece.plainWord))

theorem keeps_char (s t : State) (c : Char) (rest : List Piece) :
    Keeps s t (.char c :: rest) ↔
      (s.frames = t.frames ∧ (step s c).1 = (step t c).1) ∧ Keeps (step s c).2 (step t c).2 rest :=
  sameStructure_fixed c

theorem keeps_value (s t : State) (value : Str) (rest : List Piece) :
    Keeps s t (.value value :: rest) ↔
      (∀ role ∈ roles s (makeShellSafeString value), role.active = false) ∧
        Keeps (after s (makeShellSafeString value)) (after t ['x']) rest :=
  sameStructure_inserted _ _

theorem after_word {frames : List Frame} (hframes : Unquoted frames) (prev : Prev) :
    after ⟨frames, .plain prev⟩ ['x'] = ⟨frames, .plain .inside⟩ := by
  rw [after_cons, after_nil, step_plain hframes]
  cases frames with
  | nil => cases prev <;> rfl
  | cons frame outer => cases prev <;> rfl

theorem after_comment (frames : List Frame) :
    after ⟨frames, .comment⟩ ['x'] = ⟨frames, .comment⟩ := rfl

theorem State.unquoted_cases {s : State} (h : s.unquoted = true) :
    Unquoted s.frames ∧ ((∃ prev, s.cursor = .plain prev) ∨ s.cursor = .comment) := by
  obtain ⟨frames, cursor⟩ := s
  simp only [State.unquoted, Bool.and_eq_true, List.all_eq_true, decide_eq_true_eq] at h
  refine ⟨h.1, ?_⟩
  cases cursor with
  | plain prev => exact Or.inl ⟨prev, rfl⟩
  | comment => exact Or.inr rfl
  | escape prev => cases h.2
  | naming n => cases h.2
  | namingEscape n => cases h.2
  | single => cases h.2
  | back => cases h.2
  | backEscape => cases h.2

theorem complete_word (frames : List Frame) :
    State.complete ⟨frames, .plain .inside⟩ = frames.isEmpty := by
  cases frames <;> rfl

theorem valueScan_comment (frames : List Frame) (value : Str) :
    valueScan ⟨frames, .comment⟩ value =
      if '\n' ∈ value then none else some ⟨frames, .comment⟩ := by
  induction value with
  | nil => rfl
  | cons c value ih =>
    rw [valueScan, valueStep]
    by_cases hc : c = '\n'
    · rw [if_pos hc, if_pos (List.mem_cons.mpr (Or.inl hc.symm)), Option.bind_none]
    · have hmem : '\n' ∈ c :: value ↔ '\n' ∈ value := by
        rw [List.mem_cons]
        exact or_iff_right (Ne.symm hc)
      rw [if_neg hc, Option.bind_some, ih]
      exact if_congr hmem.symm rfl rfl

theorem keeps_comment (frames : List Frame) (value : Str) (rest : List Piece) :
    Keeps ⟨frames, .comment⟩ ⟨frames, .comment⟩ (.value value :: rest) ↔
      '\n' ∉ value ∧ Keeps ⟨frames, .comment⟩ ⟨frames, .comment⟩ rest := by
  have hscan : ∀ s, s ∈ valueScan ⟨frames, .comment⟩ value ↔
      '\n' ∉ value ∧ s = ⟨frames, .comment⟩ := by
    intro s
    rw [valueScan_comment, Option.mem_def]
    by_cases hmem : '\n' ∈ value
    · rw [if_pos hmem]
      exact ⟨nofun, fun h => absurd hmem h.1⟩
    · rw [if_neg hmem, Option.some.injEq]
      exact ⟨fun h => ⟨hmem, h.symm⟩, fun h => h.2.symm⟩
  rw [keeps_value, after_comment]
  constructor
  · rintro ⟨hpassive, hrest⟩
    obtain ⟨hmem, hafter⟩ := (hscan _).mp ((passive_iff rfl value _).mp ⟨hpassive, rfl⟩)
    rw [hafter] at hrest
    exact ⟨hmem, hrest⟩
  · rintro ⟨hmem, hrest⟩
    obtain ⟨hpassive, hafter⟩ :=
      (passive_iff rfl value ⟨frames, .comment⟩).mpr ((hscan _).mpr ⟨hmem, rfl⟩)
    refine ⟨hpassive, ?_⟩
    rw [hafter]
    exact hrest

theorem keeps_scan {s t : State} (hs : ofValue s = true) {frames : List Frame}
    (ht : after t ['x'] = ⟨frames, .plain .inside⟩) (value : Str) (rest : List Piece) :
    Keeps s t (.value value :: rest) ↔
      ∃ s' ∈ valueScan s value, Keeps s' ⟨frames, .plain .inside⟩ rest := by
  rw [keeps_value, ht]
  constructor
  · rintro ⟨hpassive, hrest⟩
    exact ⟨_, (passive_iff hs value _).mp ⟨hpassive, rfl⟩, hrest⟩
  · rintro ⟨s', hscan, hrest⟩
    obtain ⟨hpassive, hafter⟩ := (passive_iff hs value s').mpr hscan
    exact ⟨hpassive, hafter ▸ hrest⟩

section Keeps

variable {rest : List Piece}
  (ih : ∀ {mode : Mode}, mode.Reached → Outside mode.reference rest →
    (Keeps mode.actual mode.reference rest ↔ Contained mode rest))
include ih

/-- The template goes on behind a value. -/
theorem keeps_value_char {frames : List Frame} (hframes : Unquoted frames) {s : State} {c : Char}
    (houtside : Outside (step ⟨frames, .plain .inside⟩ c).2 rest) :
    Keeps s ⟨frames, .plain .inside⟩ (.char c :: rest) ↔
      Contained (.value frames s) (.char c :: rest) := by
  rw [keeps_char, Contained, leaves_iff hframes]
  refine and_congr_right fun hsame => ?_
  have hleaves : Leaves frames s c := (leaves_iff hframes).mpr hsame
  by_cases hc : c = '\\'
  · subst hc
    obtain ⟨prev, rfl⟩ := leaves_plain hleaves
    have hstep (p : Prev) : (step ⟨frames, .plain p⟩ '\\').2 = ⟨frames, .escape p⟩ := by
      rw [step_plain hframes]
      rfl
    rw [hstep] at houtside
    rw [if_pos rfl, hstep, hstep]
    exact @ih (.continued frames ⟨frames, .escape prev⟩) ⟨hframes, prev, rfl⟩ houtside
  · rw [if_neg hc]
    by_cases hdigit : frames = [] ∧ c.isDigit = true
    · obtain ⟨rfl, hdigit⟩ := hdigit
      obtain ⟨prev, hnext, hword⟩ := leaves_digit hleaves hdigit
      rw [hword] at houtside
      rw [if_pos ⟨rfl, hdigit⟩, hnext, hword]
      exact @ih (.value [] ⟨[], .plain prev⟩) ⟨nofun, rfl⟩ houtside
    · rw [if_neg hdigit, leaves_step hframes hleaves hc hdigit]
      exact @ih (.template _) trivial houtside

/-- What a backslash of the template behind a value makes of the next character. -/
theorem keeps_continued_char {frames : List Frame} (hframes : Unquoted frames) {prev : Prev}
    {c : Char} (houtside : Outside (step ⟨frames, .escape .inside⟩ c).2 rest) :
    Keeps ⟨frames, .escape prev⟩ ⟨frames, .escape .inside⟩ (.char c :: rest) ↔
      Contained (.continued frames ⟨frames, .escape prev⟩) (.char c :: rest) := by
  have hrole : (step ⟨frames, .escape prev⟩ c).1 = (step ⟨frames, .escape .inside⟩ c).1 := rfl
  have hreference : (step ⟨frames, .escape .inside⟩ c).2 = ⟨frames, .plain .inside⟩ := by
    simp [step]
  rw [keeps_char, Contained, hreference]
  rw [hreference] at houtside
  refine (and_iff_right ⟨rfl, hrole⟩).trans ?_
  by_cases hc : c = '\n'
  · rw [if_pos hc]
    have hactual : (step ⟨frames, .escape prev⟩ c).2 = ⟨frames, .plain prev⟩ := by simp [step, hc]
    rw [hactual]
    exact @ih (.value frames ⟨frames, .plain prev⟩) ⟨hframes, rfl⟩ houtside
  · rw [if_neg hc]
    have hactual : (step ⟨frames, .escape prev⟩ c).2 = ⟨frames, .plain .inside⟩ := by
      simp [step, hc]
    rw [hactual]
    exact @ih (.template _) trivial houtside

theorem keeps_value_value {frames : List Frame} (hframes : Unquoted frames) {s t : State}
    (hs : ofValue s = true) (ht : after t ['x'] = ⟨frames, .plain .inside⟩) {r : Str}
    (houtside : Outside ⟨frames, .plain .inside⟩ rest) :
    Keeps s t (.value r :: rest) ↔ ∃ s' ∈ valueScan s r, Contained (.value frames s') rest := by
  rw [keeps_scan hs ht]
  apply exists_congr
  intro s'
  apply and_congr_right
  intro hscan
  exact @ih (.value frames s') ⟨hframes, ofValue_scan hs hscan⟩ houtside

end Keeps

/-- The line keeps the structure of its template exactly when its values are contained. -/
theorem keeps_iff {mode : Mode} (hmode : mode.Reached) {pieces : List Piece}
    (houtside : Outside mode.reference pieces) :
    Keeps mode.actual mode.reference pieces ↔ Contained mode pieces := by
  induction pieces generalizing mode with
  | nil =>
    cases mode with
    | template s => exact ⟨fun _ => trivial, fun _ => sameStructure_nil.mpr rfl⟩
    | value frames s =>
      have hend : s.complete = State.complete ⟨frames, .plain .inside⟩ ↔
          s.complete = frames.isEmpty := by rw [complete_word]
      exact sameStructure_nil.trans hend
    | continued frames s =>
      obtain ⟨_, prev, rfl⟩ := hmode
      refine ⟨fun _ => trivial, fun _ => sameStructure_nil.mpr ?_⟩
      simp [Mode.actual, Mode.reference, State.complete]
  | cons piece rest ih =>
    cases piece with
    | char c =>
      cases mode with
      | template s =>
        have hrest := @ih (.template (step s c).2) trivial houtside.2
        rw [keeps_char]
        exact ⟨fun h => hrest.mp h.2, fun h => ⟨⟨rfl, rfl⟩, hrest.mpr h⟩⟩
      | value frames s => exact keeps_value_char ih hmode.1 houtside.2
      | continued frames s =>
        obtain ⟨hframes, prev, rfl⟩ := hmode
        exact keeps_continued_char ih hframes houtside.2
    | value r =>
      cases mode with
      | value frames s =>
        exact keeps_value_value ih hmode.1 hmode.2 (after_word hmode.1 _)
          (by have := houtside.2; rwa [Mode.reference, after_word hmode.1] at this)
      | continued frames s =>
        have hescape : State.unquoted ⟨frames, .escape .inside⟩ = false := by
          simp [State.unquoted]
        exact absurd houtside.1 (by rw [Mode.reference, hescape]; decide)
      | template s =>
        obtain ⟨frames, cursor⟩ := s
        obtain ⟨hstate, hout⟩ := houtside
        obtain ⟨hframes, ⟨prev, hcursor⟩ | hcursor⟩ := State.unquoted_cases hstate
        · obtain rfl : cursor = .plain prev := hcursor
          have hword : after ⟨frames, .plain prev⟩ ['x'] = ⟨frames, .plain .inside⟩ :=
            after_word hframes prev
          rw [Mode.reference, hword] at hout
          rw [Contained, if_neg nofun]
          exact keeps_value_value ih hframes rfl (after_word hframes prev) hout
        · obtain rfl : cursor = .comment := hcursor
          have hrest := @ih (.template ⟨frames, .comment⟩) trivial hout
          rw [Contained, if_pos rfl]
          exact (keeps_comment frames r rest).trans (and_congr_right fun _ => hrest)

/-! ## The entries of a section -/

theorem parseVar_value (vars : Vars) (shellSafe : Bool) (n : Nat) :
    (∀ s value rest, parseVar vars shellSafe n s = some (value, rest) →
      ∃ name, value = varValue vars shellSafe name) ∧
    (∀ stop tempstr name s value rest,
      parseVarName vars shellSafe n stop tempstr name s = some (value, rest) →
      ∃ name, value = varValue vars shellSafe name) := by
  induction n with
  | zero => exact ⟨nofun, nofun⟩
  | succ n ih =>
    constructor
    · intro s value rest h
      cases s with
      | nil => cases h
      | cons c s =>
        rw [parseVar] at h
        split_ifs at h
        · split at h
          · cases h
          · cases h
            exact ⟨[], rfl⟩
        · exact ih.2 _ _ _ _ _ _ h
        · exact ih.2 _ _ _ _ _ _ h
    · intro stop tempstr name s value rest h
      cases s with
      | nil =>
        cases h
        exact ⟨name, rfl⟩
      | cons c s =>
        rw [parseVarName] at h
        split_ifs at h
        · cases h
          exact ⟨name, rfl⟩
        · split at h
          · exact ih.2 _ _ _ _ _ _ h
          · cases h
        · exact ih.2 _ _ _ _ _ _ h

theorem substitutePieces_escaped {vars : Vars} {n : Nat} {fmt : Str} {pieces : List Piece}
    (h : substitutePieces vars true n fmt = some pieces) :
    ∃ values : List Piece, pieces = values.map Piece.escaped ∧
      ∀ value, .value value ∈ values → ∃ name, value = getVar vars name := by
  induction n generalizing fmt pieces with
  | zero =>
    cases fmt with
    | nil =>
      cases h
      exact ⟨[], rfl, nofun⟩
    | cons c s => cases h
  | succ n ih =>
    cases fmt with
    | nil =>
      cases h
      exact ⟨[], rfl, nofun⟩
    | cons c s =>
      rw [substitutePieces] at h
      split_ifs at h
      · split at h
        · rename_i value _ rest hvar
          obtain ⟨later, hlater, rfl⟩ := Option.map_eq_some_iff.mp h
          obtain ⟨values, rfl, hvalues⟩ := ih hlater
          obtain ⟨name, rfl⟩ := (parseVar_value vars true n).1 _ _ _ hvar
          refine ⟨.value (getVar vars (strlwr name)) :: values, rfl, ?_⟩
          intro value hvalue
          rcases List.mem_cons.mp hvalue with heq | hmem
          · cases heq
            exact ⟨_, rfl⟩
          · exact hvalues value hmem
        · cases h
      · obtain ⟨later, hlater, rfl⟩ := Option.map_eq_some_iff.mp h
        obtain ⟨values, rfl, hvalues⟩ := ih hlater
        refine ⟨.char c :: values, rfl, ?_⟩
        intro value hvalue
        rcases List.mem_cons.mp hvalue with heq | hmem
        · cases heq
        · exact hvalues value hmem

def startState : State := start

theorem commandLine_map {f : Piece → Piece} (hf : ∀ c, f (.char c) = .char c) (details : Str)
    (pieces : List Piece) :
    commandLine details (pieces.map f) = (commandLine details pieces).map f := by
  unfold commandLine
  rw [List.map_append, List.map_map]
  congr 1
  apply List.map_congr_left
  intro c _
  exact (hf c).symm

def filledLine (details : Str) (values : List Piece) : List (Bool × Char) :=
  marked (commandLine details (values.map Piece.escaped))

def wordLine (details : Str) (values : List Piece) : List (Bool × Char) :=
  marked (commandLine details (values.map Piece.plainWord))

def pingEntry : Str := "\"/usr/bin/ping $(args)\" container".toList

def pingLine (value : String) : List Piece :=
  "/usr/bin/ping ".toList.map .char ++ [.value value.toList]

end Invocation
