import Invocation.SectionLoop
import Invocation.Upload

/-!
# What the client makes of a section

The server's items become messages on one byte stream; the client's main loop
takes the stream apart again. Contents carry their length, texts end with
their line, and the output of a command has neither: it goes on until the
connection is closed.
-/

namespace Invocation

set_option autoImplicit false

open Process Server

/-- An item that succeeded, with what it has to deliver. -/
inductive SectionAction
  | run (output : Str)
  | bookout (name content : Str)
  | clientrun (text : Str)
  | bookin (name : Str)
deriving DecidableEq

namespace SectionAction

def message : SectionAction → Str
  | .run output => "OKAY: Command output follows\n".toList ++ output
  | .bookout name content =>
    "bookout ".toList ++ decimal content.length ++ " ".toList ++ name ++ "\n".toList ++ content
  | .clientrun text => "clientrun ".toList ++ text ++ "\n".toList
  | .bookin name => "bookin ".toList ++ name ++ "\n".toList

theorem message_run (output : Str) :
    message (.run output) = "OKAY: Command output follows\n".toList ++ output := rfl

theorem message_bookout (name content : Str) : message (.bookout name content) =
    "bookout ".toList ++ decimal content.length ++ " ".toList ++ name ++ "\n".toList ++ content :=
  rfl

theorem message_clientrun (text : Str) :
    message (.clientrun text) = "clientrun ".toList ++ text ++ "\n".toList := rfl

theorem message_bookin (name : Str) :
    message (.bookin name) = "bookin ".toList ++ name ++ "\n".toList := rfl

def action : SectionAction → ClientAction
  | .run output => .output output
  | .bookout name content => .create name content
  | .clientrun text => .execute (stripTrailingWhitespace text)
  | .bookin name => .answer name

def IsRun : SectionAction → Prop
  | .run _ => True
  | _ => False

/-- A content has a size that `off_t` can hold. -/
def Sized : SectionAction → Prop
  | .bookout _ content => content.length < 2 ^ 63
  | _ => True

/-- Names and texts fit into their line, and the client can open the files. -/
def Fits (client : Client) (past : List ClientAction) : SectionAction → Prop
  | .run _ => True
  | .bookout name _ =>
    '\n' ∉ name ∧ stripTrailingWhitespace name = name ∧ client.creates past name = true
  | .clientrun text => '\n' ∉ text
  | .bookin name =>
    '\n' ∉ name ∧ stripTrailingWhitespace name = name ∧ (client.readFile past name).isSome = true

end SectionAction

open SectionAction

/-- Every item fits, and a command is the last one. -/
def Replayable (client : Client) : List ClientAction → List SectionAction → Prop
  | _, [] => True
  | past, a :: as =>
    a.Fits client past ∧ (a.IsRun → as = []) ∧ Replayable client (a.action :: past) as

def stream (as : List SectionAction) : Str := as.flatMap message

/-! ## One message -/

section Message

variable (client : Client) (past : List ClientAction) (rest : Str)

theorem clientCommand_message {w : Str} (hne : w ≠ []) (hw : ∀ c ∈ w, isSpace c = false)
    (text : Str) : clientCommand (w ++ ' ' :: text) =
      commandOf (stripTrailingWhitespace (w ++ ' ' :: text)) w (stripTrailingWhitespace text) := by
  have hread := getToken_message hne hw text
  unfold clientCommand
  simp only [hread, Option.getD_some]

theorem clientCommand_bookout (text : Str) :
    clientCommand ("bookout ".toList ++ text) = .bookout (stripTrailingWhitespace text) :=
  @clientCommand_message "bookout".toList (by decide) (by decide) text

theorem clientCommand_bookin (text : Str) :
    clientCommand ("bookin ".toList ++ text) = .bookin (stripTrailingWhitespace text) :=
  @clientCommand_message "bookin".toList (by decide) (by decide) text

theorem clientCommand_clientrun (text : Str) :
    clientCommand ("clientrun ".toList ++ text) = .clientrun (stripTrailingWhitespace text) :=
  @clientCommand_message "clientrun".toList (by decide) (by decide) text

theorem bookoutDetails_strip {n : Nat} (hn : n < 2 ^ 63) (name : Str) :
    bookoutDetails (stripTrailingWhitespace (decimal n ++ ' ' :: name)) =
      (n, stripTrailingWhitespace name) := by
  have hbare := bare_decimal n
  have hread := @getToken_message (decimal n) (decimal_ne_nil n) (fun c hc => (hbare c hc).2) name
  unfold bookoutDetails
  rw [hread]
  simp only [Option.getD_some, sizeValue_decimal hn, stripTrailingWhitespace_idem]

omit client past rest in
theorem newline_toList : "\n".toList = ['\n'] := rfl

theorem clientStep_line {line : Str} (hline : '\n' ∉ line) :
    clientStep client past (line ++ '\n' :: rest) =
      some (clientRespond client past rest (clientCommand line)) := by
  unfold clientStep
  rw [readLine_line hline]
  simp only [clientCommand_newline]

theorem clientStep_bookout {n : Nat} (hn : n < 2 ^ 63) {line : Str} (hline : '\n' ∉ line) :
    clientStep client past ("bookout ".toList ++ decimal n ++ " ".toList ++ line ++ '\n' :: rest) =
      some (if client.creates past (stripTrailingWhitespace line) then
          (.create (stripTrailingWhitespace line) (rest.take n), rest.drop n)
        else (.cannotCreate (stripTrailingWhitespace line), rest)) := by
  have htext : "bookout ".toList ++ decimal n ++ " ".toList ++ line =
      "bookout ".toList ++ (decimal n ++ ' ' :: line) := by
    rw [List.append_assoc, List.append_assoc]
    rfl
  have hnewline : '\n' ∉ "bookout ".toList ++ decimal n ++ " ".toList ++ line := by
    have h1 : '\n' ∉ "bookout ".toList := by decide
    have h2 : '\n' ∉ " ".toList := by decide
    have h3 : '\n' ∉ decimal n := fun h => absurd (decimal_digits n _ h) (by decide)
    simp only [List.mem_append, not_or]
    exact ⟨⟨⟨h1, h3⟩, h2⟩, hline⟩
  have hlimit : sendLimit n = n := if_pos hn
  rw [clientStep_line client past rest hnewline, htext, clientCommand_bookout, clientRespond,
    bookoutDetails_strip hn]
  simp only [hlimit]

theorem clientStep_bookin {line : Str} (hline : '\n' ∉ line) :
    clientStep client past ("bookin ".toList ++ line ++ '\n' :: rest) =
      some (if (client.readFile past (stripTrailingWhitespace line)).isSome then
          (.answer (stripTrailingWhitespace line), rest)
        else (.cannotOpen (stripTrailingWhitespace line), rest)) := by
  have hnewline : '\n' ∉ "bookin ".toList ++ line := by
    have h1 : '\n' ∉ "bookin ".toList := by decide
    simp only [List.mem_append, not_or]
    exact ⟨h1, hline⟩
  rw [clientStep_line client past rest hnewline, clientCommand_bookin, clientRespond,
    stripTrailingWhitespace_idem]

theorem clientStep_clientrun {line : Str} (hline : '\n' ∉ line) :
    clientStep client past ("clientrun ".toList ++ line ++ '\n' :: rest) =
      some (.execute (stripTrailingWhitespace line), rest) := by
  have hnewline : '\n' ∉ "clientrun ".toList ++ line := by
    have h1 : '\n' ∉ "clientrun ".toList := by decide
    simp only [List.mem_append, not_or]
    exact ⟨h1, hline⟩
  rw [clientStep_line client past rest hnewline, clientCommand_clientrun, clientRespond,
    stripTrailingWhitespace_idem]

theorem clientStep_run (output : Str) :
    clientStep client past ((SectionAction.run output).message ++ rest) =
      some (.output (output ++ rest), []) := by
  have hline : '\n' ∉ "OKAY: Command output follows".toList := by decide
  have htext : (SectionAction.run output).message ++ rest =
      "OKAY: Command output follows".toList ++ '\n' :: (output ++ rest) := by
    have hliteral : "OKAY: Command output follows\n".toList =
      "OKAY: Command output follows".toList ++ ['\n'] := by decide
    rw [message_run, hliteral, List.append_assoc, List.append_assoc, List.singleton_append]
  have hokay : clientCommand "OKAY: Command output follows".toList = .okay := by decide +kernel
  rw [htext, clientStep_line client past _ hline, hokay]
  rfl

theorem clientStep_blank {post : Str} (hpost : ∀ c ∈ post, isSpace c = true) :
    ∃ rest', clientStep client past (post ++ '\n' :: rest) = some (.print [], rest') := by
  have hblank : ∀ line, '\n' ∉ line → (∀ c ∈ line, isSpace c = true) → ∀ more,
      clientStep client past (line ++ '\n' :: more) = some (.print [], more) := by
    intro line hline hspace more
    have hstrip : stripTrailingWhitespace line = [] := List.rdropWhile_eq_nil_iff.mpr hspace
    have hother : clientCommand line = .other [] := by
      unfold clientCommand
      rw [hstrip]
      rfl
    rw [clientStep_line client past more hline, hother]
    rfl
  by_cases hmem : '\n' ∈ post
  · obtain ⟨line, more, rfl, hline⟩ := List.eq_append_cons_of_mem hmem
    refine ⟨more ++ '\n' :: rest, ?_⟩
    rw [List.append_assoc, List.cons_append]
    exact hblank line hline (fun c hc => hpost c (List.mem_append_left _ hc)) _
  · exact ⟨rest, hblank post hmem hpost rest⟩

end Message

/-! ## The whole stream -/

theorem clientStep_fits {client : Client} {past : List ClientAction} {a : SectionAction}
    (hfits : a.Fits client past) (hsized : a.Sized) (hrun : ¬ a.IsRun) (rest : Str) :
    clientStep client past (a.message ++ rest) = some (a.action, rest) := by
  cases a with
  | run output => exact absurd trivial hrun
  | bookout name content =>
    obtain ⟨hline, hstrip, hcreates⟩ := hfits
    have hsize : content.length < 2 ^ 63 := hsized
    have hstep := clientStep_bookout client past (content ++ rest) hsize hline
    rw [hstrip, if_pos hcreates, List.take_left, List.drop_left] at hstep
    rw [action, ← hstep, message_bookout, newline_toList]
    simp only [List.append_assoc, List.cons_append, List.nil_append]
  | clientrun text =>
    have hstep := clientStep_clientrun client past rest hfits
    rw [action, ← hstep, message_clientrun, newline_toList]
    simp only [List.append_assoc, List.singleton_append]
  | bookin name =>
    obtain ⟨hline, hstrip, hreads⟩ := hfits
    have hstep := clientStep_bookin client past rest hline
    rw [hstrip, if_pos hreads] at hstep
    rw [action, ← hstep, message_bookin, newline_toList]
    simp only [List.append_assoc, List.singleton_append]

theorem strip_eq_blank {line post : Str}
    (h : stripTrailingWhitespace line = stripTrailingWhitespace (line ++ '\n' :: post)) :
    ∀ c ∈ post, isSpace c = true := by
  have hnil : stripTrailingWhitespace ('\n' :: post) = [] := by
    by_contra hne
    rw [strip_append, if_neg hne] at h
    have hle : (stripTrailingWhitespace line).length ≤ line.length :=
      (List.rdropWhile_prefix isSpace line).length_le
    have hpos := List.length_pos_of_ne_nil hne
    rw [h, List.length_append] at hle
    omega
  intro c hc
  exact List.rdropWhile_eq_nil_iff.mp hnil c (List.mem_cons_of_mem _ hc)

theorem name_of_line {name line : Str} (h : ¬ ('\n' ∉ name ∧ stripTrailingWhitespace name = name))
    (hline : '\n' ∉ line) : stripTrailingWhitespace line ≠ name := by
  rintro rfl
  apply h
  refine ⟨?_, stripTrailingWhitespace_idem line⟩
  intro hmem
  exact hline ((List.rdropWhile_prefix isSpace line).subset hmem)

theorem exists_line (text rest : Str) : ∃ line more, '\n' ∉ line ∧
    text ++ '\n' :: rest = line ++ '\n' :: more ∧
    ('\n' ∈ text → ∃ post, text = line ++ '\n' :: post ∧ more = post ++ '\n' :: rest) := by
  by_cases hmem : '\n' ∈ text
  · obtain ⟨line, post, rfl, hline⟩ := List.eq_append_cons_of_mem hmem
    refine ⟨line, post ++ '\n' :: rest, hline, ?_, fun _ => ⟨post, rfl, rfl⟩⟩
    rw [List.append_assoc, List.cons_append]
  · exact ⟨text, rest, hmem, rfl, fun h => absurd h hmem⟩

/-- An item that does not fit is decoded as something else, or something is printed behind it. -/
theorem clientStep_misfit {client : Client} {past : List ClientAction} {a : SectionAction}
    (hmisfit : ¬ a.Fits client past) (hsized : a.Sized) (rest : Str) :
    ∃ b rest', clientStep client past (a.message ++ rest) = some (b, rest') ∧
      (b ≠ a.action ∨ ∃ rest'', clientStep client (b :: past) rest' =
        some (.print [], rest'')) := by
  cases a with
  | run output => exact absurd trivial hmisfit
  | bookout name content =>
    obtain ⟨line, more, hline, hsplit, _⟩ := exists_line name (content ++ rest)
    have hsize : content.length < 2 ^ 63 := hsized
    have hstep := clientStep_bookout client past more hsize hline
    have hmessage : (bookout name content).message ++ rest =
        "bookout ".toList ++ decimal content.length ++ " ".toList ++ line ++ '\n' :: more := by
      rw [List.append_assoc _ line, ← hsplit, message_bookout, newline_toList]
      simp only [List.append_assoc, List.cons_append, List.nil_append]
    rw [hmessage, hstep]
    by_cases hcreates : client.creates past (stripTrailingWhitespace line) = true
    · rw [if_pos hcreates]
      refine ⟨_, _, rfl, Or.inl ?_⟩
      intro heq
      have hname := (ClientAction.create.inj heq).1
      by_cases hplain : '\n' ∉ name ∧ stripTrailingWhitespace name = name
      · rw [hname] at hcreates
        exact hmisfit ⟨hplain.1, hplain.2, hcreates⟩
      · exact name_of_line hplain hline hname
    · rw [if_neg hcreates]
      exact ⟨_, _, rfl, Or.inl fun h => nomatch h⟩
  | clientrun text =>
    have hnewline : '\n' ∈ text := not_not.mp hmisfit
    obtain ⟨line, more, hline, hsplit, hpost⟩ := exists_line text rest
    obtain ⟨post, htext, hmore⟩ := hpost hnewline
    have hstep := clientStep_clientrun client past more hline
    have hmessage : (clientrun text).message ++ rest =
        "clientrun ".toList ++ line ++ '\n' :: more := by
      rw [List.append_assoc _ line, ← hsplit, message_clientrun, newline_toList]
      simp only [List.append_assoc, List.singleton_append]
    rw [hmessage, hstep]
    refine ⟨_, _, rfl, ?_⟩
    by_cases heq : stripTrailingWhitespace line = stripTrailingWhitespace text
    · rw [htext] at heq
      rw [hmore]
      exact Or.inr (clientStep_blank client _ rest (strip_eq_blank heq))
    · exact Or.inl fun h => heq (ClientAction.execute.inj h)
  | bookin name =>
    obtain ⟨line, more, hline, hsplit, _⟩ := exists_line name rest
    have hstep := clientStep_bookin client past more hline
    have hmessage : (bookin name).message ++ rest = "bookin ".toList ++ line ++ '\n' :: more := by
      rw [List.append_assoc _ line, ← hsplit, message_bookin, newline_toList]
      simp only [List.append_assoc, List.singleton_append]
    rw [hmessage, hstep]
    by_cases hreads : (client.readFile past (stripTrailingWhitespace line)).isSome = true
    · rw [if_pos hreads]
      refine ⟨_, _, rfl, Or.inl ?_⟩
      intro heq
      have hname := ClientAction.answer.inj heq
      by_cases hplain : '\n' ∉ name ∧ stripTrailingWhitespace name = name
      · rw [hname] at hreads
        exact hmisfit ⟨hplain.1, hplain.2, hreads⟩
      · exact name_of_line hplain hline hname
    · rw [if_neg hreads]
      exact ⟨_, _, rfl, Or.inl fun h => nomatch h⟩

def actionsFrom (client : Client) (past : List ClientAction) (input : Str) : List ClientAction :=
  Scan.pieces (clientStep client) past input

theorem actionsFrom_some {client : Client} {past : List ClientAction} {input rest : Str}
    {b : ClientAction} (h : clientStep client past input = some (b, rest)) :
    actionsFrom client past input = b :: actionsFrom client (b :: past) rest :=
  Scan.pieces_some (clientStep_shrinks client) h

theorem action_ne_print (a : SectionAction) (text : Str) : a.action ≠ .print text := by
  cases a <;> exact fun h => nomatch h

/-- The stream is decoded into the actions of its items exactly when they are replayable. -/
theorem actionsFrom_stream_iff {client : Client} {as : List SectionAction}
    (hsized : ∀ a ∈ as, a.Sized) (past : List ClientAction) :
    actionsFrom client past (stream as) = as.map action ↔ Replayable client past as := by
  induction as generalizing past with
  | nil =>
    have hend : clientStep client past [] = none := rfl
    have hnil : actionsFrom client past [] = [] := Scan.pieces_none hend
    exact ⟨fun _ => trivial, fun _ => hnil⟩
  | cons a as ih =>
    have hrest := ih fun b hb => hsized b (List.mem_cons_of_mem a hb)
    have ha := hsized a List.mem_cons_self
    rw [stream, List.flatMap_cons, ← stream, List.map_cons, Replayable]
    by_cases hfits : a.Fits client past
    · by_cases hrun : a.IsRun
      · obtain ⟨output, rfl⟩ : ∃ output, a = .run output := by
          cases a with
          | run output => exact ⟨output, rfl⟩
          | _ => exact hrun.elim
        rw [actionsFrom_some (clientStep_run client past (stream as) output)]
        have hend : actionsFrom client (.output (output ++ stream as) :: past) [] = [] :=
          Scan.pieces_none rfl
        rw [hend]
        constructor
        · intro heq
          obtain ⟨_, hmap⟩ := List.cons.inj heq
          have has : as = [] := List.map_eq_nil_iff.mp hmap.symm
          subst has
          exact ⟨trivial, fun _ => rfl, trivial⟩
        · rintro ⟨_, hlast, _⟩
          have has := hlast trivial
          subst has
          simp [stream, action]
      · rw [actionsFrom_some (clientStep_fits hfits ha hrun (stream as)), List.cons.injEq, hrest]
        exact ⟨fun h => ⟨hfits, fun h => absurd h hrun, h.2⟩, fun h => ⟨rfl, h.2.2⟩⟩
    · obtain ⟨b, rest', hstep, hdiffers⟩ := clientStep_misfit hfits ha (stream as)
      rw [actionsFrom_some hstep]
      constructor
      · intro heq
        obtain ⟨hb, hmap⟩ := List.cons.inj heq
        obtain ⟨rest'', hprint⟩ := hdiffers.resolve_left (fun h => h hb)
        rw [actionsFrom_some hprint] at hmap
        cases as with
        | nil => cases hmap
        | cons a' as => exact absurd (List.cons.inj hmap).1.symm (action_ne_print a' [])
      · intro h
        exact absurd h.1 hfits

/-! ## The server -/

def Event.sent : Event → Str
  | .send text => text
  | _ => []

def sentBytes : List Event → Str
  | [] => []
  | e :: past => sentBytes past ++ e.sent

section Server

variable (env : Env) (items : List Node) (vars : Vars)

/-- The item in front of the loop succeeds, and this is what it delivers. -/
inductive Succeeds (s : ServerState) : Node → SectionAction → Prop
  | run {text cmd : Str} {r : SpawnRequest} {output left : List (Option Char)} :
    substitutedCommand text vars = some cmd → argsFit vars cmd = true →
    spawnRequest text vars = some r → env.spawn s.history r.cmd r.capabilities = some output →
    (if r.expect = [] then left = output
      else (exec (processExpect r.expect vars (some items) r.timeout output)
        { s with history := .spawn r.cmd r.capabilities :: s.history }).1 = .ok (true, left)) →
    Succeeds s (.value (some "run".toList) text) (.run (left.filterMap id))
  | bookout {path path' content : Str} {stat : FileStat} :
    substituteVarsInString vars false path = some path' →
    (env.files s.history).stat path' = some stat → stat.kind = .regular →
    env.readFile s.history path' = some content → stat.size = content.length →
    Succeeds s (.value (some "bookout".toList) path) (.bookout (getBasename path') content)
  | clientrun {text : Str} :
    Succeeds s (.value (some "clientrun".toList) text) (.clientrun text)
  | bookin {path path' line rest : Str} {size : Nat} :
    substituteVarsInString vars false path = some path' →
    env.openWrite s.history (path' ++ "+".toList) = true → bookinAnswer s.input = (line, rest) →
    announced line = some size →
    Succeeds s (.value (some "bookin".toList) path) (.bookin (getBasename path'))

/-- The loop runs through the items and every one of them succeeds. -/
inductive Delivers : ServerState → List Node → List SectionAction → ServerState → Prop
  | nil (s : ServerState) : Delivers s [] [] s
  | cons {s t s' : ServerState} {item : Node} {rest : List Node} {a : SectionAction}
    {as : List SectionAction} :
    Succeeds env items vars s item a →
    exec (runItem env items item vars) s = (.ok (some vars), t) →
    Delivers t rest as s' → Delivers s (item :: rest) (a :: as) s'

variable {env items vars} {s t : ServerState}

theorem Succeeds.sized {item : Node} {a : SectionAction} (h : Succeeds env items vars s item a) :
    a.Sized := by
  cases h with
  | run => trivial
  | @bookout _ _ content stat _ _ _ _ hsize =>
    have hlt := stat.size_lt
    rw [hsize] at hlt
    exact hlt
  | clientrun => trivial
  | bookin => trivial

/-- `BookoutFileToClient` on a regular file: the size in the header is the one of `stat`. -/
theorem exec_bookout {path path' content : Str} {stat : FileStat}
    (hpath : substituteVarsInString vars false path = some path')
    (hstat : (env.files s.history).stat path' = some stat) (hkind : stat.kind = .regular)
    (hread : env.readFile s.history path' = some content) :
    exec (bookoutFileToClient env path vars) s = (.ok ⟨⟩, { s with
      history := .send content :: .send ("bookout ".toList ++ decimal stat.size ++ " ".toList ++
        getBasename path' ++ "\n".toList) :: .openRead path' :: s.history }) := by
  unfold bookoutFileToClient
  simp only [hpath, exec_bind, exec_need_some, exec_observe, hstat, hread, hkind, if_true,
    exec_emit]

def HasSent (bytes : Str) (s : ServerState) : Prop := sentBytes s.history = bytes

def Silent {α : Type} (m : Server α) : Prop :=
  ∀ bytes, Triple (HasSent bytes) m (fun _ => HasSent bytes) (fun _ _ => True)

theorem Silent.bind {α β : Type} {x : Server α} {f : α → Server β} (hx : Silent x)
    (hf : ∀ a, Silent (f a)) : Silent (x >>= f) :=
  fun bytes => Triple.bind (hx bytes) fun a => hf a bytes

theorem Silent.pure {α : Type} (a : α) : Silent (Pure.pure a : Server α) := fun _ _ hs => hs

theorem Silent.need {α : Type} (o : Option α) : Silent (Server.need o) := by
  intro bytes s hs
  cases o with
  | none => trivial
  | some a => exact hs

theorem expectDialogs_silent (items : List Node) : Silent (expectDialogs vars items) := by
  induction items with
  | nil => exact Silent.pure []
  | cons item items ih =>
    cases item with
    | block tag sub => exact ih
    | value tag text =>
      apply Silent.bind (Silent.need _)
      intro expect
      apply Silent.bind (Silent.need _)
      intro reply
      apply Silent.bind (Silent.need _)
      intro tag
      exact Silent.bind ih fun rest => Silent.pure _

/-- A dialog talks to the command only. -/
theorem processExpect_silent (name : Str) (section? : Option (List Node)) (timeout : Int)
    (output : List (Option Char)) :
    Silent (processExpect name vars section? timeout output) := by
  have hopen : Silent (openDialog section? name) := by
    cases section? with
    | some items => exact Silent.pure _
    | none =>
      intro bytes
      exact Triple.ite (fun _ => Silent.pure _ bytes) fun _ => fun _ _ => trivial
  apply Silent.bind hopen
  intro items
  apply Silent.bind (expectDialogs_silent items)
  intro dialogs
  have hreply : Silent (emit (.reply ((streamExpectDialog timeout output dialogs).1.flatten))) :=
    fun _ s hs => (List.append_nil (sentBytes s.history)).trans hs
  refine Silent.bind hreply fun _ bytes => ?_
  exact Triple.ite (fun _ _ _ => trivial) fun _ => Silent.pure _ bytes

theorem sendOutput_sends {r : SpawnRequest} {section? : Option (List Node)}
    {output left : List (Option Char)}
    (h : if r.expect = [] then left = output
      else (exec (processExpect r.expect vars section? r.timeout output) s).1 = .ok (true, left)) :
    sentBytes (exec (sendOutput r vars section? output) s).2.history =
      sentBytes s.history ++ (SectionAction.run (left.filterMap id)).message := by
  unfold sendOutput
  rw [message_run, ← List.append_assoc]
  by_cases hexpect : r.expect = []
  · rw [if_pos hexpect] at h
    rw [if_pos hexpect, h]
    rfl
  · rw [if_neg hexpect] at h
    rw [if_neg hexpect, exec_bind]
    have hsilent := @processExpect_silent vars r.expect section? r.timeout output _ s rfl
    cases hexec : exec (processExpect r.expect vars section? r.timeout output) s with
    | mk result s' =>
      rw [hexec] at h hsilent
      cases h
      rw [← hsilent]
      rfl

theorem Succeeds.sends {item : Node} {a : SectionAction} (h : Succeeds env items vars s item a)
    (hrun : exec (runItem env items item vars) s = (.ok (some vars), t)) :
    sentBytes t.history = sentBytes s.history ++ a.message := by
  cases h with
  | @run text cmd r output left hcmd hfit hreq hspawn hdialog =>
    have hcommand : (exec (runCommand env text vars (some items)) s).2 =
        (exec (sendOutput r vars (some items) output)
          { s with history := .spawn r.cmd r.capabilities :: s.history }).2 := by
      unfold runCommand
      simp only [hcmd, exec_bind, exec_need_some, hfit, if_true, hreq, exec_observe, hspawn,
        exec_emit]
    rw [← runItem_run, hrun] at hcommand
    have ht : t = _ := hcommand
    rw [ht, sendOutput_sends hdialog]
    exact congrArg (· ++ _) (List.append_nil (sentBytes s.history))
  | @bookout path path' content stat hpath hstat hkind hread hsize =>
    have hitem : runItem env items (.value (some "bookout".toList) path) vars =
      bookoutFileToClient env path vars >>= fun _ => pure (some vars) := rfl
    rw [hitem, exec_bind, exec_bookout hpath hstat hkind hread] at hrun
    have ht : t = _ := (congrArg Prod.snd hrun).symm
    rw [ht, message_bookout, ← hsize, ← List.append_assoc]
    exact congrArg (· ++ _ ++ content) (List.append_nil (sentBytes s.history))
  | clientrun =>
    have ht : t = _ := (congrArg Prod.snd hrun).symm
    rw [ht]
    rfl
  | @bookin path path' line rest size hpath hopen hanswer hsize =>
    have hitem : runItem env items (.value (some "bookin".toList) path) vars =
      bookinFileFromClient env path vars >>= fun _ => pure (some vars) := rfl
    rw [hitem, exec_bind, exec_bookin hpath hopen hanswer, hsize] at hrun
    have ht : t = _ := (congrArg Prod.snd hrun).symm
    rw [ht, message_bookin]
    simp only [answeredBookin, askedBookin, exec_pure, sentBytes, Event.sent, List.append_nil]

theorem Delivers.sends {rest : List Node} {as : List SectionAction} {s' : ServerState}
    (h : Delivers env items vars s rest as s') :
    sentBytes s'.history = sentBytes s.history ++ stream as := by
  induction h with
  | nil => exact (List.append_nil _).symm
  | cons hitem hrun _ ih =>
    rw [ih, hitem.sends hrun, stream, stream, List.flatMap_cons, List.append_assoc]

theorem Delivers.exec_eq {rest : List Node} {as : List SectionAction} {s' : ServerState}
    (h : Delivers env items vars s rest as s') :
    exec (runItems env items rest vars) s = (.ok ⟨⟩, s') := by
  induction h with
  | nil => rfl
  | cons _ hrun _ ih =>
    rw [runItems_cons, exec_bind, hrun]
    exact ih

theorem Delivers.sized {rest : List Node} {as : List SectionAction} {s' : ServerState}
    (h : Delivers env items vars s rest as s') : ∀ a ∈ as, a.Sized := by
  induction h with
  | nil => exact fun _ h => nomatch h
  | cons hitem _ _ ih =>
    intro a ha
    rcases List.mem_cons.mp ha with rfl | ha
    · exact hitem.sized
    · exact ih a ha

/-- The client does what a section says, in its order, exactly when names and texts fit into their
lines, it can open the files, and nothing comes behind a run entry. -/
theorem client_replays_iff {as : List SectionAction} {s' : ServerState} {written : Str}
    (client : Client) (h : Delivers env items vars s items as s')
    (hwritten : sentBytes s'.history = sentBytes s.history ++ written) :
    clientActions client written = as.map action ↔ Replayable client [] as := by
  have hstream : written = stream as := by
    rw [h.sends] at hwritten
    exact (List.append_cancel_left hwritten).symm
  rw [hstream]
  exact actionsFrom_stream_iff h.sized []

end Server

theorem five_lt : 5 < 2 ^ 63 := by decide

/-- A server whose commands all print one line, and whose files are all short. -/
def chattyEnv : Env :=
  { openingEnv with
    files := fun _ => { stat := fun path => if path = [] then none else
                          some { size := 5, size_lt := five_lt },
                        hashFile := fun _ => none, stat_nil := rfl }
    readFile := fun _ _ => some "hello".toList
    spawn := fun _ _ _ => some ("done\n".toList.map some) }

def openClient : Client where
  readFile _ _ := some []
  creates _ _ := true
  size _ := 1

def editItems : List Node :=
  [.value (some "bookout".toList) "/etc/motd".toList,
    .value (some "clientrun".toList) "vi motd".toList,
    .value (some "run".toList) "/bin/true".toList]

def editWritten : Str :=
  "bookout 5 motd\nhelloclientrun vi motd\nOKAY: Command output follows\ndone\n".toList

def ranOnce (past : List Event) : List Event :=
  .send "done\n".toList :: .send "OKAY: Command output follows\n".toList ::
    .spawn "/bin/true".toList [] :: past

theorem trueSucceeds (items : List Node) (past : List Event) :
    Succeeds chattyEnv items [] (ServerState.mk [] past false)
      (.value (some "run".toList) "/bin/true".toList) (.run "done\n".toList) :=
  @Succeeds.run _ _ _ _ _ "/bin/true".toList { cmd := "/bin/true".toList } _
    ("done\n".toList.map some) (by decide +kernel) (by decide +kernel) (by decide +kernel) rfl
    (Eq.mpr (if_pos rfl) rfl)

theorem client_replays_iff_edit : clientActions openClient editWritten =
    [.create "motd".toList "hello".toList, .execute "vi motd".toList, .output "done\n".toList] := by
  have hdelivers : Delivers chattyEnv editItems [] { input := [] } editItems
      [.bookout "motd".toList "hello".toList, .clientrun "vi motd".toList, .run "done\n".toList]
      (ServerState.mk [] (ranOnce [.send "clientrun vi motd\n".toList, .send "hello".toList,
        .send "bookout 5 motd\n".toList, .openRead "/etc/motd".toList]) false) := by
    have hpath : substituteVarsInString [] false "/etc/motd".toList = some "/etc/motd".toList := by
      decide +kernel
    refine .cons (t := ServerState.mk [] [.send "hello".toList, .send "bookout 5 motd\n".toList,
      .openRead "/etc/motd".toList] false) (.bookout hpath rfl rfl rfl rfl) (by decide +kernel) ?_
    refine .cons (t := ServerState.mk [] [.send "clientrun vi motd\n".toList, .send "hello".toList,
      .send "bookout 5 motd\n".toList, .openRead "/etc/motd".toList] false) .clientrun
        (by decide +kernel) ?_
    exact .cons (trueSucceeds _ _) (by decide +kernel) (.nil _)
  have hline : '\n' ∉ "vi motd".toList := by decide
  have hwritten : sentBytes (ranOnce [.send "clientrun vi motd\n".toList, .send "hello".toList,
      .send "bookout 5 motd\n".toList, .openRead "/etc/motd".toList]) =
        sentBytes [] ++ editWritten := by
    decide +kernel
  refine (client_replays_iff openClient hdelivers hwritten).mpr ?_
  refine ⟨⟨by decide, by decide, rfl⟩, fun h => h.elim, ?_⟩
  exact ⟨hline, fun h => h.elim, trivial, fun _ => rfl, trivial⟩

def twoCommands : List Node :=
  [.value (some "run".toList) "/bin/true".toList, .value (some "run".toList) "/bin/true".toList]

/-- The message of the second command comes out as output of the first one. -/
theorem second_command_printed :
    ¬ ∀ (env : Env) (items : List Node) (vars : Vars) (s s' : ServerState)
      (as : List SectionAction) (written : Str) (client : Client),
      Delivers env items vars s items as s' →
      sentBytes s'.history = sentBytes s.history ++ written →
      clientActions client written = as.map action := by
  intro h
  have hdelivers : Delivers chattyEnv twoCommands [] { input := [] } twoCommands
      [.run "done\n".toList, .run "done\n".toList]
      (ServerState.mk [] (ranOnce (ranOnce [])) false) :=
    .cons (trueSucceeds _ []) (by decide +kernel)
      (.cons (trueSucceeds _ (ranOnce [])) (by decide +kernel) (.nil _))
  have hactions := h _ _ _ _ _ _ (sentBytes (ranOnce (ranOnce []))) openClient hdelivers rfl
  revert hactions
  decide +kernel

end Invocation
