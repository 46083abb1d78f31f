import Invocation.Schedules

/-!
# What a section delivers

A section on whose items server and client can do their parts, up to its end
or its first command. One schedule takes it to its end, so all do: every file
arrives as it was sent, in both directions, and nothing else happens.
-/

namespace Invocation

set_option autoImplicit false

open Process Server Schedules SectionAction

/-! ## What happens on both sides -/

/-- The events behind the bytes of an upload. -/
def keptUpload (path content : Str) (past : List Event) : List Event :=
  .restoreOwner path :: .rename (path ++ "+".toList) path ::
    .writeFile (path ++ "+".toList) content :: past

theorem keptUpload_sent (path content : Str) (past : List Event) :
    sentBytes (keptUpload path content past) = sentBytes past := by
  simp only [keptUpload, sentBytes, Event.sent, List.append_nil]

section Exchange

variable (env : Env) (client : Client) (section_ : List Node)

/-- An item of which both programs do their part. -/
inductive Exchange (vars : Vars) (past : List ClientAction) (s : ServerState) :
    Node → Vars → ServerState → List ClientAction → Prop
  | quiet {item : Node} {vars' : Vars} {t : ServerState} : bookinPath? item = none →
    exec (runItem env section_ item vars) s = (.ok (some vars'), t) →
    sentBytes t.history = sentBytes s.history → Exchange vars past s item vars' t past
  | message {item : Node} {a : SectionAction} {t : ServerState} : bookinPath? item = none →
    ¬ a.IsRun → Succeeds env section_ vars s item a →
    exec (runItem env section_ item vars) s = (.ok (some vars), t) → a.Fits client past →
    Exchange vars past s item vars t (a.action :: past)
  | bookin {path path' content : Str} : substituteVarsInString vars false path = some path' →
    env.openWrite s.history (path' ++ "+".toList) = true →
    (SectionAction.bookin (getBasename path')).Fits client past →
    client.readFile past (getBasename path') = some content → content.length < 2 ^ 31 →
    (content = [] ∨ 0 < client.size past) →
    Exchange vars past s (.value (some "bookin".toList) path) vars
      { s with history := keptUpload path' content (askedBookin path' s.history) }
      (.answer (getBasename path') :: past)

/-- The items of a section, up to their end or to a command, whose output is the end. -/
inductive Exchanges : Vars → List ClientAction → ServerState → List Node → ServerState →
    List ClientAction → Prop
  | nil (vars : Vars) (past : List ClientAction) (s : ServerState) : Exchanges vars past s [] s past
  | run {vars : Vars} {past : List ClientAction} {s t : ServerState} {item : Node} {output : Str} :
    bookinPath? item = none → Succeeds env section_ vars s item (.run output) →
    exec (runItem env section_ item vars) s = (.ok (some vars), t) →
    Exchanges vars past s [item] t (.output output :: past)
  | cons {vars vars' : Vars} {past past' past'' : List ClientAction} {s t u : ServerState}
    {item : Node} {rest : List Node} : Exchange env client section_ vars past s item vars' t past' →
    Exchanges vars' past' t rest u past'' → Exchanges vars past s (item :: rest) u past''

end Exchange

/-! ## A schedule -/

/-- Some schedule leads from the one state to the other. -/
def Leads (env : Env) (client : Client) (c d : Connection) : Prop :=
  ∃ turns, Runs.run (Connection.step env client) c turns = d

section Leads

variable {env : Env} {client : Client} {c d e : Connection}

theorem Leads.refl (c : Connection) : Leads env client c c := ⟨[], rfl⟩

theorem Leads.trans (h : Leads env client c d) (h' : Leads env client d e) :
    Leads env client c e := by
  obtain ⟨turns, rfl⟩ := h
  obtain ⟨more, rfl⟩ := h'
  exact ⟨turns ++ more, Runs.run_append _ _ _⟩

theorem Leads.serverTurn (n : Nat) (h : c.serverTurn env n = d) :
    Leads env client c d := ⟨[.server n], h⟩

theorem Leads.clientTurn (n : Nat) (h : c.clientTurn client n = d) : Leads env client c d :=
  ⟨[.client n], h⟩

end Leads

/-! ## The server's part -/

section ServerPart

variable {env : Env} {client : Client} {section_ rest : List Node} {vars : Vars}

/-- The state between two items: nothing is on its way. -/
def between (section_ rest : List Node) (vars : Vars) (s : ServerState) (past : List ClientAction) :
    Connection where
  position := ⟨[], .items section_ rest vars⟩
  server := s
  past := past

theorem runItem_input {item : Node} {vars' : Vars} {s t : ServerState}
    (hitem : bookinPath? item = none)
    (h : exec (runItem env section_ item vars) s = (.ok (some vars'), t)) : t.input = s.input := by
  obtain ⟨r, new, auth, -, hexec⟩ := runItem_oblivious env hitem section_ vars s
  have hsame := (hexec s.input).symm.trans h
  exact congrArg (fun p => p.2.input) hsame.symm

theorem serverTurn_item {item : Node} {vars' : Vars} {s t : ServerState} (past : List ClientAction)
    (hitem : bookinPath? item = none)
    (h : exec (runItem env section_ item vars) s = (.ok (some vars'), t)) {sent : Str}
    (hsent : sentBytes t.history = sentBytes s.history ++ sent) :
    (between section_ (item :: rest) vars s past).serverTurn env 0 =
      { between section_ rest vars' t past with toClient := sent } := by
  have hexec : exec (onItem env [] section_ vars (item :: rest)) s =
      (.ok ⟨[], .items section_ rest vars'⟩, t) := by
    simp only [onItem, hitem]
    rw [exec_bind, h]
    rfl
  show Connection.work _ s.input (onItem env [] section_ vars (item :: rest)) = _
  unfold Connection.work
  simp only [between, hexec, hsent, List.drop_left]
  rfl

theorem serverTurn_end (s : ServerState) (past : List ClientAction) (toClient : Str)
    (side : ClientPhase) :
    Connection.serverTurn env 0
        { between section_ [] vars s past with toClient := toClient, client := side } =
      { position := ⟨[], .finished⟩, server := s, toClient := toClient, client := side,
        past := past } := by
  show Connection.work _ s.input (onItem env [] section_ vars []) = _
  unfold Connection.work
  simp only [onItem, exec_pure, List.drop_length, List.append_nil]
  rfl

end ServerPart

/-! ## The client's part -/

section ClientPart

variable {env : Env} {client : Client} {position : Position} {s : ServerState}
  {past : List ClientAction}

theorem clientTurn_message {line rest : Str} (hline : '\n' ∉ line) :
    Connection.clientTurn client 0 ⟨position, s, line ++ '\n' :: rest, .lines, past⟩ =
      Connection.respond client ⟨position, s, rest, .lines, past⟩ (clientCommand line) :=
  clientTurn_line rfl hline rfl

theorem leads_content (name content rest : Str) :
    Leads env client ⟨position, s, content ++ rest, .content name [] content.length, past⟩
      ⟨position, s, rest, .lines, .create name content :: past⟩ := by
  have hkept : ∀ (bytes got : Str),
      Connection.clientTurn client 0 ⟨position, s, bytes, .content name got 0, past⟩ =
        ⟨position, s, bytes, .lines, .create name got :: past⟩ := fun _ _ => rfl
  by_cases hnil : content = []
  · subst hnil
    exact .clientTurn 0 (hkept rest [])
  · have hlength : content.length ≠ 0 := fun h => hnil (List.eq_nil_of_length_eq_zero h)
    have hbytes : content ++ rest ≠ [] := fun h => hnil (List.append_eq_nil_iff.mp h).1
    have htake := clientTurn_take client position s past content.length hbytes name [] hlength
    rw [Nat.min_eq_right (Nat.le_succ _), List.take_left, List.drop_left, Nat.sub_self,
      List.nil_append] at htake
    exact (Leads.clientTurn content.length htake).trans (.clientTurn 0 (hkept rest content))

/-- The client does what a message that fits says. -/
theorem leads_message {a : SectionAction} (hrun : ¬ a.IsRun) (hsized : a.Sized)
    (hfits : a.Fits client past) (hbookin : ∀ name, a ≠ .bookin name) (rest : Str) :
    Leads env client ⟨position, s, a.message ++ rest, .lines, past⟩
      ⟨position, s, rest, .lines, a.action :: past⟩ := by
  cases a with
  | run output => exact absurd trivial hrun
  | bookin name => exact absurd rfl (hbookin name)
  | clientrun text =>
    have hnewline : '\n' ∉ "clientrun ".toList ++ text := by
      have hword : '\n' ∉ "clientrun ".toList := by decide
      exact fun h => (List.mem_append.mp h).elim hword hfits
    have hturn := @clientTurn_message client position s past _ rest hnewline
    rw [clientCommand_clientrun] at hturn
    refine .clientTurn 0 ?_
    rw [message_clientrun, newline_toList, List.append_assoc, List.singleton_append, hturn]
    simp only [Connection.respond, stripTrailingWhitespace_idem, action]
  | bookout name content =>
    obtain ⟨hline, hstrip, hcreates⟩ := hfits
    have hsize : content.length < 2 ^ 63 := hsized
    have hnewline : '\n' ∉ "bookout ".toList ++ (decimal content.length ++ ' ' :: name) := by
      have hword : '\n' ∉ "bookout ".toList := by decide
      have hdigits : '\n' ∉ decimal content.length :=
        fun h => absurd (decimal_digits content.length _ h) (by decide)
      have hblank : '\n' ≠ ' ' := by decide
      simp only [List.mem_append, List.mem_cons, not_or]
      exact ⟨hword, hdigits, hblank, hline⟩
    have hturn := @clientTurn_message client position s past _ (content ++ rest) hnewline
    have hmessage : (SectionAction.bookout name content).message ++ rest =
        ("bookout ".toList ++ (decimal content.length ++ ' ' :: name)) ++ '\n' ::
        (content ++ rest) := by
      have hblank : " ".toList = [' '] := rfl
      rw [message_bookout, newline_toList, hblank]
      simp only [List.append_assoc, List.cons_append, List.nil_append]
    have hlimit : sendLimit content.length = content.length := if_pos hsize
    rw [clientCommand_bookout] at hturn
    simp only [Connection.respond, bookoutDetails_strip hsize, hstrip, hcreates, if_true, hlimit]
      at hturn
    rw [hmessage]
    exact (Leads.clientTurn 0 hturn).trans (leads_content name content rest)

end ClientPart

/-! ## An upload -/

section Upload

variable {env : Env} {client : Client} {section_ rest : List Node} {vars : Vars} {s : ServerState}
  {past : List ClientAction}

theorem serverTurn_asks {path path' : Str}
    (hpath : substituteVarsInString vars false path = some path')
    (hopen : env.openWrite s.history (path' ++ "+".toList) = true) :
    (between section_ (.value (some "bookin".toList) path :: rest) vars s past).serverTurn env 0 =
      { position := ⟨[], .answer section_ rest vars path'⟩
        server := { s with history := askedBookin path' s.history }
        toClient := (SectionAction.bookin (getBasename path')).message
        past := past } := by
  have hexec : exec (onItem env [] section_ vars (.value (some "bookin".toList) path :: rest)) s =
      (.ok ⟨[], .answer section_ rest vars path'⟩,
        { s with history := askedBookin path' s.history }) := by
    have hitem : onItem env [] section_ vars (.value (some "bookin".toList) path :: rest) =
        askBookin env [] section_ rest vars path := rfl
    rw [hitem]
    unfold askBookin
    simp only [hpath, exec_bind, exec_need_some, exec_observe, hopen, if_true, exec_emit, exec_pure]
    rfl
  have hsent : sentBytes (askedBookin path' s.history) =
      sentBytes s.history ++ (SectionAction.bookin (getBasename path')).message := by
    simp only [askedBookin, sentBytes, Event.sent, List.append_nil, message_bookin]
  show Connection.work _ s.input _ = _
  unfold Connection.work
  simp only [between, hexec, hsent, List.drop_left]
  rfl

theorem clientTurn_uploads {name content : Str}
    (hfits : (SectionAction.bookin name).Fits client past)
    (hcontent : client.readFile past name = some content)
    (hsends : content = [] ∨ 0 < client.size past) {position : Position} (hinput : s.input = []) :
    Connection.clientTurn client 0
        ⟨position, s, (SectionAction.bookin name).message, .lines, past⟩ =
      ⟨position, { s with input := bookinHeader name content ++ content }, [], .lines,
        .answer name :: past⟩ := by
  obtain ⟨hline, hstrip, -⟩ := hfits
  have hnewline : '\n' ∉ "bookin ".toList ++ name := by
    have hword : '\n' ∉ "bookin ".toList := by decide
    exact fun h => (List.mem_append.mp h).elim hword hline
  have hturn := @clientTurn_message client position s past _ [] hnewline
  rw [clientCommand_bookin] at hturn
  rw [message_bookin, newline_toList, hturn]
  simp only [Connection.respond, hstrip, hcontent, hinput, List.nil_append,
    clientBookinFile_sends hsends]

theorem serverTurn_header {line : Str} {size : Nat} (hline : '\n' ∉ line)
    (hsize : announced (line ++ ['\n']) = some size) (path payload : Str) :
    Connection.serverTurn env 0 ⟨⟨[], .answer section_ rest vars path⟩,
        { s with input := line ++ '\n' :: payload }, [], .lines, past⟩ =
      ⟨⟨[], .upload section_ rest vars path (sendLimit size) []⟩, { s with input := payload }, [],
        .lines, past⟩ := by
  have hexec :
      exec (onAnswer [] section_ rest vars path (line ++ ['\n'])) { s with input := payload } =
      (.ok ⟨[], .upload section_ rest vars path (sendLimit size) []⟩,
        { s with input := payload }) := by
    unfold onAnswer
    rw [hsize]
    rfl
  unfold Connection.serverTurn
  simp only [completeLine_line hline payload]
  unfold Connection.work
  simp only [hexec, List.drop_length, List.append_nil]

theorem leads_upload (path content : Str) (hinput : s.input = []) :
    Leads env client
      ⟨⟨[], .upload section_ rest vars path content.length []⟩, { s with input := content }, [],
        .lines, past⟩
      (between section_ rest vars { s with history := keptUpload path content s.history }
        past) := by
  obtain ⟨input, history, authenticated⟩ := s
  obtain rfl : input = [] := hinput
  have hkept : Connection.serverTurn env 0
      ⟨⟨[], .upload section_ rest vars path 0 content⟩, ⟨[], history, authenticated⟩, [], .lines,
        past⟩ =
      between section_ rest vars ⟨[], keptUpload path content history, authenticated⟩ past := by
    have hexec : exec (onUpload [] section_ rest vars path content) ⟨[], history, authenticated⟩ =
        (.ok ⟨[], .items section_ rest vars⟩,
          ⟨[], keptUpload path content history, authenticated⟩) :=
      rfl
    unfold Connection.serverTurn
    simp only [if_true]
    unfold Connection.work
    simp only [hexec, keptUpload_sent, List.drop_length, List.append_nil]
    rfl
  by_cases hnil : content = []
  · subst hnil
    exact .serverTurn 0 hkept
  · have hlength : content.length ≠ 0 := fun h => hnil (List.eq_nil_of_length_eq_zero h)
    refine (Leads.serverTurn content.length ?_).trans (.serverTurn 0 hkept)
    unfold Connection.serverTurn
    simp only [if_neg hlength, Nat.min_eq_right (Nat.le_succ _), List.take_length, List.drop_length,
      Nat.sub_self, List.nil_append]

end Upload

/-! ## The request -/

/-- Nothing is said in front of a section. -/
def EntersQuietly (r : Except Halt Position) (new : List Event) : Prop :=
  ∀ section_ rest vars, r = .ok ⟨[], .items section_ rest vars⟩ → sentBytes new = []

theorem RequestOutcome.quiet {r : Except Halt Position} {new : List Event}
    (h : RequestOutcome r new) : EntersQuietly r new := by
  rintro section_ rest vars rfl
  cases h with
  | entered hsent => exact hsent

theorem EntersQuietly.after {r : Except Halt Position} {new later : List Event}
    (h : EntersQuietly r later) (hnew : sentBytes new = []) : EntersQuietly r (later ++ new) := by
  intro section_ rest vars hr
  rw [sentBytes_append, hnew, h section_ rest vars hr]
  rfl

section Request

variable (env : Env)

theorem judged_quiet (goal : Goal) (s : ServerState) :
    Trace (judgeSections env goal.command env.config >>= afterJudgement env [] goal) s
      EntersQuietly := by
  apply (judgeSections_mute env goal.command env.config s).bind
  · intro judgement new auth hnew
    have hafter : Trace (afterJudgement env [] goal judgement) ⟨s.input, new ++ s.history, auth⟩
        EntersQuietly := by
      cases judgement with
      | verdict allowed =>
        have hverdict : ∀ types rules, Judgement.verdict allowed ≠ .prompt types rules := by
          intro types rules heq
          cases heq
        exact (afterJudgement_outcome env goal hverdict _).mono fun r later => RequestOutcome.quiet
      | prompt types rules =>
        have hprompts : EntersQuietly (.ok ⟨[⟨types, rules, goal⟩], .request⟩)
            [.send "AUTH\n".toList, .prompt types] := by
          intro section_ rest vars heq
          cases heq
        exact ⟨_, _, auth, hprompts, fun _ => rfl⟩
    exact hafter.mono fun r later hlater => hlater.after hnew
  · exact fun _ _ _ => nofun

theorem onRequest_quiet (line : Str) (s : ServerState) :
    Trace (onRequest env [] line) s EntersQuietly := by
  unfold onRequest
  apply Trace.ite
  · exact fun _ => .pure nofun
  intro _
  refine (Trace.emit (Q := fun _ new => sentBytes new = []) rfl).bind ?_ fun _ _ _ => nofun
  intro _ new auth hnew
  apply Trace.ite
  · intro _
    exact (handleClientAuth_trace env _ _ _).then_end.mono fun r later hlater =>
      (RequestOutcome.quiet hlater)
  intro _
  apply Trace.ite
  · exact fun _ => (judged_quiet env _ _).mono fun r later hlater => hlater.after hnew
  intro _
  apply Trace.ite
  · exact fun _ => (judged_quiet env _ _).mono fun r later hlater => hlater.after hnew
  · exact fun _ => .pure nofun

/-- A request on which a section begins has read its line and has answered nothing. -/
theorem onRequest_enters {line : Str} {s t : ServerState} {section_ rest : List Node} {vars : Vars}
    (h : exec (onRequest env [] line) s = (.ok ⟨[], .items section_ rest vars⟩, t)) :
    t.input = s.input ∧ sentBytes t.history = sentBytes s.history := by
  obtain ⟨r, new, auth, hquiet, hexec⟩ := onRequest_quiet env line s
  have hsame := (hexec s.input).symm.trans h
  obtain ⟨rfl, rfl⟩ := Prod.mk.inj hsame
  refine ⟨rfl, ?_⟩
  show sentBytes (new ++ s.history) = _
  rw [sentBytes_append, hquiet _ _ _ rfl, List.append_nil]

end Request

/-! ## Whole sections -/

section Whole

variable {env : Env} {client : Client} {section_ : List Node}

theorem Exchange.input {vars vars' : Vars} {past past' : List ClientAction} {s t : ServerState}
    {item : Node} (h : Exchange env client section_ vars past s item vars' t past') :
    t.input = s.input := by
  cases h with
  | quiet hitem hexec _ => exact runItem_input hitem hexec
  | message hitem _ _ hexec _ => exact runItem_input hitem hexec
  | bookin => rfl

theorem Succeeds.not_bookin {vars : Vars} {s : ServerState} {item : Node} {a : SectionAction}
    (h : Succeeds env section_ vars s item a) (hitem : bookinPath? item = none) (name : Str) :
    a ≠ .bookin name := by
  rintro rfl
  cases h
  cases hitem

/-- Both programs get past an item, and nothing is left on its way. -/
theorem Exchange.leads {vars vars' : Vars} {past past' : List ClientAction} {s t : ServerState}
    {item : Node} (h : Exchange env client section_ vars past s item vars' t past')
    (hinput : s.input = []) (rest : List Node) :
    Leads env client (between section_ (item :: rest) vars s past)
      (between section_ rest vars' t past') := by
  cases h with
  | quiet hitem hexec hsent =>
    have hnothing :
      sentBytes t.history = sentBytes s.history ++ [] := by rw [hsent, List.append_nil]
    exact .serverTurn 0 (serverTurn_item past hitem hexec hnothing)
  | @message _ a _ hitem hrun hsucceeds hexec hfits =>
    refine (Leads.serverTurn 0
      (serverTurn_item past hitem hexec (hsucceeds.sends hexec))).trans ?_
    have hmessage := @leads_message env client ⟨[], .items section_ rest vars⟩ t past a hrun
      hsucceeds.sized hfits (hsucceeds.not_bookin hitem) []
    rw [List.append_nil] at hmessage
    exact hmessage
  | bookin hpath hopen hfits hcontent hsize hsends =>
    rename_i path path' content
    obtain ⟨line, hline, hheader⟩ := bookinHeader_line hfits.1 content
    have hannounced := announced_small hsize (getBasename path')
    have hlimit : sendLimit content.length = content.length := if_pos (by omega)
    rw [hheader] at hannounced
    have hasked := @serverTurn_asks env section_ rest vars s past path path' hpath hopen
    have hanswered := @clientTurn_uploads client { s with history := askedBookin path' s.history }
      past _ content hfits hcontent hsends ⟨[], .answer section_ rest vars path'⟩ hinput
    have hread := @serverTurn_header env section_ rest vars
      { s with history := askedBookin path' s.history } (.answer (getBasename path') :: past) line _
      hline hannounced path' content
    rw [hheader, List.append_assoc, List.singleton_append] at hanswered
    rw [hlimit] at hread
    exact ((Leads.serverTurn 0 hasked).trans (.clientTurn 0 hanswered)).trans
      ((Leads.serverTurn 0 hread).trans (leads_upload path' content hinput))

/-- Where a connection ends. -/
def served (s : ServerState) (past : List ClientAction) : Connection where
  position := ⟨[], .finished⟩
  server := s
  client := .gone
  past := past

theorem leads_output (s : ServerState) (past : List ClientAction) (output : Str) :
    Leads env client
      ⟨⟨[], .finished⟩, s, (SectionAction.run output).message, .lines, past⟩
      (served s (.output output :: past)) := by
  have hline : '\n' ∉ "OKAY: Command output follows".toList := by decide
  have hokay : clientCommand "OKAY: Command output follows".toList = .okay := by decide +kernel
  have hliteral : "OKAY: Command output follows\n".toList =
    "OKAY: Command output follows".toList ++ ['\n'] := by decide
  have hturn := @clientTurn_message client ⟨[], .finished⟩ s past _ output hline
  rw [hokay] at hturn
  have hfirst : Leads env client
      ⟨⟨[], .finished⟩, s, (SectionAction.run output).message, .lines, past⟩
      ⟨⟨[], .finished⟩, s, output, .output [], past⟩ := by
    refine .clientTurn 0 ?_
    rw [message_run, hliteral, List.append_assoc, List.singleton_append, hturn]
    rfl
  have hgone : ∀ got, Connection.clientTurn client 0 ⟨⟨[], .finished⟩, s, [], .output got, past⟩ =
      served s (.output got :: past) := fun _ => rfl
  refine hfirst.trans ?_
  by_cases hnil : output = []
  · subst hnil
    exact .clientTurn 0 (hgone [])
  · have hall := clientTurn_output client ⟨[], .finished⟩ s past output.length hnil []
    rw [List.take_of_length_le (Nat.le_succ _), List.drop_eq_nil_of_le (Nat.le_succ _),
      List.nil_append] at hall
    exact (Leads.clientTurn output.length hall).trans (.clientTurn 0 (hgone output))

theorem Exchanges.leads {vars : Vars} {past past' : List ClientAction} {s t : ServerState}
    {rest : List Node} (h : Exchanges env client section_ vars past s rest t past')
    (hinput : s.input = []) :
    Leads env client (between section_ rest vars s past) (served t past') := by
  induction h with
  | nil vars past s =>
    exact (Leads.serverTurn 0 (serverTurn_end s past [] .lines)).trans (.clientTurn 0 rfl)
  | @run vars past s t item output hitem hsucceeds hexec =>
    refine (Leads.serverTurn 0
      (serverTurn_item past hitem hexec (hsucceeds.sends hexec))).trans ?_
    exact (Leads.serverTurn 0 (serverTurn_end t past _ .lines)).trans (leads_output t past output)
  | cons hitem _ ih => exact (hitem.leads hinput _).trans (ih (hitem.input.trans hinput))

/-- A request for a section of which both programs can do their parts ends, under every schedule
that comes to rest, with all of them done; and every schedule can be continued to that end. -/
theorem section_delivered {line : Str} (hline : '\n' ∉ line) {vars : Vars} {s t : ServerState}
    {past : List ClientAction}
    (henter : exec (onRequest env [] (line ++ ['\n'])) { input := [] } =
      (.ok ⟨[], .items section_ section_ vars⟩, s))
    (h : Exchanges env client section_ vars [] s section_ t past) (turns : List Turn) :
    (∃ more, Runs.run (Connection.step env client) (Connection.start line) (turns ++ more) =
        served t past) ∧
      ((Runs.run (Connection.step env client) (Connection.start line) turns).AtRest env client →
        Runs.run (Connection.step env client) (Connection.start line) turns = served t past) := by
  obtain ⟨hinput, hquiet⟩ := onRequest_enters env henter
  have hfirst : (Connection.start line).serverTurn env 0 = between section_ section_ vars s [] := by
    unfold Connection.serverTurn
    simp only [Connection.start, completeLine_line hline [], Connection.work]
    simp only [henter, hquiet]
    rfl
  obtain ⟨all, hall⟩ := (Leads.serverTurn 0 hfirst).trans (h.leads hinput)
  have hrest : (served t past).AtRest env client := .ended rfl rfl
  rw [← hall] at hrest ⊢
  exact connection_schedule_free env client (Connection.start line) hrest turns

end Whole

/-! ## A file and its editor -/

def editorSection : List Node :=
  [.value (some "user".toList) "alice".toList,
    .value (some "bookout".toList) "/etc/motd".toList,
    .value (some "clientrun".toList) "vi motd".toList,
    .value (some "bookin".toList) "/etc/motd".toList,
    .value (some "run".toList) "make".toList]

def editorEnv : Env :=
  { chattyEnv with config := [.block (some "edit".toList) editorSection] }

/-- Its editor adds a word to the file. -/
def editorClient : Client where
  readFile past _ := if .execute "vi motd".toList ∈ past then some "hello world".toList else none
  creates _ _ := true
  size _ := 1

def enteredEdit : List Event :=
  [.enter "edit".toList (invokeVars editorEnv "edit".toList) editorSection,
    .verdict "edit".toList true, .grantCheck "edit".toList false, .request "invoke: edit".toList]

def sentEdit : List Event :=
  [.send "clientrun vi motd\n".toList, .send "hello".toList, .send "bookout 5 motd\n".toList,
    .openRead "/etc/motd".toList] ++ enteredEdit

def keptEdit : List Event :=
  keptUpload "/etc/motd".toList "hello world".toList (askedBookin "/etc/motd".toList sentEdit)

def ranEdit : List Event :=
  [.send "done\n".toList, .send "OKAY: Command output follows\n".toList,
    .spawn "make".toList []] ++ keptEdit

theorem section_delivered_edit :
    (∃ more, Runs.run (Connection.step editorEnv editorClient)
      (Connection.start "invoke: edit".toList) (lateTurns ++ more) =
        served ⟨[], ranEdit, false⟩ [.output "done\n".toList, .answer "motd".toList,
          .execute "vi motd".toList, .create "motd".toList "hello".toList]) := by
  have hpath : substituteVarsInString (invokeVars editorEnv "edit".toList) false
      "/etc/motd".toList = some "/etc/motd".toList := by
    decide +kernel
  have hitems : Exchanges editorEnv editorClient editorSection
      (invokeVars editorEnv "edit".toList) [] ⟨[], enteredEdit, false⟩ editorSection
      ⟨[], ranEdit, false⟩ [.output "done\n".toList, .answer "motd".toList,
        .execute "vi motd".toList, .create "motd".toList "hello".toList] := by
    have huser : exec (runItem editorEnv editorSection
        (.value (some "user".toList) "alice".toList) (invokeVars editorEnv "edit".toList))
        ⟨[], enteredEdit, false⟩ =
      (.ok (some (invokeVars editorEnv "edit".toList)), ⟨[], enteredEdit, false⟩) := by
      decide +kernel
    refine .cons (.quiet rfl huser rfl) ?_
    refine .cons (t := ⟨[], [.send "hello".toList, .send "bookout 5 motd\n".toList,
      .openRead "/etc/motd".toList] ++ enteredEdit, false⟩)
      (.message (a := .bookout "motd".toList "hello".toList) rfl (fun h => h.elim)
      (.bookout hpath rfl rfl rfl rfl) (by decide +kernel) ⟨by decide, by decide, rfl⟩) ?_
    have hline : '\n' ∉ "vi motd".toList := by decide
    refine .cons (t := ⟨[], sentEdit, false⟩) (.message (a := .clientrun "vi motd".toList) rfl
      (fun h => h.elim) .clientrun (by decide +kernel) hline) ?_
    have hedited : editorClient.readFile
        [.execute "vi motd".toList, .create "motd".toList "hello".toList]
        (getBasename "/etc/motd".toList) = some "hello world".toList := by
      decide +kernel
    refine .cons (.bookin hpath rfl ⟨by decide, by decide, by decide +kernel⟩ hedited (by decide)
      (Or.inr (by decide))) ?_
    exact .run rfl (@Succeeds.run _ _ _ _ _ "make".toList { cmd := "make".toList } _
      ("done\n".toList.map some) (by decide +kernel) (by decide +kernel) (by decide +kernel) rfl
      (Eq.mpr (if_pos rfl) rfl)) (by decide +kernel)
  exact (section_delivered (by decide) (by rfl) hitems lateTurns).1

end Invocation
