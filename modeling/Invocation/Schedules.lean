import Invocation.Lib.Schedules
import Invocation.Resume

/-!
# The schedule of a connection

The server and the client take turns in any order and move any number of bytes
at a time. They wait only for bytes, so the order decides nothing: all schedules
that come to rest, done or waiting for each other, end in the same state.
-/

namespace Invocation

set_option autoImplicit false

open Process Server Schedules

/-! ## Pieces of work, whatever is in the connection -/

/-- What the process does depends on no input, and leaves it alone. -/
def Oblivious {α : Type} (m : Server α) : Prop := ∀ s, Trace m s fun _ _ => True

namespace Oblivious

variable {α β : Type}

theorem bind {x : Server α} {f : α → Server β} (hx : Oblivious x) (hf : ∀ a, Oblivious (f a)) :
    Oblivious (x >>= f) :=
  fun s => (hx s).bind (fun a _ _ _ => hf a _) fun _ _ _ => trivial

theorem pure (a : α) : Oblivious (Pure.pure a : Server α) := fun _ => .pure trivial

theorem need (o : Option α) : Oblivious (Server.need o) :=
  fun _ => .need (fun _ _ => trivial) fun _ => trivial

theorem observe (f : List Event → α) : Oblivious (Server.observe f) := fun _ => .observe trivial

theorem emit (e : Event) : Oblivious (Server.emit e) := fun _ => .emit trivial

theorem isAuthenticated : Oblivious Server.isAuthenticated :=
  fun _ => .isAuthenticated fun _ => trivial

theorem ite {c : Prop} [Decidable c] {x y : Server α} (hx : Oblivious x) (hy : Oblivious y) :
    Oblivious (if c then x else y) :=
  fun s => .ite (fun _ => hx s) fun _ => hy s

theorem of_mute {m : Server α} (h : Mute m) : Oblivious m :=
  fun s => (h s).mono fun _ _ _ => trivial

end Oblivious

section Pieces

variable (env : Env)

theorem judgeRules_mute (peer : Peer) (rules : List Node) (result : Bool) :
    Mute (judgeRules peer rules result) := by
  induction rules generalizing result with
  | nil => exact .pure _
  | cons node rules ih =>
    rw [judgeRules]
    apply Mute.bind (.need _)
    intro tag
    cases ruleIdentity peer tag with
    | some identity => exact .bind (.need _) fun _ => .ite (ih true) (.pure _)
    | none =>
      refine .ite ?_ (ih result)
      exact .bind (.need _) fun _ => .bind .isAuthenticated fun _ => .ite (ih true) (.pure _)

theorem judgePermission_mute (command : Str) (rules : Option (List Node)) :
    Mute (judgePermission env command rules) := by
  have hgrant : Mute (grantCheck env command) :=
    .bind (.observe _) fun _ => .bind (.need _) fun _ => .bind (.emit rfl) fun _ => .pure _
  refine .bind hgrant fun _ => .ite (.pure _) ?_
  exact .bind (.need _) fun rules => judgeRules_mute env.peer rules false

theorem judgeSections_mute (command : Str) (sections : List Node) :
    Mute (judgeSections env command sections) := by
  induction sections with
  | nil => exact .pure _
  | cons node sections ih =>
    rw [judgeSections]
    exact .bind (.need _) fun tag => .ite (judgePermission_mute env command node.items?) ih

theorem runCommand_oblivious (details : Str) (vars : Vars) (section? : Option (List Node)) :
    Oblivious (runCommand env details vars section?) :=
  fun s => (runCommand_said env details vars section? s).mono fun _ _ _ => trivial

theorem enterSection_mute (prompts : List Prompt) (command : Str) (vars : Vars)
    (sections : List Node) : Mute (enterSection prompts command vars sections) := by
  induction sections with
  | nil => exact .pure _
  | cons node sections ih =>
    rw [enterSection]
    refine .bind (.need _) fun tag => .ite ?_ ih
    exact .bind (.need _) fun items => .bind (.emit rfl) fun _ => .pure _

theorem afterVerdict_oblivious (prompts : List Prompt) (goal : Goal) :
    Oblivious (afterVerdict env prompts goal) := by
  cases goal with
  | invoke command vars => exact .of_mute (enterSection_mute prompts command vars env.config)
  | exec command details =>
    exact .bind (.emit _) fun _ => .bind (runCommand_oblivious env details [] none) fun _ => .pure _

theorem afterJudgement_oblivious (prompts : List Prompt) (goal : Goal) (judgement : Judgement) :
    Oblivious (afterJudgement env prompts goal judgement) := by
  cases judgement with
  | verdict allowed =>
    refine .bind (.emit _) fun _ => .ite (afterVerdict_oblivious env prompts goal) ?_
    exact .bind (.emit _) fun _ => .pure _
  | prompt types rules => exact .bind (.emit _) fun _ => .bind (.emit _) fun _ => .pure _

theorem leavePrompt_oblivious (prompts : List Prompt) : Oblivious (leavePrompt env prompts) := by
  cases prompts with
  | nil => exact .pure _
  | cons p prompts =>
    refine .bind .isAuthenticated fun passed => .ite ?_ ?_
    · exact .bind (.of_mute (judgeRules_mute env.peer p.rules true)) fun judgement =>
        afterJudgement_oblivious env prompts p.goal judgement
    · exact .bind (.pure _) fun judgement => afterJudgement_oblivious env prompts p.goal judgement

theorem onRequest_oblivious (prompts : List Prompt) (line : Str) :
    Oblivious (onRequest env prompts line) := by
  unfold onRequest
  refine .ite (leavePrompt_oblivious env prompts)
    (.bind (.emit _) fun _ => .ite ?_ (.ite ?_ (.ite ?_ ?_)))
  · refine .bind ?_ fun _ => .pure _
    exact fun s => (handleClientAuth_trace env _ _ s).mono fun _ _ _ => trivial
  · exact .bind (.of_mute (judgeSections_mute env _ _)) fun _ =>
      afterJudgement_oblivious env prompts _ _
  · exact .bind (.of_mute (judgeSections_mute env _ _)) fun _ =>
      afterJudgement_oblivious env prompts _ _
  · exact .pure _

theorem askBookin_oblivious (prompts : List Prompt) (section_ rest : List Node) (vars : Vars)
    (path : Str) : Oblivious (askBookin env prompts section_ rest vars path) := by
  refine .bind (.need _) fun path' => .bind (.observe _) fun opened => .ite ?_ (.pure _)
  exact .bind (.emit _) fun _ => .bind (.emit _) fun _ => .pure _

theorem runItem_oblivious {item : Node} (h : bookinPath? item = none) (section_ : List Node)
    (vars : Vars) : Oblivious (runItem env section_ item vars) := by
  intro s
  cases item with
  | block tag sub => exact .pure trivial
  | value tag text =>
    cases tag with
    | none => exact .stop trivial
    | some tag =>
      apply runItem_trace env (not_bookin h)
      · exact fun _ _ => trivial
      · exact fun _ => bookout_trace text vars s
      · exact fun _ => trivial
      · exact runCommand_oblivious env text vars (some section_) s

theorem onItem_oblivious (prompts : List Prompt) (section_ : List Node) (vars : Vars)
    (rest : List Node) : Oblivious (onItem env prompts section_ vars rest) := by
  cases rest with
  | nil => exact .pure _
  | cons item rest =>
    simp only [onItem]
    cases hpath : bookinPath? item with
    | some path => exact askBookin_oblivious env prompts section_ rest vars path
    | none =>
      refine .bind (runItem_oblivious env hpath section_ vars) fun vars? => ?_
      cases vars? with
      | some vars => exact .pure _
      | none => exact .pure _

theorem onAnswer_oblivious (prompts : List Prompt) (section_ rest : List Node) (vars : Vars)
    (path line : Str) : Oblivious (onAnswer prompts section_ rest vars path line) := by
  unfold onAnswer
  cases announced line with
  | none => exact .bind (.emit _) fun _ => .pure _
  | some size => exact .pure _

theorem onUpload_oblivious (prompts : List Prompt) (section_ rest : List Node) (vars : Vars)
    (path content : Str) : Oblivious (onUpload prompts section_ rest vars path content) :=
  .bind (.emit _) fun _ => .bind (.emit _) fun _ => .bind (.emit _) fun _ => .pure _

end Pieces

/-- A piece of work has the same effect whatever else there is in the connection. -/
theorem Oblivious.work {m : Server Position} (h : Oblivious m) (server : ServerState) :
    ∃ position new auth, ∀ (c : Connection) (input : Str), c.server.history = server.history →
      c.server.authenticated = server.authenticated →
      c.work input m =
        { c with
          position := position
          server := ⟨input, new ++ server.history, auth⟩
          toClient := c.toClient ++ sentBytes new } := by
  obtain ⟨r, new, auth, -, hexec⟩ := h server
  refine ⟨afterWork r, new, auth, ?_⟩
  intro c input hhistory hauth
  obtain ⟨position, ⟨before, history, authenticated⟩, toClient, client, past⟩ := c
  obtain rfl : history = server.history := hhistory
  obtain rfl : authenticated = server.authenticated := hauth
  have hsent : (sentBytes (new ++ server.history)).drop (sentBytes server.history).length =
      sentBytes new := by
    rw [sentBytes_append, List.drop_left]
  unfold Connection.work
  simp only [hexec, hsent]
  rfl

/-! ## One byte at a time -/

inductive Side
  | server
  | client
deriving DecidableEq

/-- A turn that moves at most one byte. -/
def Connection.tick (env : Env) (client : Client) (c : Connection) : Side → Connection
  | .server => c.serverTurn env 0
  | .client => c.clientTurn client 0

/-- What a turn of the server does, whatever the client has done in the meantime. -/
structure ServerMove (env : Env) (c : Connection) where
  position : Position
  rest : Str
  new : List Event
  auth : Bool
  eq : ∀ (more : Str) (client : ClientPhase) (past : List ClientAction) (toClient : Str),
    Connection.serverTurn env 0
      { position := c.position
        server := { c.server with input := c.server.input ++ more }
        toClient := toClient
        client := client
        past := past } =
      { position := position
        server := ⟨rest ++ more, new ++ c.server.history, auth⟩
        toClient := toClient ++ sentBytes new
        client := client
        past := past }

/-- What a turn of the client does while the server goes on. -/
structure ClientMove (client : Client) (c : Connection) where
  phase : ClientPhase
  rest : Str
  sent : Str
  past : List ClientAction
  eq : ∀ (more : Str) (position : Position) (server : ServerState),
    Connection.clientTurn client 0
      { position := position
        server := server
        toClient := c.toClient ++ more
        client := c.client
        past := c.past } =
      { position := position
        server := { server with input := server.input ++ sent }
        toClient := rest ++ more
        client := phase
        past := past }

theorem completeLine_more {input line rest : Str} (h : completeLine input = some (line, rest))
    (more : Str) : completeLine (input ++ more) = some (line, rest ++ more) := by
  have hread := completeLine_append h more
  unfold completeLine at h ⊢
  split at h
  · rename_i hmem
    rw [if_pos (List.mem_append_left _ hmem)]
    exact hread
  · cases h

theorem serverTurn_move {env : Env} {c : Connection} (h : c.serverTurn env 0 ≠ c) :
    Nonempty (ServerMove env c) := by
  obtain ⟨⟨prompts, phase⟩, server, toClient, client, past⟩ := c
  cases phase with
  | finished => exact absurd rfl h
  | request =>
    cases hread : completeLine server.input with
    | none =>
      refine absurd ?_ h
      unfold Connection.serverTurn
      simp only [hread]
    | some p =>
      obtain ⟨line, rest⟩ := p
      obtain ⟨position, new, auth, hwork⟩ := (onRequest_oblivious env prompts line).work server
      refine ⟨position, rest, new, auth, ?_⟩
      intro more client past toClient
      unfold Connection.serverTurn
      simp only [completeLine_more hread more]
      exact hwork _ _ rfl rfl
  | items section_ rest vars =>
    obtain ⟨position, new, auth, hwork⟩ :=
      (onItem_oblivious env prompts section_ vars rest).work server
    refine ⟨position, server.input, new, auth, ?_⟩
    intro more client past toClient
    exact hwork _ _ rfl rfl
  | answer section_ rest vars path =>
    cases hread : completeLine server.input with
    | none =>
      refine absurd ?_ h
      unfold Connection.serverTurn
      simp only [hread]
    | some p =>
      obtain ⟨line, input⟩ := p
      obtain ⟨position, new, auth, hwork⟩ :=
        (onAnswer_oblivious prompts section_ rest vars path line).work server
      refine ⟨position, input, new, auth, ?_⟩
      intro more client past toClient
      unfold Connection.serverTurn
      simp only [completeLine_more hread more]
      exact hwork _ _ rfl rfl
  | upload section_ rest vars path left content =>
    by_cases hleft : left = 0
    · obtain ⟨position, new, auth, hwork⟩ :=
        (onUpload_oblivious prompts section_ rest vars path content).work server
      refine ⟨position, server.input, new, auth, ?_⟩
      intro more client past toClient
      unfold Connection.serverTurn
      simp only [if_pos hleft]
      exact hwork _ _ rfl rfl
    · have hone : min (0 + 1) left = 1 := by omega
      obtain ⟨input, history, authenticated⟩ := server
      cases input with
      | nil =>
        refine absurd ?_ h
        unfold Connection.serverTurn
        simp only [if_neg hleft, List.take_nil, List.drop_nil, List.append_nil, List.length_nil,
          Nat.sub_zero]
      | cons b input =>
        refine ⟨⟨prompts, .upload section_ rest vars path (left - 1) (content ++ [b])⟩, input, [],
          authenticated, ?_⟩
        intro more client past toClient
        unfold Connection.serverTurn
        simp only [if_neg hleft, hone]
        show _ = Connection.mk _ _ (toClient ++ []) _ _
        rw [List.append_nil]
        rfl

theorem respond_move (client : Client) (past : List ClientAction) (command : ClientCommand) :
    ∃ phase sent past', ∀ (position : Position) (server : ServerState) (toClient : Str),
      Connection.respond client
        { position := position
          server := server
          toClient := toClient
          client := .lines
          past := past } command =
        { position := position
          server := { server with input := server.input ++ sent }
          toClient := toClient
          client := phase
          past := past' } := by
  have hnothing : ∀ server : ServerState, { server with input := server.input ++ [] } = server :=
    fun server => congrArg (fun input => { server with input := input }) server.input.append_nil
  cases command with
  | bookout details =>
    by_cases hcreates : client.creates past (bookoutDetails details).2 = true
    · refine ⟨.content (bookoutDetails details).2 [] (sendLimit (bookoutDetails details).1), [],
        past, ?_⟩
      intro position server toClient
      unfold Connection.respond
      simp only [if_pos hcreates, hnothing]
    · refine ⟨.lines, [], .cannotCreate (bookoutDetails details).2 :: past, ?_⟩
      intro position server toClient
      unfold Connection.respond
      simp only [if_neg hcreates, hnothing]
  | bookin details =>
    cases hread : client.readFile past (stripTrailingWhitespace details) with
    | some content =>
      refine ⟨.lines, clientBookinFile (client.size past) (stripTrailingWhitespace details) content,
        .answer (stripTrailingWhitespace details) :: past, ?_⟩
      intro position server toClient
      unfold Connection.respond
      simp only [hread]
    | none =>
      refine ⟨.lines, [], .cannotOpen (stripTrailingWhitespace details) :: past, ?_⟩
      intro position server toClient
      unfold Connection.respond
      simp only [hread, hnothing]
  | clientrun details =>
    refine ⟨.lines, [], .execute (stripTrailingWhitespace details) :: past, ?_⟩
    intro position server toClient
    rw [hnothing]
    rfl
  | auth => exact ⟨.lines, passwordLine client.password, .authenticate :: past, fun _ _ _ => rfl⟩
  | okay =>
    refine ⟨.output [], [], past, ?_⟩
    intro position server toClient
    rw [hnothing]
    rfl
  | other line =>
    refine ⟨.lines, [], .print line :: past, ?_⟩
    intro position server toClient
    rw [hnothing]
    rfl

/-- A turn that the client can make on what has come it makes in the same way when more has come. -/
theorem clientTurn_move {client : Client} {c : Connection} (hopen : c.position.phase ≠ .finished)
    (h : c.clientTurn client 0 ≠ c) : Nonempty (ClientMove client c) := by
  have hnothing : ∀ server : ServerState, { server with input := server.input ++ [] } = server :=
    fun server => congrArg (fun input => { server with input := input }) server.input.append_nil
  obtain ⟨⟨prompts, phase⟩, server, toClient, side, past⟩ := c
  cases side with
  | gone => exact absurd rfl h
  | lines =>
    cases hread : completeLine toClient with
    | none =>
      refine absurd ?_ h
      unfold Connection.clientTurn
      simp only [hread]
    | some p =>
      obtain ⟨line, rest⟩ := p
      obtain ⟨phase, sent, past', hrespond⟩ := respond_move client past (clientCommand line)
      refine ⟨phase, rest, sent, past', ?_⟩
      intro more position server
      unfold Connection.clientTurn
      simp only [completeLine_more hread more]
      exact hrespond position server (rest ++ more)
  | content name got left =>
    by_cases hleft : left = 0
    · refine ⟨.lines, toClient, [], .create name got :: past, ?_⟩
      intro more position server
      unfold Connection.clientTurn
      simp only [if_pos hleft, hnothing]
    · have hone : min (0 + 1) left = 1 := by omega
      cases toClient with
      | nil =>
        refine absurd ?_ h
        unfold Connection.clientTurn
        simp only [if_neg hleft]
        split
        · exact absurd rfl hopen
        · simp only [List.take_nil, List.drop_nil, List.append_nil, List.length_nil, Nat.sub_zero]
      | cons b rest =>
        refine ⟨.content name (got ++ [b]) (left - 1), rest, [], past, ?_⟩
        intro more position server
        unfold Connection.clientTurn
        simp only [if_neg hleft, hone, hnothing]
        rfl
  | output got =>
    cases toClient with
    | nil =>
      refine absurd ?_ h
      unfold Connection.clientTurn
      simp only
      split
      · exact absurd rfl hopen
      · simp only [List.take_nil, List.drop_nil, List.append_nil]
    | cons b rest =>
      refine ⟨.output (got ++ [b]), rest, [], past, ?_⟩
      intro more position server
      unfold Connection.clientTurn
      simp only [hnothing]
      rfl

/-! ## Schedules -/

theorem ServerMove.at {env : Env} {c : Connection} (move : ServerMove env c) :
    c.serverTurn env 0 = { c with
      position := move.position
      server := ⟨move.rest, move.new ++ c.server.history, move.auth⟩
      toClient := c.toClient ++ sentBytes move.new } := by
  have heq := move.eq [] c.client c.past c.toClient
  rw [List.append_nil, List.append_nil] at heq
  exact heq

theorem ClientMove.at {client : Client} {c : Connection} (move : ClientMove client c) :
    c.clientTurn client 0 = { c with
      server := { c.server with input := c.server.input ++ move.sent }
      toClient := move.rest
      client := move.phase
      past := move.past } := by
  have heq := move.eq [] c.position c.server
  rw [List.append_nil, List.append_nil] at heq
  exact heq

/-- Server and client do not get into each other's way. -/
theorem turns_commute {env : Env} {client : Client} {c : Connection}
    (hserver : c.serverTurn env 0 ≠ c) (hclient : c.clientTurn client 0 ≠ c) :
    (c.serverTurn env 0).clientTurn client 0 = (c.clientTurn client 0).serverTurn env 0 ∧
      (c.serverTurn env 0).clientTurn client 0 ≠ c.serverTurn env 0 ∧
      (c.clientTurn client 0).serverTurn env 0 ≠ c.clientTurn client 0 := by
  have hopen : c.position.phase ≠ .finished := by
    intro hphase
    apply hserver
    unfold Connection.serverTurn
    rw [hphase]
  obtain ⟨s⟩ := serverTurn_move hserver
  obtain ⟨k⟩ := clientTurn_move hopen hclient
  have hthen : (c.serverTurn env 0).clientTurn client 0 =
      { position := s.position
        server := ⟨s.rest ++ k.sent, s.new ++ c.server.history, s.auth⟩
        toClient := k.rest ++ sentBytes s.new
        client := k.phase
        past := k.past } := by
    rw [s.at]
    exact k.eq (sentBytes s.new) s.position ⟨s.rest, s.new ++ c.server.history, s.auth⟩
  have hbefore : (c.clientTurn client 0).serverTurn env 0 =
      { position := s.position
        server := ⟨s.rest ++ k.sent, s.new ++ c.server.history, s.auth⟩
        toClient := k.rest ++ sentBytes s.new
        client := k.phase
        past := k.past } := by
    rw [k.at]
    exact s.eq k.sent k.phase k.past k.rest
  refine ⟨hthen.trans hbefore.symm, fun hsame => ?_, fun hsame => ?_⟩
  · rw [hthen, s.at, Connection.mk.injEq, ServerState.mk.injEq] at hsame
    obtain ⟨-, ⟨hinput, -⟩, hbytes, hphase, hpast⟩ := hsame
    have hsent : k.sent = [] := List.append_right_eq_self.mp hinput
    have hrest : k.rest = c.toClient := List.append_cancel_right hbytes
    apply hclient
    rw [k.at, hsent, hrest, hphase, hpast, List.append_nil]
  · rw [hbefore, k.at, Connection.mk.injEq, ServerState.mk.injEq] at hsame
    obtain ⟨hposition, ⟨hinput, hhistory, hauth⟩, -⟩ := hsame
    have hnew : s.new = [] := List.append_left_eq_self.mp hhistory
    have hrest : s.rest = c.server.input := List.append_cancel_right hinput
    apply hserver
    rw [s.at, hnew, hrest, hposition, hauth]
    show Connection.mk c.position c.server (c.toClient ++ []) c.client c.past = c
    rw [List.append_nil]

theorem ticks_commute (env : Env) (client : Client) : Commuting (Connection.tick env client) := by
  intro c a b ha hb
  cases a with
  | server =>
    cases b with
    | server => exact .inl rfl
    | client =>
      obtain ⟨heq, hsc, hcs⟩ := turns_commute ha hb
      exact .inr ⟨heq, hsc, hcs⟩
  | client =>
    cases b with
    | server =>
      obtain ⟨heq, hsc, hcs⟩ := turns_commute hb ha
      exact .inr ⟨heq.symm, hcs, hsc⟩
    | client => exact .inl rfl

theorem take_one_more {β : Type} (n : Nat) (bytes : List β) :
    bytes.take (n + 1) ++ (bytes.drop (n + 1)).take 1 = bytes.take (n + 2) ∧
      (bytes.drop (n + 1)).drop 1 = bytes.drop (n + 2) := by
  constructor
  · rw [← List.take_add]
  · rw [List.drop_drop]

/-- A turn for one more byte is a turn and another one for that byte, if there is one to move. -/
theorem serverTurn_succ (env : Env) (n : Nat) (c : Connection) :
    c.serverTurn env (n + 1) = c.serverTurn env n ∨
      c.serverTurn env (n + 1) = (c.serverTurn env n).serverTurn env 0 := by
  obtain ⟨⟨prompts, phase⟩, server, toClient, client, past⟩ := c
  cases phase with
  | finished => exact .inl rfl
  | request => exact .inl rfl
  | items section_ rest vars => exact .inl rfl
  | answer section_ rest vars path => exact .inl rfl
  | upload section_ rest vars path left content =>
    by_cases hleft : left ≤ n + 1
    · left
      have hsame : min (n + 1 + 1) left = min (n + 1) left := by omega
      unfold Connection.serverTurn
      simp only [hsame]
    · right
      obtain ⟨htake, hdrop⟩ := take_one_more n server.input
      have hlength := congrArg List.length htake
      rw [List.length_append] at hlength
      have hbound := List.length_take_le (n + 1) server.input
      have hmore : min (n + 1 + 1) left = n + 2 := by omega
      have hfirst : min (n + 1) left = n + 1 := by omega
      have hopen : left ≠ 0 := by omega
      have hstill : left - (server.input.take (n + 1)).length ≠ 0 := by omega
      have hone : min (0 + 1) (left - (server.input.take (n + 1)).length) = 1 := by omega
      unfold Connection.serverTurn
      simp only [if_neg hopen, hmore, hfirst, if_neg hstill, hone, List.append_assoc, htake, hdrop,
        Nat.sub_sub, hlength]

/-- All that has come, or a byte behind the ones that are moved. -/
theorem few_or_more {β : Type} (n : Nat) (bytes : List β) :
    (bytes.take (n + 2) = bytes.take (n + 1) ∧ bytes.drop (n + 2) = bytes.drop (n + 1)) ∨
      ∃ b rest, bytes.drop (n + 1) = b :: rest := by
  by_cases h : bytes.length ≤ n + 1
  · left
    rw [List.take_of_length_le h, List.take_of_length_le (by omega), List.drop_eq_nil_of_le h,
      List.drop_eq_nil_of_le (by omega)]
    exact ⟨rfl, rfl⟩
  · right
    apply List.exists_cons_of_ne_nil
    rw [Ne, List.drop_eq_nil_iff]
    exact h

section Bytes

variable (client : Client) (position : Position) (server : ServerState) (past : List ClientAction)

theorem clientTurn_take (n : Nat) {bytes : Str} (hbytes : bytes ≠ []) (name got : Str) {left : Nat}
    (hleft : left ≠ 0) :
    Connection.clientTurn client n ⟨position, server, bytes, .content name got left, past⟩ =
      ⟨position, server, bytes.drop (min (n + 1) left),
        .content name (got ++ bytes.take (min (n + 1) left))
          (left - (bytes.take (min (n + 1) left)).length), past⟩ := by
  obtain ⟨b, rest, rfl⟩ := List.exists_cons_of_ne_nil hbytes
  unfold Connection.clientTurn
  simp only [if_neg hleft]

theorem clientTurn_output (n : Nat) {bytes : Str} (hbytes : bytes ≠ []) (got : Str) :
    Connection.clientTurn client n ⟨position, server, bytes, .output got, past⟩ =
      ⟨position, server, bytes.drop (n + 1), .output (got ++ bytes.take (n + 1)), past⟩ := by
  obtain ⟨b, rest, rfl⟩ := List.exists_cons_of_ne_nil hbytes
  rfl

end Bytes

theorem clientTurn_succ (client : Client) (n : Nat) (c : Connection) :
    c.clientTurn client (n + 1) = c.clientTurn client n ∨
      c.clientTurn client (n + 1) = (c.clientTurn client n).clientTurn client 0 := by
  obtain ⟨position, server, toClient, side, past⟩ := c
  by_cases hempty : toClient = []
  · left
    subst hempty
    obtain ⟨prompts, phase⟩ := position
    unfold Connection.clientTurn
    cases side with
    | gone => rfl
    | lines => rfl
    | content name got left => cases phase <;> simp only [List.take_nil, List.drop_nil]
    | output got => cases phase <;> simp only [List.take_nil, List.drop_nil]
  · have hmany := few_or_more n toClient
    obtain ⟨htake, hdrop⟩ := take_one_more n toClient
    cases side with
    | gone => exact .inl rfl
    | lines => exact .inl rfl
    | content name got left =>
      by_cases hleft : left = 0
      · left
        unfold Connection.clientTurn
        simp only [if_pos hleft]
      · rw [clientTurn_take client position server past _ hempty name got hleft,
          clientTurn_take client position server past _ hempty name got hleft]
        by_cases hlast : left ≤ n + 1
        · left
          rw [Nat.min_eq_right (by omega), Nat.min_eq_right hlast]
        · rw [Nat.min_eq_left (by omega), Nat.min_eq_left (by omega)]
          rcases hmany with ⟨hsame, hsame'⟩ | ⟨b, rest, hrest⟩
          · left
            rw [hsame, hsame']
          · right
            have hlength := congrArg List.length htake
            have hbound := List.length_take_le (n + 1) toClient
            rw [List.length_append] at hlength
            rw [clientTurn_take client position server past _
              (by rw [hrest]; exact List.cons_ne_nil _ _)
                name _ (by omega), Nat.min_eq_left (by omega), Nat.sub_sub, hlength,
                List.append_assoc,
              htake, hdrop]
    | output got =>
      rw [clientTurn_output client position server past _ hempty,
        clientTurn_output client position server past _ hempty]
      rcases hmany with ⟨hsame, hsame'⟩ | ⟨b, rest, hrest⟩
      · left
        rw [hsame, hsame']
      · right
        rw [clientTurn_output client position server past _
            (by rw [hrest]; exact List.cons_ne_nil _ _), List.append_assoc, htake, hdrop]

/-- A turn that moves several bytes moves them one after the other. -/
theorem iterate_turns (turn : Nat → Connection → Connection)
    (hsucc : ∀ n c, turn (n + 1) c = turn n c ∨ turn (n + 1) c = turn 0 (turn n c)) (n : Nat)
    (c : Connection) : ∃ k, turn n c = (turn 0)^[k] c := by
  induction n with
  | zero => exact ⟨1, rfl⟩
  | succ n ih =>
    obtain ⟨k, hk⟩ := ih
    rcases hsucc n c with h | h
    · exact ⟨k, h.trans hk⟩
    · refine ⟨k + 1, ?_⟩
      rw [h, hk, Function.iterate_succ_apply']

theorem path_turns (env : Env) (client : Client) (turns : List Turn) (c : Connection) :
    ∃ n, Path (Connection.tick env client) n c (Runs.run (Connection.step env client) c turns) := by
  induction turns generalizing c with
  | nil => exact ⟨0, .refl c⟩
  | cons turn turns ih =>
    obtain ⟨k, hk⟩ := ih (c.step env client turn)
    have hturn : ∃ j, Path (Connection.tick env client) j c (c.step env client turn) := by
      cases turn with
      | server n =>
        obtain ⟨j, hj⟩ := iterate_turns (fun n c => c.serverTurn env n)
          (serverTurn_succ env) n c
        have hpath : ∃ i, Path (Connection.tick env client) i c
            ((fun c => c.tick env client .server)^[j] c) := path_iterate Side.server j c
        exact (congrArg (fun c' => ∃ i, Path (Connection.tick env client) i c c') hj).mpr hpath
      | client n =>
        obtain ⟨j, hj⟩ := iterate_turns (fun n c => c.clientTurn client n)
          (clientTurn_succ client) n c
        have hpath : ∃ i, Path (Connection.tick env client) i c
            ((fun c => c.tick env client .client)^[j] c) := path_iterate Side.client j c
        exact (congrArg (fun c' => ∃ i, Path (Connection.tick env client) i c c') hj).mpr hpath
    obtain ⟨j, hj⟩ := hturn
    exact ⟨j + k, hj.trans hk⟩

/-- Neither of the two programs can go on. -/
def Connection.AtRest (env : Env) (client : Client) (c : Connection) : Prop :=
  Resting (Connection.step env client) c

theorem Connection.AtRest.ticks {env : Env} {client : Client} {c : Connection}
    (h : c.AtRest env client) : Resting (Connection.tick env client) c := by
  intro side
  cases side with
  | server => exact h (.server 0)
  | client => exact h (.client 0)

theorem turns_of_sides (env : Env) (client : Client) (sides : List Side) (c : Connection) :
    ∃ turns, Runs.run (Connection.step env client) c turns =
      Runs.run (Connection.tick env client) c sides := by
  induction sides generalizing c with
  | nil => exact ⟨[], rfl⟩
  | cons side sides ih =>
    obtain ⟨turns, hturns⟩ := ih (c.tick env client side)
    cases side with
    | server => exact ⟨.server 0 :: turns, hturns⟩
    | client => exact ⟨.client 0 :: turns, hturns⟩

/-- When one schedule of a connection comes to rest, every other one can be continued to the same
end, and has no other one. -/
theorem connection_schedule_free (env : Env) (client : Client) (c : Connection)
    {turns : List Turn} (hrest : (Runs.run (Connection.step env client) c turns).AtRest env client)
    (others : List Turn) :
    (∃ more, Runs.run (Connection.step env client) c (others ++ more) =
        Runs.run (Connection.step env client) c turns) ∧
      ((Runs.run (Connection.step env client) c others).AtRest env client →
        Runs.run (Connection.step env client) c others =
          Runs.run (Connection.step env client) c turns) := by
  obtain ⟨n, hn⟩ := path_turns env client turns c
  obtain ⟨k, hk⟩ := path_turns env client others c
  constructor
  · obtain ⟨m, -, hm⟩ := hn.rest (ticks_commute env client) hrest.ticks hk
    obtain ⟨sides, hsides⟩ := hm.schedule
    obtain ⟨more, hmore⟩ := turns_of_sides env client sides _
    refine ⟨more, ?_⟩
    rw [Runs.run_append, hmore, hsides]
  · intro hother
    exact (hn.unique (ticks_commute env client) hrest.ticks hk hother.ticks).2.symm

theorem Connection.AtRest.ended {env : Env} {client : Client} {c : Connection}
    (hserver : c.position.phase = .finished) (hclient : c.client = .gone) :
    c.AtRest env client := by
  intro turn
  cases turn with
  | server n =>
    show c.serverTurn env n = c
    unfold Connection.serverTurn
    rw [hserver]
  | client n =>
    show c.clientTurn client n = c
    unfold Connection.clientTurn
    rw [hclient]

/-- The client answers late, and everything comes in single bytes. -/
def lateTurns : List Turn :=
  List.replicate 3 (.server 0) ++ [.client 0, .client 3] ++ List.replicate 20 (.server 0) ++
    List.replicate 10 (.client 0)

theorem connection_schedule_free_editing :
    Runs.run (Connection.step editingEnv editingClient) (Connection.start "invoke: edit".toList)
        lateTurns =
      Runs.run (Connection.step editingEnv editingClient) (Connection.start "invoke: edit".toList)
        editingTurns :=
  (connection_schedule_free editingEnv editingClient _ (.ended (by rfl) (by decide +kernel))
    lateTurns).2 (.ended (by rfl) (by decide +kernel))

end Invocation
