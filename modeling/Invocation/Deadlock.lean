import Invocation.Lib.Runs
import Invocation.Permission
import Invocation.Traces

/-!
# Who speaks next

As long as no prompt is opened, every item fits its messages and the client can
answer what it is asked, the two programs agree on who speaks next: a server
that waits has been sent what it waits for, or its question is on its way.
-/

namespace Invocation

set_option autoImplicit false

open Process Server

/-! ## What the steps of a run have to meet -/

/-- The client can open the file it is asked for and sends what it announces; it can create the
file it is sent. -/
def ClientFits (client : Client) (past : List ClientAction) : ClientCommand → Prop
  | .bookin details => ∃ content ∈ client.readFile past (stripTrailingWhitespace details),
    content.length < 2 ^ 31 ∧ (content = [] ∨ 0 < client.size past)
  | .bookout details => client.creates past (bookoutDetails details).2 = true ∨
    sendLimit (bookoutDetails details).1 = 0
  | _ => True

instance decidableClientFits (client : Client) (past : List ClientAction) :
    ∀ command, Decidable (ClientFits client past command)
  | .bookin _ => inferInstanceAs (Decidable (∃ _ ∈ _, _ ∧ _))
  | .bookout _ => inferInstanceAs (Decidable (_ ∨ _))
  | .clientrun _ => inferInstanceAs (Decidable True)
  | .auth => inferInstanceAs (Decidable True)
  | .okay => inferInstanceAs (Decidable True)
  | .other _ => inferInstanceAs (Decidable True)

/-- The next request needs no password; the next item fits. -/
def ServerPhase.Fits (env : Env) (server : ServerState) : ServerPhase → Prop
  | .request => ∀ p ∈ completeLine server.input, ¬ AsksPassword env server.history p.1
  | .items _ rest vars => ∀ item ∈ rest.head?, ItemFits env vars server item
  | .answer _ _ _ _ => True
  | .upload _ _ _ _ _ _ => True
  | .finished => True

instance decidableServerFits (env : Env) (server : ServerState) :
    ∀ phase : ServerPhase, Decidable (phase.Fits env server)
  | .request => inferInstanceAs (Decidable (∀ _ ∈ _, ¬ _))
  | .items _ _ _ => inferInstanceAs (Decidable (∀ _ ∈ _, _))
  | .answer _ _ _ _ => inferInstanceAs (Decidable True)
  | .upload _ _ _ _ _ _ => inferInstanceAs (Decidable True)
  | .finished => inferInstanceAs (Decidable True)

/-- The condition on a turn, in the state it finds. -/
def Connection.Fits (env : Env) (client : Client) (c : Connection) : Turn → Prop
  | .server _ => c.position.phase.Fits env c.server
  | .client _ => c.client = .lines →
    ∀ p ∈ completeLine c.toClient, ClientFits client c.past (clientCommand p.1)

instance decidableConnectionFits (env : Env) (client : Client) (c : Connection) :
    ∀ turn, Decidable (c.Fits env client turn)
  | .server _ => inferInstanceAs (Decidable (ServerPhase.Fits _ _ _))
  | .client _ => inferInstanceAs (Decidable (_ → ∀ _ ∈ _, _))

/-! ## What is on its way to the client -/

/-- Harmless messages in front of `tail`. -/
inductive Messages (tail : Str) : Str → Prop
  | nil : Messages tail tail
  | cons {message rest : Str} : Harmless message → Messages tail rest →
    Messages tail (message ++ rest)

/-- The client comes to `tail` through harmless messages. -/
def Pending (tail bytes : Str) : ClientPhase → Prop
  | .lines => Messages tail bytes
  | .content _ _ left =>
    ∃ body rest, bytes = body ++ rest ∧ body.length = left ∧ Messages tail rest
  | .output _ => False
  | .gone => False

theorem Messages.append {bytes more tail : Str} (h : Messages [] bytes)
    (hmore : Messages tail more) :
    Messages tail (bytes ++ more) := by
  induction h with
  | nil => exact hmore
  | cons hmessage _ ih =>
    rw [List.append_assoc]
    exact .cons hmessage ih

theorem Pending.append {bytes more tail : Str} {phase : ClientPhase} (h : Pending [] bytes phase)
    (hmore : Messages tail more) : Pending tail (bytes ++ more) phase := by
  cases phase with
  | lines => exact Messages.append h hmore
  | content name got left =>
    obtain ⟨body, rest, rfl, hlength, hrest⟩ := h
    refine ⟨body, rest ++ more, ?_, hlength, hrest.append hmore⟩
    rw [List.append_assoc]
  | output got => cases h
  | gone => cases h

theorem Messages.one {message : Str} (h : Harmless message) : Messages [] message := by
  have hone := Messages.cons h (@Messages.nil [])
  rwa [List.append_nil] at hone

theorem Harmless.newline {message : Str} (h : Harmless message) : '\n' ∈ message := by
  cases h with
  | run => exact List.mem_append_right _ (List.mem_singleton_self _)
  | other => exact List.mem_append_right _ (List.mem_singleton_self _)
  | content => exact List.mem_append_right _ List.mem_cons_self

theorem Pending.not_waits {tail bytes : Str} {phase : ClientPhase} (h : Pending tail bytes phase)
    (htail : '\n' ∈ tail) : ¬ phase.Waits bytes := by
  cases phase with
  | lines =>
    intro hwaits
    apply hwaits
    cases h with
    | nil => exact htail
    | cons hmessage => exact List.mem_append_left _ hmessage.newline
  | content name got left =>
    obtain ⟨body, rest, rfl, hlength, hrest⟩ := h
    rintro ⟨hpos, hnil⟩
    have hbody : body = [] := (List.append_eq_nil_iff.mp hnil).1
    rw [hbody] at hlength
    rw [← hlength] at hpos
    exact Nat.lt_irrefl _ hpos
  | output got => cases h
  | gone => exact fun hwaits => hwaits

/-! ## The states of a run -/

inductive InStep (c : Connection) : Prop
  | finished : c.position.phase = .finished → InStep c
  | request {line : Str} : c.position = ⟨[], .request⟩ → '\n' ∉ line →
    c.server.input = line ++ ['\n'] → c.toClient = [] → c.client = .lines → InStep c
  | streaming {section_ rest : List Node} {vars : Vars} :
    c.position = ⟨[], .items section_ rest vars⟩ → Streams c.server.history → InStep c
  | items {section_ rest : List Node} {vars : Vars} :
    c.position = ⟨[], .items section_ rest vars⟩ → c.server.input = [] →
    Pending [] c.toClient c.client → InStep c
  | asked {section_ rest : List Node} {vars : Vars} {path question details : Str} :
    c.position = ⟨[], .answer section_ rest vars path⟩ → c.server.input = [] →
    '\n' ∉ question → clientCommand question = .bookin details → '\n' ∉ details →
    Pending (question ++ ['\n']) c.toClient c.client → InStep c
  | answered {section_ rest : List Node} {vars : Vars} {path line payload : Str} {size : Nat} :
    c.position = ⟨[], .answer section_ rest vars path⟩ → '\n' ∉ line →
    c.server.input = line ++ '\n' :: payload → announced (line ++ ['\n']) = some size →
    sendLimit size = payload.length → c.toClient = [] → c.client = .lines → InStep c
  | upload {section_ rest : List Node} {vars : Vars} {path content : Str} {left : Nat} :
    c.position = ⟨[], .upload section_ rest vars path left content⟩ →
    c.server.input.length = left → c.toClient = [] → c.client = .lines → InStep c

theorem InStep.not_deadlocked {c : Connection} (h : InStep c) : ¬ c.Deadlocked := by
  rintro ⟨hserver, hclient⟩
  cases h with
  | finished hphase =>
    rw [hphase] at hserver
    exact hserver
  | request hposition hline hinput _ _ =>
    rw [hposition, hinput] at hserver
    exact hserver (List.mem_append_right _ (List.mem_singleton_self _))
  | streaming hposition _ =>
    rw [hposition] at hserver
    exact hserver
  | items hposition _ _ =>
    rw [hposition] at hserver
    exact hserver
  | asked _ _ _ _ _ hpending =>
    exact hpending.not_waits (List.mem_append_right _ (List.mem_singleton_self _)) hclient
  | answered hposition _ hinput _ _ _ _ =>
    rw [hposition, hinput] at hserver
    exact hserver (List.mem_append_right _ List.mem_cons_self)
  | upload hposition hlength _ _ =>
    rw [hposition] at hserver
    obtain ⟨hpos, hnil⟩ := hserver
    rw [hnil] at hlength
    rw [← hlength] at hpos
    exact Nat.lt_irrefl _ hpos

/-! ## The server's turns -/

theorem completeLine_line {line : Str} (h : '\n' ∉ line) (rest : Str) :
    completeLine (line ++ '\n' :: rest) = some (line ++ ['\n'], rest) := by
  rw [completeLine, if_pos (List.mem_append_right _ List.mem_cons_self), readLine_line h]

theorem completeLine_nil : completeLine [] = none := rfl

/-- Where a piece of work leaves the server. -/
def afterWork (r : Except Halt Position) : Position :=
  match r with
  | .ok position => position
  | .error _ => ⟨[], .finished⟩

theorem Connection.work_eq {c : Connection} {m : Server Position}
    {Q : Except Halt Position → List Event → Prop} (h : Trace m c.server Q) (input : Str) :
    ∃ r new auth, Q r new ∧ c.work input m =
      { c with
        position := afterWork r
        server := ⟨input, new ++ c.server.history, auth⟩
        toClient := c.toClient ++ sentBytes new } := by
  obtain ⟨r, new, auth, hr, hexec⟩ := h
  refine ⟨r, new, auth, hr, ?_⟩
  have hsent : (sentBytes (new ++ c.server.history)).drop (sentBytes c.server.history).length =
      sentBytes new := by
    rw [sentBytes_append, List.drop_left]
  unfold Connection.work
  simp only [hexec, hsent]
  rfl

section ServerTurn

variable {env : Env} {c : Connection}

theorem work_request {line : Str} (h : ¬ AsksPassword env c.server.history line)
    (hbytes : c.toClient = []) (hclient : c.client = .lines) :
    InStep (c.work [] (onRequest env [] line)) := by
  obtain ⟨r, new, auth, hr, hwork⟩ := Connection.work_eq (onRequest_outcome env h) []
  rw [hwork]
  cases hr with
  | stopped => exact .finished rfl
  | finished => exact .finished rfl
  | entered hsent =>
    refine .items rfl rfl ?_
    rw [hbytes, hsent, hclient]
    exact Messages.nil

theorem work_items {section_ rest : List Node} {vars : Vars}
    (hfits : ∀ item, rest.head? = some item → ItemFits env vars c.server item)
    (h : Streams c.server.history ∨ (c.server.input = [] ∧ Pending [] c.toClient c.client)) :
    InStep (c.work c.server.input (onItem env [] section_ vars rest)) := by
  obtain ⟨r, new, auth, hr, hwork⟩ :=
    Connection.work_eq (@onItem_outcome env section_ rest vars c.server hfits) c.server.input
  rw [hwork]
  cases hr with
  | stopped => exact .finished rfl
  | finished => exact .finished rfl
  | next hsaid =>
    rcases h with h | ⟨hinput, hpending⟩
    · exact .streaming rfl h.of_later
    · rcases hsaid with hstreams | hnone | hharmless
      · exact .streaming rfl hstreams.append
      · refine .items rfl hinput ?_
        rw [hnone, List.append_nil]
        exact hpending
      · exact .items rfl hinput (hpending.append (.one hharmless))
  | asked hline hcommand hname hsent hquiet =>
    rcases h with h | ⟨hinput, hpending⟩
    · exact absurd h hquiet
    · refine .asked rfl hinput hline hcommand hname ?_
      rw [hsent]
      exact hpending.append .nil

theorem work_upload {section_ rest : List Node} {vars : Vars} {path content : Str}
    (hinput : c.server.input = []) (hbytes : c.toClient = []) (hclient : c.client = .lines) :
    InStep (c.work c.server.input (onUpload [] section_ rest vars path content)) := by
  have htrace : Trace (onUpload [] section_ rest vars path content) c.server fun r new =>
      r = .ok ⟨[], .items section_ rest vars⟩ ∧ sentBytes new = [] :=
    ⟨_, [.restoreOwner path, .rename (path ++ "+".toList) path,
      .writeFile (path ++ "+".toList) content], c.server.authenticated, ⟨rfl, rfl⟩, fun _ => rfl⟩
  obtain ⟨r, new, auth, ⟨rfl, hsent⟩, hwork⟩ := Connection.work_eq htrace c.server.input
  rw [hwork]
  refine .items rfl hinput ?_
  rw [hbytes, hsent, hclient]
  exact Messages.nil

theorem InStep.serverTurn (h : InStep c) {client : Client} {n : Nat}
    (hfits : c.Fits env client (.server n)) : InStep (c.serverTurn env n) := by
  cases h with
  | finished hphase =>
    have hsame : c.serverTurn env n = c := by
      unfold Connection.serverTurn
      rw [hphase]
    rw [hsame]
    exact .finished hphase
  | @request line hposition hline hinput hbytes hclient =>
    have hread : completeLine c.server.input = some (line ++ ['\n'], []) := by
      rw [hinput]
      exact completeLine_line hline []
    unfold Connection.Fits at hfits
    unfold Connection.serverTurn
    simp only [hposition, hread, ServerPhase.Fits] at hfits ⊢
    exact work_request (hfits _ rfl) hbytes hclient
  | @streaming section_ rest vars hposition hstreams =>
    unfold Connection.Fits at hfits
    unfold Connection.serverTurn
    simp only [hposition] at hfits ⊢
    exact work_items hfits (Or.inl hstreams)
  | @items section_ rest vars hposition hinput hpending =>
    unfold Connection.Fits at hfits
    unfold Connection.serverTurn
    simp only [hposition] at hfits ⊢
    exact work_items hfits (Or.inr ⟨hinput, hpending⟩)
  | asked hposition hinput hline hcommand hname hpending =>
    have hsame : c.serverTurn env n = c := by
      unfold Connection.serverTurn
      simp only [hposition, hinput, completeLine_nil]
    rw [hsame]
    exact .asked hposition hinput hline hcommand hname hpending
  | @answered section_ rest vars path line payload size hposition hline hinput hsize hlength hbytes
      hclient =>
    have hread : completeLine c.server.input = some (line ++ ['\n'], payload) := by
      rw [hinput]
      exact completeLine_line hline payload
    have htrace : Trace (onAnswer [] section_ rest vars path (line ++ ['\n'])) c.server
        fun r new => r = .ok ⟨[], .upload section_ rest vars path (sendLimit size) []⟩ ∧
          new = [] := by
      unfold onAnswer
      rw [hsize]
      exact .pure ⟨rfl, rfl⟩
    obtain ⟨r, new, auth, ⟨rfl, rfl⟩, hwork⟩ := Connection.work_eq htrace payload
    unfold Connection.serverTurn
    simp only [hposition, hread, hwork]
    refine .upload rfl hlength.symm ?_ hclient
    exact List.append_nil _ ▸ hbytes
  | @upload section_ rest vars path content left hposition hlength hbytes hclient =>
    unfold Connection.serverTurn
    simp only [hposition]
    by_cases hleft : left = 0
    · rw [if_pos hleft]
      have hinput : c.server.input = [] := List.eq_nil_of_length_eq_zero (hlength.trans hleft)
      exact work_upload hinput hbytes hclient
    · rw [if_neg hleft]
      refine .upload rfl ?_ hbytes hclient
      show (List.drop _ c.server.input).length = _
      rw [List.length_drop, List.length_take]
      omega

end ServerTurn

/-! ## The client's turns -/

section ClientTurn

variable {client : Client} {c : Connection} {n : Nat}

/-- All that the client does to the server is to send it something. -/
def OnlySends (c c' : Connection) : Prop := ∃ sent, c'.position = c.position ∧
  c'.server = { c.server with input := c.server.input ++ sent }

theorem OnlySends.nothing {c' : Connection} (hposition : c'.position = c.position)
    (hserver : c'.server = c.server) : OnlySends c c' := by
  refine ⟨[], hposition, ?_⟩
  rw [hserver, List.append_nil]

theorem respond_sends (command : ClientCommand) : OnlySends c (c.respond client command) := by
  cases command with
  | bookout details =>
    unfold Connection.respond
    dsimp only
    split <;> exact .nothing rfl rfl
  | bookin details =>
    unfold Connection.respond
    dsimp only
    split
    · exact ⟨_, rfl, rfl⟩
    · exact .nothing rfl rfl
  | clientrun details => exact .nothing rfl rfl
  | auth => exact ⟨_, rfl, rfl⟩
  | okay => exact .nothing rfl rfl
  | other line => exact .nothing rfl rfl

theorem clientTurn_sends : OnlySends c (c.clientTurn client n) := by
  unfold Connection.clientTurn
  split
  · exact .nothing rfl rfl
  · split
    · exact respond_sends _
    · split
      · split
        · exact respond_sends _
        · exact .nothing rfl rfl
      · exact .nothing rfl rfl
  · split
    · exact .nothing rfl rfl
    · dsimp only
      split <;> exact .nothing rfl rfl
  · split <;> exact .nothing rfl rfl

theorem clientTurn_line (hclient : c.client = .lines) {line rest : Str} (hline : '\n' ∉ line)
    (hbytes : c.toClient = line ++ '\n' :: rest) :
    c.clientTurn client n = { c with toClient := rest }.respond client (clientCommand line) := by
  have hread : completeLine c.toClient = some (line ++ ['\n'], rest) := by
    rw [hbytes]
    exact completeLine_line hline rest
  unfold Connection.clientTurn
  simp only [hclient, hread, clientCommand_newline]

theorem clientTurn_idle (hopen : c.position.phase ≠ .finished) (hclient : c.client = .lines)
    (hbytes : c.toClient = []) : c.clientTurn client n = c := by
  unfold Connection.clientTurn
  simp only [hclient, hbytes, completeLine_nil]

theorem clientTurn_content (hopen : c.position.phase ≠ .finished) {name got body rest : Str}
    (hclient : c.client = .content name got body.length) (hbytes : c.toClient = body ++ rest)
    {tail : Str} (hrest : Messages tail rest) :
    Pending tail (c.clientTurn client n).toClient (c.clientTurn client n).client ∧
      (c.clientTurn client n).server = c.server := by
  unfold Connection.clientTurn
  simp only [hclient]
  by_cases hleft : body.length = 0
  · have hnil : body = [] := List.eq_nil_of_length_eq_zero hleft
    rw [if_pos hleft]
    refine ⟨?_, rfl⟩
    rw [hnil, List.nil_append] at hbytes
    show Messages tail c.toClient
    rw [hbytes]
    exact hrest
  · rw [if_neg hleft]
    have hk : min (n + 1) body.length ≤ body.length := Nat.min_le_right _ _
    generalize min (n + 1) body.length = k at hk
    split
    · rename_i hphase
      exact absurd hphase hopen
    · refine ⟨⟨body.drop k, rest, ?_, ?_, hrest⟩, rfl⟩
      · rw [hbytes, List.drop_append_of_le_length hk]
      · rw [hbytes, List.take_append_of_le_length hk, List.length_drop, List.length_take]
        omega

theorem respond_harmless {message rest tail : Str} (hmessage : Harmless message)
    (hrest : Messages tail rest) (hclient : c.client = .lines)
    (hbytes : c.toClient = message ++ rest)
    (hfits : c.client = .lines →
      ∀ p ∈ completeLine c.toClient, ClientFits client c.past (clientCommand p.1)) :
    Pending tail (c.clientTurn client n).toClient (c.clientTurn client n).client ∧
      (c.clientTurn client n).server = c.server := by
  cases hmessage with
  | run hline hcommand =>
    rw [List.append_assoc] at hbytes
    rw [clientTurn_line hclient hline hbytes, hcommand]
    refine ⟨?_, rfl⟩
    show Pending tail rest c.client
    rw [hclient]
    exact hrest
  | other hline hcommand =>
    rw [List.append_assoc] at hbytes
    rw [clientTurn_line hclient hline hbytes, hcommand]
    refine ⟨?_, rfl⟩
    show Pending tail rest c.client
    rw [hclient]
    exact hrest
  | @content line body details hline hcommand hlimit =>
    rw [List.append_assoc] at hbytes
    have hread : completeLine c.toClient = some (line ++ ['\n'], body ++ rest) := by
      rw [hbytes]
      exact completeLine_line hline _
    have hdetails := hfits hclient _ hread
    rw [clientCommand_newline, hcommand] at hdetails
    rw [clientTurn_line hclient hline hbytes, hcommand]
    unfold Connection.respond
    dsimp only
    split
    · exact ⟨⟨body, rest, rfl, hlimit.symm, hrest⟩, rfl⟩
    · rename_i hcannot
      have hnone : body.length = 0 := by
        rw [← hlimit]
        exact hdetails.resolve_left hcannot
      refine ⟨?_, rfl⟩
      show Pending tail (body ++ rest) c.client
      rw [List.eq_nil_of_length_eq_zero hnone, List.nil_append, hclient]
      exact hrest

theorem clientTurn_pending (hopen : c.position.phase ≠ .finished) {tail : Str}
    (hfits : c.client = .lines →
      ∀ p ∈ completeLine c.toClient, ClientFits client c.past (clientCommand p.1))
    (h : Pending tail c.toClient c.client) :
    (c.client = .lines ∧ c.toClient = tail) ∨
      (Pending tail (c.clientTurn client n).toClient (c.clientTurn client n).client ∧
        (c.clientTurn client n).server = c.server) := by
  cases hclient : c.client with
  | lines =>
    rw [hclient] at h
    generalize hbytes : c.toClient = bytes at h
    cases h with
    | nil => exact Or.inl ⟨rfl, rfl⟩
    | cons hmessage hrest =>
      right
      exact respond_harmless hmessage hrest hclient hbytes hfits
  | content name got left =>
    rw [hclient] at h
    obtain ⟨body, rest, hbytes, rfl, hrest⟩ := h
    exact Or.inr (clientTurn_content hopen hclient hbytes hrest)
  | output got =>
    rw [hclient] at h
    cases h
  | gone =>
    rw [hclient] at h
    cases h

/-- The client answers the question of a bookin with a header and what the header announces. -/
theorem clientTurn_answers {question details : Str} (hline : '\n' ∉ question)
    (hcommand : clientCommand question = .bookin details) (hname : '\n' ∉ details)
    (hclient : c.client = .lines) (hbytes : c.toClient = question ++ ['\n'])
    (hinput : c.server.input = [])
    (hfits : c.client = .lines →
      ∀ p ∈ completeLine c.toClient, ClientFits client c.past (clientCommand p.1)) :
    ∃ line payload size, '\n' ∉ line ∧ announced (line ++ ['\n']) = some size ∧
      sendLimit size = payload.length ∧
      (c.clientTurn client n).server.input = line ++ '\n' :: payload ∧
      (c.clientTurn client n).toClient = [] ∧ (c.clientTurn client n).client = .lines := by
  have hread : completeLine c.toClient = some (question ++ ['\n'], []) := by
    rw [hbytes]
    exact completeLine_line hline []
  have hopens := hfits hclient _ hread
  rw [clientCommand_newline, hcommand] at hopens
  obtain ⟨content, hcontent, hsize, hsends⟩ := hopens
  obtain ⟨line, hnewline, hheader⟩ :=
    bookinHeader_line (newline_not_mem_strip hname) content
  have hsent := clientBookinFile_sends hsends (stripTrailingWhitespace details)
  have hsmall := announced_small hsize (stripTrailingWhitespace details)
  have hlimit : sendLimit content.length = content.length := if_pos (by omega)
  rw [hheader] at hsent hsmall
  refine ⟨line, content, content.length, hnewline, hsmall, hlimit, ?_⟩
  rw [clientTurn_line hclient hline hbytes, hcommand]
  unfold Connection.respond
  simp only [Option.mem_def.mp hcontent]
  refine ⟨?_, trivial, hclient⟩
  rw [hinput, hsent, List.nil_append, List.append_assoc, List.singleton_append]

theorem InStep.clientTurn (h : InStep c)
    (hfits : c.client = .lines →
      ∀ p ∈ completeLine c.toClient, ClientFits client c.past (clientCommand p.1)) :
    InStep (c.clientTurn client n) := by
  obtain ⟨sent, hposition, hserver⟩ := @clientTurn_sends client c n
  have hhistory : (c.clientTurn client n).server.history = c.server.history := by rw [hserver]
  have hidle : ∀ {position : Position}, c.position = position → position.phase ≠ .finished →
      c.client = .lines → c.toClient = [] → c.clientTurn client n = c := by
    rintro position rfl hopen hclient hbytes
    exact clientTurn_idle hopen hclient hbytes
  cases h with
  | finished hphase =>
    apply InStep.finished
    rw [hposition]
    exact hphase
  | request hrequest hline hinput hbytes hclient =>
    rw [hidle hrequest nofun hclient hbytes]
    exact .request hrequest hline hinput hbytes hclient
  | streaming hitems hstreams => exact .streaming (hposition.trans hitems) (hhistory ▸ hstreams)
  | items hitems hinput hpending =>
    have hopen : c.position.phase ≠ .finished := hitems ▸ nofun
    rcases @clientTurn_pending client c n hopen [] hfits hpending with ⟨hclient, hbytes⟩
      | ⟨hnext, hserver⟩
    · rw [hidle hitems nofun hclient hbytes]
      exact .items hitems hinput hpending
    · exact .items (hposition.trans hitems) (hserver ▸ hinput) hnext
  | @asked section_ rest vars path question details hasked hinput hline hcommand hname hpending =>
    have hopen : c.position.phase ≠ .finished := hasked ▸ nofun
    rcases @clientTurn_pending client c n hopen _ hfits hpending with ⟨hclient, hbytes⟩
      | ⟨hnext, hserver⟩
    · obtain ⟨line, payload, size, hheader, hsize, hlength, hsent, hread, hlines⟩ :=
        @clientTurn_answers client c n question details hline hcommand hname hclient hbytes hinput
          hfits
      exact .answered (hposition.trans hasked) hheader hsent hsize hlength hread hlines
    · exact .asked (hposition.trans hasked) (hserver ▸ hinput) hline hcommand hname hnext
  | answered hanswer hline hinput hsize hlength hbytes hclient =>
    rw [hidle hanswer nofun hclient hbytes]
    exact .answered hanswer hline hinput hsize hlength hbytes hclient
  | upload hupload hlength hbytes hclient =>
    rw [hidle hupload nofun hclient hbytes]
    exact .upload hupload hlength hbytes hclient

end ClientTurn

/-! ## Runs -/

theorem InStep.step {env : Env} {client : Client} {c : Connection} {turn : Turn} (h : InStep c)
    (hfits : c.Fits env client turn) : InStep (c.step env client turn) := by
  cases turn with
  | server n => exact h.serverTurn hfits
  | client n => exact h.clientTurn hfits

/-- Client and server never wait for each other when no turn opens a prompt, every item fits its
messages and no bookin comes behind the output of a command, and the client can open what it is
asked for and create what it is sent. -/
theorem connection_not_deadlocked {env : Env} {client : Client} {line : Str} (hline : '\n' ∉ line)
    {turns : List Turn}
    (hfits : Runs.Guarded (Connection.step env client) (Connection.Fits env client)
      (Connection.start line) turns) :
    ¬ (Runs.run (Connection.step env client) (Connection.start line) turns).Deadlocked := by
  apply InStep.not_deadlocked
  refine Runs.invariant (fun c turn => InStep.step) ?_ hfits
  exact .request rfl hline rfl rfl rfl

/-! ## Two runs -/

/-- A peer that may upload a file and start a command. -/
def editingEnv : Env :=
  { quietEnv with
    openWrite := fun _ _ => true
    config := [.block (some "edit".toList)
      [.value (some "user".toList) "alice".toList,
        .value (some "bookin".toList) "/etc/motd".toList,
        .value (some "run".toList) "make".toList]]
    spawn := fun _ _ _ => some ("done".toList.map some) }

def editingClient : Client where
  readFile _ _ := some "hello".toList
  creates _ _ := true
  size _ := 1

/-- Request, question, answer, upload in two pieces, command and output. -/
def editingTurns : List Turn :=
  [.server 0, .server 0, .server 0, .client 0, .server 0, .server 2, .server 9, .server 0,
    .server 0,
    .client 0, .server 0, .client 9, .client 0]

theorem connection_not_deadlocked_editing :
    (Runs.run (Connection.step editingEnv editingClient) (Connection.start "invoke: edit".toList)
      editingTurns).past = [.output "done".toList, .answer "motd".toList] ∧
    ¬ (Runs.run (Connection.step editingEnv editingClient) (Connection.start "invoke: edit".toList)
      editingTurns).Deadlocked :=
  ⟨by decide +kernel, connection_not_deadlocked (by decide) (by decide +kernel)⟩

def passwordEnv : Env :=
  { quietEnv with
    config := [.block (some "backup".toList)
      [.value (some "auth".toList) "pam".toList, .value (some "run".toList) "make".toList]]
    authPAM := fun _ _ _ password => if password = some "secret".toList then 1 else 0
    spawn := fun _ _ _ => some ("done".toList.map some) }

def passwordClient : Client where
  readFile _ _ := none
  creates _ _ := true
  size _ := 1
  password := "secret".toList

/-- Behind the right password the client waits for output, and the server for a request. -/
theorem connection_deadlocks : ∃ (env : Env) (client : Client) (line : Str) (turns : List Turn),
    '\n' ∉ line ∧
      (Runs.run (Connection.step env client) (Connection.start line) turns).Deadlocked :=
  ⟨passwordEnv, passwordClient, "invoke: backup".toList,
    [.server 0, .client 0, .server 0, .client 0], by decide, by decide +kernel⟩

end Invocation
