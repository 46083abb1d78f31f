import Invocation.Dialogue

/-!
# Between two reads

What the server does between two reads depends on no input, and is a list of
events. `Trace m s Q` says so of a process `m` in the state `s`, with `Q` of its
result and of the events.
-/

namespace Invocation

set_option autoImplicit false

open Process Server

theorem sentBytes_append (new past : List Event) :
    sentBytes (new ++ past) = sentBytes past ++ sentBytes new := by
  induction new with
  | nil => exact (List.append_nil _).symm
  | cons e new ih => rw [List.cons_append, sentBytes, sentBytes, ih, List.append_assoc]

def Trace {α : Type} (m : Server α) (s : ServerState)
    (Q : Except Halt α → List Event → Prop) : Prop :=
  ∃ r new auth, Q r new ∧ ∀ input, exec m { s with input := input } =
    (r, ⟨input, new ++ s.history, auth⟩)

section Rules

variable {α β : Type} {s : ServerState} {Q Q' : Except Halt α → List Event → Prop}

theorem Trace.mono {m : Server α} (h : Trace m s Q) (hQ : ∀ r new, Q r new → Q' r new) :
    Trace m s Q' := by
  obtain ⟨r, new, auth, hr, hexec⟩ := h
  exact ⟨r, new, auth, hQ r new hr, hexec⟩

theorem Trace.bind {x : Server α} {f : α → Server β} {R : Except Halt β → List Event → Prop}
    (hx : Trace x s Q)
    (hf : ∀ a new auth, Q (.ok a) new →
      Trace (f a) ⟨s.input, new ++ s.history, auth⟩ fun r later => R r (later ++ new))
    (hstop : ∀ e new, Q (.error e) new → R (.error e) new) : Trace (x >>= f) s R := by
  obtain ⟨r, new, auth, hr, hexec⟩ := hx
  cases r with
  | error e =>
    refine ⟨.error e, new, auth, hstop e new hr, ?_⟩
    intro input
    rw [exec_bind, hexec]
  | ok a =>
    obtain ⟨r, later, auth', hr', hexec'⟩ := hf a new auth hr
    refine ⟨r, later ++ new, auth', hr', ?_⟩
    intro input
    rw [exec_bind, hexec, List.append_assoc]
    exact hexec' input

theorem Trace.pure {a : α} (h : Q (.ok a) []) : Trace (Pure.pure a : Server α) s Q :=
  ⟨.ok a, [], s.authenticated, h, fun _ => rfl⟩

theorem Trace.stop {e : Halt} (h : Q (.error e) []) : Trace (Process.stop e : Server α) s Q :=
  ⟨.error e, [], s.authenticated, h, fun _ => rfl⟩

theorem Trace.emit {e : Event} {Q : Except Halt PUnit → List Event → Prop} (h : Q (.ok ⟨⟩) [e]) :
    Trace (Server.emit e) s Q := ⟨.ok ⟨⟩, [e], s.authenticated, h, fun _ => rfl⟩

theorem Trace.observe {f : List Event → α} (h : Q (.ok (f s.history)) []) :
    Trace (Server.observe f) s Q := ⟨.ok (f s.history), [], s.authenticated, h, fun _ => rfl⟩

theorem Trace.observe_bind {f : List Event → β} {g : β → Server α}
    (h : Trace (g (f s.history)) s Q) : Trace (Server.observe f >>= g) s Q := by
  obtain ⟨r, new, auth, hr, hexec⟩ := h
  refine ⟨r, new, auth, hr, ?_⟩
  intro input
  rw [exec_bind, exec_observe]
  exact hexec input

theorem Trace.need {o : Option α} (h : ∀ a, o = some a → Q (.ok a) [])
    (hnone : ∀ e, Q (.error e) []) : Trace (Server.need o) s Q := by
  cases o with
  | none => exact .stop (hnone _)
  | some a => exact .pure (h a rfl)

theorem Trace.need_bind {o : Option β} {g : β → Server α}
    (h : ∀ b, o = some b → Trace (g b) s Q) (hnone : ∀ e, Q (.error e) []) :
    Trace (Server.need o >>= g) s Q := by
  cases o with
  | none => exact .stop (hnone _)
  | some b => exact h b rfl

theorem Trace.isAuthenticated {Q : Except Halt Bool → List Event → Prop}
    (h : ∀ b, Q (.ok b) []) : Trace Server.isAuthenticated s Q :=
  ⟨.ok s.authenticated, [], s.authenticated, h _, fun _ => rfl⟩

theorem Trace.ite {c : Prop} [Decidable c] {x y : Server α} (hx : c → Trace x s Q)
    (hy : ¬ c → Trace y s Q) : Trace (if c then x else y) s Q := by
  by_cases h : c
  · rw [if_pos h]
    exact hx h
  · rw [if_neg h]
    exact hy h

end Rules

/-! ## Processes that say nothing -/

/-- A process that neither reads from the connection nor writes to it. -/
def Mute {α : Type} (m : Server α) : Prop := ∀ s, Trace m s fun _ new => sentBytes new = []

namespace Mute

variable {α β : Type}

theorem bind {x : Server α} {f : α → Server β} (hx : Mute x) (hf : ∀ a, Mute (f a)) :
    Mute (x >>= f) := by
  intro s
  apply (hx s).bind
  · intro a new auth hnew
    apply (hf a _).mono
    intro r later hlater
    rw [sentBytes_append, hnew, hlater, List.append_nil]
  · exact fun _ _ h => h

theorem pure (a : α) : Mute (Pure.pure a : Server α) := fun _ => .pure rfl

theorem need (o : Option α) : Mute (Server.need o) := fun _ => .need (fun _ _ => rfl) fun _ => rfl

theorem observe (f : List Event → α) : Mute (Server.observe f) := fun _ => .observe rfl

theorem emit {e : Event} (h : e.sent = []) : Mute (Server.emit e) := fun _ => .emit h

theorem stop (e : Halt) : Mute (Process.stop e : Server α) := fun _ => .stop rfl

theorem isAuthenticated : Mute Server.isAuthenticated := fun _ => .isAuthenticated fun _ => rfl

theorem ite {c : Prop} [Decidable c] {x y : Server α} (hx : Mute x) (hy : Mute y) :
    Mute (if c then x else y) := fun s => .ite (fun _ => hx s) fun _ => hy s

end Mute

section Mute

variable (env : Env)

theorem expectDialogs_mute (vars : Vars) (items : List Node) : Mute (expectDialogs vars items) := by
  induction items with
  | nil => exact .pure []
  | cons item items ih =>
    cases item with
    | block tag sub => exact ih
    | value tag text =>
      apply (Mute.need _).bind
      intro expect
      apply (Mute.need _).bind
      intro reply
      apply (Mute.need _).bind
      intro tag
      exact ih.bind fun rest => .pure _

theorem openDialog_mute (section? : Option (List Node)) (name : Str) :
    Mute (openDialog section? name) := by
  cases section? with
  | some items => exact .pure _
  | none => exact .ite (.pure _) (.stop _)

theorem checkRequirement_mute (details : Str) (vars : Vars) :
    Mute (checkRequirement env details vars) := by
  unfold checkRequirement
  dsimp only
  apply Mute.ite ((Mute.observe _).bind fun _ => .pure _)
  apply Mute.ite (.pure _)
  apply Mute.ite ((Mute.observe _).bind fun _ => .pure _)
  apply Mute.ite ((Mute.observe _).bind fun _ => .pure _)
  apply Mute.ite ((Mute.observe _).bind fun _ => (Mute.emit rfl).bind fun _ => .pure _)
  exact .pure _

theorem switchTo_mute (result : SwitchResult) {e : Event} (he : e.sent = []) :
    Mute (switchTo result e) := by
  cases result with
  | unknown => exact .pure _
  | switched => exact .emit he
  | refused => exact .stop _

end Mute

/-! ## What an item says -/

def okayLine : Str := "OKAY: Command output follows\n".toList

/-- A message that the client takes in without an answer: a line, or a line with its content. -/
inductive Harmless : Str → Prop
  | run {line details : Str} : '\n' ∉ line → clientCommand line = .clientrun details →
    Harmless (line ++ ['\n'])
  | other {line text : Str} : '\n' ∉ line → clientCommand line = .other text →
    Harmless (line ++ ['\n'])
  | content {line body details : Str} : '\n' ∉ line → clientCommand line = .bookout details →
    sendLimit (bookoutDetails details).1 = body.length → Harmless (line ++ '\n' :: body)

/-- A command, or the conversation with it. -/
def Event.ofCommand : Event → Bool
  | .spawn _ _ => true
  | .reply _ => true
  | _ => false

/-- The output of a command has been announced. -/
def Streams : List Event → Prop
  | [] => False
  | e :: past => (e = .send okayLine ∧ past.head?.any Event.ofCommand = true) ∨ Streams past

instance decidableStreams : ∀ history, Decidable (Streams history)
  | [] => inferInstanceAs (Decidable False)
  | e :: past =>
    have := decidableStreams past
    inferInstanceAs (Decidable ((e = .send okayLine ∧ past.head?.any Event.ofCommand = true) ∨
      Streams past))

/-- Nothing, a harmless message, or the output of a command. -/
def Said (new : List Event) : Prop :=
  Streams new ∨ sentBytes new = [] ∨ Harmless (sentBytes new)

theorem Streams.of_later {later past : List Event} (h : Streams past) :
    Streams (later ++ past) := by
  induction later with
  | nil => exact h
  | cons e later ih => exact Or.inr ih

theorem Streams.append {later past : List Event} (h : Streams later) : Streams (later ++ past) := by
  induction later with
  | nil => cases h
  | cons e later ih =>
    rcases h with ⟨he, hhead⟩ | h
    · left
      refine ⟨he, ?_⟩
      cases later with
      | nil => cases hhead
      | cons e' later => exact hhead
    · exact Or.inr (ih h)

theorem harmless_convo : Harmless "FAIL: convo failed\n".toList :=
  @Harmless.other "FAIL: convo failed".toList "FAIL: convo failed".toList (by decide)
    (by decide +kernel)

theorem harmless_noCommand : Harmless "FAIL: No such command\n".toList :=
  @Harmless.other "FAIL: No such command".toList "FAIL: No such command".toList (by decide)
    (by decide +kernel)

section Items

variable (env : Env)

theorem Said.after {new later : List Event} (hlater : Said later) (hnew : sentBytes new = []) :
    Said (later ++ new) := by
  rcases hlater with h | h | h
  · exact Or.inl h.append
  · right
    left
    rw [sentBytes_append, hnew, h, List.append_nil]
  · right
    right
    rw [sentBytes_append, hnew, List.nil_append]
    exact h

theorem Mute.said {α : Type} {m : Server α} (h : Mute m) (s : ServerState) :
    Trace m s fun _ new => Said new := (h s).mono fun _ _ h => Or.inr (Or.inl h)

theorem Mute.then_said {α β : Type} {x : Server α} {f : α → Server β} (hx : Mute x)
    {s : ServerState} (hf : ∀ a s, Trace (f a) s fun _ new => Said new) :
    Trace (x >>= f) s fun _ new => Said new := by
  apply (hx s).bind
  · intro a new auth hnew
    exact (hf a _).mono fun r later hlater => hlater.after hnew
  · exact fun _ _ h => Or.inr (Or.inl h)

theorem processExpect_replies (name : Str) (vars : Vars) (section? : Option (List Node))
    (timeout : Int) (output : List (Option Char)) (s : ServerState) :
    Trace (processExpect name vars section? timeout output) s fun r new =>
      sentBytes new = [] ∧ ∀ p, r = .ok p → new.head?.any Event.ofCommand = true := by
  apply (openDialog_mute section? name s).bind
  · intro items new auth hnew
    apply (expectDialogs_mute vars items _).bind
    · intro dialogs new' auth' hnew'
      refine (Trace.emit (Q := fun _ later => ∃ t, later = [.reply t]) ⟨_, rfl⟩).bind ?_ ?_
      · rintro _ later auth'' ⟨t, rfl⟩
        have hsent : sentBytes ([.reply t] ++ (new' ++ new)) = [] := by
          rw [sentBytes_append, sentBytes_append, hnew, hnew']
          rfl
        exact .ite (fun _ => .stop ⟨hsent, nofun⟩) fun _ => .pure ⟨hsent, fun _ _ => rfl⟩
      · rintro e later ⟨t, rfl⟩
        refine ⟨?_, nofun⟩
        rw [sentBytes_append, sentBytes_append, hnew, hnew']
        rfl
    · intro e new' hnew'
      refine ⟨?_, nofun⟩
      rw [sentBytes_append, hnew, hnew']
      rfl
  · exact fun e new hnew => ⟨hnew, nofun⟩

/-- Behind the events `before` of a command. -/
def SaidBehind (before new : List Event) : Prop :=
  Streams (new ++ before) ∨ sentBytes new = [] ∨ Harmless (sentBytes new)

theorem outputVerdict_said {before : List Event}
    (hbefore : before.head?.any Event.ofCommand = true) (p : Bool × List (Option Char))
    (s : ServerState) :
    Trace (if p.1 = true then do
        emit (.send "OKAY: Command output follows\n".toList)
        emit (.send (p.2.filterMap id))
      else emit (.send "FAIL: convo failed\n".toList)) s fun _ new => SaidBehind before new := by
  apply Trace.ite
  · intro _
    refine (Trace.emit (Q := fun _ new => new = [.send okayLine]) rfl).bind ?_ ?_
    · rintro _ new auth rfl
      exact .emit (Or.inl (Or.inr (Or.inl ⟨rfl, hbefore⟩)))
    · rintro e new rfl
      exact Or.inl (Or.inl ⟨rfl, hbefore⟩)
  · intro _
    exact .emit (Or.inr (Or.inr harmless_convo))

theorem sendOutput_said (r : SpawnRequest) (vars : Vars) (section? : Option (List Node))
    (output : List (Option Char)) {before : List Event}
    (hbefore : before.head?.any Event.ofCommand = true) (s : ServerState) :
    Trace (sendOutput r vars section? output) s fun _ new => SaidBehind before new := by
  unfold sendOutput
  apply Trace.ite
  · intro _
    exact outputVerdict_said hbefore (true, output) s
  · intro _
    apply (processExpect_replies _ _ _ _ _ s).bind
    · rintro p new auth ⟨hnew, hreply⟩
      have hhead : (new ++ before).head?.any Event.ofCommand = true := by
        have hreplied := hreply p rfl
        cases new with
        | nil => cases hreplied
        | cons e new => exact hreplied
      apply (outputVerdict_said hhead p _).mono
      rintro r later (h | h | h)
      · left
        rw [List.append_assoc]
        exact h
      · right
        left
        rw [sentBytes_append, hnew, h, List.append_nil]
      · right
        right
        rw [sentBytes_append, hnew, List.nil_append]
        exact h
    · exact fun e new h => Or.inr (Or.inl h.1)

theorem runCommand_said (details : Str) (vars : Vars) (section? : Option (List Node))
    (s : ServerState) : Trace (runCommand env details vars section?) s fun _ new => Said new := by
  apply (Mute.need _).then_said
  intro cmd s
  apply Trace.ite
  · intro _
    apply (Mute.need _).then_said
    intro r s
    apply (Mute.observe _).then_said
    intro spawned s
    refine (Trace.emit (Q := fun _ new => new = [.spawn r.cmd r.capabilities]) rfl).bind ?_ ?_
    · rintro _ new auth rfl
      cases spawned with
      | some output =>
        have hspawn : [Event.spawn r.cmd r.capabilities].head?.any Event.ofCommand = true := rfl
        apply (sendOutput_said r vars section? output hspawn _).mono
        rintro _ later (h | h | h)
        · exact Or.inl h
        · right
          left
          rw [sentBytes_append, h]
          rfl
        · right
          right
          rw [sentBytes_append]
          exact h
      | none => exact .emit (Or.inr (Or.inr harmless_noCommand))
    · rintro e new rfl
      exact Or.inr (Or.inl rfl)
  · intro _
    exact (Mute.pure _).said s

/-- The message of a bookout is its content's length, a name in one line and the content. -/
def BookoutFits (vars : Vars) (s : ServerState) (path : Str) : Prop :=
  ∀ path' ∈ substituteVarsInString vars false path, ∀ stat ∈ (env.files s.history).stat path',
    stat.kind = .regular → ∀ content ∈ env.readFile s.history path',
      '\n' ∉ getBasename path' ∧ stat.size = content.length

theorem harmless_bookout {name content : Str} (hname : '\n' ∉ name)
    (hsize : content.length < 2 ^ 63) :
    Harmless ("bookout ".toList ++ decimal content.length ++ " ".toList ++ name ++ "\n".toList ++
      content) := by
  have hline : '\n' ∉ "bookout ".toList ++ (decimal content.length ++ ' ' :: name) := by
    have h1 : '\n' ∉ "bookout ".toList := by decide
    have h2 : '\n' ∉ decimal content.length :=
      fun h => absurd (decimal_digits content.length _ h) (by decide)
    simp only [List.mem_append, List.mem_cons, not_or]
    exact ⟨h1, h2, by decide, hname⟩
  have htext : "bookout ".toList ++ decimal content.length ++ " ".toList ++ name ++ "\n".toList ++
      content = ("bookout ".toList ++ (decimal content.length ++ ' ' :: name)) ++ '\n' ::
        content := by
    rw [newline_toList]
    simp only [List.append_assoc, List.cons_append, List.nil_append]
    rfl
  rw [htext]
  refine .content hline (clientCommand_bookout _) ?_
  rw [bookoutDetails_strip hsize]
  exact if_pos hsize

theorem bookout_said {vars : Vars} {s : ServerState} {path : Str}
    (hfits : BookoutFits env vars s path) :
    Trace (bookoutFileToClient env path vars) s fun _ new => Said new := by
  have hmute : ∀ r, (∀ input, exec (bookoutFileToClient env path vars) { s with input := input } =
      (r, { s with input := input })) →
      Trace (bookoutFileToClient env path vars) s fun _ new => Said new :=
    fun r h => ⟨r, [], s.authenticated, Or.inr (Or.inl rfl), h⟩
  unfold bookoutFileToClient at hmute ⊢
  cases hpath : substituteVarsInString vars false path with
  | none =>
    rw [hpath] at hmute
    exact hmute (.error .undefined) fun _ => rfl
  | some path' =>
    rw [hpath] at hmute
    cases hstat : (env.files s.history).stat path' with
    | none =>
      apply hmute (.ok ⟨⟩)
      intro input
      simp only [exec_bind, exec_need_some, exec_observe, hstat, exec_pure]
    | some stat =>
      by_cases hkind : stat.kind = .regular
      · cases hread : env.readFile s.history path' with
        | none =>
          refine ⟨.ok ⟨⟩, [.openRead path'], s.authenticated, Or.inr (Or.inl rfl), ?_⟩
          intro input
          simp only [exec_bind, exec_need_some, exec_observe, hstat, hread, hkind, if_true,
            exec_emit, exec_pure]
          rfl
        | some content =>
          obtain ⟨hname, hsize⟩ := hfits path' hpath stat hstat hkind content hread
          have hlt := stat.size_lt
          refine ⟨.ok ⟨⟩, [.send content, .send ("bookout ".toList ++ decimal stat.size ++
            " ".toList ++ getBasename path' ++ "\n".toList), .openRead path'],
            s.authenticated, ?_, ?_⟩
          · right
            right
            rw [hsize] at hlt ⊢
            exact harmless_bookout hname hlt
          · intro input
            simp only [exec_bind, exec_need_some, exec_observe, hstat, hread, hkind, if_true,
              exec_emit]
            rfl
      · apply hmute (.ok ⟨⟩)
        intro input
        simp only [exec_bind, exec_need_some, exec_observe, hstat, hkind, if_false, exec_pure]

theorem harmless_clientrun {text : Str} (htext : '\n' ∉ text) :
    Harmless ("clientrun ".toList ++ text ++ "\n".toList) := by
  have hline : '\n' ∉ "clientrun ".toList ++ text := by
    have h1 : '\n' ∉ "clientrun ".toList := by decide
    rw [List.mem_append, not_or]
    exact ⟨h1, htext⟩
  rw [newline_toList]
  exact .run hline (clientCommand_clientrun text)

/-- Names and texts of an item fit into their lines, and a bookout reads what it has announced. A
bookin is asked before any output of a command. -/
def ItemFits (vars : Vars) (s : ServerState) : Node → Prop
  | .value (some tag) text =>
    (tag = "bookout".toList → BookoutFits env vars s text) ∧
    (tag = "clientrun".toList → '\n' ∉ text) ∧
    (tag = "bookin".toList → ∀ path ∈ substituteVarsInString vars false text,
      env.openWrite s.history (path ++ "+".toList) = true →
      '\n' ∉ getBasename path ∧ ¬ Streams s.history)
  | _ => True

instance decidableBookoutFits (vars : Vars) (s : ServerState) (path : Str) :
    Decidable (BookoutFits env vars s path) := inferInstanceAs (Decidable (∀ _ ∈ _, _))

instance decidableItemFits (vars : Vars) (s : ServerState) :
    ∀ item, Decidable (ItemFits env vars s item)
  | .value (some _) _ => inferInstanceAs (Decidable (_ ∧ _ ∧ _))
  | .value none _ => inferInstanceAs (Decidable True)
  | .block _ _ => inferInstanceAs (Decidable True)

theorem runItem_trace {Q : List Event → Prop} {section_ : List Node} {vars : Vars} {s : ServerState}
    {tag text : Str} (hbookin : tag ≠ "bookin".toList) (hmute : ∀ new, sentBytes new = [] → Q new)
    (hbookout : tag = "bookout".toList →
      Trace (bookoutFileToClient env text vars) s fun _ new => Q new)
    (hclientrun : tag = "clientrun".toList →
      Q [.send ("clientrun ".toList ++ text ++ "\n".toList)])
    (hrun : Trace (runCommand env text vars (some section_)) s fun _ new => Q new) :
    Trace (runItem env section_ (.value (some tag) text) vars) s fun _ new => Q new := by
  have hquiet : ∀ {m : Server (Option Vars)}, Mute m → Trace m s fun _ new => Q new :=
    fun hm => (hm s).mono fun _ new => hmute new
  have hthen : ∀ {m : Server PUnit}, (Trace m s fun _ new => Q new) →
      Trace (m >>= fun _ => Pure.pure (some vars)) s fun _ new => Q new := by
    intro m hm
    apply hm.bind
    · exact fun _ new _ hnew => .pure hnew
    · exact fun _ _ hnew => hnew
  show Trace (if tag = "require".toList then _ else _) s _
  apply Trace.ite
  · exact fun _ => hquiet ((checkRequirement_mute env text vars).bind fun p => .pure _)
  intro _
  apply Trace.ite
  · exact fun _ => hquiet ((Mute.observe _).bind fun result =>
      (switchTo_mute result rfl).bind fun _ => .pure _)
  intro _
  apply Trace.ite
  · exact fun _ => hquiet ((Mute.observe _).bind fun result =>
      (switchTo_mute result rfl).bind fun _ => .pure _)
  intro _
  apply Trace.ite
  · exact fun h => hthen (hbookout h)
  intro _
  apply Trace.ite
  · exact fun h => absurd h hbookin
  intro _
  apply Trace.ite
  · exact fun h => hthen (.emit (hclientrun h))
  intro _
  apply Trace.ite
  · exact fun _ => hthen hrun
  · exact fun _ => hquiet (.pure _)

theorem not_bookin {tag text : Str} (h : bookinPath? (.value (some tag) text) = none) :
    tag ≠ "bookin".toList := by
  rintro rfl
  cases h

theorem runItem_said {section_ : List Node} {vars : Vars} {s : ServerState} {item : Node}
    (hfits : ItemFits env vars s item) (hbookin : bookinPath? item = none) :
    Trace (runItem env section_ item vars) s fun _ new => Said new := by
  cases item with
  | block tag sub => exact (Mute.pure _).said s
  | value tag text =>
    cases tag with
    | none => exact ⟨.error .undefined, [], s.authenticated, Or.inr (Or.inl rfl), fun _ => rfl⟩
    | some tag =>
      obtain ⟨hbookout, hclientrun, _⟩ := hfits
      apply runItem_trace env (not_bookin hbookin)
      · exact fun new hnew => Or.inr (Or.inl hnew)
      · exact fun h => bookout_said env (hbookout h)
      · intro h
        right
        right
        rw [sentBytes, sentBytes, List.nil_append]
        exact harmless_clientrun (hclientrun h)
      · exact runCommand_said env text vars (some section_) s

/-- What an item leaves: the connection is done, the next item, or the question of a bookin. -/
inductive ItemOutcome (section_ rest : List Node) (past : List Event) :
    Except Halt Position → List Event → Prop
  | stopped {e : Halt} {new : List Event} : ItemOutcome section_ rest past (.error e) new
  | finished {new : List Event} : ItemOutcome section_ rest past (.ok ⟨[], .finished⟩) new
  | next {vars : Vars} {new : List Event} :
    Said new → ItemOutcome section_ rest past (.ok ⟨[], .items section_ rest vars⟩) new
  | asked {vars : Vars} {path name details : Str} {new : List Event} :
    '\n' ∉ name → clientCommand name = .bookin details → '\n' ∉ details →
    sentBytes new = name ++ ['\n'] → ¬ Streams past →
    ItemOutcome section_ rest past (.ok ⟨[], .answer section_ rest vars path⟩) new

theorem bookinPath?_some {item : Node} {path : Str} (h : bookinPath? item = some path) :
    item = .value (some "bookin".toList) path := by
  unfold bookinPath? at h
  split at h
  · rename_i tag text
    by_cases htag : tag = "bookin".toList
    · rw [if_pos htag, Option.some.injEq] at h
      rw [htag, h]
    · rw [if_neg htag] at h
      cases h
  · cases h

theorem askBookin_outcome {section_ rest : List Node} {vars : Vars} {s : ServerState} {path : Str}
    (hfits : ItemFits env vars s (.value (some "bookin".toList) path)) :
    Trace (askBookin env [] section_ rest vars path) s (ItemOutcome section_ rest s.history) := by
  apply Trace.need_bind
  · intro path' hpath
    apply Trace.observe_bind
    apply Trace.ite
    · intro hopen
      obtain ⟨hname, hquiet⟩ := hfits.2.2 rfl path' hpath hopen
      have hline : '\n' ∉ "bookin ".toList ++ getBasename path' := by
        have hword : '\n' ∉ "bookin ".toList := by decide
        rw [List.mem_append, not_or]
        exact ⟨hword, hname⟩
      refine ⟨_, [.send ("bookin ".toList ++ getBasename path' ++ "\n".toList),
        .openWrite (path' ++ "+".toList)], s.authenticated, ?_, fun _ => rfl⟩
      exact .asked hline (clientCommand_bookin _) (newline_not_mem_strip hname) rfl hquiet
    · exact fun _ => .pure (.next (Or.inr (Or.inl rfl)))
  · exact fun e => .stopped

theorem onItem_outcome {section_ rest : List Node} {vars : Vars} {s : ServerState}
    (hfits : ∀ item, rest.head? = some item → ItemFits env vars s item) :
    Trace (onItem env [] section_ vars rest) s (ItemOutcome section_ rest.tail s.history) := by
  cases rest with
  | nil => exact .pure .finished
  | cons item rest =>
    have hitem := hfits item rfl
    rw [List.tail_cons]
    simp only [onItem]
    cases hpath : bookinPath? item with
    | some path =>
      rw [bookinPath?_some hpath] at hitem
      exact askBookin_outcome env hitem
    | none =>
      apply (runItem_said env hitem hpath).bind
      · intro vars? new auth hsaid
        cases vars? with
        | some vars => exact .pure (.next hsaid)
        | none => exact .pure .finished
      · exact fun e new hsaid => .stopped

end Items

/-! ## Requests without a prompt -/

section Requests

variable (env : Env)

/-- The rules come to an `auth`. -/
def reachesAuth (peer : Peer) : List Node → Bool
  | [] => false
  | node :: rules =>
    match node.tag with
    | none => false
    | some tag =>
      match ruleIdentity peer tag with
      | some identity => node.text?.any (isItemInList identity) && reachesAuth peer rules
      | none =>
        if strCaseEq tag "auth".toList then node.text?.isSome else reachesAuth peer rules

/-- The section of a command has no grant for the peer and comes to an `auth`. -/
def sectionAsks (history : List Event) (command : Str) : List Node → Bool
  | [] => false
  | node :: sections =>
    match node.tag with
    | none => false
    | some tag =>
      if relates env command tag then
        appDBCheck (env.files history) (env.clientsDB history) command env.peer.exePath
          = some false && node.items?.any (reachesAuth env.peer)
      else sectionAsks history command sections

/-- The command that a request is about. -/
def requestCommand (line : Str) : Option Str :=
  let p := getToken (stripTrailingWhitespace line) requestSeparator .multi
  let details := p.2.getD []
  if strCaseEq p.1 "AUTH".toList then none
  else if strCaseEq p.1 "EXEC".toList then some (getToken details spaceSeparator .none).1
  else if strCaseEq p.1 "INVOKE".toList then some (invokeCommand details).1
  else none

/-- The request makes the server ask for a password. -/
def AsksPassword (history : List Event) (line : Str) : Prop :=
  (requestCommand line).any fun command =>
    sectionAsks env (.request (stripTrailingWhitespace line) :: history) command env.config

instance decidableAsksPassword (history : List Event) (line : Str) :
    Decidable (AsksPassword env history line) :=
  inferInstanceAs (Decidable (_ = true))

/-- A judgement without a prompt. -/
def Judged (r : Except Halt Judgement) (new : List Event) : Prop :=
  sentBytes new = [] ∧ ∀ types rules, r ≠ .ok (.prompt types rules)

theorem judgeRules_judged {peer : Peer} {rules : List Node} (h : reachesAuth peer rules = false)
    (result : Bool) (s : ServerState) : Trace (judgeRules peer rules result) s Judged := by
  have hverdict : ∀ (b : Bool) (s : ServerState),
      Trace (Pure.pure (.verdict b) : Server Judgement) s Judged := fun b s => .pure ⟨rfl, nofun⟩
  have hstop : ∀ e, Judged (.error e) [] := fun e => ⟨rfl, nofun⟩
  induction rules generalizing result s with
  | nil => exact hverdict result s
  | cons node rules ih =>
    unfold reachesAuth at h
    apply Trace.need_bind _ hstop
    intro tag htag
    rw [htag] at h
    cases hid : ruleIdentity peer tag with
    | some identity =>
      simp only [hid] at h
      apply Trace.need_bind _ hstop
      intro text htext
      apply Trace.ite
      · intro hlisted
        rw [htext, Option.any_some, hlisted, Bool.true_and] at h
        exact ih h true s
      · exact fun _ => hverdict false s
    | none =>
      simp only [hid] at h
      apply Trace.ite
      · intro hauth
        apply Trace.need_bind _ hstop
        intro text htext
        rw [if_pos hauth, htext] at h
        cases h
      · intro hauth
        rw [if_neg hauth] at h
        exact ih h result s

theorem judgeSections_judged {command : Str} {sections : List Node} {s : ServerState}
    (h : sectionAsks env s.history command sections = false) :
    Trace (judgeSections env command sections) s Judged := by
  have hstop : ∀ e, Judged (.error e) [] := fun e => ⟨rfl, nofun⟩
  induction sections with
  | nil => exact .pure ⟨rfl, nofun⟩
  | cons node sections ih =>
    unfold sectionAsks at h
    apply Trace.need_bind _ hstop
    intro tag htag
    rw [htag] at h
    apply Trace.ite
    · intro hrelates
      simp only [if_pos hrelates] at h
      unfold judgePermission grantCheck
      rw [bind_assoc]
      apply Trace.observe_bind
      rw [bind_assoc]
      apply Trace.need_bind _ hstop
      intro granted hgranted
      rw [hgranted] at h
      rw [bind_assoc]
      refine (Trace.emit (Q := fun _ new => new = [.grantCheck command granted]) rfl).bind ?_ ?_
      · rintro _ new auth rfl
        apply Trace.ite
        · exact fun _ => .pure ⟨rfl, nofun⟩
        · intro hrefused
          rw [Bool.not_eq_true] at hrefused
          subst hrefused
          apply Trace.need_bind
          · intro rules hrules
            rw [hrules] at h
            apply (judgeRules_judged _ false _).mono
            · rintro r later ⟨hsent, hnone⟩
              refine ⟨?_, hnone⟩
              rw [sentBytes_append, hsent]
              rfl
            · simpa using h
          · exact fun e => ⟨rfl, nofun⟩
      · exact fun e new hnew => ⟨hnew ▸ rfl, nofun⟩
    · intro hrelates
      simp only [if_neg hrelates] at h
      exact ih h

/-- What a request leaves: the connection is done, or the first item of a section. -/
inductive RequestOutcome : Except Halt Position → List Event → Prop
  | stopped {e : Halt} {new : List Event} : RequestOutcome (.error e) new
  | finished {new : List Event} : RequestOutcome (.ok ⟨[], .finished⟩) new
  | entered {section_ : List Node} {vars : Vars} {new : List Event} :
    sentBytes new = [] → RequestOutcome (.ok ⟨[], .items section_ section_ vars⟩) new

theorem RequestOutcome.after {r : Except Halt Position} {new later : List Event}
    (h : RequestOutcome r later) (hnew : sentBytes new = []) : RequestOutcome r (later ++ new) := by
  cases h with
  | stopped => exact .stopped
  | finished => exact .finished
  | entered hsent =>
    apply RequestOutcome.entered
    rw [sentBytes_append, hnew, hsent]
    rfl

theorem Trace.then_end {s : ServerState} {m : Server PUnit}
    {Q : Except Halt PUnit → List Event → Prop}
    {before : List Event} (h : Trace m s Q) :
    Trace (m >>= fun _ => Pure.pure (endRequest [])) s fun r new =>
      RequestOutcome r (new ++ before) := by
  apply h.bind
  · exact fun _ new _ _ => .pure .finished
  · exact fun _ _ _ => .stopped

theorem enterSection_outcome (command : Str) (vars : Vars) (sections : List Node)
    (s : ServerState) : Trace (enterSection [] command vars sections) s RequestOutcome := by
  induction sections with
  | nil => exact .pure .finished
  | cons node sections ih =>
    apply Trace.need_bind _ fun e => .stopped
    intro tag htag
    apply Trace.ite
    · intro heq
      apply Trace.need_bind _ fun e => .stopped
      intro items hitems
      refine (Trace.emit (Q := fun _ new => sentBytes new = []) rfl).bind ?_ ?_
      · exact fun _ new _ hnew => .pure (.entered hnew)
      · exact fun _ _ _ => .stopped
    · exact fun _ => ih

theorem afterVerdict_outcome (goal : Goal) (s : ServerState) :
    Trace (afterVerdict env [] goal) s RequestOutcome := by
  cases goal with
  | invoke command vars => exact enterSection_outcome command vars env.config s
  | exec command details =>
    refine (Trace.emit (Q := fun _ _ => True) trivial).bind ?_ ?_
    · exact fun _ new auth _ => (runCommand_said env details [] none _).then_end
    · exact fun _ _ _ => .stopped

theorem afterJudgement_outcome (goal : Goal) {judgement : Judgement}
    (h : ∀ types rules, judgement ≠ .prompt types rules) (s : ServerState) :
    Trace (afterJudgement env [] goal judgement) s RequestOutcome := by
  cases judgement with
  | prompt types rules => exact absurd rfl (h types rules)
  | verdict allowed =>
    refine (Trace.emit (Q := fun _ new => sentBytes new = []) rfl).bind ?_ ?_
    · intro _ new auth hnew
      apply Trace.ite
      · intro _
        exact (afterVerdict_outcome env goal _).mono fun r later hlater => hlater.after hnew
      · intro _
        exact (Trace.emit (Q := fun _ _ => True) trivial).then_end
    · exact fun _ _ _ => .stopped

/-- The permission of a command is settled without a password. -/
theorem judged_outcome (goal : Goal) {s : ServerState}
    (h : sectionAsks env s.history goal.command env.config = false) :
    Trace (judgeSections env goal.command env.config >>= afterJudgement env [] goal) s
      RequestOutcome := by
  apply (judgeSections_judged env h).bind
  · rintro judgement new auth ⟨hsent, hnone⟩
    have hverdict : ∀ types rules, judgement ≠ .prompt types rules := by
      intro types rules heq
      exact hnone types rules (congrArg Except.ok heq)
    exact (afterJudgement_outcome env goal hverdict _).mono fun r later hlater => hlater.after hsent
  · exact fun _ _ _ => .stopped

theorem handleClientAuth_trace (details types : Str) (s : ServerState) :
    Trace (handleClientAuth env details types) s fun _ _ => True := by
  apply Trace.observe_bind
  refine (Trace.emit (Q := fun _ _ => True) trivial).bind ?_ fun _ _ _ => trivial
  intro _ new auth _
  apply Trace.ite
  · intro _
    exact ⟨.ok ⟨⟩, [.send "OKAY: Authenticated\n".toList], true, trivial, fun input => rfl⟩
  · exact fun _ => .emit trivial

theorem onRequest_outcome {line : Str} {s : ServerState}
    (h : ¬ AsksPassword env s.history line) : Trace (onRequest env [] line) s RequestOutcome := by
  unfold AsksPassword requestCommand at h
  unfold onRequest
  apply Trace.ite
  · exact fun _ => .pure .finished
  intro _
  refine (Trace.emit (Q := fun _ new => new = [.request (stripTrailingWhitespace line)]) rfl).bind
    ?_ ?_
  · rintro _ new auth rfl
    apply Trace.ite
    · exact fun _ => (handleClientAuth_trace env _ _ _).then_end
    intro hauth
    rw [if_neg hauth] at h
    apply Trace.ite
    · intro hexec
      rw [if_pos hexec, Option.any_some, Bool.not_eq_true] at h
      exact (judged_outcome env _ h).mono fun r later hlater => hlater.after rfl
    intro hexec
    rw [if_neg hexec] at h
    apply Trace.ite
    · intro hinvoke
      rw [if_pos hinvoke, Option.any_some, Bool.not_eq_true] at h
      exact (judged_outcome env _ h).mono fun r later hlater => hlater.after rfl
    · exact fun _ => .pure .finished
  · exact fun _ _ _ => .stopped

end Requests

end Invocation
