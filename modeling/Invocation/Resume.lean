import Invocation.ConnectionSafety
import Invocation.Deadlock

/-!
# The pieces are the server

What is left of `HandleClientRequest` in front of each read. A turn that opens
no prompt does a part of it, whatever the client sends later.
-/

namespace Invocation

set_option autoImplicit false

open Process Server

section Resume

variable (env : Env) (checkAuth : Str → Server Bool)

/-- `BookinFileFromClient` behind the bytes of its upload. -/
def keepUpload (path content : Str) : Server PUnit := do
  emit (.writeFile (path ++ "+".toList) content)
  emit (.rename (path ++ "+".toList) path)
  emit (.restoreOwner path)

/-- `BookinFileFromClient` behind its question. -/
def takeAnswer (path : Str) : Server PUnit := do
  let answer ← readClientLine
  match announced (answer.getD []) with
  | some size => do
    let content ← readClientBytes (sendLimit size)
    keepUpload path content
  | none => emit (.unlink (path ++ "+".toList))

/-- What is left of a request. -/
def resume : ServerPhase → Server PUnit
  | .request => do
    let _ ← handleRequestWith env checkAuth []
    pure ⟨⟩
  | .items section_ rest vars => runItems env section_ rest vars
  | .answer section_ rest vars path => do
    takeAnswer path
    runItems env section_ rest vars
  | .upload section_ rest vars path left content => do
    let bytes ← readClientBytes left
    keepUpload path (content ++ bytes)
    runItems env section_ rest vars
  | .finished => pure ⟨⟩

/-- The state in which the request will end when the client still sends `more`. -/
def Connection.outcome (c : Connection) (more : Str) : ServerState :=
  (exec (resume env checkAuth c.position.phase) { c.server with input := c.server.input ++ more }).2

end Resume

/-! ## A piece and what is left behind it -/

section Pieces

variable {env : Env} {checkAuth : Str → Server Bool}

theorem takeBookin (path : Str) (vars : Vars) : bookinFileFromClient env path vars = (do
    let path ← need (substituteVarsInString vars false path)
    let opened ← observe fun h => env.openWrite h (path ++ "+".toList)
    if opened then do
      emit (.openWrite (path ++ "+".toList))
      emit (.send ("bookin ".toList ++ getBasename path ++ "\n".toList))
      takeAnswer path
    else pure ⟨⟩) := by
  unfold bookinFileFromClient takeAnswer announced
  apply bind_congr
  intro path'
  apply bind_congr
  intro opened
  refine if_congr Iff.rfl ?_ rfl
  apply bind_congr
  intro _
  apply bind_congr
  intro _
  apply bind_congr
  intro answer
  dsimp only
  split
  · rfl
  · rfl

theorem runItems_eq (section_ rest : List Node) (vars : Vars) : runItems env section_ rest vars =
    onItem env [] section_ vars rest >>= fun position => resume env checkAuth position.phase := by
  cases rest with
  | nil => rfl
  | cons item rest =>
    rw [runItems_cons]
    simp only [onItem]
    cases hpath : bookinPath? item with
    | some path =>
      have hitem : runItem env section_ (.value (some "bookin".toList) path) vars =
        bookinFileFromClient env path vars >>= fun _ => pure (some vars) := rfl
      rw [bookinPath?_some hpath, hitem, takeBookin]
      simp only [askBookin, bind_assoc]
      apply bind_congr
      intro path'
      apply bind_congr
      intro opened
      cases opened with
      | true => rfl
      | false => rfl
    | none =>
      rw [bind_assoc]
      apply bind_congr
      intro vars?
      cases vars? with
      | some vars => rfl
      | none => rfl

theorem runInvokeIn_eq (command : Str) (vars : Vars) (sections : List Node) :
    runInvokeIn env command vars sections =
      enterSection [] command vars sections >>=
        fun position => resume env checkAuth position.phase := by
  induction sections with
  | nil => rfl
  | cons node sections ih =>
    rw [runInvokeIn, enterSection, bind_assoc]
    apply bind_congr
    intro tag
    rw [ite_bind, bind_assoc]
    refine if_congr Iff.rfl ?_ ih
    rfl

/-- The verdict of a judgement that needs no prompt. -/
def settle : Judgement → Server Bool
  | .verdict allowed => pure allowed
  | .prompt _ _ => undefined

theorem checkRules_eq {peer : Peer} {rules : List Node} (h : reachesAuth peer rules = false)
    (result : Bool) :
    checkRules peer checkAuth rules result = judgeRules peer rules result >>= settle := by
  induction rules generalizing result with
  | nil => rfl
  | cons node rules ih =>
    unfold reachesAuth at h
    rw [checkRules, judgeRules, bind_assoc]
    cases htag : node.tag with
    | none => rfl
    | some tag =>
      rw [htag] at h
      simp only [need, pure_bind]
      cases hid : ruleIdentity peer tag with
      | some identity =>
        simp only [hid] at h ⊢
        cases htext : node.text? with
        | none => rfl
        | some text =>
          rw [htext, Option.any_some] at h
          simp only [pure_bind, ite_bind]
          by_cases hlisted : isItemInList identity text = true
          · rw [hlisted, Bool.true_and] at h
            rw [if_pos hlisted, if_pos hlisted]
            exact ih h true
          · rw [if_neg hlisted, if_neg hlisted]
            rfl
      | none =>
        simp only [hid] at h ⊢
        by_cases hauth : strCaseEq tag "auth".toList = true
        · rw [if_pos hauth] at h ⊢
          cases htext : node.text? with
          | none =>
            rw [if_pos hauth]
            rfl
          | some text =>
            rw [htext] at h
            cases h
        · rw [if_neg hauth] at h ⊢
          rw [if_neg hauth]
          exact ih h result

theorem findPermissionIn_eq {command : Str} {sections : List Node} {s : ServerState}
    (h : sectionAsks env s.history command sections = false) :
    exec (findPermissionIn env checkAuth command sections) s =
      exec (judgeSections env command sections >>= settle) s := by
  induction sections with
  | nil => rfl
  | cons node sections ih =>
    unfold sectionAsks at h
    rw [findPermissionIn, judgeSections, bind_assoc]
    cases htag : node.tag with
    | none => rfl
    | some tag =>
      rw [htag] at h
      simp only [need, pure_bind, ite_bind]
      by_cases hrelates : relates env command tag = true
      · simp only [if_pos hrelates] at h ⊢
        unfold checkPermission judgePermission grantCheck
        simp only [exec_bind, exec_observe]
        cases hdb : appDBCheck (env.files s.history) (env.clientsDB s.history) command
          env.peer.exePath with
        | none => rfl
        | some granted =>
          cases granted with
          | true => rfl
          | false =>
            cases hitems : node.items? with
            | none => rfl
            | some rules =>
              rw [hdb, hitems] at h
              have hrules : reachesAuth env.peer rules = false := by simpa using h
              simp only [need, pure_bind, exec_emit, exec_pure, Bool.false_eq_true, if_false,
                checkRules_eq hrules, exec_bind]
      · simp only [if_neg hrelates] at h ⊢
        exact ih h

theorem afterVerdict_invoke (command : Str) (vars : Vars) :
    runInvokeIn env command vars env.config =
      afterVerdict env [] (.invoke command vars) >>=
        fun position => resume env checkAuth position.phase :=
  runInvokeIn_eq command vars env.config

theorem afterVerdict_exec (command details : Str) :
    (do emit (.execText details); runCommand env details [] none) =
      afterVerdict env [] (.exec command details) >>=
        fun position => resume env checkAuth position.phase := by
  simp only [afterVerdict, bind_assoc, pure_bind]
  apply bind_congr
  intro _
  exact (bind_pure_unit).symm

theorem permitted_eq {goal : Goal} {work : Server PUnit}
    (hwork : work = afterVerdict env [] goal >>= fun position =>
      resume env checkAuth position.phase)
    {s : ServerState} (h : sectionAsks env s.history goal.command env.config = false) :
    exec (findPermission env checkAuth goal.command >>= fun allowed =>
        if allowed then work else emit (.send "FAIL: Not authorized\n".toList)) s =
      exec (judgeSections env goal.command env.config >>= fun judgement =>
        afterJudgement env [] goal judgement >>=
          fun position => resume env checkAuth position.phase) s := by
  obtain ⟨r, new, auth, ⟨-, hverdict⟩, htrace⟩ := judgeSections_judged env h
  have hjudge := htrace s.input
  have hfind := @findPermissionIn_eq env checkAuth goal.command env.config s h
  unfold findPermission
  rw [bind_assoc, exec_bind, hfind, exec_bind, exec_bind, hjudge]
  cases r with
  | error e => rfl
  | ok judgement =>
    cases judgement with
    | prompt types rules => exact absurd rfl (hverdict types rules)
    | verdict allowed =>
      cases allowed with
      | true =>
        rw [hwork]
        simp only [afterJudgement, settle, exec_bind, exec_pure, exec_emit, if_true]
      | false => rfl

theorem handleRequest_eq {s : ServerState} {line rest : Str}
    (hline : readLine s.input = some (line, rest)) (h : ¬ AsksPassword env s.history line) :
    exec (resume env checkAuth .request) s =
      exec (onRequest env [] line >>= fun position => resume env checkAuth position.phase)
        { s with input := rest } := by
  unfold AsksPassword requestCommand at h
  have hresume : resume env checkAuth .request =
    handleRequestWith env checkAuth [] >>= fun _ => pure ⟨⟩ := rfl
  have hend : ∀ m : Server PUnit, (m >>= fun _ => pure ⟨⟩) = m := fun m => bind_pure_unit
  rw [hresume]
  unfold handleRequestWith onRequest
  simp only [bind_assoc, exec_bind readClientLine, exec_readClientLine, hline, Option.getD_some,
    ite_bind, pure_bind, hend]
  by_cases hempty : stripTrailingWhitespace line = []
  · rw [if_pos hempty, if_pos hempty]
    rfl
  rw [if_neg hempty, if_neg hempty]
  rw [exec_bind, exec_emit, exec_bind, exec_emit]
  by_cases hauth : strCaseEq (getToken (stripTrailingWhitespace line) requestSeparator .multi).1
      "AUTH".toList = true
  · simp only [if_pos hauth]
    exact congrArg (fun m => exec m _) (hend _).symm
  simp only [if_neg hauth] at h ⊢
  by_cases hexec : strCaseEq (getToken (stripTrailingWhitespace line) requestSeparator .multi).1
      "EXEC".toList = true
  · simp only [if_pos hexec] at h ⊢
    rw [Option.any_some, Bool.not_eq_true] at h
    exact permitted_eq (afterVerdict_exec _ _) h
  simp only [if_neg hexec] at h ⊢
  by_cases hinvoke : strCaseEq (getToken (stripTrailingWhitespace line) requestSeparator .multi).1
      "INVOKE".toList = true
  · simp only [if_pos hinvoke] at h ⊢
    rw [Option.any_some, Bool.not_eq_true] at h
    exact permitted_eq (afterVerdict_invoke _ _) h
  · simp only [if_neg hinvoke] at h ⊢
    rfl

/-! ## Turns -/

/-- A piece of work does not change how the request will end. -/
theorem work_outcome {c : Connection} {m : Server Position}
    {Q : Except Halt Position → List Event → Prop} (htrace : Trace m c.server Q)
    (input more : Str) :
    (c.work input m).outcome env checkAuth more =
      (exec (m >>= fun position => resume env checkAuth position.phase)
        { c.server with input := input ++ more }).2 := by
  obtain ⟨r, new, auth, -, hexec⟩ := htrace
  unfold Connection.outcome Connection.work
  rw [exec_bind, hexec, hexec]
  cases r with
  | ok position => rfl
  | error e => rfl

theorem completeLine_append {input line rest : Str} (h : completeLine input = some (line, rest))
    (more : Str) : readLine (input ++ more) = some (line, rest ++ more) := by
  unfold completeLine at h
  by_cases hmem : '\n' ∈ input
  · obtain ⟨first, last, rfl, hfirst⟩ := List.eq_append_cons_of_mem hmem
    rw [if_pos hmem, readLine_line hfirst, Option.some.injEq, Prod.mk.injEq] at h
    obtain ⟨rfl, rfl⟩ := h
    rw [List.append_assoc, List.cons_append, readLine_line hfirst]
  · rw [if_neg hmem] at h
    cases h

theorem takeAnswer_eq (section_ rest : List Node) (vars : Vars) (path : Str) {s : ServerState}
    {line input : Str} (hline : readLine s.input = some (line, input)) :
    exec (resume env checkAuth (.answer section_ rest vars path)) s =
      exec (onAnswer [] section_ rest vars path line >>=
        fun position => resume env checkAuth position.phase) { s with input := input } := by
  simp only [resume, takeAnswer, bind_assoc, exec_bind readClientLine, exec_readClientLine, hline,
    Option.getD_some]
  unfold onAnswer
  cases announced line with
  | none => rfl
  | some size => rfl

/-- What is taken of an upload in pieces is what is taken at once. -/
theorem take_pieces {k left : Nat} (hk : k ≤ left) (input more : Str) :
    (input ++ more).take left = input.take k ++
        (input.drop k ++ more).take (left - (input.take k).length) ∧
      (input ++ more).drop left = (input.drop k ++ more).drop (left - (input.take k).length) := by
  have hsplit : input ++ more = input.take k ++ (input.drop k ++ more) := by
    rw [← List.append_assoc, List.take_append_drop]
  have hlength : (input.take k).length ≤ left := by
    rw [List.length_take]
    omega
  constructor
  · conv_lhs => rw [hsplit]
    rw [List.take_append, List.take_of_length_le hlength]
  · conv_lhs => rw [hsplit]
    rw [List.drop_append, List.drop_of_length_le hlength, List.nil_append]

theorem bookout_trace (path : Str) (vars : Vars) (s : ServerState) :
    Trace (bookoutFileToClient env path vars) s fun _ _ => True := by
  apply Trace.need_bind _ fun _ => trivial
  intro path' hpath
  apply Trace.observe_bind
  split
  · apply Trace.ite
    · intro _
      apply Trace.observe_bind
      apply (Trace.emit (Q := fun _ _ => True) trivial).bind
      · intro _ _ _ _
        split
        · exact (Trace.emit (Q := fun _ _ => True) trivial).bind (fun _ _ _ _ => .emit trivial)
            fun _ _ _ => trivial
        · exact .pure trivial
      · exact fun _ _ _ => trivial
    · exact fun _ => .pure trivial
  · exact .pure trivial

theorem onItem_trace (section_ rest : List Node) (vars : Vars) (s : ServerState) :
    Trace (onItem env [] section_ vars rest) s fun _ _ => True := by
  cases rest with
  | nil => exact .pure trivial
  | cons item rest =>
    simp only [onItem]
    cases hpath : bookinPath? item with
    | some path =>
      apply Trace.need_bind _ fun _ => trivial
      intro path' _
      apply Trace.observe_bind
      apply Trace.ite
      · intro _
        exact ⟨_, [.send ("bookin ".toList ++ getBasename path' ++ "\n".toList),
          .openWrite (path' ++ "+".toList)], s.authenticated, trivial, fun _ => rfl⟩
      · exact fun _ => .pure trivial
    | none =>
      have hitem : Trace (runItem env section_ item vars) s fun _ _ => True := by
        cases item with
        | block tag sub => exact .pure trivial
        | value tag text =>
          cases tag with
          | none => exact .stop trivial
          | some tag =>
            apply runItem_trace env (not_bookin hpath)
            · exact fun _ _ => trivial
            · exact fun _ => bookout_trace text vars s
            · exact fun _ => trivial
            · exact (runCommand_said env text vars (some section_) s).mono fun _ _ _ => trivial
      apply hitem.bind
      · intro vars? new auth _
        cases vars? with
        | some vars => exact .pure trivial
        | none => exact .pure trivial
      · exact fun _ _ _ => trivial

/-- A turn of the server is a part of the request. -/
theorem serverTurn_outcome {c : Connection} (n : Nat) (more : Str)
    (hprompts : c.position.prompts = [] ∨ c.position.phase = .finished)
    (hrequest : c.position.phase = .request →
      ∀ p ∈ completeLine c.server.input, ¬ AsksPassword env c.server.history p.1) :
    (c.serverTurn env n).outcome env checkAuth more = c.outcome env checkAuth more := by
  obtain ⟨⟨prompts, phase⟩, server, toClient, client, past⟩ := c
  cases phase with
  | finished => rfl
  | request =>
    obtain rfl : prompts = [] := hprompts.resolve_right nofun
    unfold Connection.serverTurn
    dsimp only
    cases hread : completeLine server.input with
    | none => rfl
    | some p =>
      obtain ⟨line, rest⟩ := p
      have hasks := hrequest rfl _ hread
      dsimp only
      rw [work_outcome (onRequest_outcome env hasks)]
      have hline : readLine { server with input := server.input ++ more }.input =
        some (line, rest ++ more) := completeLine_append hread more
      exact congrArg Prod.snd (handleRequest_eq hline hasks).symm
  | items section_ rest vars =>
    obtain rfl : prompts = [] := hprompts.resolve_right nofun
    unfold Connection.serverTurn
    dsimp only
    rw [work_outcome (onItem_trace section_ rest vars server), ← runItems_eq]
    rfl
  | answer section_ rest vars path =>
    obtain rfl : prompts = [] := hprompts.resolve_right nofun
    unfold Connection.serverTurn
    dsimp only
    cases hread : completeLine server.input with
    | none => rfl
    | some p =>
      obtain ⟨line, input⟩ := p
      have htrace : Trace (onAnswer [] section_ rest vars path line) server fun _ _ => True := by
        unfold onAnswer
        cases announced line with
        | none =>
            exact ⟨_, [.unlink (path ++ "+".toList)], server.authenticated, trivial, fun _ => rfl⟩
        | some size => exact .pure trivial
      dsimp only
      rw [work_outcome htrace]
      have hline : readLine { server with input := server.input ++ more }.input =
        some (line, input ++ more) := completeLine_append hread more
      exact congrArg Prod.snd (takeAnswer_eq section_ rest vars path hline).symm
  | upload section_ rest vars path left content =>
    obtain rfl : prompts = [] := hprompts.resolve_right nofun
    unfold Connection.serverTurn
    dsimp only
    by_cases hleft : left = 0
    · rw [if_pos hleft]
      have htrace : Trace (onUpload [] section_ rest vars path content) server fun _ _ => True :=
        ⟨_, [.restoreOwner path, .rename (path ++ "+".toList) path,
          .writeFile (path ++ "+".toList) content], server.authenticated, trivial, fun _ => rfl⟩
      rw [work_outcome htrace]
      unfold Connection.outcome onUpload
      simp only [resume, keepUpload, bind_assoc, pure_bind, exec_bind, exec_readClientBytes,
        exec_emit, hleft, List.take_zero, List.drop_zero, List.append_nil]
    · rw [if_neg hleft]
      have hk : min (n + 1) left ≤ left := Nat.min_le_right _ _
      obtain ⟨htake, hdrop⟩ := take_pieces hk server.input more
      unfold Connection.outcome
      simp only [resume, exec_bind, exec_readClientBytes, htake, hdrop, List.append_assoc]

end Pieces

/-! ## Runs -/

section Runs

variable {env : Env} {client : Client} {c : Connection}

theorem InStep.prompts (h : InStep c) : c.position.prompts = [] ∨ c.position.phase = .finished := by
  cases h with
  | finished hphase => exact Or.inr hphase
  | request hposition => exact Or.inl (hposition ▸ rfl)
  | streaming hposition => exact Or.inl (hposition ▸ rfl)
  | items hposition => exact Or.inl (hposition ▸ rfl)
  | asked hposition => exact Or.inl (hposition ▸ rfl)
  | answered hposition => exact Or.inl (hposition ▸ rfl)
  | upload hposition => exact Or.inl (hposition ▸ rfl)

/-- What the client has sent makes the server do a part of the request. -/
def InRequest (env : Env) (line : Str) (c : Connection) : Prop :=
  InStep c ∧ ∃ sent, ∀ checkAuth more,
    c.outcome env checkAuth more = (Connection.start line).outcome env checkAuth (sent ++ more)

theorem InRequest.step {line : Str} {turn : Turn} (h : InRequest env line c)
    (hfits : c.Fits env client turn) : InRequest env line (c.step env client turn) := by
  obtain ⟨hin, sent, houtcome⟩ := h
  refine ⟨hin.step hfits, ?_⟩
  cases turn with
  | server n =>
    refine ⟨sent, ?_⟩
    intro checkAuth more
    rw [← houtcome checkAuth more]
    apply serverTurn_outcome n more hin.prompts
    intro hphase
    have hrequest : c.position.phase.Fits env c.server := hfits
    rw [hphase] at hrequest
    exact hrequest
  | client n =>
    obtain ⟨later, hposition, hserver⟩ := @clientTurn_sends client c n
    refine ⟨sent ++ later, ?_⟩
    intro checkAuth more
    rw [List.append_assoc, ← houtcome]
    show (c.clientTurn client n).outcome env checkAuth more = _
    unfold Connection.outcome
    rw [hposition, hserver]
    simp only [List.append_assoc]

theorem run_inRequest {line : Str} (hline : '\n' ∉ line) {turns : List Turn}
    (hfits : Runs.Guarded (Connection.step env client) (Connection.Fits env client)
      (Connection.start line) turns) :
    InRequest env line (Runs.run (Connection.step env client) (Connection.start line) turns) := by
  refine Runs.invariant (fun c turn => InRequest.step) ?_ hfits
  exact ⟨.request rfl hline rfl rfl rfl, [], fun _ _ => rfl⟩

/-- A connection that is done has done what `HandleClient` does with everything that the client
has sent. -/
theorem run_handleClient {line : Str} (hline : '\n' ∉ line) {turns : List Turn}
    (hfits : Runs.Guarded (Connection.step env client) (Connection.Fits env client)
      (Connection.start line) turns)
    (hdone : (Runs.run (Connection.step env client) (Connection.start line) turns).position.phase =
      .finished) :
    ∃ sent, (handleClient env (line ++ '\n' :: sent)).2 =
      (Runs.run (Connection.step env client) (Connection.start line) turns).server := by
  obtain ⟨-, sent, houtcome⟩ := @run_inRequest env client line hline turns hfits
  refine ⟨sent, ?_⟩
  generalize Runs.run (Connection.step env client) (Connection.start line) turns = c at *
  have hsame := houtcome
    (checkAuthWith (handleClientRequest env (line ++ '\n' :: sent).length)
      ((line ++ '\n' :: sent).length + 1)) []
  unfold Connection.outcome at hsame
  rw [hdone, List.append_nil, List.append_nil] at hsame
  have hinput : (Connection.start line).server.input ++ sent = line ++ '\n' :: sent :=
    List.append_assoc _ _ _
  rw [hinput] at hsame
  have hlast : ∀ (m : Server Bool) (s : ServerState),
      (exec (m >>= fun _ => pure PUnit.unit) s).2 = (exec m s).2 := by
    intro m s
    rw [exec_bind]
    cases exec m s with
    | mk r s' =>
      cases r with
      | ok b => rfl
      | error e => rfl
  exact (hlast _ _).symm.trans hsame.symm

end Runs

end Invocation
