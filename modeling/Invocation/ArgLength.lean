import Invocation.Credentials
import Invocation.Lib.ShellWords
import Invocation.ShellSafety

/-!
# The limit on arguments

`InvokeCheckArgs` measures what stands between the blanks of a command, quoted
or not; `sh` measures words. They agree where no blank is quoted.
-/

namespace Invocation

set_option autoImplicit false

open Process Server Pieces

/-! ## What the check separates -/

/-- Where the check stands: in a token, behind a backslash, behind a blank. -/
inductive CheckState
  | token
  | pair
  | gap
deriving DecidableEq

/-- Whether the check separates at a character, and where it stands behind it. -/
def checkStep : CheckState → Char → Bool × CheckState
  | .pair, _ => (false, .token)
  | .gap, c =>
    if isSpace c then (true, .gap)
    else if c = '\\' then (false, .pair)
    else (false, .token)
  | .token, c =>
    if c = '\\' then (false, .pair)
    else if sepBlank c then (true, .gap)
    else (false, .token)

/-- The characters of a command, marked where the check separates. -/
def checkMarks : CheckState → Str → List (Bool × Char)
  | _, [] => []
  | k, c :: cmd => ((checkStep k c).1, c) :: checkMarks (checkStep k c).2 cmd

theorem checkMarks_gap (r : Str) : checkMarks .gap r =
    (r.takeWhile isSpace).map (true, ·) ++ checkMarks .token (r.dropWhile isSpace) := by
  induction r with
  | nil => rfl
  | cons c r ih =>
    cases hc : isSpace c with
    | true => simp [checkMarks, checkStep, hc, ih]
    | false =>
      have hblank : ¬ sepBlank c := by
        intro h
        rcases h with rfl | rfl | rfl | rfl <;> cases hc
      simp [checkMarks, checkStep, hc, hblank]

theorem find_separator (s : Str) :
    (checkMarks .token s = s.map (false, ·) ∧
      getTokenFindSeparator .none [.space] s = ([], [])) ∨
    ∃ w c r, s = w ++ c :: r ∧ getTokenFindSeparator .none [.space] s =
    (c :: r, r.dropWhile isSpace) ∧
      checkMarks .token s = w.map (false, ·) ++ (true, c) :: checkMarks .gap r := by
  have move {c : Char} {s t : Str} (hs : findSeparatorStep .none [.space] (c :: s) = .inr t) :
      getTokenFindSeparator .none [.space] (c :: s) = getTokenFindSeparator .none [.space] t :=
    Scan.find_move (findSeparatorStep_advances .none [.space]) hs
  fun_induction pieceFrom (sepChar .space) s with
  | case1 => exact Or.inl ⟨rfl, rfl⟩
  | case2 =>
    refine Or.inl ⟨rfl, ?_⟩
    exact move (findSeparatorStep_backslash .none rfl [.space] [])
  | case3 d t ih =>
    have hmove := move (findSeparatorStep_backslash .none rfl [.space] (d :: t))
    have hmarks : checkMarks .token ('\\' :: d :: t) =
        (false, '\\') :: (false, d) :: checkMarks .token t := rfl
    rw [hmove, hmarks]
    rcases ih with ⟨hm, hf⟩ | ⟨w, c, r, rfl, hf, hm⟩
    · exact Or.inl ⟨by rw [hm]; rfl, hf⟩
    · refine Or.inr ⟨'\\' :: d :: w, c, r, rfl, hf, ?_⟩
      rw [hm]
      rfl
  | case4 c s hne ih =>
    by_cases hblank : sepBlank c
    · refine Or.inr ⟨[], c, s, rfl, ?_, by simp [checkMarks, checkStep, hne, hblank]⟩
      apply Scan.find_stop
      have hq : TokenFlags.none.honorQuotes = false := rfl
      have hm := getTokenSepMatch_plain .none .space hne (Or.inr hq) (c :: s) s
      simp [findSeparatorStep, hm, hne, sepChar, sepEnd, hblank]
    · have hmove : getTokenFindSeparator .none [.space] (c :: s) =
          getTokenFindSeparator .none [.space] s := by
        apply move
        have hq : TokenFlags.none.honorQuotes = false := rfl
        have hm := getTokenSepMatch_plain .none .space hne (Or.inr hq) (c :: s) s
        simp [findSeparatorStep, hm, hne, sepChar, hblank, getTokenStepThru, hq]
      have hmarks : checkMarks .token (c :: s) = (false, c) :: checkMarks .token s := by
        simp [checkMarks, checkStep, hne, hblank]
      rw [hmove, hmarks]
      rcases ih with ⟨hm, hf⟩ | ⟨w, d, r, rfl, hf, hm⟩
      · exact Or.inl ⟨by rw [hm]; rfl, hf⟩
      · refine Or.inr ⟨c :: w, d, r, rfl, hf, ?_⟩
        rw [hm]
        rfl

theorem tokens_separator {w r rest : Str} {c : Char}
    (h : getTokenFindSeparator .none [.space] (w ++ c :: r) = (c :: r, rest)) :
    tokens spaceSeparator .none (w ++ c :: r) = w :: tokens spaceSeparator .none rest := by
  have htoken : getToken (w ++ c :: r) spaceSeparator .none = (w, some rest) := by
    obtain ⟨a, s, hs⟩ := List.exists_cons_of_ne_nil (l := w ++ c :: r) (by simp)
    have hfind : getToken (w ++ c :: r) spaceSeparator .none =
        getTokenPostProcess .none (w ++ c :: r) (c :: r) rest := by
      rw [hs] at h ⊢
      show getTokenPostProcess .none _ (getTokenFindSeparator .none [.space] (a :: s)).1
        (getTokenFindSeparator .none [.space] (a :: s)).2 = _
      rw [h]
    rw [hfind]
    simp [getTokenPostProcess, TokenFlags.none]
  have hnext : nextToken spaceSeparator .none (w ++ c :: r) = some (w, rest) := by
    rw [nextToken, htoken]
  exact Scan.unfold_some (nextToken_shrinks _ _) hnext

theorem tokens_whole {w : Str} (hne : w ≠ [])
    (h : getTokenFindSeparator .none [.space] w = ([], [])) :
    tokens spaceSeparator .none w = [w] := by
  have htoken : getToken w spaceSeparator .none = (w, some []) := by
    obtain ⟨a, s, rfl⟩ := List.exists_cons_of_ne_nil hne
    have hfind : getToken (a :: s) spaceSeparator .none =
        getTokenPostProcess .none (a :: s) [] [] := by
      show getTokenPostProcess .none _ (getTokenFindSeparator .none [.space] (a :: s)).1
        (getTokenFindSeparator .none [.space] (a :: s)).2 = _
      rw [h]
    rw [hfind]
    simp [getTokenPostProcess, TokenFlags.none]
  have hnext : nextToken spaceSeparator .none w = some (w, []) := by
    rw [nextToken, htoken]
  rw [tokens, Scan.unfold_some (nextToken_shrinks _ _) hnext]
  rfl

/-- The tokens that are not empty are the runs between the marks. -/
theorem mem_tokens_iff_run {item : Str} (hne : item ≠ []) (cmd : Str) :
    item ∈ tokens spaceSeparator .none cmd ↔
      ∃ run, IsRun Prod.fst (checkMarks .token cmd) run ∧ run.map Prod.snd = item := by
  induction hlen : cmd.length using Nat.strongRecOn generalizing cmd with
  | ind n ih =>
    have hplain (w : Str) : ∀ a ∈ w.map ((false, ·) : Char → Bool × Char), Prod.fst a = false := by
      intro a ha
      obtain ⟨c, _, rfl⟩ := List.mem_map.mp ha
      rfl
    have hchars (w : Str) : (w.map ((false, ·) : Char → Bool × Char)).map Prod.snd = w := by
      rw [List.map_map]
      exact List.map_id w
    rcases find_separator cmd with ⟨hmarks, hfind⟩ | ⟨w, c, r, rfl, hfind, hmarks⟩
    · rw [hmarks]
      simp only [isRun_whole (hplain cmd)]
      by_cases hcmd : cmd = []
      · subst hcmd
        simp [tokens, Scan.unfold, Scan.collect]
      · rw [tokens_whole hcmd hfind, List.mem_singleton]
        constructor
        · rintro rfl
          exact ⟨_, ⟨by simp [hcmd], rfl⟩, hchars item⟩
        · rintro ⟨run, ⟨_, rfl⟩, rfl⟩
          exact hchars cmd
    · have hshort : (r.dropWhile isSpace).length < n := by
        have hle := List.length_dropWhile_le isSpace r
        rw [← hlen, List.length_append, List.length_cons]
        omega
      have hblanks : ∀ a ∈ (r.takeWhile isSpace).map ((true, ·) : Char → Bool × Char),
          Prod.fst a = true := by
        intro a ha
        obtain ⟨d, _, rfl⟩ := List.mem_map.mp ha
        rfl
      rw [tokens_separator hfind, List.mem_cons, ih _ hshort _ rfl, hmarks, checkMarks_gap]
      simp only [isRun_split (hplain w) (d := (true, c)) rfl, isRun_separators hblanks]
      constructor
      · rintro (rfl | ⟨run, hrun, heq⟩)
        · exact ⟨_, Or.inl ⟨by simp [hne], rfl⟩, hchars item⟩
        · exact ⟨run, Or.inr hrun, heq⟩
      · rintro ⟨run, ⟨_, rfl⟩ | hrun, rfl⟩
        · exact Or.inl (hchars w)
        · exact Or.inr ⟨run, hrun, rfl⟩

/-- More characters than the limit, and no mark between them. -/
def LongRun (cmd : Str) (maxLen : Int) : Prop :=
  ∃ run, IsRun Prod.fst (checkMarks .token cmd) run ∧ maxLen < run.length

theorem invokeCheckArgs_iff (cmd : Str) {maxLen : Int} (h : 0 ≤ maxLen) :
    invokeCheckArgs cmd maxLen = true ↔ ¬ LongRun cmd maxLen := by
  unfold invokeCheckArgs LongRun
  simp only [List.all_eq_true, decide_eq_true_eq]
  constructor
  · rintro hall ⟨run, hrun, hlong⟩
    have hne : run.map Prod.snd ≠ [] := by
      intro hnil
      exact hrun.1 (List.map_eq_nil_iff.mp hnil)
    have hle := hall _ ((mem_tokens_iff_run hne cmd).mpr ⟨run, hrun, rfl⟩)
    rw [List.length_map] at hle
    omega
  · intro hno token htoken
    by_cases hne : token = []
    · rw [hne]
      exact h
    · obtain ⟨run, hrun, rfl⟩ := (mem_tokens_iff_run hne cmd).mp htoken
      by_contra hlong
      rw [List.length_map] at hlong
      exact hno ⟨run, hrun, by omega⟩

/-! ## Both lexers on one command -/

/-- The characters of a command, with what the shell and the check make of them. -/
def annotate : Shell.State → CheckState → Str → List (Shell.Role × Bool × Char)
  | _, _, [] => []
  | s, k, c :: cmd => ((Shell.step s c).1, (checkStep k c).1, c) ::
    annotate (Shell.step s c).2 (checkStep k c).2 cmd

theorem annotate_shell (s : Shell.State) (k : CheckState) (cmd : Str) :
    (annotate s k cmd).map (fun p => (p.1, p.2.2)) = (Shell.roles s cmd).zip cmd := by
  induction cmd generalizing s k with
  | nil => rfl
  | cons c cmd ih => rw [annotate, List.map_cons, ih, Shell.roles_cons, List.zip_cons_cons]

theorem annotate_check (s : Shell.State) (k : CheckState) (cmd : Str) :
    (annotate s k cmd).map Prod.snd = checkMarks k cmd := by
  induction cmd generalizing s k with
  | nil => rfl
  | cons c cmd ih => rw [annotate, List.map_cons, ih, checkMarks]

/-- Where the check separates, the shell does: no blank is quoted, and no white space of other
kinds stands behind a blank. -/
def SplitsAsShell (cmd : Str) : Prop :=
  ∀ p ∈ annotate startState .token cmd, p.2.1 = true → p.1.separates = true

def LongWord (cmd : Str) (maxLen : Int) : Prop := ∃ word ∈ Shell.words cmd, maxLen < word.length

theorem SplitsAsShell.longRun {cmd : Str} (h : SplitsAsShell cmd) {maxLen : Int} (hpos : 0 < maxLen)
    (hword : LongWord cmd maxLen) : LongRun cmd maxLen := by
  obtain ⟨word, hword, hlong⟩ := hword
  have hne : word ≠ [] := by
    rintro rfl
    rw [List.length_nil] at hlong
    omega
  obtain ⟨run, hrun, hle⟩ := Shell.words_run hword hne
  have hshell : (Shell.roles Shell.start cmd).zip cmd =
      (annotate startState .token cmd).map fun p => (p.1, p.2.2) :=
    (annotate_shell startState .token cmd).symm
  rw [hshell, isRun_map] at hrun
  obtain ⟨pre, hpre, rfl⟩ := hrun
  obtain ⟨longer, hlonger, hlen⟩ : ∃ longer, IsRun (Prod.fst ∘ Prod.snd)
      (annotate startState .token cmd) longer ∧ pre.length ≤ longer.length := hpre.mono h
  have hcheck : IsRun Prod.fst ((annotate startState .token cmd).map Prod.snd)
      (longer.map Prod.snd) := isRun_map.mpr ⟨longer, hlonger, rfl⟩
  rw [annotate_check] at hcheck
  refine ⟨_, hcheck, ?_⟩
  rw [List.length_map] at hle ⊢
  omega

/-! ## The limit in force -/

def lastLimit (visits : List Visit) : Option Int :=
  ((visitedLimits visits).getLast?).map atoi

theorem Reaches.limit {env : Env} {items : List Node} {details : Str} {s : ServerState}
    {visits : List Visit} {rest : List Node} {v : Vars} {t : ServerState}
    (h : Reaches env items (invokeVars env details) s visits rest v t) {limit : Int}
    (hlimit : lastLimit visits = some limit) :
    atoi (getVar v "InvokeMaxArgLen".toList) = limit := by
  obtain ⟨arg, harg, rfl⟩ := Option.map_eq_some_iff.mp hlimit
  obtain ⟨limits, hlimits⟩ := List.getLast?_eq_some_iff.mp harg
  have hsame : sameTag "InvokeMaxArgLen".toList "InvokeMaxArgLen".toList = true :=
    sameTag_self (by decide)
  rw [h.limits, hlimits, invokeVars, limitArgs_setVars, getVar_setVars, List.map_append,
    ← List.append_assoc, List.map_cons, List.map_nil, List.reverse_append, List.reverse_singleton,
    List.singleton_append,
    List.find?_cons_of_pos (p := fun x : Str × Str => sameTag x.1 "InvokeMaxArgLen".toList) hsame]
  rfl

/-- The options of an entry add nothing to its command line. -/
def OnlyOptions (text : Str) : Prop := ∀ token ∈ commandOptions text, '=' ∈ token ∨ token =
    "pty".toList

theorem OnlyOptions.ownWords {text : Str} (h : OnlyOptions text) : ownWords text = [] := by
  have hnone : (commandOptions text).filter isWord = [] := by
    apply List.filter_eq_nil_iff.mpr
    intro token htoken
    rcases h token htoken with heq | hpty <;> simp [isWord, *]
  rw [Invocation.ownWords, hnone]
  rfl

theorem Quietly.since {α : Type} {m : Server α} (h : Quietly m) (s : ServerState) :
    ∃ new, (exec m s).2.history = new ++ s.history ∧ ∀ e ∈ new, Quiet e := by
  have hstable : Stable fun s' => ∃ new, s'.history = new ++ s.history ∧ ∀ e ∈ new, Quiet e := by
    constructor
    · rintro s' e he ⟨new, hnew, hquiet⟩
      exact ⟨e :: new, by rw [hnew]; rfl, List.forall_mem_cons.mpr ⟨he, hquiet⟩⟩
    · exact fun _ _ _ h => h
  have hm := h _ hstable s ⟨[], rfl, nofun⟩
  cases hexec : exec m s with
  | mk r s' =>
    rw [hexec] at hm
    cases r with
    | ok a => exact hm
    | error e => exact hm.2

/-- A command that does not fit leaves no trace; one that fits is spawned, and nothing else. -/
theorem runCommand_new (env : Env) {text cmd : Str} {v : Vars}
    (hcmd : substitutedCommand text v = some cmd) (honly : OnlyOptions text)
    (section? : Option (List Node)) (t : ServerState) :
    ∃ new, (exec (runCommand env text v section?) t).2.history = new ++ t.history ∧
      (∀ cmd' config, .spawn cmd' config ∈ new → cmd' = cmd) ∧
      (new = [] ↔ argsFit v cmd = false) := by
  cases hfit : argsFit v cmd with
  | false =>
    refine ⟨[], ?_, nofun, fun _ => rfl, fun _ => rfl⟩
    simp only [runCommand, hcmd, exec_bind, exec_need_some, hfit, Bool.false_eq_true, if_false,
      exec_pure, List.nil_append]
  | true =>
    obtain ⟨r, hr⟩ : ∃ r, spawnRequest text v = some r := by simp [spawnRequest, hcmd]
    obtain ⟨first, hfirst, hline, _⟩ := spawnRequest_builtFrom hr
    rw [hcmd] at hfirst
    cases hfirst
    rw [honly.ownWords, List.append_nil] at hline
    have htail (m : Server PUnit) (hm : Quietly m)
        (hrun : exec (runCommand env text v section?) t =
          exec m { t with history := .spawn r.cmd r.capabilities :: t.history }) :
        ∃ new, (exec (runCommand env text v section?) t).2.history = new ++ t.history ∧
          (∀ cmd' config, .spawn cmd' config ∈ new → cmd' = cmd) ∧ (new = [] ↔ true = false) := by
      obtain ⟨new, hnew, hquiet⟩ := hm.since
        { t with history := .spawn r.cmd r.capabilities :: t.history }
      refine ⟨new ++ [.spawn r.cmd r.capabilities], ?_, ?_, by simp⟩
      · rw [hrun, hnew, List.append_assoc]
        rfl
      · intro cmd' config hmem
        rcases List.mem_append.mp hmem with hmem | hmem
        · exact (hquiet _ hmem).elim
        · rw [List.mem_singleton, Event.spawn.injEq] at hmem
          rw [hmem.1, hline]
    cases hspawn : env.spawn t.history r.cmd r.capabilities with
    | some output =>
      apply htail (sendOutput r v section? output) (sendOutput_quietly r v section? output)
      simp only [runCommand, hcmd, exec_bind, exec_need_some, hfit, if_true, hr, exec_observe,
        hspawn, exec_emit]
    | none =>
      apply htail (Server.emit (.send "FAIL: No such command\n".toList)) (Quietly.emit trivial)
      simp only [runCommand, hcmd, exec_bind, exec_need_some, hfit, if_true, hr, exec_observe,
        hspawn, exec_emit]

/-- A run entry spawns its command only if no word of it is longer than the limit, and otherwise
does nothing. -/
def LimitHolds (env : Env) (items : List Node) (text : Str) (v : Vars) (t : ServerState)
    (limit : Int) : Prop :=
  ∃ new, (exec (runCommand env text v (some items)) t).2.history = new ++ t.history ∧
    (∀ cmd config, .spawn cmd config ∈ new → ¬ LongWord cmd limit) ∧
    ∀ cmd, substitutedCommand text v = some cmd → LongWord cmd limit → new = []

theorem argsFit_iff {v : Vars} {limit : Int}
    (h : atoi (getVar v "InvokeMaxArgLen".toList) = limit) (cmd : Str) :
    argsFit v cmd = false ↔ 0 < limit ∧ LongRun cmd limit := by
  unfold argsFit
  dsimp only
  rw [h, Bool.not_eq_false', Bool.and_eq_true, decide_eq_true_eq, Bool.not_eq_true']
  apply and_congr_right
  intro hpos
  rw [← Bool.not_eq_true, invokeCheckArgs_iff cmd (Int.le_of_lt hpos), not_not]

/-- One run entry is held to a limit if and only if commands with longer words do not fit. -/
theorem limitHolds_iff (env : Env) (items : List Node) {text : Str} (honly : OnlyOptions text)
    (v : Vars) (t : ServerState) (limit : Int) : LimitHolds env items text v t limit ↔
      ∀ cmd, substitutedCommand text v = some cmd → LongWord cmd limit → argsFit v cmd = false := by
  constructor
  · rintro ⟨new, hnew, _, hnone⟩ cmd hcmd hlong
    obtain ⟨new', hnew', _, hfit⟩ := runCommand_new env hcmd honly (some items) t
    have hsame : new' = new := List.append_cancel_right (hnew'.symm.trans hnew)
    rw [← hfit, hsame]
    exact hnone cmd hcmd hlong
  · intro hfits
    cases hcmd : substitutedCommand text v with
    | none =>
      refine ⟨[], ?_, nofun, fun _ _ _ => rfl⟩
      rw [runCommand, hcmd]
      rfl
    | some cmd =>
      obtain ⟨new, hnew, hspawns, hfit⟩ := runCommand_new env hcmd honly (some items) t
      refine ⟨new, hnew, ?_, ?_⟩
      · intro cmd' config hmem hlong
        rw [hspawns cmd' config hmem] at hlong
        rw [hfit.mpr (hfits cmd hcmd hlong)] at hmem
        cases hmem
      · intro cmd' hcmd' hlong
        rw [hcmd] at hcmd'
        cases hcmd'
        exact hfit.mpr (hfits cmd hcmd hlong)

def quotingSection : List Node :=
  [requireItem "arglen 6".toList, .value (some "run".toList) "\"/bin/x '$(args)'\" pty".toList]

def quotingVars (request : String) : Vars :=
  setVar (invokeVars quietEnv request.toList) "InvokeMaxArgLen".toList "6".toList

theorem quotingSection_reached (request : String) : Reaches quietEnv quotingSection
    (invokeVars quietEnv request.toList) { input := [] } [⟨requireItem "arglen 6".toList, []⟩]
    [.value (some "run".toList) "\"/bin/x '$(args)'\" pty".toList] (quotingVars request)
    { input := [] } := by
  have hround : exec (runItem quietEnv quotingSection (requireItem "arglen 6".toList)
      (invokeVars quietEnv request.toList)) { input := [] } =
      (.ok (some (quotingVars request)), { input := [] }) := rfl
  exact .next .start hround

theorem quotingSection_options : OnlyOptions "\"/bin/x '$(args)'\" pty".toList := by
  have hone : commandOptions "\"/bin/x '$(args)'\" pty".toList = ["pty".toList] := by decide +kernel
  intro token htoken
  rw [hone, List.mem_singleton] at htoken
  exact Or.inr htoken

end Invocation
