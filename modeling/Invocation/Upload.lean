import Invocation.Client
import Invocation.Server

/-!
# The length of an upload

The server's `BookinFileFromClient` on the answer of the client's
`ClientBookinFile`: what the header announces, what is sent behind it, and what
is taken off the connection.
-/

namespace Invocation

set_option autoImplicit false

open Process Server

/-- The size that the answer to a bookin request announces; none is a refusal. -/
def announced (line : Str) : Option Nat :=
  let p := getToken line [' '] .none
  if p.1 = "bookin".toList then some (sizeValue (p.2.getD [])) else none

/-- The events of a bookin up to its answer. -/
def askedBookin (path : Str) (past : List Event) : List Event :=
  .send ("bookin ".toList ++ getBasename path ++ "\n".toList) ::
    .openWrite (path ++ "+".toList) :: past

/-- The events behind the answer, with the bytes that arrive behind it. -/
def answeredBookin (path : Str) (size? : Option Nat) (payload : Str) (past : List Event) :
    List Event :=
  match size? with
  | some size =>
    .restoreOwner path :: .rename (path ++ "+".toList) path ::
      .writeFile (path ++ "+".toList) (payload.take (sendLimit size)) :: past
  | none => .unlink (path ++ "+".toList) :: past

/-- What is left on the connection. -/
def leftBookin (size? : Option Nat) (payload : Str) : Str :=
  match size? with
  | some size => payload.drop (sendLimit size)
  | none => payload

/-- The answer to a bookin request, and what is behind it; a closed connection answers nothing. -/
def bookinAnswer (input : Str) : Str × Str :=
  match readLine input with
  | some p => p
  | none => ([], input)

section Bookin

variable {env : Env} {path path' : Str} {vars : Vars} {s : ServerState}

theorem exec_bookin (hpath : substituteVarsInString vars false path = some path')
    (hopen : env.openWrite s.history (path' ++ "+".toList) = true) {line rest : Str}
    (hanswer : bookinAnswer s.input = (line, rest)) :
    exec (bookinFileFromClient env path vars) s =
      (.ok ⟨⟩, { s with
        input := leftBookin (announced line) rest
        history := answeredBookin path' (announced line) rest (askedBookin path' s.history) }) := by
  unfold bookinFileFromClient
  simp only [hpath, exec_bind, exec_need_some, exec_observe, hopen, if_true, exec_emit,
    exec_readClientLine]
  unfold bookinAnswer at hanswer
  cases hline : readLine s.input with
  | none =>
    rw [hline] at hanswer
    cases hanswer
    rfl
  | some p =>
    rw [hline] at hanswer
    cases hanswer
    unfold announced
    by_cases hword : (getToken line [' '] .none).1 = "bookin".toList
    · simp only [Option.getD_some, if_pos hword, exec_bind, exec_readClientBytes, exec_emit]
      rfl
    · simp only [Option.getD_some, if_neg hword, exec_emit]
      rfl

theorem exec_bookin_closed (hpath : substituteVarsInString vars false path = some path')
    (hopen : env.openWrite s.history (path' ++ "+".toList) = false) :
    exec (bookinFileFromClient env path vars) s = (.ok ⟨⟩, s) := by
  unfold bookinFileFromClient
  simp only [hpath, exec_bind, exec_need_some, exec_observe, hopen, if_false, exec_pure,
    Bool.false_eq_true]

end Bookin

/-! ## The header -/

/-- The number that the server reads in a header for `n` bytes. -/
def headerSize (n : Nat) : Nat := (Int.bmod n (2 ^ 32) % 2 ^ 64).toNat

theorem bmod_bounds (n : Nat) : -(2 ^ 31) ≤ Int.bmod n (2 ^ 32) ∧ Int.bmod n (2 ^ 32) < 2 ^ 31 := by
  rw [Int.bmod_def]
  split <;> omega

theorem headerSize_eq_iff {n : Nat} (hn : n < 2 ^ 63) : headerSize n = n ↔ n < 2 ^ 31 := by
  unfold headerSize
  rw [Int.bmod_def]
  split <;> omega

theorem announced_message (text : Str) : announced ("bookin ".toList ++ text) =
    some (sizeValue text) := by
  have hword : ' ' ∉ "bookin".toList := by decide
  have hread := getToken_blank hword text
  have hline : "bookin ".toList ++ text = "bookin".toList ++ ' ' :: text := rfl
  unfold announced
  rw [hline, hread]
  exact if_pos rfl

theorem sizeValue_printfInt (n : Nat) (rest : Str) :
    sizeValue (printfInt n ++ ' ' :: rest) = headerSize n := by
  obtain ⟨hlow, hhigh⟩ := bmod_bounds n
  have hdigit : NoDigit (' ' :: rest) := noDigit_cons (by decide) _
  have hread : strtoll (printfInt n ++ ' ' :: rest) = Int.bmod n (2 ^ 32) :=
    strtoll_decimalInt (by omega) (by omega) hdigit
  unfold sizeValue headerSize
  rw [hread]

theorem announced_header (name content : Str) :
    announced (bookinHeader name content) = some (headerSize content.length) := by
  have hheader : bookinHeader name content =
      "bookin ".toList ++ (printfInt content.length ++ ' ' :: (name ++ "\n".toList)) := by
    have hblank : " ".toList = [' '] := rfl
    unfold bookinHeader
    rw [hblank]
    simp only [List.append_assoc, List.cons_append, List.nil_append]
  rw [hheader, announced_message, sizeValue_printfInt]

theorem newline_not_mem_printfInt (n : Nat) : '\n' ∉ printfInt n := by
  have hdecimal : ∀ m, '\n' ∉ decimal m := by
    intro m hmem
    exact absurd (decimal_digits m _ hmem) (by decide)
  unfold printfInt
  cases Int.bmod n (2 ^ 32) with
  | ofNat m => exact hdecimal m
  | negSucc m =>
    intro hmem
    rcases List.mem_cons.mp hmem with h | h
    · cases h
    · exact hdecimal _ h

theorem bookinHeader_line {name : Str} (hname : '\n' ∉ name) (content : Str) :
    ∃ line, '\n' ∉ line ∧ bookinHeader name content = line ++ ['\n'] := by
  refine ⟨"bookin ".toList ++ printfInt content.length ++ " ".toList ++ name, ?_, rfl⟩
  have h1 : '\n' ∉ "bookin ".toList := by decide
  have h2 : '\n' ∉ " ".toList := by decide
  simp only [List.mem_append, not_or]
  exact ⟨⟨⟨h1, newline_not_mem_printfInt _⟩, h2⟩, hname⟩

theorem readLine_header {name : Str} (hname : '\n' ∉ name) (content rest : Str) :
    readLine (bookinHeader name content ++ rest) = some (bookinHeader name content, rest) := by
  obtain ⟨line, hline, hheader⟩ := bookinHeader_line hname content
  rw [hheader, List.append_assoc, List.singleton_append]
  exact readLine_line hline rest

theorem announced_small {content : Str} (h : content.length < 2 ^ 31) (name : Str) :
    announced (bookinHeader name content) = some content.length := by
  rw [announced_header, (headerSize_eq_iff (by omega)).mpr h]

theorem clientBookinFile_sends {size : Nat} {content : Str} (h : content = [] ∨ 0 < size)
    (name : Str) : clientBookinFile size name content = bookinHeader name content ++ content := by
  unfold clientBookinFile
  by_cases hpos : 0 < size
  · rw [if_pos hpos]
  · rw [if_neg hpos, h.resolve_right hpos]

/-- Client and server agree on the length of an upload exactly when it is less than 2^31 and the
variable that nothing was stored in does not hold back a file that has content. -/
theorem upload_length_agrees_iff {env : Env} {path path' : Str} {vars : Vars} {s : ServerState}
    (hpath : substituteVarsInString vars false path = some path')
    (hopen : env.openWrite s.history (path' ++ "+".toList) = true) {name : Str}
    (hname : '\n' ∉ name) {content : Str} (hlength : content.length < 2 ^ 63) (size : Nat)
    (after : Str) :
    (announced (bookinHeader name content) = some content.length ∧
      clientBookinFile size name content = bookinHeader name content ++ content ∧
      exec (bookinFileFromClient env path vars)
          { s with input := clientBookinFile size name content ++ after } =
        (.ok ⟨⟩, { s with
          input := after
          history := .restoreOwner path' :: .rename (path' ++ "+".toList) path' ::
            .writeFile (path' ++ "+".toList) content :: askedBookin path' s.history })) ↔
    content.length < 2 ^ 31 ∧ (content = [] ∨ 0 < size) := by
  rw [announced_header, Option.some.injEq, headerSize_eq_iff hlength]
  constructor
  · rintro ⟨hsmall, hsent, -⟩
    refine ⟨hsmall, ?_⟩
    by_cases hsize : 0 < size
    · exact Or.inr hsize
    · unfold clientBookinFile at hsent
      rw [if_neg hsize] at hsent
      exact Or.inl (List.append_cancel_left hsent).symm
  · rintro ⟨hsmall, hsize⟩
    have hsent := clientBookinFile_sends hsize name
    refine ⟨hsmall, hsent, ?_⟩
    have hanswer : bookinAnswer (clientBookinFile size name content ++ after) =
        (bookinHeader name content, content ++ after) := by
      rw [bookinAnswer, hsent, List.append_assoc, readLine_header hname]
    have hlimit : sendLimit content.length = content.length := if_pos hlength
    have hsize := announced_small hsmall name
    have hleft : leftBookin (some content.length) (content ++ after) = after := by
      rw [leftBookin, hlimit, List.drop_left]
    have hevents : ∀ past, answeredBookin path' (some content.length) (content ++ after) past =
        .restoreOwner path' :: .rename (path' ++ "+".toList) path' ::
          .writeFile (path' ++ "+".toList) content :: past := by
      intro past
      rw [answeredBookin, hlimit, List.take_left]
    have hopen' : env.openWrite
        ({ s with input := clientBookinFile size name content ++ after } : ServerState).history
        (path' ++ "+".toList) = true := hopen
    rw [exec_bookin hpath hopen' hanswer, hsize, hleft, hevents]

/-- A server that can open every file, and knows nothing else. -/
def openingEnv : Env where
  config := []
  peer := { userName := "alice".toList, groupName := "users".toList,
            exePath := "/bin/tool".toList, uid := 1000, gid := 100, pid := 4242 }
  files := fun _ => { stat := fun _ => none, hashFile := fun _ => none, stat_nil := rfl }
  clientsDB := fun _ => none
  access := fun _ _ => false
  createLockFile := fun _ _ => -1
  switchUser := fun _ _ => .unknown
  switchGroup := fun _ _ => .unknown
  readFile := fun _ _ => none
  openWrite := fun _ _ => true
  authPAM := fun _ _ _ _ => 0
  spawn := fun _ _ _ => none

theorem upload_length_agrees_iff_short :
    exec (bookinFileFromClient openingEnv "/etc/motd".toList [])
        { input := clientBookinFile 1 "motd".toList "hello".toList ++ "more".toList } =
      (.ok ⟨⟩, { input := "more".toList
                 history := .restoreOwner "/etc/motd".toList ::
                   .rename ("/etc/motd".toList ++ "+".toList) "/etc/motd".toList ::
                   .writeFile ("/etc/motd".toList ++ "+".toList) "hello".toList ::
                   askedBookin "/etc/motd".toList [] }) := by
  have hpath : substituteVarsInString [] false "/etc/motd".toList = some "/etc/motd".toList := by
    decide +kernel
  have hname : '\n' ∉ "motd".toList := by decide
  have hopen : openingEnv.openWrite ({ input := [] } : ServerState).history
      ("/etc/motd".toList ++ "+".toList) = true := rfl
  exact ((upload_length_agrees_iff hpath hopen hname (by decide) 1 "more".toList).mpr
    ⟨by decide, Or.inr (by decide)⟩).2.2

/-- A file with content is announced, and its content is not sent. -/
theorem upload_held_back :
    ¬ ∀ (env : Env) (path path' : Str) (vars : Vars) (s : ServerState) (name content after : Str)
      (size : Nat), substituteVarsInString vars false path = some path' →
      env.openWrite s.history (path' ++ "+".toList) = true → '\n' ∉ name →
      content.length < 2 ^ 63 →
      announced (bookinHeader name content) = some content.length ∧
        clientBookinFile size name content = bookinHeader name content ++ content ∧
        exec (bookinFileFromClient env path vars)
            { s with input := clientBookinFile size name content ++ after } =
          (.ok ⟨⟩, { s with
            input := after
            history := .restoreOwner path' :: .rename (path' ++ "+".toList) path' ::
              .writeFile (path' ++ "+".toList) content :: askedBookin path' s.history }) := by
  intro h
  have hagree := h openingEnv "/etc/motd".toList "/etc/motd".toList [] { input := [] }
    "motd".toList "hello".toList [] 0 (by decide +kernel) rfl (by decide) (by decide)
  exact absurd hagree.2.1 (by decide +kernel)

end Invocation
