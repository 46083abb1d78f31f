import Invocation.Replay

/-!
# The frame of a book-out

The header carries the size that `stat` reported, the content is what was read
later. The client takes as many bytes as the header says and goes back to its
main loop.
-/

namespace Invocation

set_option autoImplicit false

open Process Server

/-- One round of the client takes the header and exactly the content, and stores the content. What
it goes on with is what the server wrote next. -/
def InFrame (client : Client) (past : List ClientAction) (sent content rest : Str) : Prop :=
  ∃ name, clientStep client past (sent ++ rest) = some (.create name content, rest)

/-- A line that starts a book-out of `size` bytes. -/
def bookoutHeader (size : Nat) (name : Str) : Str :=
  "bookout ".toList ++ decimal size ++ " ".toList ++ name ++ "\n".toList

section Frame

variable {client : Client} {past : List ClientAction} {sent content rest : Str}

theorem InFrame.actions (h : InFrame client past sent content rest) :
    ∃ name, Scan.pieces (clientStep client) past (sent ++ rest) =
      .create name content :: Scan.pieces (clientStep client)
      (.create name content :: past) rest := by
  obtain ⟨name, hstep⟩ := h
  exact ⟨name, Scan.pieces_some (clientStep_shrinks client) hstep⟩

theorem take_drop_eq_iff {n : Nat} :
    (content ++ rest).take n = content ∧ (content ++ rest).drop n = rest ↔
      n = content.length ∨ rest = [] ∧ content.length ≤ n := by
  constructor
  · rintro ⟨htake, hdrop⟩
    have hlength := congrArg List.length htake
    rw [List.length_take, List.length_append] at hlength
    by_cases hrest : rest = []
    · subst hrest
      right
      refine ⟨rfl, ?_⟩
      rw [List.length_nil] at hlength
      omega
    · left
      have hpos := List.length_pos_of_ne_nil hrest
      have hleft := congrArg List.length hdrop
      rw [List.length_drop, List.length_append] at hleft
      omega
  · rintro (rfl | ⟨rfl, hle⟩)
    · exact ⟨List.take_left, List.drop_left⟩
    · rw [List.append_nil]
      exact ⟨List.take_of_length_le hle, List.drop_of_length_le hle⟩

/-- The content is framed if and only if the name fits into its line, the file can be created and
the size is that of the content, or beyond it with nothing more to come. -/
theorem inFrame_iff {size : Nat} (hsize : size < 2 ^ 63) (name : Str) :
    InFrame client past (bookoutHeader size name ++ content) content rest ↔
      '\n' ∉ name ∧ client.creates past (stripTrailingWhitespace name) = true ∧
        (size = content.length ∨ rest = [] ∧ content.length ≤ size) := by
  have hheader (line more : Str) : bookoutHeader size line ++ more =
      "bookout ".toList ++ decimal size ++ " ".toList ++ line ++ '\n' :: more := by
    unfold bookoutHeader
    rw [newline_toList, List.append_assoc _ ['\n'], List.singleton_append]
  by_cases hline : '\n' ∈ name
  · obtain ⟨line, post, rfl, hfree⟩ := List.eq_append_cons_of_mem hline
    -- the rest of the name is content to the client
    have hstep := clientStep_bookout client past (post ++ '\n' :: (content ++ rest)) hsize hfree
    have hbytes : bookoutHeader size (line ++ '\n' :: post) ++ content ++ rest =
        bookoutHeader size line ++ (post ++ '\n' :: (content ++ rest)) := by
      unfold bookoutHeader
      simp [newline_toList]
    rw [← hheader, ← hbytes] at hstep
    refine iff_of_false ?_ fun h => h.1 hline
    rintro ⟨file, hframe⟩
    rw [hstep, Option.some_inj] at hframe
    split_ifs at hframe
    · simp only [Prod.mk.injEq, ClientAction.create.injEq] at hframe
      obtain ⟨⟨_, htake⟩, hdrop⟩ := hframe
      have hwhole := List.take_append_drop size (post ++ '\n' :: (content ++ rest))
      rw [htake, hdrop] at hwhole
      have hlength := congrArg List.length hwhole
      simp only [List.length_append, List.length_cons] at hlength
      omega
    · cases hframe
  · have hstep := clientStep_bookout client past (content ++ rest) hsize hline
    rw [← hheader] at hstep
    unfold InFrame
    rw [List.append_assoc, hstep]
    by_cases hcreates : client.creates past (stripTrailingWhitespace name) = true
    · rw [if_pos hcreates, ← take_drop_eq_iff]
      simp [hline, hcreates]
    · rw [if_neg hcreates]
      simp [hcreates]

end Frame

/-- For every size that `stat` reported and every content that was read, the book-out stays in its
frame if and only if the name fits into its line, the client can create the file, and the two agree
on the length or nothing follows a content that is shorter. -/
theorem bookout_inFrame_iff {env : Env} {path path' content : Str} {vars : Vars} {s : ServerState}
    {stat : FileStat} (hpath : substituteVarsInString vars false path = some path')
    (hstat : (env.files s.history).stat path' = some stat) (hkind : stat.kind = .regular)
    (hread : env.readFile s.history path' = some content) (client : Client)
    (past : List ClientAction) (rest : Str) :
    ∃ s' sent, exec (bookoutFileToClient env path vars) s = (.ok ⟨⟩, s') ∧
      sentBytes s'.history = sentBytes s.history ++ sent ∧
      (InFrame client past sent content rest ↔
        '\n' ∉ getBasename path' ∧
          client.creates past (stripTrailingWhitespace (getBasename path')) = true ∧
          (stat.size = content.length ∨ rest = [] ∧ content.length ≤ stat.size)) ∧
      (InFrame client past sent content rest →
        ∃ name, Scan.pieces (clientStep client) past (sent ++ rest) = .create name content ::
          Scan.pieces (clientStep client) (.create name content :: past) rest) := by
  refine ⟨_, bookoutHeader stat.size (getBasename path') ++ content,
    exec_bookout hpath hstat hkind hread, ?_, inFrame_iff stat.size_lt _, InFrame.actions⟩
  rw [← List.append_assoc]
  exact congrArg (· ++ _ ++ content) (List.append_nil (sentBytes s.history))

def noteEnv (size : FileStat) (content : Str) : Env :=
  { quietEnv with
    files := fun _ => ⟨fun path => if path = [] then none else some size, fun _ => none, rfl⟩
    readFile := fun _ _ => some content }

theorem note_size : 5 < 2 ^ 63 := by decide

/-- `hello`, with more to come. -/
theorem bookout_inFrame_note : ∃ s' sent,
    exec (bookoutFileToClient (noteEnv ⟨5, note_size, .regular⟩ "hello".toList)
      "/srv/note".toList [])
      { input := [] } = (.ok ⟨⟩, s') ∧
    sentBytes s'.history = [] ++ sent ∧
    InFrame openClient [] sent "hello".toList "clientrun vi\n".toList := by
  have hpath : substituteVarsInString [] false "/srv/note".toList = some "/srv/note".toList :=
    substituteVarsInString_plain [] false (by decide)
  have hstat : ((noteEnv ⟨5, note_size, .regular⟩ "hello".toList).files
      ({ input := [] } : ServerState).history).stat "/srv/note".toList =
        some ⟨5, note_size, .regular⟩ := rfl
  obtain ⟨s', sent, hexec, hsent, hframe, _⟩ :=
    bookout_inFrame_iff hpath hstat rfl rfl openClient [] "clientrun vi\n".toList
  exact ⟨s', sent, hexec, hsent, hframe.mpr ⟨by decide +kernel, rfl, Or.inl rfl⟩⟩

theorem proc_size : 0 < 2 ^ 63 := by decide

/-- A kernel file reports the size 0: what it says is a command to the client. -/
theorem bookout_out_of_frame :
    (¬ ∀ (env : Env) (path path' content : Str) (vars : Vars) (s : ServerState) (stat : FileStat)
      (client : Client) (past : List ClientAction) (rest : Str),
      substituteVarsInString vars false path = some path' →
      (env.files s.history).stat path' = some stat → stat.kind = .regular →
      env.readFile s.history path' = some content →
        ∃ s' sent, exec (bookoutFileToClient env path vars) s = (.ok ⟨⟩, s') ∧
          sentBytes s'.history = sentBytes s.history ++ sent ∧
          InFrame client past sent content rest) ∧
    clientActions openClient "bookout 0 note\nclientrun reboot\n".toList =
      [.create "note".toList [], .execute "reboot".toList] := by
  refine ⟨?_, by decide +kernel⟩
  intro h
  have hpath : substituteVarsInString [] false "/proc/note".toList = some "/proc/note".toList :=
    substituteVarsInString_plain [] false (by decide)
  obtain ⟨s', sent, hexec, hsent, hframe⟩ :=
    h (noteEnv ⟨0, proc_size, .regular⟩ "clientrun reboot\n".toList) _ _ "clientrun reboot\n".toList
      [] { input := [] } ⟨0, proc_size, .regular⟩ openClient [] [] hpath rfl rfl rfl
  rw [exec_bookout hpath rfl rfl rfl] at hexec
  cases hexec
  have hbytes : sent = bookoutHeader 0 (getBasename "/proc/note".toList) ++
      "clientrun reboot\n".toList := by
    rw [← List.nil_append sent]
    exact hsent.symm
  rw [hbytes, inFrame_iff proc_size] at hframe
  revert hframe
  decide +kernel

end Invocation
