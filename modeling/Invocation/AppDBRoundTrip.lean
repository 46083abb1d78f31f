import Invocation.AppDBReadBack

/-!
# A grant is honoured

The line that `AppDBAdd` writes is read back as the record it was made from,
and `AppDBCheck` accepts the canonical path of the program for every name
granted, whatever else the file holds, exactly under the conditions of
`Honours`.
-/

namespace Invocation

set_option autoImplicit false

/-- What the check makes of one line. -/
def lineVerdict (grant program : Str) (stat : FileStat) (hash : Option Digest) (line : Str) :
    Option Bool :=
  (lineEntry line).bind (appDBCheckEntry · grant program stat hash)

/-- A line lets the program through, its own or another one that the call keeps, and no line that
cannot be judged stands before the first such line. -/
structure Served (db : Option Str) (call : AddCall) (program : Str) (names : List Str)
    (stat : FileStat) (digest : Digest) (grant : Str) : Prop where
  passes : (call.appPath = program ∧ grant ≠ [] ∧ isItemInList grant (nameList names) = true) ∨
    ∃ item ∈ readItems db, sameTag item.1 call.appPath = false ∧
      lineVerdict grant program stat (some digest) item.2 = some true
  guarded : Verdict.Guarded (lineVerdict grant program stat (some digest)) (call.lines db stat)

/-- The texts are read back from the line, and each name is served under the canonical path. -/
structure Honours (db : Option Str) (call : AddCall) (program : Str) (names : List Str)
    (stat : FileStat) : Prop where
  readsBack : ReadsBack call.grant call.user call.group call.appPath
  one_line : '\n' ∉ call.grant ++ call.user ++ call.group ++ call.appPath
  served : ∀ grant ∈ names, ∃ digest, call.files.hashFile call.appPath = some digest ∧
    Served db call program names stat digest grant

/-- The line of the call is in the file and read back as its record, and as long as the program
keeps its size and content the check of its canonical path succeeds for every name granted. -/
def Honoured (db : Option Str) (call : AddCall) (program : Str) (names : List Str)
    (stat : FileStat) : Prop :=
  (call.line stat ∈ fileLines (call.run db) ∧ lineEntry (call.line stat) = some
      { type := call.grant, user := call.user, group := call.group, program := call.appPath,
        hash := some (hashText (call.files.hashFile call.appPath)), size := stat.size }) ∧
    ∀ (files : FileView) (grant : Str), grant ∈ names → files.stat program = some stat →
      files.hashFile program = call.files.hashFile call.appPath →
      appDBCheck files (call.run db) grant program = some true

/-! ## The check of the file -/

theorem appDBCheckEntry_unhashed (entry : TGrant) (grant program : Str) (stat : FileStat) :
    appDBCheckEntry entry grant program stat none ≠ some true := by
  unfold appDBCheckEntry
  split_ifs <;> simp

theorem lineVerdict_unhashed (grant program : Str) (stat : FileStat) (line : Str) :
    lineVerdict grant program stat none line ≠ some true := by
  unfold lineVerdict
  cases lineEntry line with
  | none => simp
  | some entry => exact appDBCheckEntry_unhashed entry grant program stat

section

variable {db : Option Str} {call : AddCall} {stat : FileStat}
  (hstat : call.files.stat call.appPath = some stat)
include hstat

theorem lineVerdict_line {program : Str} (hprogram : program ≠ []) {digest : Digest}
    (hhash : call.files.hashFile call.appPath = some digest)
    (hentry : lineEntry (call.line stat) = some
      { type := call.grant, user := call.user, group := call.group, program := call.appPath,
        hash := some (hashText (call.files.hashFile call.appPath)), size := stat.size })
    (grant : Str) : lineVerdict grant program stat (some digest) (call.line stat) = some true ↔
      call.appPath = program ∧ grant ≠ [] ∧ isItemInList grant call.grant = true := by
  have hpath := AddCall.appPath_ne_nil hstat
  rw [lineVerdict, hentry, hhash]
  by_cases hgrant : grant = []
  · simp [appDBCheckEntry, hgrant]
  · by_cases hlist : isItemInList grant call.grant = true
    · by_cases hsame : call.appPath = program
      · simp [appDBCheckEntry, hgrant, hlist, hsame, hprogram, hashText]
      · simp [appDBCheckEntry, hgrant, hlist, hsame, hprogram, hpath]
    · simp [appDBCheckEntry, hgrant, hlist, hprogram]

variable (hline : call.line stat ∈ fileLines (call.run db))
include hline

theorem appDBCheck_run {files : FileView} {program : Str} (hnow : files.stat program = some stat)
    (grant : Str) : appDBCheck files (call.run db) grant program = some true ↔
      Verdict.Guarded (lineVerdict grant program stat (files.hashFile program))
          (call.lines db stat) ∧
        ∃ l ∈ call.lines db stat,
          lineVerdict grant program stat (files.hashFile program) l = some true := by
  have hflat := flat_fileLines _ _ hline
  rw [appDBCheck_fileLines, hnow, fileLines_run_flat hstat hflat]
  dsimp only
  rw [appDBCheckLines_first]
  refine Verdict.first_eq_some_iff.trans (and_congr Iff.rfl ?_)
  simp only [true_iff]
  rfl

end

/-- What is granted is honoured exactly under `Honours`. -/
theorem grant_honoured_iff (db : Option Str) (call : AddCall) (realpath : Str → Str)
    {names : List Str} {stat : FileStat} (hgrant : call.grant = nameList names)
    (hstat : call.files.stat call.appPath = some stat)
    (hreal : realpath call.appPath ≠ []) :
    Honoured db call (realpath call.appPath) names stat ↔
      Honours db call (realpath call.appPath) names stat := by
  have hpath := AddCall.appPath_ne_nil hstat
  constructor
  · intro h
    obtain ⟨⟨hline, hentry⟩, hchecks⟩ := h
    refine ⟨readsBack_of_lineEntry hpath stat.size_lt hentry,
      (newline_not_mem_grantLine _ _).mp (flat_fileLines _ _ hline).1, ?_⟩
    intro grant hname
    -- the program as it stands when the grant is checked, under its canonical path
    let files : FileView :=
      { stat := fun path => if path = realpath call.appPath then some stat else none
        hashFile := fun _ => call.files.hashFile call.appPath
        stat_nil := if_neg hreal.symm }
    have hnow : files.stat (realpath call.appPath) = some stat := if_pos rfl
    have hcheck := hchecks files grant hname hnow rfl
    rw [appDBCheck_run hstat hline hnow] at hcheck
    obtain ⟨hguarded, l, hl, hverdict⟩ := hcheck
    cases hhash : call.files.hashFile call.appPath with
    | none =>
      have hunhashed : files.hashFile (realpath call.appPath) = none := hhash
      rw [hunhashed] at hverdict
      exact absurd hverdict (lineVerdict_unhashed _ _ _ _)
    | some digest =>
      have hhashed : files.hashFile (realpath call.appPath) = some digest := hhash
      rw [hhashed] at hguarded hverdict
      refine ⟨digest, rfl, ?_, hguarded⟩
      rcases (mem_lines _ _ _ _).mp hl with rfl | ⟨item, hitem, rfl, hother⟩
      · left
        rw [← hgrant]
        exact (lineVerdict_line hstat hreal hhash hentry grant).mp hverdict
      · exact Or.inr ⟨item, hitem, hother, hverdict⟩
  · intro h
    have hentry := lineEntry_grantLine h.readsBack stat.size_lt (call.files.hashFile call.appPath)
    have hflat : Flat (call.line stat) :=
      ⟨(newline_not_mem_grantLine _ _).mpr h.one_line,
        trimmed_grantLine h.readsBack.trimmed _ _ _ _⟩
    have hline : call.line stat ∈ fileLines (call.run db) := by
      rw [fileLines_run_flat hstat hflat, mem_lines]
      exact Or.inl rfl
    refine ⟨⟨hline, hentry⟩, ?_⟩
    intro files grant hname hnow hcontent
    obtain ⟨digest, hhash, hserved⟩ := h.served grant hname
    rw [appDBCheck_run hstat hline hnow, hcontent, hhash]
    refine ⟨hserved.guarded, ?_⟩
    rcases hserved.passes with ⟨hsame, hne, hlist⟩ | ⟨item, hitem, hother, hverdict⟩
    · refine ⟨call.line stat, (mem_lines _ _ _ _).mpr (Or.inl rfl), ?_⟩
      exact (lineVerdict_line hstat hreal hhash hentry grant).mpr ⟨hsame, hne, by rwa [hgrant]⟩
    · exact ⟨item.2, (mem_lines _ _ _ _).mpr (Or.inr ⟨item, hitem, rfl, hother⟩), hverdict⟩

/-- The program's own line and a note behind it. -/
def notedFile : Option Str :=
  some "grant='mount,' program='/bin/tool' size=5 hash=aGFzaA==\n# note\n".toList

theorem grant_honoured_iff_noted :
    Honoured notedFile (plainCall "mount," "/bin/tool") "/bin/tool".toList ["mount".toList]
      fiveBytes := by
  refine (grant_honoured_iff notedFile (plainCall "mount," "/bin/tool") id rfl rfl
    (by decide)).mpr ?_
  have hrec : (plainCall "mount," "/bin/tool").Recordable := by
    unfold AddCall.Recordable
    decide +kernel
  refine ⟨hrec.readsBack, hrec.one_line, ?_⟩
  intro grant hgrant
  rw [List.mem_singleton] at hgrant
  subst hgrant
  refine ⟨⟨"aGFzaA==".toList, by decide⟩, rfl, Or.inl ⟨rfl, by decide, by decide⟩, ?_⟩
  -- the old line lets the program through before the note is read
  have hlines : (plainCall "mount," "/bin/tool").lines notedFile fiveBytes =
      "grant='mount,' program='/bin/tool' size=5 hash=aGFzaA==".toList ::
        ["# note".toList, (plainCall "mount," "/bin/tool").line fiveBytes] := by
    decide +kernel
  rw [hlines]
  exact Verdict.guarded_cons_true (by decide +kernel)

/-- A program granted under a relative path is not found under its canonical one. -/
theorem relative_grant_ignored :
    ¬ ∀ (db : Option Str) (call : AddCall) (realpath : Str → Str) (names : List Str)
      (stat : FileStat), call.grant = nameList names → '\n' ∉ call.appPath →
        call.files.stat call.appPath = some stat → realpath call.appPath ≠ [] →
        call.files.hashFile call.appPath ≠ none →
        Honoured db call (realpath call.appPath) names stat := by
  intro h
  have hhonoured := h none (plainCall "mount," "tool") ("/bin/".toList ++ ·) ["mount".toList]
    fiveBytes rfl (by decide) (by decide) (by decide) (by simp [plainCall, equalFiles])
  have hchecked := hhonoured.2 equalFiles "mount".toList List.mem_cons_self (by decide) rfl
  have hrefused : appDBCheck equalFiles (AddCall.run none (plainCall "mount," "tool"))
      "mount".toList ("/bin/".toList ++ "tool".toList) = some false := by
    decide +kernel
  have hfalse := hrefused.symm.trans hchecked
  revert hfalse
  decide

end Invocation
