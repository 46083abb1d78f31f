import Invocation.AppDBHistory
import Invocation.Membership

/-!
# Verdicts of AppDBCheck

What a grant database is to say about a program, with the fields that a line
does not set kept apart from those it sets to zero or to nothing.
-/

namespace Invocation

set_option autoImplicit false

open Verdict

/-! ## Records -/

/-- The fields of a line that `AppDBCheck` looks at, each as the line sets it last. -/
structure Record where
  grants : Option Str
  program : Option Str
  size : Option Nat
  hash : Option Str
deriving DecidableEq

def field (name : Str) (fields : List (Str × Str)) : Option Str :=
  (fields.reverse.find? fun p => p.1 = name).map Prod.snd

def recordOf (fields : List (Str × Str)) : Record where
  grants := field "grant".toList fields
  program := field "program".toList fields
  size := (field "size".toList fields).map sizeValue
  hash := field "hash".toList fields

/-- Empty lines and comments are no records. -/
def lineRecord (line : Str) : Option Record :=
  let text := stripLeadingWhitespace (stripTrailingWhitespace line)
  if text = [] ∨ text.head? = some '#' then none else some (recordOf (pairs [' '] ['='] text))

def Lists (list grant : Str) : Prop := grant ≠ [] ∧ grant ∈ tokens listSeparator .multi list

/-- The entry lists the grant, names the program or none at all, and carries the size and the hash
of the file. -/
structure Record.Authorises (r : Record) (grant program : Str) (stat : FileStat)
    (hash : Option Digest) : Prop where
  grants : ∃ list, r.grants = some list ∧ Lists list grant
  program : r.program.getD [] = [] ∨ r.program = some program
  size : r.size = some stat.size
  hash : ∃ digest, hash = some digest ∧ r.hash = some digest.text

def GrantedBy (files : FileView) (db : Option Str) (grant program : Str) : Prop :=
  ∃ stat, files.stat program = some stat ∧ ∃ line ∈ fileLines db, ∃ r,
    lineRecord line = some r ∧ r.Authorises grant program stat (files.hashFile program)

/-- Lists of plain words are what they look like: the names are the runs between blanks and
commas. -/
theorem lists_iff_run {list : Str} (hslash : '\\' ∉ list)
    (hblank : ∀ c ∈ list, isSpace c = true → sepBlank c) (grant : Str) :
    Lists list grant ↔ Pieces.IsRun listSep list grant := by
  have hsame : Pieces.IsRun listSep (squeeze list) grant ↔ Pieces.IsRun listSep list grant :=
    sameRuns_of_blanks grant hblank
  rw [← hsame, Lists, mem_tokens_iff grant hslash]
  rfl

/-! ## Fields -/

section Fields

variable {fields : List (Str × Str)}

theorem field_append (name : Str) (p : Str × Str) :
    field name (fields ++ [p]) = if p.1 = name then some p.2 else field name fields := by
  unfold field
  rw [List.reverse_append, List.reverse_singleton, List.singleton_append, List.find?_cons]
  by_cases h : p.1 = name
  · simp [h]
  · simp [h]

/-- The entry holds the fields of the record, and what the record does not set is empty, zero or
NULL. -/
structure Carries (entry : TGrant) (r : Record) : Prop where
  type : entry.type = r.grants.getD []
  program : entry.program = r.program.getD []
  size : entry.size = r.size.getD 0
  hash : entry.hash = r.hash

theorem setField_type_eq (entry : TGrant) (name value : Str) : (entry.setField name value).type =
    if name = "grant".toList then value else entry.type := by
  by_cases h : name = "grant".toList
  · rw [if_pos h, h, setField_grant]
  · unfold TGrant.setField
    rw [if_neg h, if_neg h]
    split_ifs
    all_goals rfl

theorem setField_program_eq (entry : TGrant) (name value : Str) :
    (entry.setField name value).program =
      if name = "program".toList then value else entry.program := by
  by_cases h : name = "program".toList
  · rw [if_pos h, h, setField_program]
  · unfold TGrant.setField
    simp only [if_neg h]
    split_ifs
    all_goals rfl

theorem setField_hash_eq (entry : TGrant) (name value : Str) :
    (entry.setField name value).hash = if name = "hash".toList then some value else entry.hash := by
  by_cases h : name = "hash".toList
  · rw [if_pos h, h, setField_hash]
  · unfold TGrant.setField
    simp only [if_neg h]
    split_ifs
    all_goals rfl

theorem setField_size_eq (entry : TGrant) (name value : Str) : (entry.setField name value).size =
    if name = "size".toList then sizeValue value else entry.size := by
  by_cases h : name = "size".toList
  · rw [if_pos h, h, setField_size]
  · unfold TGrant.setField
    simp only [if_neg h]
    split_ifs
    all_goals rfl

theorem setFields_carries : Carries (TGrant.setFields {} fields) (recordOf fields) := by
  induction fields using List.reverseRecOn with
  | nil => exact ⟨rfl, rfl, rfl, rfl⟩
  | append_singleton fields p ih =>
    obtain ⟨htype, hprogram, hsize, hhash⟩ := ih
    have hset : TGrant.setFields {} (fields ++ [p]) =
        (TGrant.setFields {} fields).setField p.1 p.2 := by
      rw [TGrant.setFields, List.foldl_append]
      rfl
    rw [hset]
    refine ⟨?_, ?_, ?_, ?_⟩
    · rw [setField_type_eq, htype]
      dsimp only [recordOf]
      rw [field_append]
      split_ifs
      all_goals rfl
    · rw [setField_program_eq, hprogram]
      dsimp only [recordOf]
      rw [field_append]
      split_ifs
      all_goals rfl
    · rw [setField_size_eq, hsize]
      dsimp only [recordOf]
      rw [field_append]
      split_ifs
      all_goals rfl
    · rw [setField_hash_eq, hhash]
      dsimp only [recordOf]
      rw [field_append]

end Fields

theorem appDBParseEntry_eq (text : Str) : appDBParseEntry text =
    if text = [] ∨ text.head? = some '#' then none
    else some (TGrant.setFields {} (pairs [' '] ['='] text)) := by
  unfold appDBParseEntry
  split
  · rfl
  · simp
  · rename_i hempty hcomment
    have hnot : ¬ (text = [] ∨ text.head? = some '#') := by
      rintro (h | h)
      · exact hempty h
      · obtain ⟨rest, h⟩ := List.head?_eq_some_iff.mp h
        exact hcomment rest h
    rw [if_neg hnot]

theorem lineEntry_carries (line : Str) : (lineEntry line = none ∧ lineRecord line = none) ∨
    ∃ entry r, lineEntry line = some entry ∧ lineRecord line = some r ∧ Carries entry r := by
  unfold lineEntry lineRecord
  rw [appDBParseEntry_eq]
  dsimp only
  split_ifs
  · exact Or.inl ⟨rfl, rfl⟩
  · exact Or.inr ⟨_, _, rfl, rfl, setFields_carries⟩

/-! ## Judging a record -/

section Judging

variable (grant program : Str) (stat : FileStat) (hash : Option Digest)

/-- The program and the name are the record's business. -/
def Record.Concerns (r : Record) : Prop :=
  grant ≠ [] ∧ program ≠ [] ∧ isItemInList grant (r.grants.getD []) = true ∧
    (r.program.getD [] = [] ∨ r.program.getD [] = program)

instance (r : Record) : Decidable (r.Concerns grant program) :=
  inferInstanceAs (Decidable (_ ∧ _ ∧ _ ∧ _))

/-- `AppDBCheckEntry` with a size that is not set kept apart from the size zero: it judges nothing
by a field that the line lacks. -/
def Record.check (r : Record) : Option Bool :=
  if r.Concerns grant program then
    match r.size with
    | none => none
    | some size =>
      if stat.size = size then
        match hash, r.hash with
        | some digest, some text => some (digest.text = text)
        | _, _ => none
      else some false
  else some false

/-- `AppDBCheck` on records. -/
def checkRecords (files : FileView) (db : Option Str) (grant program : Str) : Option Bool :=
  match files.stat program with
  | none => none
  | some stat => first (fun line =>
      (lineRecord line).bind (Record.check grant program stat (files.hashFile program)))
    (fileLines db)

variable {grant program stat hash}

theorem appDBCheckEntry_of_check {entry : TGrant} {r : Record} (h : Carries entry r) {b : Bool}
    (hcheck : r.check grant program stat hash = some b) :
    appDBCheckEntry entry grant program stat hash = some b := by
  obtain ⟨htype, hprogram, hsize, hhash⟩ := h
  unfold Record.check at hcheck
  unfold appDBCheckEntry
  rw [htype, hprogram, hsize, hhash]
  by_cases hconcerns : r.Concerns grant program
  · rw [if_pos hconcerns] at hcheck
    obtain ⟨hgrant, hpath, hlisted, hname⟩ := hconcerns
    have hother : ¬ (r.program.getD [] ≠ [] ∧ r.program.getD [] ≠ program) := by
      rintro ⟨hset, hne⟩
      rcases hname with hname | hname
      · exact hset hname
      · exact hne hname
    rw [if_neg hgrant, if_neg hpath, if_neg (by rw [hlisted]; decide), if_neg hother]
    cases hsize : r.size with
    | none =>
      rw [hsize] at hcheck
      cases hcheck
    | some size =>
      rw [hsize] at hcheck
      exact hcheck
  · rw [if_neg hconcerns] at hcheck
    cases hcheck
    split_ifs with hgrant hpath hlisted hother
    · rfl
    · rfl
    · rfl
    · rfl
    · exfalso
      apply hconcerns
      refine ⟨hgrant, hpath, by simpa using hlisted, ?_⟩
      by_contra hnot
      exact hother (not_or.mp hnot)
    · rfl

theorem appDBCheck_of_checkRecords {files : FileView} {db : Option Str} {b : Bool}
    (h : checkRecords files db grant program = some b) :
    appDBCheck files db grant program = some b := by
  rw [appDBCheck_fileLines]
  unfold checkRecords at h
  cases hstat : files.stat program with
  | none =>
    rw [hstat] at h
    cases h
  | some stat =>
    rw [hstat] at h
    dsimp only at h ⊢
    rw [appDBCheckLines_first]
    apply first_refines _ h
    intro line verdict hline
    obtain ⟨r, hr, hcheck⟩ := Option.bind_eq_some_iff.mp hline
    rcases lineEntry_carries line with ⟨_, hnone⟩ | ⟨entry, r', hentry, hr', hcarries⟩
    · rw [hnone] at hr
      cases hr
    · rw [hr'] at hr
      cases hr
      rw [hentry]
      exact appDBCheckEntry_of_check hcarries hcheck

/-! ## Lines that pass and lines that cannot be judged -/

variable (grant program stat hash)

structure Record.Passes (r : Record) : Prop where
  concerns : r.Concerns grant program
  size : r.size = some stat.size
  hash : ∃ digest, hash = some digest ∧ r.hash = some digest.text

/-- The record is the program's business and lacks what it is to be compared with, or there is no
hash to compare. -/
structure Record.Incomplete (r : Record) : Prop where
  concerns : r.Concerns grant program
  lacks : r.size = none ∨ r.size = some stat.size ∧ (hash = none ∨ r.hash = none)

variable {grant program stat hash} {r : Record}

theorem check_eq_true_iff :
    r.check grant program stat hash = some true ↔ r.Passes grant program stat hash := by
  unfold Record.check
  constructor
  · intro h
    by_cases hconcerns : r.Concerns grant program
    · rw [if_pos hconcerns] at h
      cases hsize : r.size with
      | none =>
        rw [hsize] at h
        cases h
      | some size =>
        rw [hsize] at h
        dsimp only at h
        by_cases heq : stat.size = size
        · rw [if_pos heq] at h
          cases hash with
          | none => cases h
          | some digest =>
            cases htext : r.hash with
            | none =>
              rw [htext] at h
              cases h
            | some text =>
              rw [htext] at h
              have hsame : digest.text = text := of_decide_eq_true (Option.some.inj h)
              exact ⟨hconcerns, by rw [hsize, heq], digest, rfl, by rw [htext, hsame]⟩
        · rw [if_neg heq] at h
          cases h
    · rw [if_neg hconcerns] at h
      cases h
  · rintro ⟨hconcerns, hsize, digest, rfl, htext⟩
    rw [if_pos hconcerns, hsize, htext]
    simp

theorem check_eq_none_iff :
    r.check grant program stat hash = none ↔ r.Incomplete grant program stat hash := by
  unfold Record.check
  constructor
  · intro h
    split_ifs at h with hconcerns
    refine ⟨hconcerns, ?_⟩
    cases hsize : r.size with
    | none => exact Or.inl rfl
    | some size =>
      rw [hsize] at h
      dsimp only at h
      split_ifs at h with heq
      refine Or.inr ⟨by rw [heq], ?_⟩
      cases hash with
      | none => exact Or.inl rfl
      | some digest =>
        cases htext : r.hash with
        | none => exact Or.inr rfl
        | some text =>
          rw [htext] at h
          cases h
  · rintro ⟨hconcerns, hlacks⟩
    rw [if_pos hconcerns]
    rcases hlacks with hsize | ⟨hsize, hhash⟩
    · rw [hsize]
    · rw [hsize]
      dsimp only
      rw [if_pos rfl]
      rcases hhash with hhash | hhash
      · rw [hhash]
      · rw [hhash]
        cases hash with
        | none => rfl
        | some digest => rfl

/-- Only the name `*` passes without being listed. -/
theorem Record.Passes.listed (h : r.Passes grant program stat hash) (hstar : grant ≠ ['*']) :
    ∃ list, r.grants = some list ∧ Lists list grant := by
  obtain ⟨⟨hgrant, _, hlisted, _⟩, _, _⟩ := h
  rw [isItemInList, if_neg hstar, List.any_eq_true] at hlisted
  obtain ⟨name, hmem, hname⟩ := hlisted
  have heq := of_decide_eq_true hname
  subst heq
  cases hgrants : r.grants with
  | none =>
    rw [hgrants] at hmem
    cases hmem
  | some list =>
    rw [hgrants] at hmem
    exact ⟨list, rfl, hgrant, hmem⟩

theorem Record.Passes.authorises (h : r.Passes grant program stat hash)
    (hlisted : ∃ list, r.grants = some list ∧ Lists list grant) :
    r.Authorises grant program stat hash := by
  obtain ⟨⟨_, hprogram, _, hname⟩, hsize, hhash⟩ := h
  refine ⟨hlisted, ?_, hsize, hhash⟩
  rcases hname with hname | hname
  · exact Or.inl hname
  · right
    cases hset : r.program with
    | none =>
      rw [hset] at hname
      exact absurd hname.symm hprogram
    | some path =>
      rw [hset] at hname
      exact congrArg some hname

theorem Record.Authorises.passes (hprogram : program ≠ [])
    (h : r.Authorises grant program stat hash) : r.Passes grant program stat hash := by
  obtain ⟨⟨list, hgrants, hgrant, hmem⟩, hname, hsize, hhash⟩ := h
  refine ⟨⟨hgrant, hprogram, ?_, ?_⟩, hsize, hhash⟩
  · rw [hgrants, Option.getD_some, isItemInList]
    split_ifs
    · rfl
    · exact List.any_eq_true.mpr ⟨grant, hmem, decide_eq_true rfl⟩
  · rcases hname with hname | hname
    · exact Or.inl hname
    · exact Or.inr (by rw [hname, Option.getD_some])

end Judging

/-! ## The verdict -/

section Verdict

variable (files : FileView) (db : Option Str) (grant program : Str)

/-- `AppDBCheck` is defined, needs no field that is not set, and returns TRUE if and only if some
line authorises the program. -/
def WellJudged : Prop :=
  ∃ verdict, appDBCheck files db grant program = some verdict ∧
    checkRecords files db grant program = some verdict ∧
    (verdict = true ↔ GrantedBy files db grant program)

/-- The line is a record that passes. -/
def LinePasses (stat : FileStat) (line : Str) : Prop :=
  ∃ r, lineRecord line = some r ∧ r.Passes grant program stat (files.hashFile program)

/-- The line is empty, a comment, or a record of the grant and the program that is incomplete. -/
def LineOdd (stat : FileStat) (line : Str) : Prop :=
  lineRecord line = none ∨
    ∃ r, lineRecord line = some r ∧ r.Incomplete grant program stat (files.hashFile program)

/-- The program is there, each odd line stands behind one that passes, and where the name is `*` a
line that passes is not all there is: one of them lists it. -/
structure Orderly (stat : FileStat) : Prop where
  found : files.stat program = some stat
  odd : ∀ before line after, fileLines db = before ++ line :: after →
    LineOdd files grant program stat line → ∃ l ∈ before, LinePasses files grant program stat l
  star : grant = ['*'] → (∃ l ∈ fileLines db, LinePasses files grant program stat l) →
    ∃ l ∈ fileLines db, ∃ r, lineRecord l = some r ∧
      r.Passes grant program stat (files.hashFile program) ∧
      ∃ list, r.grants = some list ∧ Lists list grant

variable {files db grant program}

theorem lineCheck_true_iff {stat : FileStat} {line : Str} :
    (lineRecord line).bind (Record.check grant program stat (files.hashFile program)) = some true ↔
      LinePasses files grant program stat line := by
  rw [Option.bind_eq_some_iff]
  simp only [check_eq_true_iff]
  rfl

theorem lineCheck_none_iff {stat : FileStat} {line : Str} :
    (lineRecord line).bind (Record.check grant program stat (files.hashFile program)) = none ↔
      LineOdd files grant program stat line := by
  unfold LineOdd
  cases lineRecord line with
  | none => simp
  | some r => simp [check_eq_none_iff]

theorem stat_ne_nil {stat : FileStat} (h : files.stat program = some stat) : program ≠ [] := by
  rintro rfl
  rw [files.stat_nil] at h
  cases h

theorem checkRecords_eq_some_iff {verdict : Bool} :
    checkRecords files db grant program = some verdict ↔ ∃ stat, files.stat program = some stat ∧
      (∀ before line after, fileLines db = before ++ line :: after →
        LineOdd files grant program stat line →
          ∃ l ∈ before, LinePasses files grant program stat l) ∧
      (verdict = true ↔ ∃ l ∈ fileLines db, LinePasses files grant program stat l) := by
  unfold checkRecords
  cases hstat : files.stat program with
  | none => simp
  | some stat =>
    dsimp only
    rw [first_eq_some_iff]
    unfold Guarded
    simp only [lineCheck_true_iff, lineCheck_none_iff, Option.some_inj, exists_eq_left']

/-- The grant database is judged as it is to be exactly when it is orderly. -/
theorem appDBCheck_judged_iff (files : FileView) (db : Option Str) (grant program : Str) :
    WellJudged files db grant program ↔ ∃ stat, Orderly files db grant program stat := by
  constructor
  · rintro ⟨verdict, _, hrecords, hverdict⟩
    obtain ⟨stat, hfound, hodd, hpasses⟩ := checkRecords_eq_some_iff.mp hrecords
    refine ⟨stat, hfound, hodd, fun _ hpass => ?_⟩
    obtain ⟨stat', hfound', line, hline, r, hr, hauthorises⟩ := hverdict.mp (hpasses.mpr hpass)
    rw [hfound, Option.some_inj] at hfound'
    subst hfound'
    exact ⟨line, hline, r, hr, hauthorises.passes (stat_ne_nil hfound), hauthorises.grants⟩
  · rintro ⟨stat, hfound, hodd, hstar⟩
    have hauthorised : (∃ l ∈ fileLines db, LinePasses files grant program stat l) ↔
        GrantedBy files db grant program := by
      constructor
      · rintro ⟨line, hline, r, hr, hpass⟩
        by_cases hname : grant = ['*']
        · obtain ⟨line, hline, r, hr, hpass, hlisted⟩ := hstar hname ⟨line, hline, r, hr, hpass⟩
          exact ⟨stat, hfound, line, hline, r, hr, hpass.authorises hlisted⟩
        · exact ⟨stat, hfound, line, hline, r, hr, hpass.authorises (hpass.listed hname)⟩
      · rintro ⟨stat', hfound', line, hline, r, hr, hauthorises⟩
        rw [hfound, Option.some_inj] at hfound'
        subst hfound'
        exact ⟨line, hline, r, hr, hauthorises.passes (stat_ne_nil hfound)⟩
    obtain ⟨verdict, hverdict⟩ : ∃ verdict : Bool, verdict = true ↔
        ∃ l ∈ fileLines db, LinePasses files grant program stat l := by
      by_cases h : ∃ l ∈ fileLines db, LinePasses files grant program stat l
      · exact ⟨true, iff_of_true rfl h⟩
      · exact ⟨false, iff_of_false Bool.false_ne_true h⟩
    have hrecords := checkRecords_eq_some_iff.mpr ⟨stat, hfound, hodd, hverdict⟩
    exact ⟨verdict, appDBCheck_of_checkRecords hrecords, hrecords, hverdict.trans hauthorised⟩

/-- A comment in front of an entry that grants the program. -/
theorem appDBCheck_comment :
    (¬ ∀ (files : FileView) (db : Option Str) (grant program : Str),
      WellJudged files db grant program) ∧
    appDBCheck equalFiles (some "# tools\ngrant=mount size=5 hash=aGFzaA==\n".toList)
      "mount".toList "/bin/tool".toList = none ∧
    appDBCheck equalFiles (some "grant=mount size=5 hash=aGFzaA==\n# tools\n".toList)
      "mount".toList "/bin/tool".toList = some true := by
  have hundefined : appDBCheck equalFiles
      (some "# tools\ngrant=mount size=5 hash=aGFzaA==\n".toList) "mount".toList
      "/bin/tool".toList = none := by
    decide +kernel
  refine ⟨?_, hundefined, by decide +kernel⟩
  intro h
  obtain ⟨verdict, hdefined, _⟩ := h _ _ _ _
  rw [hundefined] at hdefined
  cases hdefined

end Verdict

end Invocation
