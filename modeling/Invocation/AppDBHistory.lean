import Invocation.AppDBLine
import Invocation.Lib.Runs
import Invocation.Lib.Verdict

/-!
# Histories of clients.db

`AppDBAdd` reads every line back under its own first word and stores the new
line under the program path. What it keeps of an older line is decided by the
first words alone: the last line under a word survives, unless the word is the
path of the program being granted.
-/

namespace Invocation

set_option autoImplicit false

/-- The record that `AppDBCheck` takes from a line. -/
def lineEntry (line : Str) : Option TGrant :=
  appDBParseEntry (stripLeadingWhitespace (stripTrailingWhitespace line))

def entries (db : Option Str) : List TGrant := (fileLines db).filterMap lineEntry

def lastUnder (lines : List Str) (key : Str) : Option Str :=
  lines.reverse.find? fun line => sameTag (lineKey line) key

/-- The line is the last one under its first word, and that word is not the granted path. -/
def Survives (db : Option Str) (appPath line : Str) : Prop :=
  lastUnder (fileLines db) (lineKey line) = some line ∧ sameTag (lineKey line) appPath = false

/-! ## First words -/

theorem lineKey_cons {c : Char} (hc : plainChar (sepChar .space) c = true) (s : Str) :
    lineKey (c :: s) ≠ [] := by
  obtain ⟨h1, h2, h3⟩ := (plainChar_iff _ _).mp hc
  have hstep : findSeparatorStep .quotes [.space] (c :: s) = .inr s :=
    findSeparatorStep_other .quotes .space h1 h2 h3 s
  have hfind : getTokenFindSeparator .quotes [.space] (c :: s) =
      getTokenFindSeparator .quotes [.space] s :=
    Scan.find_move (findSeparatorStep_advances _ _) hstep
  have hlen : (getTokenFindSeparator .quotes [.space] s).1.length ≤ s.length := by
    by_cases hs : s = []
    · subst hs
      exact Nat.le_refl _
    · exact (getTokenFindSeparator_separates .quotes (by simp) s hs).1
  obtain ⟨n, hn⟩ : ∃ n, (c :: s).length - (getTokenFindSeparator .quotes [.space] s).1.length =
      n + 1 := ⟨s.length - (getTokenFindSeparator .quotes [.space] s).1.length, by
        simp only [List.length_cons]
        omega⟩
  have hkey : lineKey (c :: s) = stripTokenQuotes (c :: s) ((c :: s).take (n + 1)) := by
    have hget : getToken (c :: s) "\\S".toList .quotes =
        getTokenPostProcess .quotes (c :: s) (getTokenFindSeparator .quotes [.space] (c :: s)).1
          (getTokenFindSeparator .quotes [.space] (c :: s)).2 := rfl
    rw [lineKey, hget, hfind]
    simp [getTokenPostProcess, TokenFlags.quotes, ← hn]
  rw [hkey]
  simp [stripTokenQuotes, h2]

/-! ## Written lines -/

/-- A line that some call of `AppDBAdd` wrote. -/
def Written (line : Str) : Prop :=
  ∃ grant user group appPath size hash, Recordable grant user group appPath ∧ appPath ≠ [] ∧
    size < 2 ^ 63 ∧ line = grantLine grant user group appPath size hash

def Clean (db : Option Str) : Prop := ∀ line ∈ fileLines db, Written line

theorem grantLine_cons (grant user group appPath : Str) (size : Nat) (hash : Option Digest) :
    ∃ s, grantLine grant user group appPath size hash = 'g' :: s := ⟨_, rfl⟩

theorem lineEntry_grantLine {grant user group appPath : Str}
    (h : ReadsBack grant user group appPath) {size : Nat} (hsize : size < 2 ^ 63)
    (hash : Option Digest) :
    lineEntry (grantLine grant user group appPath size hash) =
      some { type := grant, user := user, group := group, program := appPath,
             hash := some (hashText hash), size := size } := by
  have hlead : stripLeadingWhitespace (grantLine grant user group appPath size hash) =
      grantLine grant user group appPath size hash := by
    obtain ⟨s, hs⟩ := grantLine_cons grant user group appPath size hash
    rw [hs]
    rfl
  rw [lineEntry, trimmed_grantLine h.trimmed, hlead]
  exact appDBParseEntry_grantLine h hsize hash

theorem Written.lineKey_ne_nil {line : Str} (h : Written line) : lineKey line ≠ [] := by
  obtain ⟨grant, user, group, appPath, size, hash, _, _, _, rfl⟩ := h
  obtain ⟨s, hs⟩ := grantLine_cons grant user group appPath size hash
  rw [hs]
  exact lineKey_cons (by decide) s

theorem Written.entry {line : Str} (h : Written line) :
    ∃ e text, lineEntry line = some e ∧ e.program ≠ [] ∧ e.hash = some text := by
  obtain ⟨grant, user, group, appPath, size, hash, hrec, hpath, hsize, rfl⟩ := h
  exact ⟨_, _, lineEntry_grantLine hrec.readsBack hsize hash, hpath, rfl⟩

theorem Written.inj {l m : Str} (hl : Written l) (hm : Written m) (h : lineEntry l = lineEntry m) :
    l = m := by
  obtain ⟨g, u, r, p, n, d, hrec, _, hn, rfl⟩ := hl
  obtain ⟨g', u', r', p', n', d', hrec', _, hn', rfl⟩ := hm
  rw [lineEntry_grantLine hrec.readsBack hn, lineEntry_grantLine hrec'.readsBack hn'] at h
  simp only [Option.some.injEq, TGrant.mk.injEq] at h
  obtain ⟨rfl, rfl, rfl, rfl, hd, rfl⟩ := h
  unfold grantLine
  rw [hd]

/-! ## One call -/

structure AddCall where
  files : FileView
  grant : Str
  user : Str
  group : Str
  appPath : Str

namespace AddCall

def run (db : Option Str) (call : AddCall) : Option Str :=
  appDBAdd call.files db call.grant call.user call.group call.appPath

def Recordable (call : AddCall) : Prop :=
  Invocation.Recordable call.grant call.user call.group call.appPath

def line (call : AddCall) (stat : FileStat) : Str :=
  grantLine call.grant call.user call.group call.appPath stat.size
    (call.files.hashFile call.appPath)

/-- The lines of the file that the call leaves, in their order. -/
def lines (db : Option Str) (call : AddCall) (stat : FileStat) : List Str :=
  (setVar (readItems db) call.appPath (call.line stat)).map Prod.snd

end AddCall

section Call

variable {db : Option Str} {call : AddCall} (hrec : call.Recordable) {stat : FileStat}
  (hstat : call.files.stat call.appPath = some stat)
include hrec hstat

omit hrec in
theorem AddCall.appPath_ne_nil : call.appPath ≠ [] := by
  intro h
  rw [h, call.files.stat_nil] at hstat
  cases hstat

theorem AddCall.written_line : Written (call.line stat) :=
  ⟨_, _, _, _, _, _, hrec, AddCall.appPath_ne_nil hstat, stat.size_lt, rfl⟩

omit hrec in
theorem fileLines_run_flat (hflat : Flat (call.line stat)) :
    fileLines (call.run db) = call.lines db stat := by
  have hrun : call.run db =
      some (writeItems (setVar (readItems db) call.appPath (call.line stat))) := by
    simp only [AddCall.run, appDBAdd, hstat, AddCall.line]
  rw [hrun]
  refine fileLines_writeItems _ fun item hitem => ?_
  rcases KeyedList.mem_upsert sameTag_matching (distinct_readItems db) hitem with h | h
  · rw [h.1]
    exact hflat
  · exact flat_fileLines db _ (mem_readItems h.1).1

theorem fileLines_run : fileLines (call.run db) = call.lines db stat :=
  fileLines_run_flat hstat (flat_grantLine hrec _ _)

end Call

/-- A call keeps the lines of the items that are not stored under its path. -/
theorem mem_lines (db : Option Str) (call : AddCall) (stat : FileStat) (l : Str) :
    l ∈ call.lines db stat ↔ l = call.line stat ∨
      ∃ item ∈ readItems db, item.2 = l ∧ sameTag item.1 call.appPath = false := by
  rw [AddCall.lines, List.mem_map]
  constructor
  · rintro ⟨item, hitem, rfl⟩
    rcases KeyedList.mem_upsert sameTag_matching (distinct_readItems db) hitem with h | h
    · exact Or.inl h.1
    · exact Or.inr ⟨item, h.1, rfl, h.2⟩
  · rintro (rfl | ⟨item, hitem, hval, hother⟩)
    · obtain ⟨item, hitem, hval, _⟩ := KeyedList.upsert_mem_new call.appPath (call.line stat)
        (readItems db)
      exact ⟨item, hitem, hval⟩
    · exact ⟨item, KeyedList.upsert_mem_old _ hitem hother, hval⟩

theorem find_items (lines : List Str) (key : Str) :
    (lines.map fun line => (lineKey line, line)).reverse.find? (sameTag ·.1 key) =
      (lastUnder lines key).map fun line => (lineKey line, line) := by
  rw [← List.map_reverse, List.find?_map]
  rfl

theorem sameTag_congr {a b : Str} (h : sameTag a b = true) (c : Str) :
    sameTag a c = sameTag b c := by
  rw [Bool.eq_iff_iff]
  exact ⟨sameTag_matching.trans _ _ _ (sameTag_matching.symm _ _ h),
    sameTag_matching.trans _ _ _ h⟩

theorem readItems_tag {db : Option Str} (hclean : Clean db) {item : Str × Str}
    (h : item ∈ readItems db) : sameTag item.1 (lineKey item.2) = true := by
  obtain ⟨hline, hkey⟩ := mem_readItems h
  rcases hkey with h | h
  · rw [h]
    exact sameTag_self (hclean _ hline).lineKey_ne_nil
  · exact h

/-- The items that keep their value through a call hold surviving lines, and all of those. -/
theorem survives_iff_item {db : Option Str} (hclean : Clean db) (appPath line : Str) :
    (line ∈ fileLines db ∧ Survives db appPath line) ↔
      ∃ item ∈ readItems db, item.2 = line ∧ sameTag item.1 appPath = false := by
  constructor
  · rintro ⟨hline, hlast, hother⟩
    have hlast' : ((fileLines db).map fun line => (lineKey line, line)).reverse.find?
        (sameTag ·.1 (lineKey line)) = some (lineKey line, line) := by
      rw [find_items, hlast]
      rfl
    obtain ⟨item, hitem, hval, htag⟩ :=
      KeyedList.last_mem_ofPairs (p := (lineKey line, line)) sameTag_matching hlast'
    have hmem : item ∈ readItems db := by
      rw [readItems_eq]
      exact hitem
    exact ⟨item, hmem, hval, (sameTag_congr htag _).trans hother⟩
  · rintro ⟨item, hitem, rfl, hother⟩
    have htag := readItems_tag hclean hitem
    have hget : KeyedList.get sameTag (lineKey item.2) (readItems db) = some item.2 :=
      (KeyedList.get_eq_some_iff sameTag_matching (distinct_readItems db) _ _).mpr
        ⟨item, hitem, rfl, htag⟩
    rw [readItems_eq, setVars, KeyedList.get_ofPairs sameTag_matching, find_items,
      Option.map_map] at hget
    refine ⟨(mem_readItems hitem).1, ?_, (sameTag_congr htag _).symm.trans hother⟩
    simpa [Function.comp_def] using hget

section Call

variable {db : Option Str} {call : AddCall} (hrec : call.Recordable) {stat : FileStat}
  (hstat : call.files.stat call.appPath = some stat)
include hrec hstat

/-- A call leaves its own line and the lines that survive it. -/
theorem mem_fileLines_run (hclean : Clean db) (l : Str) : l ∈ fileLines (call.run db) ↔
    l = call.line stat ∨ (l ∈ fileLines db ∧ Survives db call.appPath l) := by
  rw [fileLines_run hrec hstat, mem_lines, survives_iff_item hclean]

theorem clean_run (hclean : Clean db) : Clean (call.run db) := by
  intro l hl
  rcases (mem_fileLines_run hrec hstat hclean l).mp hl with rfl | h
  · exact AddCall.written_line hrec hstat
  · exact hclean l h.1

end Call

theorem run_unstattable {call : AddCall} (h : call.files.stat call.appPath = none)
    (db : Option Str) : call.run db = db := by
  simp only [AddCall.run, appDBAdd, h]

/-- The database after a history of calls that starts without one. -/
def runAdds (calls : List AddCall) : Option Str := Runs.run AddCall.run none calls

theorem clean_runAdds {calls : List AddCall} (h : ∀ call ∈ calls, call.Recordable) :
    Clean (runAdds calls) := by
  have hnone : Clean none := by
    intro l hl
    cases hl
  have hguard : Runs.Guarded AddCall.run (fun _ call => call.Recordable) none calls :=
    Runs.guarded_of_forall (fun _ _ hc => hc) none h
  refine Runs.invariant ?_ hnone hguard
  intro db call hdb hrec
  cases hstat : call.files.stat call.appPath with
  | none =>
    rw [run_unstattable hstat]
    exact hdb
  | some stat => exact clean_run hrec hstat hdb

/-! ## AppDBCheck on a clean file -/

theorem appDBCheckLines_first (grant appPath : Str) (stat : FileStat) (hash : Option Digest)
    (lines : List Str) : appDBCheckLines grant appPath stat hash lines =
    Verdict.first (fun line => (lineEntry line).bind (appDBCheckEntry · grant appPath stat hash))
      lines := by
  induction lines with
  | nil => rfl
  | cons line lines ih =>
    rw [appDBCheckLines, Verdict.first, ih]
    have hentry : appDBParseEntry (stripLeadingWhitespace (stripTrailingWhitespace line)) =
        lineEntry line := rfl
    rw [hentry]
    cases lineEntry line with
    | none => rfl
    | some entry =>
      cases hcheck : appDBCheckEntry entry grant appPath stat hash with
      | none => simp [hcheck]
      | some b =>
        cases b with
        | true => simp [hcheck]
        | false => simp [hcheck]

theorem appDBCheckLines_strip (grant appPath : Str) (stat : FileStat) (hash : Option Digest)
    (lines : List Str) :
    appDBCheckLines grant appPath stat hash (lines.map stripTrailingWhitespace) =
      appDBCheckLines grant appPath stat hash lines := by
  induction lines with
  | nil => rfl
  | cons l lines ih =>
    rw [List.map_cons, appDBCheckLines, appDBCheckLines, stripTrailingWhitespace_idem, ih]

theorem appDBCheck_fileLines (files : FileView) (db : Option Str) (grant appPath : Str) :
    appDBCheck files db grant appPath =
      match files.stat appPath with
      | none => none
      | some stat =>
        appDBCheckLines grant appPath stat (files.hashFile appPath) (fileLines db) := by
  unfold appDBCheck
  cases files.stat appPath with
  | none => rfl
  | some stat =>
    cases db with
    | none => rfl
    | some text => exact (appDBCheckLines_strip _ _ _ _ (readLines text)).symm

/-- When every record is judged `false` or `x`, the verdict is `x` as soon as one is judged so. -/
theorem appDBCheckLines_eq {grant appPath : Str} {stat : FileStat} {hash : Option Digest}
    {x : Option Bool} (hx : x ≠ some false) {lines : List Str}
    (h : ∀ l ∈ lines, ∃ e, lineEntry l = some e ∧
      (appDBCheckEntry e grant appPath stat hash = some false ∨
        appDBCheckEntry e grant appPath stat hash = x)) :
    appDBCheckLines grant appPath stat hash lines =
      if ∃ e ∈ lines.filterMap lineEntry, appDBCheckEntry e grant appPath stat hash = x then x
      else some false := by
  rw [appDBCheckLines_first]
  have hjudged : ∀ l ∈ lines,
      ((lineEntry l).bind (appDBCheckEntry · grant appPath stat hash) = some false ∨
        (lineEntry l).bind (appDBCheckEntry · grant appPath stat hash) = x) := by
    intro l hl
    obtain ⟨e, he, hv⟩ := h l hl
    rw [he]
    exact hv
  rw [Verdict.first_uniform hx hjudged]
  apply if_congr _ rfl rfl
  simp only [List.mem_filterMap]
  constructor
  · intro hex
    obtain ⟨l, hl, hv⟩ := hex
    obtain ⟨e, he, _⟩ := h l hl
    rw [he] at hv
    exact ⟨e, ⟨l, hl, he⟩, hv⟩
  · intro hex
    obtain ⟨e, ⟨l, hl, he⟩, hv⟩ := hex
    refine ⟨l, hl, ?_⟩
    rw [he]
    exact hv

/-- The verdict on an entry that is not `false`. -/
def fitVerdict : Option Digest → Option Bool
  | some _ => some true
  | none => none

theorem appDBCheckEntry_cases {e : TGrant} {text : Str} (he : e.hash = some text)
    (grant appPath : Str) (stat : FileStat) (hash : Option Digest) :
    appDBCheckEntry e grant appPath stat hash = some false ∨
      appDBCheckEntry e grant appPath stat hash = fitVerdict hash := by
  unfold appDBCheckEntry
  split_ifs
  · exact Or.inl rfl
  · exact Or.inl rfl
  · exact Or.inl rfl
  · exact Or.inl rfl
  · rw [he]
    cases hash with
    | none => exact Or.inr rfl
    | some d =>
      by_cases hd : d.text = text
      · exact Or.inr (by simp [hd, fitVerdict])
      · exact Or.inl (by simp [hd])
  · exact Or.inl rfl

theorem appDBCheckEntry_program {e : TGrant} (hprogram : e.program ≠ []) {grant appPath : Str}
    {stat : FileStat} {hash : Option Digest}
    (h : appDBCheckEntry e grant appPath stat hash ≠ some false) : e.program = appPath := by
  by_contra hne
  refine h ?_
  unfold appDBCheckEntry
  split_ifs with h1 h2 h3 h4
  · rfl
  · rfl
  · rfl
  · rfl
  · exact absurd ⟨hprogram, hne⟩ h4
  · rfl

theorem fitVerdict_ne (hash : Option Digest) : fitVerdict hash ≠ some false := by
  cases hash with
  | none => simp [fitVerdict]
  | some d => simp [fitVerdict]

theorem appDBCheck_clean {db : Option Str} (hdb : Clean db) (files : FileView)
    (grant appPath : Str) :
    appDBCheck files db grant appPath =
      match files.stat appPath with
      | none => none
      | some stat =>
        if ∃ e ∈ entries db, appDBCheckEntry e grant appPath stat (files.hashFile appPath) =
            fitVerdict (files.hashFile appPath) then fitVerdict (files.hashFile appPath)
        else some false := by
  rw [appDBCheck_fileLines]
  cases files.stat appPath with
  | none => rfl
  | some stat =>
    apply appDBCheckLines_eq (fitVerdict_ne _)
    intro l hl
    obtain ⟨e, text, he, _, htext⟩ := (hdb l hl).entry
    exact ⟨e, he, appDBCheckEntry_cases htext _ _ _ _⟩

theorem mem_entries {db : Option Str} {e : TGrant} :
    e ∈ entries db ↔ ∃ l ∈ fileLines db, lineEntry l = some e := List.mem_filterMap

theorem Clean.program_ne_nil {db : Option Str} (hdb : Clean db) {e : TGrant}
    (he : e ∈ entries db) : e.program ≠ [] := by
  obtain ⟨l, hl, hle⟩ := mem_entries.mp he
  obtain ⟨e', _, he', hprogram, _⟩ := (hdb l hl).entry
  rw [hle] at he'
  cases he'
  exact hprogram

/-- The entries recorded for a program decide every check on it. -/
theorem appDBCheck_congr {db db' : Option Str} (hdb : Clean db) (hdb' : Clean db')
    {appPath : Str} (h : ∀ e, e.program = appPath → (e ∈ entries db ↔ e ∈ entries db'))
    (files : FileView) (grant : Str) :
    appDBCheck files db grant appPath = appDBCheck files db' grant appPath := by
  rw [appDBCheck_clean hdb, appDBCheck_clean hdb']
  cases files.stat appPath with
  | none => rfl
  | some stat =>
    have hiff : (∃ e ∈ entries db, appDBCheckEntry e grant appPath stat (files.hashFile appPath) =
        fitVerdict (files.hashFile appPath)) ↔
        ∃ e ∈ entries db', appDBCheckEntry e grant appPath stat (files.hashFile appPath) =
          fitVerdict (files.hashFile appPath) := by
      constructor
      · rintro ⟨e, he, hv⟩
        have hprogram := appDBCheckEntry_program (hdb.program_ne_nil he) (hv ▸ fitVerdict_ne _)
        exact ⟨e, (h e hprogram).mp he, hv⟩
      · rintro ⟨e, he, hv⟩
        have hprogram := appDBCheckEntry_program (hdb'.program_ne_nil he) (hv ▸ fitVerdict_ne _)
        exact ⟨e, (h e hprogram).mpr he, hv⟩
    simp only [hiff]

/-! ## Other programs keep their grants -/

def KeepsOthers (db : Option Str) (appPath : Str) : Prop :=
  ∀ line ∈ fileLines db, ∀ e, lineEntry line = some e → e.program ≠ appPath →
    Survives db appPath line

theorem AddCall.lineEntry_line {call : AddCall} (hrec : call.Recordable) (stat : FileStat) :
    lineEntry (call.line stat) = some
      { type := call.grant, user := call.user, group := call.group, program := call.appPath,
        hash := some (hashText (call.files.hashFile call.appPath)), size := stat.size } :=
  lineEntry_grantLine hrec.readsBack stat.size_lt _

section KeepsOthers

variable {db : Option Str} (hdb : Clean db) {call : AddCall} (hrec : call.Recordable)
  {stat : FileStat} (hstat : call.files.stat call.appPath = some stat)
include hdb hrec hstat

theorem entries_kept_iff :
    (∀ e ∈ entries db, e.program ≠ call.appPath → e ∈ entries (call.run db)) ↔
      KeepsOthers db call.appPath := by
  constructor
  · intro h line hline e he hne
    obtain ⟨l, hl, hle⟩ := mem_entries.mp (h e (mem_entries.mpr ⟨line, hline, he⟩) hne)
    rcases (mem_fileLines_run hrec hstat hdb l).mp hl with rfl | ⟨hmem, hsurvives⟩
    · rw [AddCall.lineEntry_line hrec] at hle
      cases hle
      exact absurd rfl hne
    · have hsame : l = line := (hdb l hmem).inj (hdb line hline) (hle.trans he.symm)
      rwa [hsame] at hsurvives
  · intro h e he hne
    obtain ⟨l, hl, hle⟩ := mem_entries.mp he
    have hmem := (mem_fileLines_run hrec hstat hdb l).mpr (Or.inr ⟨hl, h l hl e hle hne⟩)
    exact mem_entries.mpr ⟨l, hmem, hle⟩

theorem appDBCheck_kept (h : KeepsOthers db call.appPath) {program : Str}
    (hne : program ≠ call.appPath) (files : FileView) (grant : Str) :
    appDBCheck files (call.run db) grant program = appDBCheck files db grant program := by
  refine (appDBCheck_congr hdb (clean_run hrec hstat hdb) (fun e he => ?_) files grant).symm
  subst he
  constructor
  · intro hmem
    exact (entries_kept_iff hdb hrec hstat).mpr h e hmem hne
  · intro hmem
    obtain ⟨l, hl, hle⟩ := mem_entries.mp hmem
    rcases (mem_fileLines_run hrec hstat hdb l).mp hl with rfl | ⟨hold, _⟩
    · rw [AddCall.lineEntry_line hrec] at hle
      cases hle
      exact absurd rfl hne
    · exact mem_entries.mpr ⟨l, hold, hle⟩

end KeepsOthers

theorem runAdds_append (earlier : List AddCall) (call : AddCall) :
    runAdds (earlier ++ [call]) = call.run (runAdds earlier) := Runs.run_append _ _ _

/-- A granting call keeps the entries and verdicts of all other programs exactly when each of
their lines is the last under its first word and that word is not the granted path. -/
theorem appDBAdd_keeps_others_iff (earlier : List AddCall) (call : AddCall)
    (hearlier : ∀ c ∈ earlier, c.Recordable) (hcall : call.Recordable)
    (hok : (call.files.stat call.appPath).isSome) :
    ((∀ e ∈ entries (runAdds earlier), e.program ≠ call.appPath →
        e ∈ entries (runAdds (earlier ++ [call]))) ∧
      ∀ files grant program, program ≠ call.appPath →
        appDBCheck files (runAdds (earlier ++ [call])) grant program =
          appDBCheck files (runAdds earlier) grant program) ↔
      KeepsOthers (runAdds earlier) call.appPath := by
  obtain ⟨stat, hstat⟩ := Option.isSome_iff_exists.mp hok
  have hdb := clean_runAdds hearlier
  rw [runAdds_append]
  constructor
  · intro h
    exact (entries_kept_iff hdb hcall hstat).mp h.1
  · intro h
    exact ⟨(entries_kept_iff hdb hcall hstat).mpr h, fun files grant program hne =>
      appDBCheck_kept hdb hcall hstat h hne files grant⟩

def fiveBytes : FileStat := { size := 5, size_lt := by decide }

def equalFiles : FileView where
  stat := fun path => if path = [] then none else some fiveBytes
  hashFile := fun _ => some ⟨"aGFzaA==".toList, by decide⟩
  stat_nil := rfl

def plainCall (grant appPath : String) : AddCall where
  files := equalFiles
  grant := grant.toList
  user := []
  group := []
  appPath := appPath.toList

theorem appDBAdd_keeps_others_iff_single :
    ((∀ e ∈ entries (runAdds [plainCall "mount," "/bin/a"]), e.program ≠ "/bin/b".toList →
        e ∈ entries (runAdds ([plainCall "mount," "/bin/a"] ++ [plainCall "mount," "/bin/b"]))) ∧
      ∀ files grant program, program ≠ "/bin/b".toList →
        appDBCheck files
            (runAdds ([plainCall "mount," "/bin/a"] ++ [plainCall "mount," "/bin/b"]))
              grant program =
          appDBCheck files (runAdds [plainCall "mount," "/bin/a"]) grant program) ↔
      KeepsOthers (runAdds [plainCall "mount," "/bin/a"]) "/bin/b".toList :=
  appDBAdd_keeps_others_iff [plainCall "mount," "/bin/a"] (plainCall "mount," "/bin/b")
    (fun c hc => by
      rw [List.mem_singleton] at hc
      subst hc
      unfold AddCall.Recordable
      decide +kernel)
    (by unfold AddCall.Recordable; decide +kernel) (by decide)

/-- Two programs with the same grant list share a first word: the third call loses the first. -/
theorem appDBAdd_revokes_grant :
    ¬ ∀ (earlier : List AddCall) (call : AddCall), (call.files.stat call.appPath).isSome →
      ((∀ e ∈ entries (runAdds earlier), e.program ≠ call.appPath →
          e ∈ entries (runAdds (earlier ++ [call]))) ∧
        ∀ files grant program, program ≠ call.appPath →
          appDBCheck files (runAdds (earlier ++ [call])) grant program =
            appDBCheck files (runAdds earlier) grant program) := by
  intro h
  have hcheck := (h [plainCall "mount," "/bin/a", plainCall "mount," "/bin/b"]
    (plainCall "umount," "/bin/c") (by decide)).2 equalFiles "mount".toList "/bin/a".toList
    (by decide)
  revert hcheck
  decide +kernel

/-! ## Granting a program again -/

def recordedFor (db : Option Str) (program : Str) : List TGrant :=
  (entries db).filter (·.program = program)

/-- No older line about the program survives the call that grants it again. -/
def Replaces (db : Option Str) (program : Str) : Prop :=
  ∀ line ∈ fileLines db, ∀ e, lineEntry line = some e → e.program = program →
    ¬ Survives db program line

/-- A later call grants another program and lets the lines about this one survive. -/
def KeepsProgram (program : Str) (db : Option Str) (call : AddCall) : Prop :=
  call.Recordable ∧ call.appPath ≠ program ∧
    ∀ line ∈ fileLines db, ∀ e, lineEntry line = some e → e.program = program →
      Survives db call.appPath line

def AddCall.record (call : AddCall) (stat : FileStat) : TGrant :=
  { type := call.grant, user := call.user, group := call.group, program := call.appPath,
    hash := some (hashText (call.files.hashFile call.appPath)), size := stat.size }

def isAbout (program : Str) (item : Str × Str) : Bool :=
  decide ((lineEntry item.2).map TGrant.program = some program)

theorem isAbout_iff (program : Str) (item : Str × Str) :
    isAbout program item = true ↔ ∃ e, lineEntry item.2 = some e ∧ e.program = program := by
  simp [isAbout]

theorem filter_entries (program : Str) (items : Vars) :
    ((items.map Prod.snd).filterMap lineEntry).filter (·.program = program) =
      ((items.filter (isAbout program)).map Prod.snd).filterMap lineEntry := by
  induction items with
  | nil => rfl
  | cons item items ih =>
    cases he : lineEntry item.2 with
    | none =>
      have hnot : ¬ isAbout program item = true := by simp [isAbout, he]
      rw [List.map_cons, List.filterMap_cons_none he, List.filter_cons_of_neg hnot]
      exact ih
    | some e =>
      rw [List.map_cons, List.filterMap_cons_some he]
      by_cases hp : e.program = program
      · have habout : isAbout program item = true := by simp [isAbout, he, hp]
        rw [List.filter_cons_of_pos (by simpa using hp), List.filter_cons_of_pos habout,
          List.map_cons, List.filterMap_cons_some he, ih]
      · have hnot : ¬ isAbout program item = true := by simp [isAbout, he, hp]
        rw [List.filter_cons_of_neg (by simpa using hp), List.filter_cons_of_neg hnot]
        exact ih

theorem recordedFor_singleton {db : Option Str} {program line : Str} {e : TGrant}
    (hone : recordedFor db program = [e]) (hline : line ∈ fileLines db)
    (hprogram : ∃ e', lineEntry line = some e' ∧ e'.program = program) :
    lineEntry line = some e := by
  obtain ⟨e', he', hp⟩ := hprogram
  have hmem : e' ∈ recordedFor db program :=
    List.mem_filter.mpr ⟨mem_entries.mpr ⟨line, hline, he'⟩, by simpa using hp⟩
  rw [hone, List.mem_singleton] at hmem
  rw [he', hmem]

section Regrant

variable {db : Option Str} (hdb : Clean db) {call : AddCall} (hrec : call.Recordable)
  {stat : FileStat} (hstat : call.files.stat call.appPath = some stat)
include hdb hrec hstat

theorem recordedFor_run_iff :
    recordedFor (call.run db) call.appPath = [call.record stat] ↔ Replaces db call.appPath := by
  have hpath := AddCall.appPath_ne_nil hstat
  have hself := sameTag_self hpath
  obtain ⟨new, hnew, hval, hnewkey⟩ :
      ∃ n ∈ KeyedList.upsert sameTag call.appPath (call.line stat) (readItems db),
        n.2 = call.line stat ∧ (n.1 = call.appPath ∨ sameTag n.1 call.appPath = true) :=
    KeyedList.upsert_mem_new _ _ _
  have hentry : lineEntry new.2 = some (call.record stat) := by
    rw [hval]
    exact AddCall.lineEntry_line hrec stat
  have habout : isAbout call.appPath new = true := (isAbout_iff _ _).mpr ⟨_, hentry, rfl⟩
  have hfilter : recordedFor (call.run db) call.appPath =
      (((setVar (readItems db) call.appPath (call.line stat)).filter
        (isAbout call.appPath)).map Prod.snd).filterMap lineEntry := by
    rw [recordedFor, entries, fileLines_run hrec hstat]
    exact filter_entries _ _
  constructor
  · intro hone line hline e he hprogram hsurvives
    obtain ⟨old, hold, rfl, hother⟩ :=
      (survives_iff_item hdb call.appPath line).mp ⟨hline, hsurvives⟩
    -- the surviving item and the new one would both be about the program
    have hkept := KeyedList.upsert_mem_old (call.line stat) hold hother
    have holdabout : isAbout call.appPath old = true := (isAbout_iff _ _).mpr ⟨e, he, hprogram⟩
    have hlength : ((setVar (readItems db) call.appPath (call.line stat)).filter
        (isAbout call.appPath)).length = 1 := by
      have hsome : ∀ l ∈ ((setVar (readItems db) call.appPath (call.line stat)).filter
          (isAbout call.appPath)).map Prod.snd, (lineEntry l).isSome := by
        intro l hl
        obtain ⟨item, hitem, rfl⟩ := List.mem_map.mp hl
        obtain ⟨e', he', _⟩ := (isAbout_iff _ _).mp (List.mem_filter.mp hitem).2
        rw [he']
        rfl
      have hcount := List.filterMap_length_eq_length.mpr hsome
      rw [← hfilter, hone, List.length_map] at hcount
      exact hcount.symm
    obtain ⟨only, honly⟩ := List.length_eq_one_iff.mp hlength
    have hold_eq : old ∈ [only] := honly ▸ List.mem_filter.mpr ⟨hkept, holdabout⟩
    have hnew_eq : new ∈ [only] := honly ▸ List.mem_filter.mpr ⟨hnew, habout⟩
    rw [List.mem_singleton] at hold_eq hnew_eq
    rw [hold_eq, ← hnew_eq] at hother
    rcases hnewkey with h | h
    · rw [h, hself] at hother
      cases hother
    · rw [h] at hother
      cases hother
  · intro hreplaces
    have hunique := KeyedList.filter_unique
      ((distinct_readItems db).upsert call.appPath (call.line stat)) (p := isAbout call.appPath)
      ?_ hnew habout
    · rw [hfilter, setVar, hunique, List.map_singleton, List.filterMap_cons_some hentry]
      rfl
    · have key : ∀ m ∈ KeyedList.upsert sameTag call.appPath (call.line stat) (readItems db),
          isAbout call.appPath m = true → sameTag m.1 call.appPath = true := by
        intro m hm hma
        rcases KeyedList.mem_upsert sameTag_matching (distinct_readItems db) hm with h | h
        · rcases h.2 with h1 | h1
          · rw [h1]
            exact hself
          · exact h1
        · obtain ⟨hline, hsurvives⟩ :=
            (survives_iff_item hdb call.appPath m.2).mpr ⟨m, h.1, rfl, h.2⟩
          obtain ⟨e, he, hp⟩ := (isAbout_iff _ _).mp hma
          exact absurd hsurvives (hreplaces _ hline e he hp)
      intro m hm n hn hma hna
      exact sameTag_matching.trans _ _ _ (key m hm hma)
        (sameTag_matching.symm _ _ (key n hn hna))

end Regrant

theorem mem_recordedFor {db : Option Str} {program : Str} {e : TGrant} :
    e ∈ recordedFor db program ↔ e ∈ entries db ∧ e.program = program := by
  simp [recordedFor]

theorem recordedFor_step {db : Option Str} (hdb : Clean db) {program : Str} {e : TGrant}
    (hone : recordedFor db program = [e]) {call : AddCall} (hkeep : KeepsProgram program db call) :
    recordedFor (call.run db) program = [e] := by
  obtain ⟨hrec, hother, hsurvive⟩ := hkeep
  cases hstat : call.files.stat call.appPath with
  | none =>
    rw [run_unstattable hstat]
    exact hone
  | some stat =>
    have he : e ∈ entries db ∧ e.program = program := mem_recordedFor.mp (by simp [hone])
    obtain ⟨line, hline, hentry⟩ := mem_entries.mp he.1
    obtain ⟨item, hitem, hval, hkey⟩ := (survives_iff_item hdb call.appPath line).mp
      ⟨hline, hsurvive line hline e hentry he.2⟩
    have hkept := KeyedList.upsert_mem_old (call.line stat) hitem hkey
    have habout : isAbout program item = true :=
      (isAbout_iff _ _).mpr ⟨e, by rw [hval]; exact hentry, he.2⟩
    have hunique := KeyedList.filter_unique
      ((distinct_readItems db).upsert call.appPath (call.line stat)) (p := isAbout program)
      ?_ hkept habout
    · rw [recordedFor, entries, fileLines_run hrec hstat, AddCall.lines, filter_entries,
        setVar, hunique,
        List.map_singleton, hval, List.filterMap_cons_some hentry]
      rfl
    · have key : ∀ m ∈ KeyedList.upsert sameTag call.appPath (call.line stat) (readItems db),
          isAbout program m = true → sameTag m.1 (lineKey line) = true := by
        intro m hm hma
        obtain ⟨e', he', hp⟩ := (isAbout_iff _ _).mp hma
        rcases KeyedList.mem_upsert sameTag_matching (distinct_readItems db) hm with h | h
        · rw [h.1, AddCall.lineEntry_line hrec stat] at he'
          cases he'
          exact absurd hp hother
        · have hm2 := (mem_readItems h.1).1
          have hsame : lineEntry m.2 = some e := recordedFor_singleton hone hm2 ⟨e', he', hp⟩
          have hm2eq : m.2 = line := (hdb _ hm2).inj (hdb _ hline) (hsame.trans hentry.symm)
          have htag := readItems_tag hdb h.1
          rwa [hm2eq] at htag
      intro m hm n hn hma hna
      exact sameTag_matching.trans _ _ _ (key m hm hma)
        (sameTag_matching.symm _ _ (key n hn hna))

theorem appDBCheck_only {db : Option Str} (hdb : Clean db) {program : Str} {e : TGrant}
    (hone : recordedFor db program = [e]) {files : FileView} {stat : FileStat} {digest : Digest}
    (hstat : files.stat program = some stat) (hhash : files.hashFile program = some digest)
    (grant : Str) :
    appDBCheck files db grant program =
      some (decide (appDBCheckEntry e grant program stat (some digest) = some true)) := by
  rw [appDBCheck_clean hdb, hstat, hhash]
  by_cases he : appDBCheckEntry e grant program stat (some digest) = some true
  · have hmem : e ∈ entries db := (mem_recordedFor.mp (by rw [hone]; simp)).1
    have hfits : ∃ e ∈ entries db, appDBCheckEntry e grant program stat (some digest) =
        fitVerdict (some digest) := ⟨e, hmem, he⟩
    rw [decide_eq_true he]
    exact if_pos hfits
  · have hnone : ¬ ∃ e ∈ entries db, appDBCheckEntry e grant program stat (some digest) =
        fitVerdict (some digest) := by
      rintro ⟨e', he', hv⟩
      have hprogram :=
        appDBCheckEntry_program (hdb.program_ne_nil he') (by rw [hv]; simp [fitVerdict])
      have hmem : e' ∈ recordedFor db program := mem_recordedFor.mpr ⟨he', hprogram⟩
      rw [hone, List.mem_singleton] at hmem
      rw [hmem] at hv
      exact he hv
    rw [decide_eq_false he]
    exact if_neg hnone

/-- The entry of a call lets through the file it was made for, under the granted names. -/
theorem appDBCheckEntry_record {call : AddCall} {stat : FileStat} {names : List Str}
    (hgrant : call.grant = nameList names) (hnames : ∀ n ∈ names, plainName n = true)
    (hpath : call.appPath ≠ []) {digest : Digest}
    (hhash : call.files.hashFile call.appPath = some digest) {grant : Str}
    (hstar : grant = ['*'] → grant ∈ names) (now : FileStat) (content : Digest) :
    appDBCheckEntry (call.record stat) grant call.appPath now (some content) = some true ↔
      now.size = stat.size ∧ content.text = digest.text ∧ grant ∈ names := by
  have hempty : grant ∈ names → grant ≠ [] := by
    rintro hmem rfl
    have := hnames [] hmem
    simp [plainName] at this
  have hlist : isItemInList grant (call.record stat).type = decide (grant ∈ names) := by
    show isItemInList grant call.grant = _
    rw [hgrant]
    exact isItemInList_nameList hnames hstar
  have hrecorded : (call.record stat).hash = some digest.text := by
    show some (hashText (call.files.hashFile call.appPath)) = _
    rw [hhash]
    rfl
  have hsame : ¬ ((call.record stat).program ≠ [] ∧ (call.record stat).program ≠ call.appPath) :=
    fun h => h.2 rfl
  unfold appDBCheckEntry
  rw [hlist, hrecorded]
  by_cases hg : grant ∈ names
  · rw [if_neg (hempty hg), if_neg hpath, decide_eq_true hg, if_neg (by decide), if_neg hsame]
    have hnow : (call.record stat).size = stat.size := rfl
    rw [hnow]
    by_cases hsize : now.size = stat.size
    · rw [if_pos hsize]
      simp only [Option.some.injEq, decide_eq_true_iff, hsize, hg, true_and, and_true]
    · rw [if_neg hsize]
      simp only [Option.some.injEq, Bool.false_eq_true, hsize, false_and]
  · rw [decide_eq_false hg, if_pos rfl]
    simp only [hg, and_false, iff_false]
    split_ifs <;> simp only [Option.some.injEq, Bool.false_eq_true, not_false_eq_true]

theorem runAdds_run (calls later : List AddCall) :
    runAdds (calls ++ later) = Runs.run AddCall.run (runAdds calls) later := Runs.run_append _ _ _

/-- After the last grant of a program, and as long as later calls let its line survive, the file
holds exactly the entry of that call and checks follow it, if and only if no older line about the
program survived the call. -/
theorem regrant_replaces_iff (earlier : List AddCall) (call : AddCall) (names : List Str)
    {stat : FileStat} {digest : Digest} (grant : Str) (hearlier : ∀ c ∈ earlier, c.Recordable)
    (hcall : call.Recordable) (hgrant : call.grant = nameList names)
    (hnames : ∀ n ∈ names, plainName n = true)
    (hstat : call.files.stat call.appPath = some stat)
    (hhash : call.files.hashFile call.appPath = some digest)
    (hstar : grant = ['*'] → grant ∈ names) :
    (∀ later, Runs.Guarded AddCall.run (KeepsProgram call.appPath)
        (runAdds (earlier ++ [call])) later →
      recordedFor (runAdds (earlier ++ [call] ++ later)) call.appPath = [call.record stat] ∧
        ∀ files now content, files.stat call.appPath = some now →
          files.hashFile call.appPath = some content →
          appDBCheck files (runAdds (earlier ++ [call] ++ later)) grant call.appPath =
            some (decide (now.size = stat.size ∧ content.text = digest.text ∧ grant ∈ names))) ↔
      Replaces (runAdds earlier) call.appPath := by
  have hdb := clean_runAdds hearlier
  constructor
  · intro h
    have hone := (h [] trivial).1
    rw [List.append_nil, runAdds_append] at hone
    exact (recordedFor_run_iff hdb hcall hstat).mp hone
  · intro h later hlater
    have hstart : Clean (runAdds (earlier ++ [call])) ∧
        recordedFor (runAdds (earlier ++ [call])) call.appPath = [call.record stat] := by
      rw [runAdds_append]
      exact ⟨clean_run hcall hstat hdb, (recordedFor_run_iff hdb hcall hstat).mpr h⟩
    have hstep : ∀ db c, Clean db ∧ recordedFor db call.appPath = [call.record stat] →
        KeepsProgram call.appPath db c →
        Clean (AddCall.run db c) ∧ recordedFor (AddCall.run db c) call.appPath =
          [call.record stat] := by
      intro db c hinv hkeep
      refine ⟨?_, recordedFor_step hinv.1 hinv.2 hkeep⟩
      cases hs : c.files.stat c.appPath with
      | none =>
        rw [run_unstattable hs]
        exact hinv.1
      | some st => exact clean_run hkeep.1 hs hinv.1
    have hend := Runs.invariant hstep hstart hlater
    rw [← runAdds_run] at hend
    refine ⟨hend.2, fun files now content hnow hcontent => ?_⟩
    rw [appDBCheck_only hend.1 hend.2 hnow hcontent]
    simp only [appDBCheckEntry_record hgrant hnames (AddCall.appPath_ne_nil hstat) hhash hstar]

theorem regrant_replaces_iff_single :
    (∀ later, Runs.Guarded AddCall.run (KeepsProgram "/bin/b".toList)
        (runAdds ([plainCall "mount," "/bin/a"] ++ [plainCall "umount," "/bin/b"])) later →
      recordedFor
        (runAdds ([plainCall "mount," "/bin/a"] ++ [plainCall "umount," "/bin/b"] ++ later))
          "/bin/b".toList = [(plainCall "umount," "/bin/b").record fiveBytes] ∧
        ∀ files now content, files.stat "/bin/b".toList = some now →
          files.hashFile "/bin/b".toList = some content →
          appDBCheck files
              (runAdds ([plainCall "mount," "/bin/a"] ++ [plainCall "umount," "/bin/b"] ++ later))
              "umount".toList "/bin/b".toList =
            some (decide (now.size = 5 ∧ content.text = "aGFzaA==".toList ∧
              "umount".toList ∈ ["umount".toList]))) ↔
      Replaces (runAdds [plainCall "mount," "/bin/a"]) "/bin/b".toList :=
  regrant_replaces_iff
    [plainCall "mount," "/bin/a"] (plainCall "umount," "/bin/b") ["umount".toList] "umount".toList
    (fun c hc => by
      rw [List.mem_singleton] at hc
      subst hc
      unfold AddCall.Recordable
      decide +kernel)
    (by unfold AddCall.Recordable; decide +kernel) rfl (by decide +kernel) rfl rfl
    (by decide +kernel)

/-- Granting a program a second time leaves the first grant in force. -/
theorem regrant_keeps_old_grant :
    ¬ ∀ (earlier : List AddCall) (call : AddCall) (names : List Str),
      call.grant = nameList names → (call.files.stat call.appPath).isSome →
        (recordedFor (runAdds (earlier ++ [call])) call.appPath).length = 1 ∧
          ∀ grant, appDBCheck call.files (runAdds (earlier ++ [call])) grant call.appPath =
            some (decide (grant ∈ names)) := by
  intro h
  have hcount := (h [plainCall "mount," "/bin/a"] (plainCall "umount," "/bin/a") ["umount".toList]
    rfl rfl).1
  revert hcount
  decide +kernel

end Invocation
