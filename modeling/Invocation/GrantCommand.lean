import Invocation.AppDBHistory
import Invocation.Membership
import Invocation.RunOptions

/-!
# The grant command

What an administrator types, in any order of options, and what the checks of the
server make of a whole history of such commands.
-/

namespace Invocation

set_option autoImplicit false

/-! ## The command line -/

structure GrantOptions where
  grants : Str := []
  program : Str := []
  users : Str := []
  groups : Str := []

/-- `ParseCommandLine` of `grant`; none when it prints the version and exits. An option
at the end of the line has no value, and `MCatStr` stops at it. -/
def parseGrant : List Str → GrantOptions → Option GrantOptions
  | [], o => some o
  | a :: rest, o =>
    if a = "-version".toList then none
    else if a = "--version".toList then none
    else if a = "-u".toList then
      match rest with
      | [] => some o
      | user :: rest => parseGrant rest { o with users := o.users ++ user ++ [','] }
    else if a = "-g".toList then
      match rest with
      | [] => some o
      | group :: rest => parseGrant rest { o with groups := o.groups ++ group ++ [','] }
    else if o.program = [] then parseGrant rest { o with program := a }
    else parseGrant rest { o with grants := o.grants ++ a ++ [','] }

/-- `main` of `grant`. -/
def grantMain (files : FileView) (db : Option Str) (argv : List Str) : Option (Option Str) :=
  (parseGrant argv {}).map fun o => appDBAdd files db o.grants o.users o.groups o.program

def grantOptionNames : List Str := ["-version".toList, "--version".toList, "-u".toList, "-g".toList]

/-- How a command line is typed: words, users behind -u and groups behind -g, in any order. -/
inductive Typed : List Str → List Str → List Str → List Str → Prop where
  | done : Typed [] [] [] []
  | word {argv words users groups : List Str} (w : Str) (hw : w ∉ grantOptionNames)
      (h : Typed argv words users groups) : Typed (w :: argv) (w :: words) users groups
  | user {argv words users groups : List Str} (u : Str)
      (h : Typed argv words users groups) :
      Typed ("-u".toList :: u :: argv) words (u :: users) groups
  | group {argv words users groups : List Str} (g : Str)
      (h : Typed argv words users groups) :
      Typed ("-g".toList :: g :: argv) words users (g :: groups)

theorem parseGrant_word {w : Str} (hw : w ∉ grantOptionNames) (argv : List Str) (o : GrantOptions) :
    parseGrant (w :: argv) o =
      if o.program = [] then parseGrant argv { o with program := w }
      else parseGrant argv { o with grants := o.grants ++ w ++ [','] } := by
  simp only [grantOptionNames, List.mem_cons, List.not_mem_nil, or_false, not_or] at hw
  obtain ⟨h1, h2, h3, h4⟩ := hw
  rw [parseGrant.eq_def]
  simp only [if_neg h1, if_neg h2, if_neg h3, if_neg h4]

theorem parseGrant_user (u : Str) (argv : List Str) (o : GrantOptions) :
    parseGrant ("-u".toList :: u :: argv) o =
      parseGrant argv { o with users := o.users ++ u ++ [','] } := rfl

theorem parseGrant_group (g : Str) (argv : List Str) (o : GrantOptions) :
    parseGrant ("-g".toList :: g :: argv) o =
      parseGrant argv { o with groups := o.groups ++ g ++ [','] } := rfl

theorem nameList_cons (n : Str) (names : List Str) :
    nameList (n :: names) = n ++ [','] ++ nameList names :=
  List.flatMap_cons

/-- Behind the program, the words are names to be granted. -/
theorem parseGrant_names {argv names users groups : List Str} (h : Typed argv names users groups)
    {o : GrantOptions} (ho : o.program ≠ []) :
    parseGrant argv o = some
      { o with
        grants := o.grants ++ nameList names
        users := o.users ++ nameList users
        groups := o.groups ++ nameList groups } := by
  induction h generalizing o with
  | done => simp only [parseGrant, nameList, List.flatMap_nil, List.append_nil]
  | word w hw h ih =>
    rw [parseGrant_word hw, if_neg ho, ih (by exact ho), nameList_cons]
    simp only [List.append_assoc]
  | user u h ih =>
    rw [parseGrant_user, ih (by exact ho), nameList_cons]
    simp only [List.append_assoc]
  | group g h ih =>
    rw [parseGrant_group, ih (by exact ho), nameList_cons]
    simp only [List.append_assoc]

/-- The first word is the program, wherever the options stand. -/
theorem parseGrant_typed {argv names users groups : List Str} {program : Str}
    (h : Typed argv (program :: names) users groups) (hprogram : program ≠ []) (o : GrantOptions)
    (ho : o.program = []) :
    parseGrant argv o = some
      { grants := o.grants ++ nameList names
        program := program
        users := o.users ++ nameList users
        groups := o.groups ++ nameList groups } := by
  generalize hwords : program :: names = words at h
  induction h generalizing o with
  | done => cases hwords
  | word w hw h ih =>
    cases hwords
    rw [parseGrant_word hw, if_pos ho, parseGrant_names h hprogram]
  | user u h ih =>
    rw [parseGrant_user, ih _ (by exact ho) hwords, nameList_cons]
    simp only [List.append_assoc]
  | group g h ih =>
    rw [parseGrant_group, ih _ (by exact ho) hwords, nameList_cons]
    simp only [List.append_assoc]

/-! ## One command -/

/-- A character that no reader of the file treats specially. -/
def NameChar (c : Char) : Prop := c ≠ '\\' ∧ isQuote c = false ∧ isSpace c = false

def NameWord (w : Str) : Prop := w ≠ [] ∧ ∀ c ∈ w, NameChar c ∧ c ≠ ','

/-- A command as it is typed, for a program that can be looked at. -/
structure GrantCommand where
  argv : List Str
  program : Str
  names : List Str
  users : List Str
  groups : List Str
  typed : Typed argv (program :: names) users groups
  words : ∀ w ∈ names ++ users ++ groups, NameWord w
  path : ∀ c ∈ program, NameChar c
  absolute : program.head? = some '/'
  files : FileView
  stat : FileStat
  hash : Digest
  found : files.stat program = some stat
  hashed : files.hashFile program = some hash

theorem nameList_chars {names : List Str} (h : ∀ w ∈ names, NameWord w) :
    ∀ c ∈ nameList names, NameChar c := by
  intro c hc
  obtain ⟨w, hw, hcw⟩ := List.mem_flatMap.mp hc
  rcases List.mem_append.mp hcw with hmem | hmem
  · exact ((h w hw).2 c hmem).1
  · rw [List.mem_singleton.mp hmem]
    exact ⟨by decide, by decide, by decide⟩

theorem NameChar.plain_blank {c : Char} (h : NameChar c) : plainChar blank c = true := by
  refine (plainChar_iff blank c).mpr ⟨h.1, h.2.1, decide_eq_false ?_⟩
  rintro rfl
  exact absurd h.2.2 (by decide)

/-- A text in single quotes is one word. -/
theorem wordFrom_inQuotes (sep : Char → Bool) {s : Str} (h : ∀ c ∈ s, NameChar c) (rest : Str) :
    wordFrom sep (some '\'') (s ++ '\'' :: rest) = wordFrom sep none rest := by
  induction s with
  | nil =>
    rw [List.nil_append, wordFrom.eq_def]
    exact if_pos rfl
  | cons c s ih =>
    obtain ⟨h1, h2, _⟩ := h c List.mem_cons_self
    have hquote : c ≠ '\'' := by
      rintro rfl
      exact absurd h2 (by decide)
    rw [List.cons_append, wordFrom.eq_def]
    simp only [if_neg hquote, if_neg h1]
    exact ih fun d hd => h d (List.mem_cons_of_mem _ hd)

theorem grantLine_word (grant user group appPath : Str) (size : Nat) (hash : Option Digest) :
    ∃ rest, grantLine grant user group appPath size hash =
      "grant=".toList ++ ('\'' :: (grant ++ ['\''])) ++ ' ' :: rest := by
  have hopen : "grant='".toList = "grant=".toList ++ ['\''] := by decide
  have hclose : "' program='".toList = '\'' :: ' ' :: "program='".toList := by decide
  unfold grantLine
  rw [hopen, hclose]
  simp only [List.append_assoc, List.cons_append, List.nil_append]
  exact ⟨_, rfl⟩

namespace GrantCommand

variable (g : GrantCommand)

theorem program_ne_nil : g.program ≠ [] := by
  intro h
  have habsolute := g.absolute
  rw [h] at habsolute
  cases habsolute

theorem names_words : ∀ w ∈ g.names, NameWord w := fun w hw =>
  g.words w (List.mem_append_left _ (List.mem_append_left _ hw))

theorem users_words : ∀ w ∈ g.users, NameWord w := fun w hw =>
  g.words w (List.mem_append_left _ (List.mem_append_right _ hw))

theorem groups_words : ∀ w ∈ g.groups, NameWord w := fun w hw =>
  g.words w (List.mem_append_right _ hw)

def call : AddCall where
  files := g.files
  grant := nameList g.names
  user := nameList g.users
  group := nameList g.groups
  appPath := g.program

/-- The command adds what was typed. -/
theorem main_eq (db : Option Str) : grantMain g.files db g.argv = some (g.call.run db) := by
  rw [grantMain, parseGrant_typed g.typed g.program_ne_nil _ rfl]
  rfl

theorem recordable : g.call.Recordable := by
  have hgrant := nameList_chars g.names_words
  have huser := nameList_chars g.users_words
  have hgroup := nameList_chars g.groups_words
  have hplain {s : Str} (h : ∀ c ∈ s, NameChar c) : s.all (plainChar blank) = true :=
    List.all_eq_true.mpr fun c hc => (h c hc).plain_blank
  have hspace {s : Str} (h : ∀ c ∈ s, NameChar c) : ∀ c ∈ s, isSpace c = false :=
    fun c hc => (h c hc).2.2
  have hboth : ∀ c ∈ nameList g.users ++ nameList g.groups, NameChar c := fun c hc =>
    (List.mem_append.mp hc).elim (huser c) (hgroup c)
  constructor
  · exact wordFrom_inQuotes blank hgrant []
  · exact wordFrom_inQuotes blank g.path []
  · exact wordFrom_plain (hplain huser)
  · exact stripQuotes_plain (hplain huser) (hspace huser)
  · exact wordFrom_plain (hplain hgroup)
  · exact stripQuotes_plain (hplain hgroup) (hspace hgroup)
  · intro hmem
    have hline : NameChar '\n' := by
      rcases List.mem_append.mp hmem with hmem | hmem
      · rcases List.mem_append.mp hmem with hmem | hmem
        · exact (List.mem_append.mp hmem).elim (hgrant _) (huser _)
        · exact hgroup _ hmem
      · exact g.path _ hmem
    exact absurd hline.2.2 (by decide)
  · exact stripTrailingWhitespace_solid (hspace hboth)

def line : Str := g.call.line g.stat

def record : TGrant := g.call.record g.stat

theorem names_plain : ∀ n ∈ g.names, plainName n = true := by
  intro n hn
  obtain ⟨hne, hchars⟩ := g.names_words n hn
  have hslash : '\\' ∉ n := fun hmem => (hchars _ hmem).1.1 rfl
  have hsep : ∀ c ∈ n, listSep c = false := by
    intro c hc
    obtain ⟨hchar, hcomma⟩ := hchars c hc
    rw [← Bool.not_eq_true, listSep_iff]
    rintro (hblank | heq)
    · rcases hblank with rfl | rfl | rfl | rfl <;> exact absurd hchar.2.2 (by decide)
    · exact hcomma heq
  rw [plainName, pieceFrom_word hslash hsep, Bool.and_true]
  exact decide_eq_true hne

/-- The first word of a line: the list of names, and nothing of the program. -/
theorem lineKey_line : lineKey g.line =
    "grant=".toList ++ ('\'' :: (nameList g.names ++ ['\''])) := by
  have hword : wordFrom (sepChar .space) none
      ("grant=".toList ++ ('\'' :: (nameList g.names ++ ['\'']))) = true := by
    rw [wordFrom_plain_append (by decide), wordFrom_quote (by decide),
      wordFrom_inQuotes _ (nameList_chars g.names_words)]
    rfl
  obtain ⟨rest, hrest⟩ := grantLine_word (nameList g.names) (nameList g.users) (nameList g.groups)
    g.program g.stat.size (g.files.hashFile g.program)
  have hline : g.line = "grant=".toList ++ ('\'' :: (nameList g.names ++ ['\''])) ++ ' ' :: rest :=
    hrest
  have htoken := getToken_spaceWord hword true (Or.inl rfl) rest
  rw [lineKey, hline]
  have hplain : "grant=".toList.all (plainChar blank) = true := by decide
  exact (congrArg Prod.fst htoken).trans (dequote_plain (by decide) hplain _)

/-- Two lines have one word when they list the same names, in any case. -/
theorem sameKey_iff (g' : GrantCommand) : sameTag (lineKey g.line) (lineKey g'.line) = true ↔
    strlwr (nameList g.names) = strlwr (nameList g'.names) := by
  rw [lineKey_line, lineKey_line, sameTag_iff]
  simp only [strlwr, List.map_append, List.map_cons, List.append_cancel_left_eq, List.cons.injEq,
    List.append_cancel_right_eq, true_and]
  exact and_iff_right (List.append_ne_nil_of_right_ne_nil _ (List.cons_ne_nil _ _))

/-- No path is the first word of a line. -/
theorem path_not_key (g' : GrantCommand) : sameTag (lineKey g.line) g'.program = false := by
  rw [← Bool.not_eq_true, sameTag_iff, lineKey_line]
  rintro ⟨_, h⟩
  have habsolute := g'.absolute
  cases hprogram : g'.program with
  | nil =>
    rw [hprogram] at habsolute
    cases habsolute
  | cons c path =>
    rw [hprogram] at habsolute h
    cases habsolute
    cases h

end GrantCommand

/-! ## Histories -/

/-- The database after a history of commands. -/
def runGrants (history : List GrantCommand) : Option Str :=
  runAdds (history.map GrantCommand.call)

/-- The commands that a later one with the same names has not overwritten. -/
def standing : List GrantCommand → List GrantCommand
  | [] => []
  | g :: later =>
    if later.any fun g' => strlwr (nameList g.names) = strlwr (nameList g'.names) then
      standing later
    else g :: standing later

theorem lastUnder_concat (lines : List Str) (line key : Str) :
    lastUnder (lines ++ [line]) key =
      if sameTag (lineKey line) key then some line else lastUnder lines key := by
  rw [lastUnder, List.reverse_append, List.reverse_singleton, List.singleton_append,
    List.find?_cons]
  cases sameTag (lineKey line) key with
  | true => rfl
  | false => rfl

theorem lastUnder_key {lines : List Str} {line key : Str} (h : lastUnder lines key = some line) :
    sameTag (lineKey line) key = true :=
  List.find?_some (p := fun line => sameTag (lineKey line) key) h

section Step

variable {db : Option Str} (hdb : Clean db) (g : GrantCommand)
  (hpath : ∀ line ∈ fileLines db, sameTag (lineKey line) g.program = false)
include hdb hpath

/-- The new line stands at the end, behind the lines that were read. -/
theorem fileLines_grant :
    fileLines (g.call.run db) = (readItems db).map Prod.snd ++ [g.line] := by
  rw [fileLines_run g.recordable g.found, AddCall.lines, setVar]
  have hcases : _ ∨ ∃ before item after, _ ∧ sameTag (Prod.fst item) g.program = true ∧ _ :=
    KeyedList.upsert_cases g.program g.line (readItems db)
  rcases hcases with ⟨_, heq⟩ | ⟨before, item, after, hitems, hsame, _⟩
  · have happend : KeyedList.upsert sameTag g.call.appPath (g.call.line g.stat) (readItems db) =
        readItems db ++ [(g.program, g.line)] := heq
    rw [happend, List.map_append]
    rfl
  · have hmem : item ∈ readItems db := by
      rw [hitems]
      exact List.mem_append_right _ List.mem_cons_self
    have hkey := (sameTag_congr (readItems_tag hdb hmem) g.program).symm.trans hsame
    rw [hpath item.2 (mem_readItems hmem).1] at hkey
    cases hkey

omit hdb hpath in
theorem get_readItems (db : Option Str) (key : Str) :
    KeyedList.get sameTag key (readItems db) = lastUnder (fileLines db) key := by
  rw [readItems_eq, setVars, KeyedList.get_ofPairs sameTag_matching, find_items, Option.map_map]
  cases lastUnder (fileLines db) key with
  | none => rfl
  | some line => rfl

omit hpath in
theorem mem_items_iff (line : Str) :
    line ∈ (readItems db).map Prod.snd ↔ lastUnder (fileLines db) (lineKey line) = some line := by
  rw [← get_readItems, KeyedList.get_eq_some_iff sameTag_matching (distinct_readItems db)]
  constructor
  · intro h
    obtain ⟨item, hitem, rfl⟩ := List.mem_map.mp h
    exact ⟨item, hitem, rfl, readItems_tag hdb hitem⟩
  · intro h
    obtain ⟨item, hitem, hline, _⟩ := h
    exact List.mem_map.mpr ⟨item, hitem, hline⟩

omit hpath in
/-- Reading the file leaves the last line under each first word. -/
theorem lastUnder_items (key : Str) :
    lastUnder ((readItems db).map Prod.snd) key = lastUnder (fileLines db) key := by
  have hmem {line : Str} : line ∈ (readItems db).map Prod.snd → sameTag (lineKey line) key = true →
      lastUnder (fileLines db) key = some line := by
    intro hline hkey
    obtain ⟨item, hitem, rfl⟩ := List.mem_map.mp hline
    rw [← get_readItems, KeyedList.get_eq_some_iff sameTag_matching (distinct_readItems db)]
    exact ⟨item, hitem, rfl, sameTag_matching.trans _ _ _ (readItems_tag hdb hitem) hkey⟩
  cases hlast : lastUnder ((readItems db).map Prod.snd) key with
  | some line =>
    exact (hmem (List.mem_reverse.mp (List.mem_of_find?_eq_some hlast)) (lastUnder_key hlast)).symm
  | none =>
    cases hline : lastUnder (fileLines db) key with
    | none => rfl
    | some line =>
      have hkey := lastUnder_key hline
      rw [← get_readItems,
        KeyedList.get_eq_some_iff sameTag_matching (distinct_readItems db)] at hline
      obtain ⟨item, hitem, rfl, _⟩ := hline
      have hnone := List.find?_eq_none.mp hlast item.2
        (List.mem_reverse.mpr (List.mem_map.mpr ⟨item, hitem, rfl⟩))
      exact absurd hkey hnone

end Step

/-- What a history leaves: the lines are those of its commands, and the last line under
a word is that of the last command under it. -/
structure Leaves (history : List GrantCommand) (db : Option Str) : Prop where
  clean : Clean db
  typed : ∀ line ∈ fileLines db, ∃ g ∈ history, line = g.line
  last : ∀ key, lastUnder (fileLines db) key = lastUnder (history.map GrantCommand.line) key

theorem Leaves.path {history : List GrantCommand} {db : Option Str} (h : Leaves history db)
    (g : GrantCommand) : ∀ line ∈ fileLines db, sameTag (lineKey line) g.program = false := by
  intro line hline
  obtain ⟨g', _, rfl⟩ := h.typed line hline
  exact g'.path_not_key g

theorem Leaves.step {history : List GrantCommand} {db : Option Str} (h : Leaves history db)
    (g : GrantCommand) : Leaves (history ++ [g]) (g.call.run db) where
  clean := clean_run g.recordable g.found h.clean
  typed := by
    intro line hline
    rw [fileLines_grant h.clean g (h.path g), List.mem_append] at hline
    rcases hline with hline | hline
    · obtain ⟨item, hitem, rfl⟩ := List.mem_map.mp hline
      obtain ⟨g', hg', heq⟩ := h.typed item.2 (mem_readItems hitem).1
      exact ⟨g', List.mem_append_left _ hg', heq⟩
    · exact ⟨g, List.mem_append_right _ List.mem_cons_self, List.mem_singleton.mp hline⟩
  last := by
    intro key
    rw [fileLines_grant h.clean g (h.path g), List.map_append, List.map_singleton,
      lastUnder_concat, lastUnder_concat, lastUnder_items h.clean, h.last]

theorem runGrants_concat (history : List GrantCommand) (g : GrantCommand) :
    runGrants (history ++ [g]) = g.call.run (runGrants history) := by
  rw [runGrants, List.map_append, List.map_singleton, runAdds_append]
  rfl

theorem runGrants_leaves (history : List GrantCommand) : Leaves history (runGrants history) := by
  induction history using List.reverseRecOn with
  | nil => exact ⟨nofun, nofun, fun _ => rfl⟩
  | append_singleton history g ih =>
    rw [runGrants_concat]
    exact ih.step g

theorem lastUnder_cons (line : Str) (lines : List Str) (key : Str) :
    lastUnder (line :: lines) key =
      (lastUnder lines key).or (if sameTag (lineKey line) key then some line else none) := by
  rw [lastUnder, List.reverse_cons, List.find?_append, List.find?_singleton]
  rfl

theorem lastUnder_lines_none (g : GrantCommand) (later : List GrantCommand) :
    lastUnder (later.map GrantCommand.line) (lineKey g.line) = none ↔
      ∀ g' ∈ later, strlwr (nameList g.names) ≠ strlwr (nameList g'.names) := by
  rw [lastUnder, List.find?_eq_none]
  constructor
  · intro h g' hg' heq
    refine h g'.line (List.mem_reverse.mpr (List.mem_map_of_mem hg')) ?_
    exact (g'.sameKey_iff g).mpr heq.symm
  · intro h line hline hkey
    obtain ⟨g', hg', rfl⟩ := List.mem_map.mp (List.mem_reverse.mp hline)
    exact h g' hg' ((g'.sameKey_iff g).mp hkey).symm

theorem standing_overwritten {g : GrantCommand} {later : List GrantCommand}
    (h : ∃ g' ∈ later, strlwr (nameList g.names) = strlwr (nameList g'.names)) :
    standing (g :: later) = standing later := by
  obtain ⟨g', hg', heq⟩ := h
  exact if_pos (List.any_eq_true.mpr ⟨g', hg', decide_eq_true heq⟩)

theorem standing_kept {g : GrantCommand} {later : List GrantCommand}
    (h : ∀ g' ∈ later, strlwr (nameList g.names) ≠ strlwr (nameList g'.names)) :
    standing (g :: later) = g :: standing later := by
  refine if_neg fun hany => ?_
  obtain ⟨g', hg', heq⟩ := List.any_eq_true.mp hany
  exact h g' hg' (of_decide_eq_true heq)

theorem mem_standing_cons {g g' : GrantCommand} {later : List GrantCommand} :
    g' ∈ standing (g :: later) ↔
      (g' = g ∧ ∀ k ∈ later, strlwr (nameList g.names) ≠ strlwr (nameList k.names)) ∨
        g' ∈ standing later := by
  by_cases hover : ∃ k ∈ later, strlwr (nameList g.names) = strlwr (nameList k.names)
  · rw [standing_overwritten hover]
    obtain ⟨k, hk, heq⟩ := hover
    exact ⟨.inr, fun h => h.elim (fun hself => absurd heq (hself.2 k hk)) id⟩
  · have hkept : ∀ k ∈ later, strlwr (nameList g.names) ≠ strlwr (nameList k.names) :=
      fun k hk heq => hover ⟨k, hk, heq⟩
    rw [standing_kept hkept, List.mem_cons]
    exact or_congr_left (and_iff_left hkept).symm

/-- The last lines of a history are those of the standing commands. -/
theorem lastUnder_standing (history : List GrantCommand) (line : Str) :
    lastUnder (history.map GrantCommand.line) (lineKey line) = some line ↔
      ∃ g ∈ standing history, g.line = line := by
  induction history with
  | nil => exact ⟨nofun, nofun⟩
  | cons g later ih =>
    rw [List.map_cons, lastUnder_cons]
    cases hlater : lastUnder (later.map GrantCommand.line) (lineKey line) with
    | some line' =>
      rw [hlater] at ih
      rw [Option.some_or, ih]
      constructor
      · intro h
        obtain ⟨g', hg', hline⟩ := h
        exact ⟨g', mem_standing_cons.mpr (.inr hg'), hline⟩
      · intro h
        obtain ⟨g', hg', rfl⟩ := h
        rcases mem_standing_cons.mp hg' with ⟨rfl, hkept⟩ | hg'
        · rw [(lastUnder_lines_none g' later).mpr hkept] at hlater
          cases hlater
        · exact ⟨g', hg', rfl⟩
    | none =>
      rw [hlater] at ih
      rw [Option.none_or]
      constructor
      · intro h
        have hline : g.line = line := by
          split at h
          · exact Option.some.inj h
          · cases h
        rw [← hline] at hlater
        exact ⟨g,
          mem_standing_cons.mpr (.inl ⟨rfl, (lastUnder_lines_none g later).mp hlater⟩), hline⟩
      · intro h
        obtain ⟨g', hg', rfl⟩ := h
        rcases mem_standing_cons.mp hg' with ⟨rfl, _⟩ | hg'
        · have hkey : sameTag (lineKey g'.line) (lineKey g'.line) = true :=
            sameTag_self (AddCall.written_line g'.recordable g'.found).lineKey_ne_nil
          rw [if_pos hkey]
        · exact nomatch ih.mpr ⟨g', hg', rfl⟩

/-- The lines that a history leaves. -/
theorem mem_lines_iff (earlier : List GrantCommand) (last : GrantCommand) (line : Str) :
    line ∈ fileLines (runGrants (earlier ++ [last])) ↔
      ∃ g ∈ standing earlier ++ [last], g.line = line := by
  have hleaves := runGrants_leaves earlier
  rw [runGrants_concat, fileLines_grant hleaves.clean last (hleaves.path last), List.mem_append,
    mem_items_iff hleaves.clean, hleaves.last, lastUnder_standing]
  constructor
  · rintro (⟨g, hg, hline⟩ | hline)
    · exact ⟨g, List.mem_append_left _ hg, hline⟩
    · exact ⟨last, List.mem_append_right _ List.mem_cons_self, (List.mem_singleton.mp hline).symm⟩
  · rintro ⟨g, hg, rfl⟩
    rcases List.mem_append.mp hg with hg | hg
    · exact .inl ⟨g, hg, rfl⟩
    · rw [List.mem_singleton.mp hg]
      exact .inr List.mem_cons_self

/-! ## Verdicts -/

/-- A command lets a check pass: it is about the program, lists the name, and the file
has the size and the content it had then. -/
def GrantCommand.Covers (g : GrantCommand) (name program : Str) (now : FileStat)
    (content : Digest) :
    Prop :=
  g.program = program ∧ now.size = g.stat.size ∧ content.text = g.hash.text ∧ name ∈ g.names

instance (g : GrantCommand) (name program : Str) (now : FileStat) (content : Digest) :
    Decidable (g.Covers name program now content) :=
  inferInstanceAs (Decidable (_ ∧ _ ∧ _ ∧ _))

theorem record_covers_iff (g : GrantCommand) {name : Str} (hname : name ≠ ['*']) (program : Str)
    (now : FileStat) (content : Digest) :
    appDBCheckEntry g.record name program now (some content) = some true ↔
      g.Covers name program now content := by
  have hgrant : g.call.grant = nameList g.names := rfl
  have hhash : g.call.files.hashFile g.call.appPath = some g.hash := g.hashed
  have hentry : appDBCheckEntry g.record name g.call.appPath now (some content) = some true ↔
      now.size = g.stat.size ∧ content.text = g.hash.text ∧ name ∈ g.names :=
    appDBCheckEntry_record hgrant g.names_plain g.program_ne_nil hhash (fun h => absurd h hname)
      now content
  constructor
  · intro h
    have hprogram : g.record.program = program :=
      appDBCheckEntry_program g.program_ne_nil (by rw [h]; decide)
    rw [← hprogram] at h
    exact ⟨hprogram, hentry.mp h⟩
  · intro h
    obtain ⟨rfl, h⟩ := h
    exact hentry.mpr h

/-- The commands one after another, each in a process of its own. -/
def runCommands : Option Str → List GrantCommand → Option (Option Str)
  | db, [] => some db
  | db, g :: later => (grantMain g.files db g.argv).bind fun db' => runCommands db' later

theorem runCommands_eq (history : List GrantCommand) (db : Option Str) :
    runCommands db history = some (Runs.run AddCall.run db (history.map GrantCommand.call)) := by
  induction history generalizing db with
  | nil => rfl
  | cons g later ih =>
    rw [runCommands, g.main_eq, Option.bind_some, ih]
    rfl

/-- After any history of commands, the verdict on a program and a name is that of the
commands that no later one with the same list of names has overwritten, except that the
last command overwrites nothing yet. -/
theorem history_verdict (earlier : List GrantCommand) (last : GrantCommand) (files : FileView)
    {name program : Str} {now : FileStat} {content : Digest} (hname : name ≠ ['*'])
    (hnow : files.stat program = some now) (hcontent : files.hashFile program = some content) :
    ∃ db, runCommands none (earlier ++ [last]) = some db ∧
      appDBCheck files db name program =
        some (decide (∃ g ∈ standing earlier ++ [last], g.Covers name program now content)) := by
  refine ⟨_, runCommands_eq _ none, ?_⟩
  have hclean := (runGrants_leaves (earlier ++ [last])).clean
  have hverdict : (∃ e ∈ entries (runGrants (earlier ++ [last])),
      appDBCheckEntry e name program now (some content) = fitVerdict (some content)) ↔
      ∃ g ∈ standing earlier ++ [last], g.Covers name program now content := by
    constructor
    · intro h
      obtain ⟨e, he, htrue⟩ := h
      obtain ⟨line, hline, hentry⟩ := mem_entries.mp he
      obtain ⟨g, hg, rfl⟩ := (mem_lines_iff earlier last line).mp hline
      have hrecord : lineEntry g.line = some g.record := AddCall.lineEntry_line g.recordable g.stat
      rw [hrecord] at hentry
      rw [← Option.some.inj hentry] at htrue
      exact ⟨g, hg, (record_covers_iff g hname program now content).mp htrue⟩
    · intro h
      obtain ⟨g, hg, hcovers⟩ := h
      have hline := (mem_lines_iff earlier last g.line).mpr ⟨g, hg, rfl⟩
      refine ⟨g.record, mem_entries.mpr ⟨g.line, hline, ?_⟩, ?_⟩
      · exact AddCall.lineEntry_line g.recordable g.stat
      · exact (record_covers_iff g hname program now content).mpr hcovers
  have hcheck := appDBCheck_clean hclean files name program
  rw [hnow, hcontent] at hcheck
  refine hcheck.trans ?_
  show (if _ then fitVerdict (some content) else some false) = _
  by_cases hcovers : ∃ g ∈ standing earlier ++ [last], g.Covers name program now content
  · rw [if_pos (hverdict.mpr hcovers), decide_eq_true hcovers]
    rfl
  · rw [if_neg fun h => hcovers (hverdict.mp h), decide_eq_false hcovers]

instance (c : Char) : Decidable (NameChar c) := inferInstanceAs (Decidable (_ ∧ _ ∧ _))

instance (w : Str) : Decidable (NameWord w) := inferInstanceAs (Decidable (_ ∧ _))

theorem equalDigest_base64 : ∀ c ∈ "aGFzaA==".toList, base64Char c = true := by decide

def equalDigest : Digest := ⟨"aGFzaA==".toList, equalDigest_base64⟩

theorem mountWords : ∀ w ∈ ["mount".toList] ++ ["bob".toList] ++ [], NameWord w := by decide

theorem mountTyped (c : Char) :
    Typed ["-u".toList, "bob".toList, ['/', c], "mount".toList] [['/', c], "mount".toList]
      ["bob".toList] [] := by
  have hprogram : ['/', c] ∉ grantOptionNames := by
    have hdash : ∀ n ∈ grantOptionNames, n.head? = some '-' := by decide
    intro h
    cases hdash _ h
  have hmount : "mount".toList ∉ grantOptionNames := by decide
  exact .user _ (.word _ hprogram (.word _ hmount .done))

theorem mountPath {c : Char} (hc : NameChar c) : ∀ d ∈ ['/', c], NameChar d := by
  intro d hd
  rcases List.mem_cons.mp hd with rfl | hd
  · decide
  · rw [List.mem_singleton.mp hd]
    exact hc

/-- `grant -u bob /c mount`. -/
def mountCommand (c : Char) (hc : NameChar c) : GrantCommand where
  argv := ["-u".toList, "bob".toList, ['/', c], "mount".toList]
  program := ['/', c]
  names := ["mount".toList]
  users := ["bob".toList]
  groups := []
  typed := mountTyped c
  words := mountWords
  path := mountPath hc
  absolute := rfl
  files := equalFiles
  stat := fiveBytes
  hash := equalDigest
  found := rfl
  hashed := rfl

theorem plain_letters : NameChar 'a' ∧ NameChar 'b' ∧ NameChar 'c' := by decide

/-- The third command reads the file and drops the grant of the first. -/
theorem history_verdict_overwritten :
    ∃ db, runCommands none
      ([mountCommand 'a' plain_letters.1, mountCommand 'b' plain_letters.2.1] ++
        [mountCommand 'c' plain_letters.2.2]) = some db ∧
      appDBCheck equalFiles db "mount".toList "/a".toList = some false := by
  have hname : "mount".toList ≠ ['*'] := by decide
  have hnow : equalFiles.stat "/a".toList = some fiveBytes := rfl
  have hcontent : equalFiles.hashFile "/a".toList = some equalDigest := rfl
  exact history_verdict [mountCommand 'a' plain_letters.1, mountCommand 'b' plain_letters.2.1]
    (mountCommand 'c' plain_letters.2.2) equalFiles hname hnow hcontent

end Invocation
