import Invocation.AppDB
import Invocation.Words

/-!
# Lines of clients.db

What a line written by `AppDBAdd` says when it is read back: the writer puts
raw text between single quotes or behind an equals sign, the reader is the
quote-aware tokeniser. `Recordable` is the condition under which they agree.
-/

namespace Invocation

set_option autoImplicit false

/-! ## Lines -/

theorem readLine_line {l : Str} (hl : '\n' ∉ l) (rest : Str) :
    readLine (l ++ '\n' :: rest) = some (l ++ ['\n'], rest) := by
  have hall : ∀ c ∈ l, (decide (c ≠ '\n')) = true := by
    intro c hc
    rw [decide_eq_true_iff]
    rintro rfl
    exact hl hc
  have hdrop : (l ++ '\n' :: rest).dropWhile (· ≠ '\n') = '\n' :: rest := by
    rw [List.dropWhile_append_of_pos hall, List.dropWhile_cons_of_neg (by simp)]
  have htake : (l ++ '\n' :: rest).takeWhile (· ≠ '\n') = l := by
    rw [List.takeWhile_append_of_pos hall, List.takeWhile_cons_of_neg (by simp), List.append_nil]
  obtain ⟨a, s, hs⟩ := List.exists_cons_of_ne_nil (l := l ++ '\n' :: rest) (by simp)
  rw [hs] at hdrop htake ⊢
  simp only [readLine, hdrop, htake]

theorem readLine_shrinks : Scan.Shrinks readLine := by
  intro s b t h
  unfold readLine at h
  split at h
  · cases h
  · rename_i hne
    have hpos := List.length_pos_of_ne_nil (l := s) (by simpa using hne)
    have hd := (List.dropWhile_sublist (p := fun c => decide (c ≠ '\n')) (l := s)).length_le
    split at h
    · cases h
      simpa using hpos
    · rename_i c r hdrop
      cases h
      rw [hdrop, List.length_cons] at hd
      omega

theorem readLines_write (lines : List Str) (hl : ∀ l ∈ lines, '\n' ∉ l) :
    readLines (lines.flatMap (· ++ ['\n'])) = lines.map (· ++ ['\n']) := by
  induction lines with
  | nil => rfl
  | cons l lines ih =>
    rw [List.flatMap_cons, List.append_assoc, List.singleton_append, List.map_cons]
    have hnext := readLine_line (hl l (by simp)) (lines.flatMap (· ++ ['\n']))
    rw [readLines, Scan.unfold_some readLine_shrinks hnext]
    exact congrArg _ (ih fun m hm => hl m (by simp [hm]))

theorem newline_mem_readLine {s l rest : Str} (h : readLine s = some (l, rest)) :
    ∃ m, '\n' ∉ m ∧ (l = m ∨ l = m ++ ['\n']) := by
  have htake : '\n' ∉ s.takeWhile (· ≠ '\n') := by
    intro hmem
    have := List.mem_takeWhile_imp hmem
    simp at this
  unfold readLine at h
  split at h
  · cases h
  · split at h
    · rename_i hdrop
      cases h
      refine ⟨_, ?_, Or.inl rfl⟩
      have := List.takeWhile_append_dropWhile (p := fun c => decide (c ≠ '\n')) (l := s)
      rw [hdrop, List.append_nil] at this
      rwa [this] at htake
    · rename_i c r hdrop
      cases h
      refine ⟨_, htake, Or.inr ?_⟩
      have hc : ¬ (decide (c ≠ '\n')) = true := by
        have hne : s.dropWhile (· ≠ '\n') ≠ [] := by
          rw [hdrop]
          simp
        have := List.head_dropWhile_not (fun c => decide (c ≠ '\n')) hne
        simp only [hdrop, List.head_cons] at this
        simp [this]
      simp only [decide_eq_true_eq, not_not] at hc
      rw [hc]

theorem stripTrailingWhitespace_newline (l : Str) :
    stripTrailingWhitespace (l ++ ['\n']) = stripTrailingWhitespace l :=
  List.rdropWhile_concat_pos _ _ _ (by decide)

theorem stripTrailingWhitespace_idem (l : Str) :
    stripTrailingWhitespace (stripTrailingWhitespace l) = stripTrailingWhitespace l :=
  List.rdropWhile_idempotent _ _

theorem strip_subset (s : Str) : stripTrailingWhitespace s ⊆ s :=
  (List.rdropWhile_prefix isSpace s).subset

theorem newline_not_mem_strip {l : Str} (h : '\n' ∉ l) : '\n' ∉ stripTrailingWhitespace l :=
  fun hmem => h (strip_subset l hmem)

theorem newline_not_mem_readLines (text : Str) :
    ∀ l ∈ readLines text, '\n' ∉ stripTrailingWhitespace l := by
  induction hn : text.length using Nat.strongRecOn generalizing text with
  | ind n ih =>
    intro l hl
    cases hr : readLine text with
    | none =>
      rw [readLines, Scan.unfold_none hr] at hl
      cases hl
    | some p =>
      obtain ⟨first, rest⟩ := p
      rw [readLines, Scan.unfold_some readLine_shrinks hr, List.mem_cons] at hl
      rcases hl with rfl | hl
      · obtain ⟨m, hm, rfl | rfl⟩ := newline_mem_readLine hr
        · exact newline_not_mem_strip hm
        · rw [stripTrailingWhitespace_newline]
          exact newline_not_mem_strip hm
      · have hlt := readLine_shrinks text first rest hr
        exact ih rest.length (by omega) rest rfl l hl

def fileLines (db : Option Str) : List Str := (readLines (db.getD [])).map stripTrailingWhitespace

theorem readItems_eq (db : Option Str) :
    readItems db = setVars ((fileLines db).map fun line => (lineKey line, line)) := by
  rw [readItems, fileLines, List.map_map]
  rfl

theorem distinct_readItems (db : Option Str) : KeyedList.Distinct sameTag (readItems db) :=
  KeyedList.distinct_ofPairs _

theorem mem_readItems {db : Option Str} {item : Str × Str} (h : item ∈ readItems db) :
    item.2 ∈ fileLines db ∧
      (item.1 = lineKey item.2 ∨ sameTag item.1 (lineKey item.2) = true) := by
  rw [readItems_eq] at h
  obtain ⟨p, hp, hval, hkey⟩ := KeyedList.mem_ofPairs h
  obtain ⟨l, hl, rfl⟩ := List.mem_map.mp hp
  simp only at hval hkey
  rw [hval] at hl hkey
  refine ⟨hl, ?_⟩
  rcases hkey with h1 | h1
  · exact Or.inl h1.symm
  · exact Or.inr h1

/-- A line that survives being written and read. -/
def Flat (line : Str) : Prop := '\n' ∉ line ∧ stripTrailingWhitespace line = line

theorem flat_fileLines (db : Option Str) : ∀ line ∈ fileLines db, Flat line := by
  intro line hline
  obtain ⟨l, hl, rfl⟩ := List.mem_map.mp hline
  exact ⟨newline_not_mem_readLines _ l hl, stripTrailingWhitespace_idem l⟩

theorem fileLines_writeItems (items : Vars) (h : ∀ item ∈ items, Flat item.2) :
    fileLines (some (writeItems items)) = items.map Prod.snd := by
  have hwrite : writeItems items = (items.map Prod.snd).flatMap (· ++ ['\n']) := by
    simp [writeItems, List.flatMap_map]
  have hflat : ∀ l ∈ items.map Prod.snd, Flat l := by
    intro l hl
    obtain ⟨item, hi, rfl⟩ := List.mem_map.mp hl
    exact h item hi
  rw [fileLines, Option.getD_some, hwrite, readLines_write _ fun l hl => (hflat l hl).1,
    List.map_map]
  refine (List.map_congr_left fun l hl => ?_).trans (List.map_id _)
  simp only [Function.comp_apply, id_eq]
  rw [stripTrailingWhitespace_newline, (hflat l hl).2]

/-! ## Lists of names -/

def listItems : List SepItem := [.space, .lit ',']

/-- A name that `IsItemInList` reads back from a list: no blank or comma outside an escape. -/
def plainName (name : Str) : Bool := name ≠ [] && pieceFrom (sepAny listItems) name

theorem tokens_nameList (names : List Str) (h : ∀ n ∈ names, plainName n = true) :
    tokens listSeparator .multi (nameList names) = names := by
  induction names with
  | nil => rfl
  | cons n names ih =>
    have hn := h n (by simp)
    simp only [plainName, Bool.and_eq_true] at hn
    have htoken : getToken (n ++ ',' :: nameList names) listSeparator .multi =
        (n, some (nameList names)) :=
      getToken_piece [.space] [] (by decide) (by decide) hn.2 (by decide)
        (by decide) (by decide) (nameList names)
    have hnext : nextToken listSeparator .multi (nameList (n :: names)) =
        some (n, nameList names) := by
      have hcons : nameList (n :: names) = n ++ ',' :: nameList names := by
        simp [nameList]
      rw [hcons, nextToken, htoken]
    rw [tokens, Scan.unfold_some (nextToken_shrinks _ _) hnext]
    exact congrArg _ (ih fun m hm => h m (by simp [hm]))

theorem isItemInList_nameList {names : List Str} (h : ∀ n ∈ names, plainName n = true)
    {g : Str} (hg : g = ['*'] → g ∈ names) : isItemInList g (nameList names) =
      decide (g ∈ names) := by
  unfold isItemInList
  rw [tokens_nameList names h]
  by_cases hstar : g = ['*']
  · rw [if_pos hstar]
    simp [hg hstar]
  · rw [if_neg hstar]
    simp [List.any_eq, eq_comm]

/-! ## Assignments -/

def joinWords : List Str → Str
  | [] => []
  | [w] => w
  | w :: v :: ws => w ++ ' ' :: joinWords (v :: ws)

theorem joinWords_start {c : Char} (hc : isSpace c = false) (w : Str) (ws : List Str) :
    (joinWords ((c :: w) :: ws)).dropWhile isSpace = joinWords ((c :: w) :: ws) := by
  cases ws with
  | nil => exact List.dropWhile_cons_of_neg (by simp [hc])
  | cons v ws => exact List.dropWhile_cons_of_neg (by simp [hc])

theorem pairs_joinWords (nameValueDelim : Str) (ws : List Str)
    (h : ∀ w ∈ ws, w ≠ [] ∧ wordFrom blank none w = true) :
    pairs [' '] nameValueDelim (joinWords ws) =
      ws.map fun w => splitNameValue (dequote w) nameValueDelim := by
  induction ws with
  | nil => rfl
  | cons w ws ih =>
    obtain ⟨hne, hw⟩ := h w (by simp)
    cases ws with
    | nil => exact pairs_lastWord nameValueDelim hw hne
    | cons v ws =>
      rw [joinWords, pairs_word nameValueDelim hw, ih fun u hu => h u (by simp [hu])]
      rfl

def fieldName (name : Str) : Bool :=
  name ≠ [] && name.all (plainChar blank) && name.all (plainChar (sepChar (.lit '=')))

theorem assignment_word {name value : Str} (hname : fieldName name = true)
    (hvalue : wordFrom blank none value = true) :
    name ++ '=' :: value ≠ [] ∧ wordFrom blank none (name ++ '=' :: value) = true := by
  simp only [fieldName, Bool.and_eq_true] at hname
  refine ⟨by simp, ?_⟩
  rw [wordFrom_plain_append hname.1.2]
  exact (wordFrom_plain_append (p := ['=']) (by decide) value).trans hvalue

theorem assignment_pair {name : Str} (hname : fieldName name = true) (value : Str) :
    splitNameValue (dequote (name ++ '=' :: value)) ['='] = (name, readValue value) := by
  simp only [fieldName, Bool.and_eq_true, decide_eq_true_iff] at hname
  rw [dequote_plain hname.1.1 hname.1.2, splitNameValue_assign hname.1.1 hname.2]

theorem pairs_lastAssignment {name value : Str} (hname : fieldName name = true)
    (hvalue : unbroken blank none value = true) :
    pairs [' '] ['='] (name ++ '=' :: value) = [(name, readValue value)] := by
  simp only [fieldName, Bool.and_eq_true, decide_eq_true_iff] at hname
  have hwhole : unbroken blank none (name ++ '=' :: value) = true := by
    rw [unbroken_plain_append hname.1.2]
    exact (unbroken_plain_append (p := ['=']) (by decide) value).trans hvalue
  have hnext := nextPair_lastAssignment hname.1.1 hname.2 hname.1.2 hwhole
  exact Scan.unfold_some (nextPair_shrinks _ _) hnext

theorem pairs_assignments (fields : List (Str × Str)) (last : Str × Str)
    (h : ∀ f ∈ fields, fieldName f.1 = true ∧ wordFrom blank none f.2 = true)
    (hlast : fieldName last.1 = true ∧ unbroken blank none last.2 = true) :
    pairs [' '] ['='] (joinWords ((fields ++ [last]).map fun f => f.1 ++ '=' :: f.2)) =
      (fields ++ [last]).map fun f => (f.1, readValue f.2) := by
  induction fields with
  | nil => exact pairs_lastAssignment hlast.1 hlast.2
  | cons f fields ih =>
    obtain ⟨hname, hvalue⟩ := h f List.mem_cons_self
    obtain ⟨g, more, hmore⟩ := List.exists_cons_of_ne_nil (l := fields ++ [last]) (by simp)
    have hrest := ih fun g hg => h g (List.mem_cons_of_mem f hg)
    rw [hmore] at hrest
    rw [List.cons_append, hmore, List.map_cons, List.map_cons, joinWords,
      pairs_word ['='] (assignment_word hname hvalue).2, assignment_pair hname]
    exact congrArg _ hrest

/-! ## The written line -/

def quote (s : Str) : Str := '\'' :: s ++ ['\'']

def grantFields (grant user group appPath : Str) (size : Nat) (hash : Option Digest) :
    List (Str × Str) :=
  [("grant".toList, quote grant), ("program".toList, quote appPath),
    ("size".toList, decimal size), ("hash".toList, hashText hash)] ++
    (if user = [] then [] else [("user".toList, user)]) ++
    (if group = [] then [] else [("group".toList, group)])

theorem joinWords_fields (n1 n2 n3 n4 n5 n6 grant program size hash user group : Str) :
    (n1 ++ ['=', '\'']) ++ grant ++ ('\'' :: ' ' :: (n2 ++ ['=', '\''])) ++ program ++
        ('\'' :: ' ' :: (n3 ++ ['='])) ++ size ++ (' ' :: (n4 ++ ['='])) ++ hash ++
        (if user = [] then [] else (' ' :: (n5 ++ ['='])) ++ user) ++
        (if group = [] then [] else (' ' :: (n6 ++ ['='])) ++ group) =
      joinWords (([(n1, quote grant), (n2, quote program), (n3, size), (n4, hash)] ++
        (if user = [] then [] else [(n5, user)]) ++
        (if group = [] then [] else [(n6, group)])).map fun f => f.1 ++ '=' :: f.2) := by
  by_cases hu : user = [] <;> by_cases hg : group = [] <;>
    simp [joinWords, quote, hu, hg]

theorem grantLine_eq_joinWords (grant user group appPath : Str) (size : Nat)
    (hash : Option Digest) :
    grantLine grant user group appPath size hash =
      joinWords ((grantFields grant user group appPath size hash).map fun f =>
        f.1 ++ '=' :: f.2) :=
  joinWords_fields "grant".toList "program".toList "size".toList "hash".toList "user".toList
    "group".toList grant appPath (decimal size) (hashText hash) user group

/-- The texts that `AppDBParseEntry` reads back from a line as `AppDBAdd` wrote them. -/
structure Recordable (grant user group appPath : Str) : Prop where
  grant_word : wordFrom blank (some '\'') (grant ++ ['\'']) = true
  appPath_word : wordFrom blank (some '\'') (appPath ++ ['\'']) = true
  user_word : wordFrom blank none user = true
  user_value : stripQuotes user = user
  group_word : wordFrom blank none group = true
  group_value : stripQuotes group = group
  one_line : '\n' ∉ grant ++ user ++ group ++ appPath
  trimmed : stripTrailingWhitespace (user ++ group) = user ++ group

/-- The same for the line alone: its last field runs to the end, so a quote may stay open there. -/
structure ReadsBack (grant user group appPath : Str) : Prop where
  grant_word : wordFrom blank (some '\'') (grant ++ ['\'']) = true
  appPath_word : wordFrom blank (some '\'') (appPath ++ ['\'']) = true
  user_word : group ≠ [] → wordFrom blank none user = true
  user_last : unbroken blank none user = true
  user_value : stripQuotes user = user
  group_last : unbroken blank none group = true
  group_value : stripQuotes group = group
  trimmed : stripTrailingWhitespace (user ++ group) = user ++ group

theorem Recordable.readsBack {grant user group appPath : Str}
    (h : Recordable grant user group appPath) : ReadsBack grant user group appPath where
  grant_word := h.grant_word
  appPath_word := h.appPath_word
  user_word := fun _ => h.user_word
  user_last := unbroken_of_wordFrom h.user_word
  user_value := h.user_value
  group_last := unbroken_of_wordFrom h.group_word
  group_value := h.group_value
  trimmed := h.trimmed

instance (grant user group appPath : Str) : Decidable (Recordable grant user group appPath) :=
  decidable_of_iff
    (wordFrom blank (some '\'') (grant ++ ['\'']) = true ∧
      wordFrom blank (some '\'') (appPath ++ ['\'']) = true ∧
      wordFrom blank none user = true ∧ stripQuotes user = user ∧
      wordFrom blank none group = true ∧ stripQuotes group = group ∧
      '\n' ∉ grant ++ user ++ group ++ appPath ∧
      stripTrailingWhitespace (user ++ group) = user ++ group)
    ⟨fun ⟨h1, h2, h3, h4, h5, h6, h7, h8⟩ => ⟨h1, h2, h3, h4, h5, h6, h7, h8⟩,
      fun ⟨h1, h2, h3, h4, h5, h6, h7, h8⟩ => ⟨h1, h2, h3, h4, h5, h6, h7, h8⟩⟩

theorem stripQuotes_plain {sep : Char → Bool} {s : Str} (h : s.all (plainChar sep) = true)
    (hs : ∀ c ∈ s, isSpace c = false) : stripQuotes s = s := by
  cases s with
  | nil => rfl
  | cons c s =>
    have hc : isSpace c = false := hs c (by simp)
    simp only [List.all_cons, Bool.and_eq_true] at h
    obtain ⟨_, hq, _⟩ := (plainChar_iff sep c).mp h.1
    simp [stripQuotes, hc, hq]

theorem base64Char_plain {c : Char} (h : base64Char c = true) :
    plainChar blank c = true ∧ isSpace c = false := by
  have h' : c ≠ '\\' ∧ c ≠ '"' ∧ c ≠ '\'' ∧ c ≠ ' ' ∧ c ≠ '\t' ∧ c ≠ '\n' ∧ c ≠ '\x0b' ∧
      c ≠ '\x0c' ∧ c ≠ '\r' := by
    refine ⟨?_, ?_, ?_, ?_, ?_, ?_, ?_, ?_, ?_⟩ <;>
      · rintro rfl
        exact absurd h (by decide)
  obtain ⟨h1, h2, h3, h4, h5, h6, h7, h8, h9⟩ := h'
  simp [plainChar, blank, sepChar, isQuote, isSpace, h1, h2, h3, Ne.symm h4, h4, h5, h6, h7, h8, h9]

/-- Hashes and numbers: texts that every reader takes as they stand. -/
def Bare (s : Str) : Prop := ∀ c ∈ s, plainChar blank c = true ∧ isSpace c = false

theorem Bare.word {s : Str} (h : Bare s) : wordFrom blank none s = true :=
  wordFrom_plain (List.all_eq_true.mpr fun c hc => (h c hc).1)

theorem Bare.value {s : Str} (h : Bare s) : readValue s = s := by
  rw [readValue_stripQuotes]
  exact stripQuotes_plain (List.all_eq_true.mpr fun c hc => (h c hc).1) fun c hc => (h c hc).2

theorem bare_hashText (hash : Option Digest) : Bare (hashText hash) := by
  cases hash with
  | none =>
    show Bare "(null)".toList
    unfold Bare
    decide
  | some d => exact fun c hc => base64Char_plain (d.base64 c hc)

theorem bare_decimal (n : Nat) : Bare (decimal n) := by
  intro c hc
  have hd : c.isDigit = true := Nat.isDigit_of_mem_toDigits (b := 10) (by decide) (by decide) hc
  refine base64Char_plain ?_
  simp [base64Char, Char.isAlphanum, hd]

theorem strtoll_decimal {n : Nat} (h : n < 2 ^ 63) : strtoll (decimal n) = n := by
  have hdigit : ∀ c ∈ decimal n, c.isDigit = true := fun c hc =>
    Nat.isDigit_of_mem_toDigits (b := 10) (by decide) (by decide) hc
  have htake : (decimal n).takeWhile Char.isDigit = decimal n :=
    List.takeWhile_eq_self_iff.mpr hdigit
  have hread : leadingNat (decimal n) = n := by
    rw [leadingNat, htake, decimal, Nat.ofDigitChars_ten_toDigits]
  have hbare := bare_decimal n
  unfold strtoll
  cases hs : decimal n with
  | nil =>
    rw [hs] at hread
    simp only [List.dropWhile_nil, hread]
    omega
  | cons c s =>
    have hc : isSpace c = false := (hbare c (by simp [hs])).2
    have hcd : c.isDigit = true := hdigit c (by simp [hs])
    rw [List.dropWhile_cons_of_neg (by simp [hc]), ← hs]
    have hminus : c ≠ '-' := by
      rintro rfl
      exact absurd hcd (by decide)
    have hplus : c ≠ '+' := by
      rintro rfl
      exact absurd hcd (by decide)
    split
    · rename_i t heq
      rw [hs] at heq
      exact absurd (List.cons.inj heq).1 hminus
    · rename_i t heq
      rw [hs] at heq
      exact absurd (List.cons.inj heq).1 hplus
    · rw [hread]
      omega

theorem sizeValue_decimal {n : Nat} (h : n < 2 ^ 63) : sizeValue (decimal n) = n := by
  rw [sizeValue, strtoll_decimal h]
  omega

section SetField

variable (grant : TGrant) (value : Str)

theorem setField_grant : grant.setField "grant".toList value = { grant with type := value } := rfl
theorem setField_user : grant.setField "user".toList value = { grant with user := value } := rfl
theorem setField_group : grant.setField "group".toList value = { grant with group := value } := rfl
theorem setField_program :
    grant.setField "program".toList value = { grant with program := value } := rfl
theorem setField_hash : grant.setField "hash".toList value =
    { grant with hash := some value } := rfl
theorem setField_size :
    grant.setField "size".toList value = { grant with size := sizeValue value } := rfl

end SetField

theorem setFields_grantFields (grant user group appPath : Str) (size : Nat) (hash : Option Digest)
    (f : Str → Str) (hf : f [] = []) :
    TGrant.setFields {} ((grantFields grant user group appPath size hash).map
        fun p => (p.1, f p.2)) =
      { type := f (quote grant), user := f user, group := f group, program := f (quote appPath),
        hash := some (f (hashText hash)), size := sizeValue (f (decimal size)) } := by
  have hfold (g : TGrant) (a b : List (Str × Str)) :
      g.setFields (a ++ b) = (g.setFields a).setFields b := List.foldl_append
  have hhead : TGrant.setFields {} [("grant".toList, f (quote grant)),
      ("program".toList, f (quote appPath)), ("size".toList, f (decimal size)),
      ("hash".toList, f (hashText hash))] =
      { type := f (quote grant), program := f (quote appPath), hash := some (f (hashText hash)),
        size := sizeValue (f (decimal size)) } := rfl
  have huser (g : TGrant) (hg : g.user = []) : g.setFields ((if user = [] then [] else
      [("user".toList, user)]).map fun p => (p.1, f p.2)) = { g with user := f user } := by
    by_cases hu : user = []
    · have hsame : g = { g with user := [] } := by rw [← hg]
      rw [if_pos hu, hu, hf]
      exact hsame
    · rw [if_neg hu]
      exact setField_user g (f user)
  have hgroup (g : TGrant) (hg : g.group = []) : g.setFields ((if group = [] then [] else
      [("group".toList, group)]).map fun p => (p.1, f p.2)) = { g with group := f group } := by
    by_cases hu : group = []
    · have hsame : g = { g with group := [] } := by rw [← hg]
      rw [if_pos hu, hu, hf]
      exact hsame
    · rw [if_neg hu]
      exact setField_group g (f group)
  unfold grantFields
  rw [List.map_append, List.map_append, hfold, hfold]
  refine Eq.trans (congrArg (fun g => TGrant.setFields (TGrant.setFields g _) _) hhead) ?_
  rw [huser _ rfl, hgroup _ rfl]

theorem readValue_quote (s : Str) : readValue (quote s) = s := stripQuotes_quoted s

theorem readValue_eq {s : Str} (h : stripQuotes s = s) : readValue s = s :=
  (readValue_stripQuotes s).trans h

theorem wordFrom_quote_word {s : Str} (h : wordFrom blank (some '\'') (s ++ ['\'']) = true) :
    wordFrom blank none (quote s) = true := (wordFrom_quote (by decide) _).trans h

theorem pairs_grantLine {grant user group appPath : Str} (h : ReadsBack grant user group appPath)
    (size : Nat) (hash : Option Digest) :
    pairs [' '] ['='] (grantLine grant user group appPath size hash) =
      (grantFields grant user group appPath size hash).map fun f => (f.1, readValue f.2) := by
  have hhead : ∀ f ∈ [("grant".toList, quote grant), ("program".toList, quote appPath),
      ("size".toList, decimal size)], fieldName f.1 = true ∧ wordFrom blank none f.2 = true := by
    intro f hf
    simp only [List.mem_cons, List.not_mem_nil, or_false] at hf
    rcases hf with rfl | rfl | rfl
    · exact ⟨rfl, wordFrom_quote_word h.grant_word⟩
    · exact ⟨rfl, wordFrom_quote_word h.appPath_word⟩
    · exact ⟨rfl, (bare_decimal size).word⟩
  have hhash : ∀ f ∈ [("hash".toList, hashText hash)],
      fieldName f.1 = true ∧ wordFrom blank none f.2 = true := by
    intro f hf
    rw [List.mem_singleton.mp hf]
    exact ⟨rfl, (bare_hashText hash).word⟩
  have hfour := List.forall_mem_append.mpr ⟨hhead, hhash⟩
  rw [grantLine_eq_joinWords]
  unfold grantFields
  by_cases hgroup : group = []
  · by_cases huser : user = []
    · rw [if_pos hgroup, if_pos huser, List.append_nil, List.append_nil]
      exact pairs_assignments _ ("hash".toList, hashText hash) hhead
        ⟨rfl, unbroken_of_wordFrom (bare_hashText hash).word⟩
    · rw [if_pos hgroup, if_neg huser, List.append_nil]
      exact pairs_assignments _ ("user".toList, user) hfour ⟨rfl, h.user_last⟩
  · rw [if_neg hgroup]
    refine pairs_assignments _ ("group".toList, group) ?_ ⟨rfl, h.group_last⟩
    refine List.forall_mem_append.mpr ⟨hfour, ?_⟩
    intro f hf
    split at hf
    · cases hf
    · rw [List.mem_singleton.mp hf]
      exact ⟨rfl, h.user_word hgroup⟩

theorem appDBParseEntry_grantLine {grant user group appPath : Str}
    (h : ReadsBack grant user group appPath) {size : Nat} (hsize : size < 2 ^ 63)
    (hash : Option Digest) :
    appDBParseEntry (grantLine grant user group appPath size hash) =
      some { type := grant, user := user, group := group, program := appPath,
             hash := some (hashText hash), size := size } := by
  have hparse : appDBParseEntry (grantLine grant user group appPath size hash) =
      some (TGrant.setFields {}
        (pairs [' '] ['='] (grantLine grant user group appPath size hash))) := rfl
  rw [hparse, pairs_grantLine h, setFields_grantFields _ _ _ _ _ _ readValue rfl, readValue_quote,
    readValue_quote, readValue_eq h.user_value, readValue_eq h.group_value,
    (bare_hashText hash).value, (bare_decimal size).value, sizeValue_decimal hsize]

theorem stripTrailingWhitespace_append {a b : Str} (hb : b ≠ [])
    (h : stripTrailingWhitespace b = b) : stripTrailingWhitespace (a ++ b) = a ++ b := by
  have hlast : ∀ hl : a ++ b ≠ [], ¬ isSpace ((a ++ b).getLast hl) = true := by
    intro hl
    rw [List.getLast_append_of_ne_nil hl hb]
    exact List.rdropWhile_eq_self_iff.mp h hb
  exact List.rdropWhile_eq_self_iff.mpr hlast

theorem stripTrailingWhitespace_right {a b : Str}
    (h : stripTrailingWhitespace (a ++ b) = a ++ b) : stripTrailingWhitespace b = b := by
  refine List.rdropWhile_eq_self_iff.mpr fun hb => ?_
  have hab : a ++ b ≠ [] := by simp [hb]
  have hlast := List.rdropWhile_eq_self_iff.mp h hab
  rwa [List.getLast_append_of_ne_nil hab hb] at hlast

theorem stripTrailingWhitespace_solid {s : Str} (h : ∀ c ∈ s, isSpace c = false) :
    stripTrailingWhitespace s = s := by
  refine List.rdropWhile_eq_self_iff.mpr fun hs => ?_
  simp [h _ (List.getLast_mem hs)]

theorem trimmed_grantLine {user group : Str}
    (h : stripTrailingWhitespace (user ++ group) = user ++ group) (grant appPath : Str)
    (size : Nat) (hash : Option Digest) :
    stripTrailingWhitespace (grantLine grant user group appPath size hash) =
      grantLine grant user group appPath size hash := by
  unfold grantLine
  by_cases hgroup : group = []
  · rw [hgroup, List.append_nil] at h
    rw [if_pos hgroup, List.append_nil]
    by_cases huser : user = []
    · have hsolid : ∀ c ∈ '=' :: hashText hash, isSpace c = false := by
        intro c hc
        rcases List.mem_cons.mp hc with rfl | hc
        · decide
        · exact (bare_hashText hash c hc).2
      have hcut : " hash=".toList ++ hashText hash = " hash".toList ++ '=' :: hashText hash := rfl
      rw [if_pos huser, List.append_nil, List.append_assoc, hcut, ← List.append_assoc]
      exact stripTrailingWhitespace_append (by simp) (stripTrailingWhitespace_solid hsolid)
    · rw [if_neg huser, ← List.append_assoc]
      exact stripTrailingWhitespace_append huser h
  · rw [if_neg hgroup, ← List.append_assoc]
    exact stripTrailingWhitespace_append hgroup (stripTrailingWhitespace_right h)

theorem newline_not_mem_grantLine {grant user group appPath : Str} (size : Nat)
    (hash : Option Digest) : '\n' ∉ grantLine grant user group appPath size hash ↔
      '\n' ∉ grant ++ user ++ group ++ appPath := by
  have hsize : '\n' ∉ decimal size := fun hc => absurd (bare_decimal size _ hc).2 (by decide)
  have hhash : '\n' ∉ hashText hash := fun hc => absurd (bare_hashText hash _ hc).2 (by decide)
  unfold grantLine
  by_cases huser : user = [] <;> by_cases hgroup : group = [] <;>
    simp [huser, hgroup, hsize, hhash] <;> tauto

theorem flat_grantLine {grant user group appPath : Str} (h : Recordable grant user group appPath)
    (size : Nat) (hash : Option Digest) : Flat (grantLine grant user group appPath size hash) :=
  ⟨(newline_not_mem_grantLine size hash).mpr h.one_line, trimmed_grantLine h.trimmed _ _ _ _⟩

end Invocation
