import Invocation.ConfigLayout

/-!
# What the parser makes of a layout

A blank takes the end of its line along, and a comment the end of the line it
stands on. `Layout.Apart` says where that is harmless.
-/

namespace Invocation

set_option autoImplicit false

/-! ## In front of a brace -/

/-- White space in front of a brace. -/
def ConfigState.gapBrace (s : ConfigState) : Str → ConfigState
  | [] => s
  | '\n' :: _ => s.toBrace ['\n']
  | c :: _ => s.blank [c]

theorem ConfigState.gapBrace_blank (s : ConfigState) {c : Char} (h : c ≠ '\n') (w : Str) :
    s.gapBrace (c :: w) = s.blank [c] := by
  simp [ConfigState.gapBrace]

theorem parseFrom_gapBrace (parentTag : Str) (s : ConfigState) {w : Str} (hw : Filler.IsGap w)
    (r : Str) : parseFrom parentTag s (some (w ++ '{' :: r)) =
      parseFrom parentTag (s.gapBrace w) (some ('{' :: r)) := by
  cases w with
  | nil => rfl
  | cons c w =>
    have hrest : (w ++ '{' :: r).dropWhile isSpace = '{' :: r := by
      rw [gap_dropWhile (fun d hd => hw d (List.mem_cons_of_mem _ hd))]
      rfl
    by_cases hline : c = '\n'
    · subst hline
      rw [List.cons_append, parseFrom_next (configStep_lineBrace s hrest)]
      rfl
    · have hblank : c ∈ lineSeps := by
        rcases hw c List.mem_cons_self with rfl | rfl | rfl
        · decide
        · decide
        · exact absurd rfl hline
      rw [List.cons_append, parseFrom_next (configStep_blank s hblank _), hrest,
        s.gapBrace_blank hline]

/-- The state in front of the brace behind a filler. -/
def ConfigState.fillBrace (s : ConfigState) : Str → List (Str × Str) → ConfigState
  | w, [] => s.gapBrace w
  | w, p :: lines => ((s.gap w).comment p.1).fillBrace p.2 lines

theorem parseFrom_fillBrace (parentTag : Str) (s : ConfigState) {w : Str} (hw : Filler.IsGap w)
    {lines : List (Str × Str)} (hlines : ∀ p ∈ lines, '\n' ∉ p.1 ∧ Filler.IsGap p.2) (r : Str) :
    parseFrom parentTag s (some (w ++ (lines.flatMap commentLine ++ '{' :: r))) =
      parseFrom parentTag (s.fillBrace w lines) (some ('{' :: r)) := by
  induction lines generalizing s w with
  | nil => exact parseFrom_gapBrace parentTag s hw r
  | cons p lines ih =>
    obtain ⟨hp, hrest⟩ := List.forall_mem_cons.mp hlines
    have hhash : Solid ((p :: lines).flatMap commentLine ++ '{' :: r) := by
      rintro _ ⟨⟩
      decide
    rw [parseFrom_gap parentTag s hw hhash, List.flatMap_cons, List.append_assoc,
      parseFrom_comment parentTag _ hp.1, ih _ hp.2 hrest]
    rfl

namespace Lead

/-- The end of a line in front of a brace takes the last word into the name. -/
def gapBrace (l : Lead) (word : Str) : Str → Lead
  | [] => l
  | '\n' :: _ => { l with name := l.name ++ " ".toList ++ word, value := [] }
  | c :: _ => l.blank word c

def fillBrace (l : Lead) : Str → Str → List (Str × Str) → Option Lead
  | word, w, [] => some (l.gapBrace word w)
  | word, w, p :: lines => (l.gap word w).bind fun l => l.fillBrace p.1 p.2 lines

/-- What is left over in front of the brace of a block, if nothing is stored between it and the
name of the block. -/
def named (l : Lead) (name : Str) (f : Filler) : Option Lead :=
  { l with value := l.value ++ name }.fillBrace name f.space f.comments

/-- What is left over behind a block. -/
def opened (l : Lead) : Lead := { l with name := [] }

theorem gapBrace_blank (l : Lead) (word : Str) {c : Char} (h : c ≠ '\n') (w : Str) :
    l.gapBrace word (c :: w) = l.blank word c := by
  simp [gapBrace]

theorem opened_idle (l : Lead) : l.opened.Idle := Or.inl rfl

end Lead

section Brace

variable {l l' : Lead} {items : List Node} {s : ConfigState} (h : Between l items s)
include h

theorem Between.append (token : Str) :
    Between { l with value := l.value ++ token } items (s.append token) :=
  ⟨h.name, congrArg (· ++ token) h.value, h.newKey, h.items⟩

theorem Between.gapBrace {word : Str} (hprev : s.prevToken = word) (w : Str) :
    Between (l.gapBrace word w) items (s.gapBrace w) := by
  cases w with
  | nil => exact h
  | cons c w =>
    by_cases hline : c = '\n'
    · subst hline
      refine ⟨?_, rfl, h.newKey, h.items⟩
      show s.name ++ " ".toList ++ s.prevToken = _
      rw [h.name, hprev]
      rfl
    · rw [l.gapBrace_blank word hline, s.gapBrace_blank hline]
      exact h.blank hprev c

theorem Between.fillBrace_read {word w : Str} {lines : List (Str × Str)}
    (hprev : s.prevToken = word)
    (hl : l.fillBrace word w lines = some l') : Between l' items (s.fillBrace w lines) := by
  induction lines generalizing s l word w with
  | nil =>
    obtain rfl := Option.some.inj hl
    exact h.gapBrace hprev w
  | cons p lines ih =>
    obtain ⟨k, hgap, hrest⟩ := Option.bind_eq_some_iff.mp hl
    exact ih ((h.gap_read hprev hgap).comment p.1) rfl hrest

end Brace

theorem ConfigState.gapBrace_items (s : ConfigState) (w : Str) :
    (s.gapBrace w).items = s.items := by
  unfold ConfigState.gapBrace
  split
  · rfl
  · rfl
  · exact blank_items s _

theorem ConfigState.fillBrace_grows (s : ConfigState) (w : Str) (lines : List (Str × Str)) :
    s.items <+: (s.fillBrace w lines).items := by
  induction lines generalizing s w with
  | nil =>
    rw [ConfigState.fillBrace, s.gapBrace_items]
  | cons p lines ih => exact (s.gap_grows w).trans (ih ((s.gap w).comment p.1) p.2)

/-- What stands between a name and its brace stores a node for values, or none. -/
theorem Between.fillBrace_stored {l : Lead} {items : List Node} {s : ConfigState}
    (h : Between l items s) {word w : Str} {lines : List (Str × Str)} (hprev : s.prevToken = word)
    (hl : l.fillBrace word w lines = none) :
    ∃ k : Lead, items ++ [k.node] <+: (s.fillBrace w lines).items := by
  induction lines generalizing s l word w with
  | nil => cases hl
  | cons p lines ih =>
    cases hgap : l.gap word w with
    | none =>
      have hstored := h.gap_stored hgap
      refine ⟨l, ?_⟩
      rw [← hstored]
      exact ((s.gap w).comment p.1).fillBrace_grows p.2 lines
    | some k =>
      have hmore : k.fillBrace p.1 p.2 lines = none := by
        rw [Lead.fillBrace, hgap] at hl
        exact hl
      exact ih ((h.gap_read hprev hgap).comment p.1) rfl hmore

/-! ## Lines that stay apart -/

/-- The parser keeps the lines apart: it looks for a key wherever a rule starts, it has seen an
end of the line behind every rule but the last of a block, it reads the names of the blocks as
they are written, and what it has left over elsewhere is stored neither at the end of a line nor
at a brace. -/
def Layout.Apart : Bool → Lead → Layout Filler → Prop
  | closed, l, .nil => closed = true → l.Clean
  | closed, l, .rule _ _ eol rest => l.key = true ∧
      match eol.settled with
      | none => rest = .nil
      | some lines => ∃ l', Lead.start.comments lines = some l' ∧ rest.Apart closed l'
  | closed, l, .block name eol inside items behind rest =>
    (∃ l', Lead.start.fill [] inside = some l' ∧ items.Apart true l') ∧
      ∃ k, l.named name eol = some k ∧ stripWhitespace k.name = name ∧
        ∃ l', k.opened.comments behind.comments = some l' ∧ rest.Apart closed l'

/-- All items are read; the last rule may have to be stored yet. -/
inductive Finished (closed : Bool) (items : List Node) (s : ConfigState) : Prop
  | between {l : Lead} : (closed = true → l.Clean) → Between l items s → Finished closed items s
  | rule {key value : Str} {init : List Node} : items = init ++ [.value (some key) value] →
    IsName key → IsValue value → Unstored key value init s → Finished closed items s

theorem tagOf_name {name : Str} (h : IsName name) : tagOf name = some name := if_neg h.1

theorem Finished.endLine {items : List Node} {s : ConfigState} (h : Finished true items s)
    (token : Str) : (s.endLine token).items = items := by
  cases h with
  | between hclean h => exact h.endLine_items (hclean rfl) token
  | rule heq hkey hvalue h =>
    rw [heq, ← tagOf_name hkey]
    exact (h.endLine hvalue token).items

theorem strip_blank (c : Str) : stripWhitespace (" ".toList ++ c) = stripWhitespace c := by
  unfold stripWhitespace stripLeadingWhitespace
  rfl

theorem IsName.strip {name : Str} (h : IsName name) : stripWhitespace name = name := by
  have hstrip : stripWhitespace (name ++ []) = name := (IsValue.word h.solid).strip nofun
  rwa [List.append_nil] at hstrip

theorem Between.fill_read {l l' : Lead} {items : List Node} {s : ConfigState}
    (h : Between l items s) {word : Str} (hprev : s.prevToken = word) {f : Filler}
    (hl : l.fill word f = some l') : Between l' items (s.fill f) := by
  obtain ⟨k, hgap, hrest⟩ := Option.bind_eq_some_iff.mp hl
  exact (h.gap_read hprev hgap).comments_read hrest

theorem atSeparator_fill {f : Filler} (hf : f.Valid) (r : Str) : AtSeparator (f.text ++ r) := by
  obtain ⟨space, lines⟩ := f
  cases space with
  | nil =>
    cases lines with
    | nil => exact absurd (hf.line rfl) List.not_mem_nil
    | cons p lines =>
      rintro _ ⟨⟩
      decide
  | cons c w =>
    rintro _ ⟨⟩
    rcases hf.space c List.mem_cons_self with rfl | rfl | rfl <;> decide

theorem solid_name {name : Str} (h : IsName name) (r : Str) : Solid (name ++ r) := by
  obtain ⟨c, t, rfl⟩ := List.exists_cons_of_ne_nil h.1
  rintro _ ⟨⟩
  have hc := h.2 c List.mem_cons_self
  exact ⟨nameChar_space hc, nameChar_special hc (by decide)⟩

theorem solid_layout {α : Type} {fill : α → Str} {L : Layout α} (h : L.Written) {r : Str}
    (hr : Solid r) : Solid (L.text fill ++ r) := by
  cases L with
  | nil => exact hr
  | rule key value eol rest =>
    simp only [Layout.text, List.append_assoc]
    exact solid_name h.1 _
  | block name eol inside items behind rest =>
    simp only [Layout.text, List.append_assoc]
    exact solid_name h.1 _

section Items

variable (parentTag : Str) {s : ConfigState} {base : List Node}

theorem parseFrom_rule {l : Lead} (hs : Between l base s) (hl : l.key = true) {key value : Str}
    (hkey : IsName key) (hvalue : IsValue value) {r : Str} (hr : AtSeparator r) :
    ∃ t, parseFrom parentTag s (some (key ++ ' ' :: (value ++ r))) =
      parseFrom parentTag t (some r) ∧
      Unstored key value base t := by
  have hname : parseFrom parentTag s (some (key ++ ' ' :: (value ++ r))) =
      parseFrom parentTag (s.append key) (some (' ' :: (value ++ r))) := by
    have hat : AtSeparator (' ' :: (value ++ r)) := by
      rintro _ ⟨⟩
      decide
    have hstep := configStep_word s hkey.solid.word hat
    obtain ⟨c, t, rfl⟩ := List.exists_cons_of_ne_nil hkey.1
    exact parseFrom_next hstep
  have hskip : (value ++ r).dropWhile isSpace = value ++ r := by
    obtain ⟨d, hd, hspace⟩ := hvalue.head
    obtain ⟨t, rfl⟩ := List.head?_eq_some_iff.mp hd
    rw [List.cons_append, List.dropWhile_cons_of_neg (by simp [hspace])]
  have htrue : (s.append key).newKey = true := hs.newKey.trans hl
  have hblank : (s.append key).blank [' '] =
      { s with name := key, value := [], newKey := false, prevToken := [] } := by
    rw [ConfigState.blank, htrue, if_pos rfl]
    rfl
  obtain ⟨p, hp⟩ := parseFrom_value hvalue parentTag
    (s := { s with name := key, value := [], newKey := false, prevToken := [] }) rfl hr
  refine ⟨{ s with name := key, value := value, newKey := false, prevToken := p }, ?_,
    [], fun _ hc => absurd hc List.not_mem_nil, rfl, (List.append_nil _).symm, rfl, hs.items⟩
  rw [hname, parseFrom_next (configStep_blank _ (by decide) _), hskip, hblank, hp]
  rfl

theorem parseFrom_block {name : Str} {l : Lead} (hs : Between l base s)
    (hname : stripWhitespace l.name = name) (hne : name ≠ []) {r : Str} {items : List Node}
    {ptr : Option Str} (hsub : parseFrom name {} (some r) = (items, ptr)) :
    ∃ t, parseFrom parentTag s (some ('{' :: r)) = parseFrom parentTag t ptr ∧
      Between l.opened (base ++ [.block (some name) items]) t := by
  have hstep := configStep_open s r
  rw [hs.name, hname] at hstep
  refine ⟨s.opened.addBlock name items, ?_, rfl, hs.value, hs.newKey, ?_⟩
  · have htag : parserObjectTag parentTag s.opened.items name = name := if_pos hne
    rw [parseFrom_enter hstep, hsub, htag]
  · exact congrArg (· ++ _) hs.items

theorem parseFrom_name (s : ConfigState) {name : Str} (hname : IsName name) {eol : Filler}
    (heol : eol.Valid) (r : Str) :
    parseFrom parentTag s (some (name ++ (eol.text ++ '{' :: r))) =
      parseFrom parentTag ((s.append name).fillBrace eol.space eol.comments) (some ('{' :: r)) := by
  have hstep := configStep_word s hname.solid.word (atSeparator_fill heol ('{' :: r))
  have hword : parseFrom parentTag s (some (name ++ (eol.text ++ '{' :: r))) =
      parseFrom parentTag (s.append name) (some (eol.text ++ '{' :: r)) := by
    obtain ⟨c, t, rfl⟩ := List.exists_cons_of_ne_nil hname.1
    exact parseFrom_next hstep
  rw [hword, Filler.text, List.append_assoc,
    parseFrom_fillBrace parentTag _ heol.space heol.comments]

def blockText (inside : Filler) (items : Layout Filler) (behind : Filler) (r : Str) : Str :=
  inside.text ++ (items.text Filler.text ++ '}' :: (behind.text ++ r))

theorem text_block (name : Str) (eol inside : Filler) (items : Layout Filler) (behind : Filler)
    (rest : Layout Filler) (r : Str) :
    (Layout.block name eol inside items behind rest).text Filler.text ++ r =
      name ++ (eol.text ++
        '{' :: blockText inside items behind (rest.text Filler.text ++ r)) := by
  simp [Layout.text, blockText]

/-- The call for a block ends behind its brace, in front of the comments that follow. -/
theorem parseFrom_inside {name : Str} {inside behind : Filler} (hinside : inside.Valid)
    (hbehind : behind.Valid) {items : Layout Filler} (hwritten : items.Written) {r : Str}
    (hr : Solid r) {t : ConfigState}
    (ht : parseFrom name (({} : ConfigState).fill inside)
      (some (items.text Filler.text ++ '}' :: (behind.text ++ r))) =
        parseFrom name t (some ('}' :: (behind.text ++ r)))) :
    parseFrom name {} (some (blockText inside items behind r)) =
      ((t.endLine ['}']).items, some (behind.comments.flatMap commentLine ++ r)) := by
  have hclose : Solid ('}' :: (behind.text ++ r)) := by
    rintro _ ⟨⟩
    decide
  have hskip : (behind.text ++ r).dropWhile isSpace =
      behind.comments.flatMap commentLine ++ r := by
    rw [Filler.text, List.append_assoc, gap_dropWhile hbehind.space,
      (solid_comments hr).dropWhile]
  have hnobrace : ((behind.text ++ r).dropWhile isSpace).head? ≠ some '{' := by
    rw [hskip]
    exact fun h => (solid_comments hr _ h).2 rfl
  rw [blockText, parseFrom_fill name {} hinside (solid_layout hwritten hclose), ht,
    parseFrom_leave (configStep_close t hnobrace), hskip]

/-- A layout whose lines stay apart is read as it is meant. -/
theorem parseFrom_layout {L : Layout Filler} (hwritten : L.Written) (hvalid : L.All Filler.Valid)
    {closed : Bool} {l : Lead} (hapart : L.Apart closed l) (hs : Between l base s) {r : Str}
    (hr : Solid r) :
    ∃ t, parseFrom parentTag s (some (L.text Filler.text ++ r)) = parseFrom parentTag t (some r) ∧
      Finished closed (base ++ L.nodes) t ∧ (L.Sections → t.items = base ++ L.nodes) := by
  induction L generalizing parentTag s base closed l r with
  | nil =>
    rw [Layout.nodes, List.append_nil]
    exact ⟨s, rfl, .between hapart hs, fun _ => hs.items⟩
  | rule name value eol rest ih =>
    obtain ⟨hname, hvalue, hrest⟩ := hwritten
    obtain ⟨hkey, hsettled⟩ := hapart
    have htext : (Layout.rule name value eol rest).text Filler.text ++ r =
        name ++ ' ' :: (value ++ (eol.text ++ (rest.text Filler.text ++ r))) := by
      simp [Layout.text]
    obtain ⟨t, ht, hunstored⟩ := parseFrom_rule parentTag hs hkey hname hvalue
      (atSeparator_fill hvalid.1 (rest.text Filler.text ++ r))
    have hfill := hunstored.fill hvalue hvalid.1
    rw [htext, ht, parseFrom_fill parentTag t hvalid.1 (solid_layout hrest hr)]
    cases hcase : eol.settled with
    | some lines =>
      rw [hcase] at hfill hsettled
      obtain ⟨u, hu, hlines⟩ := hfill
      obtain ⟨l', hread, hapart⟩ := hsettled
      rw [tagOf_name hname] at hu
      obtain ⟨v, hv, hfinished, _⟩ := ih parentTag hrest hvalid.2 hapart (hu.comments_read hread) hr
      rw [List.append_assoc] at hfinished
      rw [hlines]
      exact ⟨v, hv, hfinished, fun h => h.elim⟩
    | none =>
      rw [hcase] at hfill hsettled
      obtain rfl : rest = .nil := hsettled
      exact ⟨_, rfl, .rule rfl hname hvalue hfill, fun h => h.elim⟩
  | block name eol inside items behind rest ihitems ih =>
    obtain ⟨hname, hitems, hrest⟩ := hwritten
    obtain ⟨heol, hinside, hvitems, hbehind, hvrest⟩ := hvalid
    obtain ⟨⟨first, hfirst, hapartItems⟩, k, hread, hsame, l', hcomments, hapartRest⟩ := hapart
    have hrest' : Solid (rest.text Filler.text ++ r) := solid_layout hrest hr
    have hclose : Solid ('}' :: (behind.text ++ (rest.text Filler.text ++ r))) := by
      rintro _ ⟨⟩
      decide
    obtain ⟨v, hv, hitemsFinished, _⟩ := ihitems name hitems hvitems hapartItems
      (between_start.fill_read rfl hfirst) hclose
    have hsub := parseFrom_inside hinside hbehind hitems hrest' hv
    rw [hitemsFinished.endLine, List.nil_append] at hsub
    have hbetween := (hs.append name).fillBrace_read rfl hread
    obtain ⟨t, ht, hblock⟩ := parseFrom_block parentTag hbetween hsame hname.1 hsub
    obtain ⟨u, hu, hfinished, hsections⟩ :=
      ih parentTag hrest hvrest hapartRest (hblock.comments_read hcomments) hr
    rw [List.append_assoc] at hfinished hsections
    refine ⟨u, ?_, hfinished, hsections⟩
    rw [text_block, parseFrom_name parentTag s hname heol, ht,
      parseFrom_comments parentTag t hbehind.comments hrest', hu]

end Items

/-! ## Documents -/

theorem parserParseDocument_eq {doc : Str}
    (h : ∀ c, doc.head? = some c → isSpace c = false ∧ c ≠ '{' ∧ c ≠ '[') :
    parserParseDocument doc = (parseFrom [] {} (some doc)).1 := by
  cases doc with
  | nil => rfl
  | cons c doc =>
    obtain ⟨hspace, hbrace, hbracket⟩ := h c rfl
    have hskip : (c :: doc).dropWhile isSpace = c :: doc :=
      List.dropWhile_cons_of_neg (by simp [hspace])
    unfold parserParseDocument
    simp only [hskip, List.head?_cons, Option.some.injEq, hbrace, hbracket, if_false]
    rfl

theorem sections_head {α : Type} {fill : α → Str} {L : Layout α} (hwritten : L.Written) :
    ∀ c, (L.text fill).head? = some c → isSpace c = false ∧ c ≠ '{' ∧ c ≠ '[' := by
  have hname {name : Str} (h : IsName name) (r : Str) :
      ∀ c, (name ++ r).head? = some c → isSpace c = false ∧ c ≠ '{' ∧ c ≠ '[' := by
    obtain ⟨d, t, rfl⟩ := List.exists_cons_of_ne_nil h.1
    rintro _ ⟨⟩
    have hd := h.2 d List.mem_cons_self
    exact ⟨nameChar_space hd, nameChar_special hd (by decide), nameChar_special hd (by decide)⟩
  cases L with
  | nil => exact nofun
  | rule key value eol rest =>
    simp only [Layout.text, List.append_assoc]
    exact hname hwritten.1 _
  | block name eol inside items behind rest =>
    simp only [Layout.text, List.append_assoc]
    exact hname hwritten.1 _

theorem Lead.start_fill_plain : Lead.start.fill [] Filler.plain = some .start := rfl

theorem Lead.start_named_plain (name : Str) : Lead.start.named name Filler.plain =
    some { name := " ".toList ++ name, value := [], key := true } := rfl

theorem apart_plain {α : Type} {L : Layout α} (hwritten : L.Written) (closed : Bool) :
    (L.map fun _ => Filler.plain).Apart closed .start := by
  induction L generalizing closed with
  | nil => exact fun _ => Or.inl rfl
  | rule key value eol rest ih => exact ⟨rfl, .start, rfl, ih hwritten.2.2 closed⟩
  | block name eol inside items behind rest ihitems ih =>
    obtain ⟨hname, hitems, hrest⟩ := hwritten
    refine ⟨⟨.start, Lead.start_fill_plain, ihitems hitems true⟩, _,
      Lead.start_named_plain name, ?_,
      .start, rfl, ih hrest closed⟩
    rw [strip_blank]
    exact hname.strip

theorem parserParseDocument_plain {α : Type} {L : Layout α} (hwritten : L.Written)
    (hsections : L.Sections) :
    parserParseDocument (L.text fun _ => "\n".toList) = L.nodes := by
  have hvalid : (L.map fun _ => Filler.plain).All Filler.Valid :=
    Layout.all_map (fun _ => Filler.plain_valid) L
  have htext : L.text (fun _ => "\n".toList) = (L.map fun _ => Filler.plain).text Filler.text := by
    rw [Layout.text_map]
    rfl
  obtain ⟨t, ht, _, hitems⟩ := parseFrom_layout [] (Layout.written_map _ hwritten) hvalid
    (apart_plain hwritten false) between_start (r := []) nofun
  rw [List.append_nil, ← htext] at ht
  rw [parserParseDocument_eq (sections_head hwritten), ht, parseFrom_nil,
    hitems (Layout.sections_map _ hsections), Layout.nodes_map, List.nil_append]

/-! ## The documented layout -/

/-- A word without characters that mean something to the parser. -/
def BareWord (w : Str) : Prop :=
  w ≠ [] ∧ ∀ c ∈ w, plainChar configSep c = true ∧ isSpace c = false

def quotedText (q : Char) : Str → Bool
  | [] => true
  | c :: s =>
    if c = q then false
    else if c = '\\' then
      match s with
      | [] => false
      | _ :: t => quotedText q t
    else quotedText q s

def QuotedWord (w : Str) : Prop :=
  ∃ q body, isQuote q = true ∧ quotedText q body = true ∧ w = q :: (body ++ [q])

def WordList (v : Str) : Prop :=
  ∃ words : List Str, words ≠ [] ∧ (∀ w ∈ words, BareWord w ∨ QuotedWord w) ∧
    v = [' '].intercalate words

theorem BareWord.solid {w : Str} (h : BareWord w) : SolidWord w where
  word := by
    refine ⟨h.1, wordFrom_plain (List.all_eq_true.mpr ?_)⟩
    intro c hc
    exact (h.2 c hc).1
  head := by
    intro c hc
    exact (h.2 c (List.mem_of_head? hc)).2
  last := by
    intro c hc
    exact (h.2 c (List.mem_of_getLast? hc)).2

theorem wordFrom_quoted {q : Char} {body : Str} (h : quotedText q body = true) :
    wordFrom configSep (some q) (body ++ [q]) = true := by
  fun_induction quotedText q body with
  | case1 => simp [wordFrom]
  | case2 => cases h
  | case3 hne => cases h
  | case4 d t hne ih =>
    have hrest := ih h
    rw [List.cons_append, List.cons_append, wordFrom.eq_def]
    simp only [if_neg hne, if_true]
    exact hrest
  | case5 c s h1 h2 ih =>
    have hrest := ih h
    rw [List.cons_append, wordFrom.eq_def]
    simp only [if_neg h1, if_neg h2]
    exact hrest

theorem QuotedWord.solid {w : Str} (h : QuotedWord w) : SolidWord w := by
  obtain ⟨q, body, hq, hbody, rfl⟩ := h
  have hspace : isSpace q = false := by
    obtain rfl | rfl : q = '"' ∨ q = '\'' := by simpa [isQuote] using hq
    · rfl
    · rfl
  have hne : q ≠ '\\' := by
    rintro rfl
    exact absurd hq (by decide)
  refine ⟨⟨by simp, ?_⟩, ?_, ?_⟩
  · rw [wordFrom.eq_def]
    simp only [if_neg hne, hq, if_true]
    exact wordFrom_quoted hbody
  · rintro _ ⟨⟩
    exact hspace
  · intro c hc
    rw [← List.cons_append, List.getLast?_concat] at hc
    cases hc
    exact hspace

theorem WordList.isValue {v : Str} (h : WordList v) : IsValue v := by
  obtain ⟨words, hne, hwords, rfl⟩ := h
  have hsolid {w : Str} (hw : BareWord w ∨ QuotedWord w) : SolidWord w :=
    hw.elim BareWord.solid QuotedWord.solid
  induction words with
  | nil => exact absurd rfl hne
  | cons w words ih =>
    obtain ⟨hw, hrest⟩ := List.forall_mem_cons.mp hwords
    cases words with
    | nil =>
      have hone : [' '].intercalate [w] = w := by simp [List.intercalate]
      rw [hone]
      exact .word (hsolid hw)
    | cons u us =>
      have hmore : [' '].intercalate (w :: u :: us) = w ++ ' ' :: [' '].intercalate (u :: us) := by
        simp [List.intercalate]
      rw [hmore]
      exact .between (hsolid hw) (by decide) (ih (List.cons_ne_nil u us) hrest)

def Layout.Documented {α : Type} : Layout α → Prop
  | .nil => True
  | .rule key value _ rest => IsName key ∧ WordList value ∧ rest.Documented
  | .block name _ _ items _ rest => IsName name ∧ items.Documented ∧ rest.Documented

theorem Layout.Documented.written {α : Type} {L : Layout α} (h : L.Documented) : L.Written := by
  induction L with
  | nil => trivial
  | rule key value eol rest ih => exact ⟨h.1, h.2.1.isValue, ih h.2.2⟩
  | block name eol inside items behind rest ihitems ih =>
    exact ⟨h.1, ihitems h.2.1, ih h.2.2⟩

/-- A configuration is read as it is written: the sections in order, with their rules and blocks
in order and the values of the rules. -/
theorem loadConfig_documented (config : List Node) (L : Layout Unit) (hsections : L.Sections)
    (hdocumented : L.Documented) :
    loadConfig config (some (L.text fun _ => "\n".toList)) = L.nodes :=
  parserParseDocument_plain hdocumented.written hsections

def convoSection : Layout Unit :=
  .block "test".toList () ()
    (.rule "program".toList "invoke".toList ()
      (.rule "expect".toList "\"Type # \x7b phrase\" 'hello'".toList ()
        (.block "Convo".toList () () (.rule "end".toList "x y".toList () .nil) () .nil)))
    () .nil

theorem loadConfig_documented_convo : loadConfig [] (some
    ("test\n\x7b\nprogram invoke\nexpect \"Type # \x7b phrase\" 'hello'\n" ++
      "Convo\n\x7b\nend x y\n\x7d\n\x7d\n").toList) =
    [.block (some "test".toList) [.value (some "program".toList) "invoke".toList,
      .value (some "expect".toList) "\"Type # \x7b phrase\" 'hello'".toList,
      .block (some "Convo".toList) [.value (some "end".toList) "x y".toList]]] := by
  have hname :
      ∀ w ∈ ["test".toList, "program".toList, "expect".toList, "Convo".toList, "end".toList],
      IsName w := by
    simp only [IsName]
    decide +kernel
  have hplain : ∀ w ∈ ["invoke".toList, "x".toList, "y".toList], BareWord w := by
    simp only [BareWord]
    decide +kernel
  have hquoted : ∀ w ∈ ["\"Type # \x7b phrase\"".toList, "'hello'".toList], QuotedWord w := by
    intro w hw
    simp only [List.mem_cons, List.not_mem_nil, or_false] at hw
    rcases hw with rfl | rfl
    · exact ⟨'"', "Type # \x7b phrase".toList, by decide, by decide +kernel, rfl⟩
    · exact ⟨'\'', "hello".toList, by decide, by decide +kernel, rfl⟩
  refine loadConfig_documented [] convoSection trivial
    ⟨hname _ (by decide), ⟨hname _ (by decide), ?_,
    hname _ (by decide), ?_, hname _ (by decide), ⟨hname _ (by decide), ?_, trivial⟩,
    trivial⟩, trivial⟩
  · refine ⟨["invoke".toList], by simp, ?_, rfl⟩
    intro w hw
    exact Or.inl (hplain w (by simp_all))
  · refine ⟨["\"Type # \x7b phrase\"".toList, "'hello'".toList], by simp, ?_, rfl⟩
    intro w hw
    exact Or.inr (hquoted w hw)
  · refine ⟨["x".toList, "y".toList], by simp, ?_, rfl⟩
    intro w hw
    exact Or.inl (hplain w (List.mem_cons_of_mem _ hw))

end Invocation
