import Invocation.ConfigParser

/-!
# Configurations as they are written

Sections of rules and blocks, one item a line, with white space and comments
between the lines. The parser reads a name when it meets a separator and stores
a value when it meets the end of a line; the states between two items say what
is left over.
-/

namespace Invocation

set_option autoImplicit false

/-! ## Texts -/

def nameChar (c : Char) : Bool := c.isAlphanum || c ∈ ['-', '_', '/']

def IsName (w : Str) : Prop := w ≠ [] ∧ ∀ c ∈ w, nameChar c = true

/-- A word that no white space starts or ends. -/
structure SolidWord (w : Str) : Prop where
  word : ConfigWord w
  head : ∀ c, w.head? = some c → isSpace c = false
  last : ∀ c, w.getLast? = some c → isSpace c = false

/-- Words with one separator between them, and marks that stand next to them. -/
inductive IsValue : Str → Prop
  | word {w : Str} : SolidWord w → IsValue w
  | between {w v : Str} {c : Char} : SolidWord w → c ∈ lineSeps → IsValue v → IsValue (w ++ c :: v)
  | mark {v : Str} {c : Char} : c ∈ [':', '='] → IsValue v → IsValue (c :: v)

/-- White space, and comments with white space behind their lines. -/
structure Filler where
  space : Str
  comments : List (Str × Str)

def commentLine (p : Str × Str) : Str := '#' :: p.1 ++ '\n' :: p.2

namespace Filler

def text (f : Filler) : Str := f.space ++ f.comments.flatMap commentLine

def plain : Filler := { space := ['\n'], comments := [] }

def IsGap (w : Str) : Prop := ∀ c ∈ w, c = ' ' ∨ c = '\t' ∨ c = '\n'

/-- What may stand behind a line: blanks and a comment at its end, then empty lines and comments
on lines of their own. A line ends in it. -/
structure Valid (f : Filler) : Prop where
  space : IsGap f.space
  comments : ∀ p ∈ f.comments, '\n' ∉ p.1 ∧ IsGap p.2
  line : f.comments = [] → '\n' ∈ f.space

theorem plain_valid : plain.Valid where
  space := by
    intro c hc
    exact Or.inr (Or.inr (List.mem_singleton.mp hc))
  comments := nofun
  line := fun _ => List.mem_singleton_self _

end Filler

/-- The items of a list, with what fills the lines between them. -/
inductive Layout (α : Type)
  | nil
  | rule (key value : Str) (eol : α) (rest : Layout α)
  | block (name : Str) (eol inside : α) (items : Layout α) (behind : α) (rest : Layout α)

namespace Layout

variable {α β : Type}

def text (fill : α → Str) : Layout α → Str
  | nil => []
  | rule key value eol rest => key ++ ' ' :: value ++ fill eol ++ rest.text fill
  | block name eol inside items behind rest =>
    name ++ fill eol ++ '{' :: fill inside ++ items.text fill ++ '}' :: fill behind ++
      rest.text fill

def nodes : Layout α → List Node
  | nil => []
  | rule key value _ rest => .value (some key) value :: rest.nodes
  | block name _ _ items _ rest => .block (some name) items.nodes :: rest.nodes

def Written : Layout α → Prop
  | nil => True
  | rule key value _ rest => IsName key ∧ IsValue value ∧ rest.Written
  | block name _ _ items _ rest => IsName name ∧ items.Written ∧ rest.Written

def All (P : α → Prop) : Layout α → Prop
  | nil => True
  | rule _ _ eol rest => P eol ∧ rest.All P
  | block _ eol inside items behind rest =>
    P eol ∧ P inside ∧ items.All P ∧ P behind ∧ rest.All P

def Sections : Layout α → Prop
  | nil => True
  | rule _ _ _ _ => False
  | block _ _ _ _ _ rest => rest.Sections

def map (f : α → β) : Layout α → Layout β
  | nil => nil
  | rule key value eol rest => rule key value (f eol) (rest.map f)
  | block name eol inside items behind rest =>
    block name (f eol) (f inside) (items.map f) (f behind) (rest.map f)

theorem text_map (f : α → β) (fill : β → Str) (L : Layout α) :
    (L.map f).text fill = L.text (fill ∘ f) := by
  induction L with
  | nil => rfl
  | rule key value eol rest ih => simp only [map, text, ih, Function.comp]
  | block name eol inside items behind rest ihitems ih =>
    simp only [map, text, ihitems, ih, Function.comp]

theorem nodes_map (f : α → β) (L : Layout α) : (L.map f).nodes = L.nodes := by
  induction L with
  | nil => rfl
  | rule key value eol rest ih => simp only [map, nodes, ih]
  | block name eol inside items behind rest ihitems ih => simp only [map, nodes, ihitems, ih]

theorem written_map (f : α → β) {L : Layout α} (h : L.Written) : (L.map f).Written := by
  induction L with
  | nil => trivial
  | rule key value eol rest ih => exact ⟨h.1, h.2.1, ih h.2.2⟩
  | block name eol inside items behind rest ihitems ih =>
    exact ⟨h.1, ihitems h.2.1, ih h.2.2⟩

theorem sections_map (f : α → β) {L : Layout α} (h : L.Sections) : (L.map f).Sections := by
  induction L with
  | nil => trivial
  | rule key value eol rest ih => exact h.elim
  | block name eol inside items behind rest ihitems ih => exact ih h

theorem all_map {P : β → Prop} {f : α → β} (hP : ∀ a, P (f a)) (L : Layout α) :
    (L.map f).All P := by
  induction L with
  | nil => trivial
  | rule key value eol rest ih => exact ⟨hP _, ih⟩
  | block name eol inside items behind rest ihitems ih =>
    exact ⟨hP _, hP _, ihitems, hP _, ih⟩

end Layout

/-! ## Names and values -/

def specialChars : List Char := configChars ++ ['\\', '"', '\'', '[', '\x0b', '\x0c']

theorem nameChar_special {c d : Char} (h : nameChar c = true) (hd : d ∈ specialChars) : c ≠ d := by
  have hother : ∀ d ∈ specialChars, nameChar d = false := by decide
  rintro rfl
  rw [hother c hd] at h
  cases h

theorem nameChar_plain {c : Char} (h : nameChar c = true) : plainChar configSep c = true := by
  rw [plainChar_iff]
  refine ⟨nameChar_special h (by decide), ?_, ?_⟩
  · have h1 := nameChar_special (d := '"') h (by decide)
    have h2 := nameChar_special (d := '\'') h (by decide)
    simp [isQuote, h1, h2]
  · rw [Bool.eq_false_iff]
    intro hsep
    exact nameChar_special h (List.mem_append_left _ ((configSep_iff c).mp hsep)) rfl

theorem nameChar_space {c : Char} (h : nameChar c = true) : isSpace c = false :=
  not_space_of_test (by decide) h

theorem IsName.solid {w : Str} (h : IsName w) : SolidWord w where
  word := by
    refine ⟨h.1, wordFrom_plain (List.all_eq_true.mpr ?_)⟩
    intro c hc
    exact nameChar_plain (h.2 c hc)
  head := by
    intro c hc
    exact nameChar_space (h.2 c (List.mem_of_head? hc))
  last := by
    intro c hc
    exact nameChar_space (h.2 c (List.mem_of_getLast? hc))

theorem IsName.not_mem {w : Str} (h : IsName w) {d : Char} (hd : d ∈ specialChars) : d ∉ w :=
  fun hmem => nameChar_special (h.2 d hmem) hd rfl

/-! ## Stripping -/

theorem stripWhitespace_eq {s : Str} (hhead : ∀ c, s.head? = some c → isSpace c = false)
    (hlast : ∀ c, s.getLast? = some c → isSpace c = false) {before behind : Str}
    (hbefore : ∀ c ∈ before, isSpace c = true) (hbehind : ∀ c ∈ behind, isSpace c = true) :
    stripWhitespace (before ++ s ++ behind) = s := by
  unfold stripWhitespace stripTrailingWhitespace stripLeadingWhitespace List.rdropWhile
  cases s with
  | nil =>
    have hall : ∀ c ∈ before ++ [] ++ behind, isSpace c = true := by
      intro c hc
      rcases List.mem_append.mp hc with hc | hc
      · exact hbefore c (by simpa using hc)
      · exact hbehind c hc
    rw [List.dropWhile_eq_nil_iff.mpr hall]
    rfl
  | cons c t =>
    have hc : isSpace c = false := hhead c rfl
    have hbehind' : ∀ c ∈ behind.reverse, isSpace c = true := by
      intro c hc
      exact hbehind c (List.mem_reverse.mp hc)
    have hlead : (before ++ c :: t ++ behind).dropWhile isSpace = c :: t ++ behind := by
      rw [List.append_assoc, List.dropWhile_append_of_pos hbefore, List.cons_append,
        List.dropWhile_cons_of_neg (by simp [hc])]
    rw [hlead, List.reverse_append, List.dropWhile_append_of_pos hbehind']
    have hlast' : (c :: t).reverse.dropWhile isSpace = (c :: t).reverse := by
      cases hrev : (c :: t).reverse with
      | nil => rfl
      | cons d u =>
        have hd : isSpace d = false := by
          apply hlast
          rw [← List.head?_reverse, hrev]
          rfl
        rw [List.dropWhile_cons_of_neg (by simp [hd])]
    rw [hlast', List.reverse_reverse]

theorem IsValue.head {v : Str} (h : IsValue v) : ∃ c, v.head? = some c ∧ isSpace c = false := by
  have hword {w : Str} (hw : SolidWord w) : ∃ c, w.head? = some c ∧ isSpace c = false := by
    obtain ⟨c, t, rfl, _⟩ := configWord_head hw.word
    exact ⟨c, rfl, hw.head c rfl⟩
  cases h with
  | word hw => exact hword hw
  | between hw _ _ =>
    obtain ⟨c, hc, hspace⟩ := hword hw
    exact ⟨c, by rw [List.head?_append, hc]; rfl, hspace⟩
  | mark hc _ =>
    refine ⟨_, rfl, ?_⟩
    have hmark : ∀ d ∈ [':', '='], isSpace d = false := by decide
    exact hmark _ hc

theorem IsValue.last {v : Str} (h : IsValue v) : ∀ c, v.getLast? = some c → isSpace c = false := by
  induction h with
  | word hw => exact hw.last
  | between hw _ hv ih =>
    intro c hc
    obtain ⟨d, hd, _⟩ := hv.head
    obtain ⟨t, rfl⟩ : ∃ t, _ = d :: t := List.head?_eq_some_iff.mp hd
    apply ih
    rw [← hc]
    simp [List.getLast?_append, List.getLast?_cons]
  | mark _ hv ih =>
    intro c hc
    obtain ⟨d, hd, _⟩ := hv.head
    obtain ⟨t, rfl⟩ : ∃ t, _ = d :: t := List.head?_eq_some_iff.mp hd
    apply ih
    rw [← hc]
    simp [List.getLast?_cons]

/-! ## Reading a value -/

theorem ConfigState.blank_value {s : ConfigState} (h : s.newKey = false) (token : Str) :
    s.blank token = s.append token := by
  simp [ConfigState.blank, ConfigState.append, h]

theorem parseFrom_value {v : Str} (h : IsValue v) (parentTag : Str) {s : ConfigState}
    (hkey : s.newKey = false) {r : Str} (hr : AtSeparator r) :
    ∃ p, parseFrom parentTag s (some (v ++ r)) =
      parseFrom parentTag { s with value := s.value ++ v, prevToken := p } (some r) := by
  have hword {w r : Str} (hw : SolidWord w) (s : ConfigState) (hr : AtSeparator r) :
      parseFrom parentTag s (some (w ++ r)) = parseFrom parentTag (s.append w) (some r) := by
    obtain ⟨c, t, rfl, _⟩ := configWord_head hw.word
    exact parseFrom_next (configStep_word s hw.word hr)
  have hsep {s : ConfigState} {c : Char} {v r : Str} (hkey : s.newKey = false) (hc : c ∈ lineSeps)
      (hv : IsValue v) : parseFrom parentTag s (some (c :: (v ++ r))) =
        parseFrom parentTag (s.append [c]) (some (v ++ r)) := by
    have hskip : (v ++ r).dropWhile isSpace = v ++ r := by
      obtain ⟨d, hd, hspace⟩ := hv.head
      obtain ⟨t, rfl⟩ := List.head?_eq_some_iff.mp hd
      rw [List.cons_append, List.dropWhile_cons_of_neg (by simp [hspace])]
    rw [parseFrom_next (configStep_blank s hc (v ++ r)), hskip, ConfigState.blank_value hkey]
  induction h generalizing s with
  | word hw => exact ⟨_, hword hw s hr⟩
  | @between w v c hw hc hv ih =>
    have hat : AtSeparator (c :: (v ++ r)) := by
      rintro _ ⟨⟩
      have hmem : ∀ d ∈ lineSeps, d ∈ configChars := by decide
      exact hmem c hc
    obtain ⟨p, hp⟩ := @ih ((s.append w).append [c]) hkey
    refine ⟨p, ?_⟩
    have hassoc : w ++ c :: v ++ r = w ++ c :: (v ++ r) := by simp
    rw [hassoc, hword hw s hat, hsep (s := s.append w) hkey hc hv, hp]
    simp [ConfigState.append]
  | @mark v c hc hv ih =>
    have hmem : ∀ d ∈ [':', '='], d ∈ lineSeps := by decide
    obtain ⟨p, hp⟩ := @ih (s.append [c]) hkey
    refine ⟨p, ?_⟩
    rw [List.cons_append, hsep hkey (hmem c hc) hv, hp]
    simp [ConfigState.append]

/-! ## Reading a filler -/

namespace ConfigState

/-- White space in front of a token that is no brace. -/
def gap (s : ConfigState) : Str → ConfigState
  | [] => s
  | '\n' :: _ => s.endLine ['\n']
  | c :: _ => s.blank [c]

def comment (s : ConfigState) (text : Str) : ConfigState := { s with prevToken := text }

def comments (s : ConfigState) (lines : List (Str × Str)) : ConfigState :=
  lines.foldl (fun s p => (s.comment p.1).gap p.2) s

def fill (s : ConfigState) (f : Filler) : ConfigState := (s.gap f.space).comments f.comments

end ConfigState

theorem ConfigState.gap_blank (s : ConfigState) {c : Char} (h : c ≠ '\n') (w : Str) :
    s.gap (c :: w) = s.blank [c] := by
  simp [ConfigState.gap]

/-- A token stands at the pointer, or nothing; it is no brace. -/
def Solid (r : Str) : Prop := ∀ c, r.head? = some c → isSpace c = false ∧ c ≠ '{'

theorem Solid.dropWhile {r : Str} (h : Solid r) : r.dropWhile isSpace = r := by
  cases r with
  | nil => rfl
  | cons c t => rw [List.dropWhile_cons_of_neg (by simp [(h c rfl).1])]

theorem gap_dropWhile {w : Str} (hw : Filler.IsGap w) (r : Str) :
    (w ++ r).dropWhile isSpace = r.dropWhile isSpace := by
  apply List.dropWhile_append_of_pos
  intro c hc
  rcases hw c hc with rfl | rfl | rfl <;> rfl

theorem solid_comments {lines : List (Str × Str)} {r : Str} (hr : Solid r) :
    Solid (lines.flatMap commentLine ++ r) := by
  cases lines with
  | nil => exact hr
  | cons p lines =>
    rintro _ ⟨⟩
    decide

section Filler

variable (parentTag : Str) (s : ConfigState)

theorem parseFrom_gap {w r : Str} (hw : Filler.IsGap w) (hr : Solid r) :
    parseFrom parentTag s (some (w ++ r)) = parseFrom parentTag (s.gap w) (some r) := by
  cases w with
  | nil => rfl
  | cons c w =>
    have hrest : (w ++ r).dropWhile isSpace = r := by
      rw [gap_dropWhile (fun d hd => hw d (List.mem_cons_of_mem _ hd)), hr.dropWhile]
    by_cases hline : c = '\n'
    · subst hline
      have hbrace : ((w ++ r).dropWhile isSpace).head? ≠ some '{' := by
        rw [hrest]
        exact fun h => (hr _ h).2 rfl
      rw [List.cons_append, parseFrom_next (configStep_line s hbrace), hrest]
      rfl
    · have hblank : c ∈ lineSeps := by
        rcases hw c List.mem_cons_self with rfl | rfl | rfl
        · decide
        · decide
        · exact absurd rfl hline
      rw [List.cons_append, parseFrom_next (configStep_blank s hblank _), hrest, s.gap_blank hline]

theorem parseFrom_comment {p : Str × Str} (hp : '\n' ∉ p.1) (r : Str) :
    parseFrom parentTag s (some (commentLine p ++ r)) =
      parseFrom parentTag (s.comment p.1) (some (p.2 ++ r)) := by
  have hstep := configStep_comment s hp (p.2 ++ r)
  have htext : commentLine p ++ r = '#' :: (p.1 ++ '\n' :: (p.2 ++ r)) := by
    simp [commentLine]
  rw [htext]
  exact parseFrom_next hstep

theorem parseFrom_comments {lines : List (Str × Str)}
    (h : ∀ p ∈ lines, '\n' ∉ p.1 ∧ Filler.IsGap p.2) {r : Str} (hr : Solid r) :
    parseFrom parentTag s (some (lines.flatMap commentLine ++ r)) =
      parseFrom parentTag (s.comments lines) (some r) := by
  induction lines generalizing s with
  | nil => rfl
  | cons p lines ih =>
    obtain ⟨hp, hlines⟩ := List.forall_mem_cons.mp h
    rw [List.flatMap_cons, List.append_assoc, parseFrom_comment parentTag s hp.1,
      parseFrom_gap parentTag _ hp.2 (solid_comments hr), ih _ hlines]
    rfl

theorem parseFrom_fill {f : Filler} (hf : f.Valid) {r : Str} (hr : Solid r) :
    parseFrom parentTag s (some (f.text ++ r)) = parseFrom parentTag (s.fill f) (some r) := by
  rw [Filler.text, List.append_assoc, parseFrom_gap parentTag s hf.space (solid_comments hr),
    parseFrom_comments parentTag _ hf.comments hr]
  rfl

end Filler

/-! ## Weights -/

/-- The number of characters that are no white space. -/
def weight (s : Str) : Nat := s.countP fun c => ! isSpace c

theorem weight_append (a b : Str) : weight (a ++ b) = weight a + weight b := List.countP_append

theorem weight_dropWhile (s : Str) : weight (s.dropWhile isSpace) = weight s := by
  induction s with
  | nil => rfl
  | cons c s ih =>
    cases hc : isSpace c with
    | true => simpa [weight, hc] using ih
    | false => simp [hc]

theorem weight_strip (s : Str) : weight (stripWhitespace s) = weight s := by
  unfold stripWhitespace stripTrailingWhitespace stripLeadingWhitespace List.rdropWhile
  rw [weight, List.countP_reverse]
  show weight _ = _
  rw [weight_dropWhile, weight, List.countP_reverse]
  exact weight_dropWhile s

theorem strip_eq_nil_iff (s : Str) : stripWhitespace s = [] ↔ ∀ c ∈ s, isSpace c = true := by
  constructor
  · intro h
    have hzero : weight s = 0 := by rw [← weight_strip, h]; rfl
    intro c hc
    have hno := List.countP_eq_zero.mp hzero c hc
    simpa using hno
  · intro h
    have hall : stripWhitespace (s ++ [] ++ []) = [] :=
      @stripWhitespace_eq [] nofun nofun s [] h nofun
    simpa using hall

theorem IsValue.strip {v : Str} (h : IsValue v) {pad : Str} (hpad : ∀ c ∈ pad, isSpace c = true) :
    stripWhitespace (v ++ pad) = v := by
  have hhead : ∀ c, v.head? = some c → isSpace c = false := by
    intro c hc
    obtain ⟨d, hd, hspace⟩ := h.head
    rw [hd] at hc
    cases hc
    exact hspace
  have hstrip : stripWhitespace ([] ++ v ++ pad) = v := stripWhitespace_eq hhead h.last nofun hpad
  exact hstrip

theorem IsValue.ne_nil {v : Str} (h : IsValue v) : v ≠ [] := by
  rintro rfl
  obtain ⟨c, hc, _⟩ := h.head
  cases hc

theorem Filler.IsGap.space {w : Str} (hw : Filler.IsGap w) {c : Char} (hc : c ∈ w) :
    isSpace c = true := by
  rcases hw c hc with rfl | rfl | rfl <;> rfl

/-! ## Between two lines -/

/-- What the parser has left over between two lines: a name, a value, and whether a key comes
next. -/
structure Lead where
  name : Str
  value : Str
  key : Bool

namespace Lead

def start : Lead := { name := [], value := [], key := true }

/-- Nothing is left over that the end of a line would store. -/
def Clean (l : Lead) : Prop := l.value = [] ∨ l.name = [] ∧ stripWhitespace l.value = []

instance (l : Lead) : Decidable l.Clean := inferInstanceAs (Decidable (_ ∨ _))

/-- The node that the end of a line stores. -/
def node (l : Lead) : Node := .value (tagOf l.name) (stripWhitespace l.value)

/-- The end of a line, if it stores nothing. -/
def endLine (l : Lead) : Option Lead :=
  if l.Clean then some (if l.value = [] then { l with key := true } else start) else none

/-- A blank ends a key, and else belongs to the value. -/
def blank (l : Lead) (word : Str) (c : Char) : Lead :=
  if l.key then { name := word, value := [], key := false } else { l with value := l.value ++ [c] }

/-- White space behind a word, if it stores nothing. -/
def gap (l : Lead) (word : Str) : Str → Option Lead
  | [] => some l
  | '\n' :: _ => l.endLine
  | c :: _ => some (l.blank word c)

/-- Comments and the white space behind their lines, if they store nothing. -/
def comments (l : Lead) : List (Str × Str) → Option Lead
  | [] => some l
  | p :: lines => (l.gap p.1 p.2).bind fun l => l.comments lines

/-- What stands behind a word. -/
def fill (l : Lead) (word : Str) (f : Filler) : Option Lead :=
  (l.gap word f.space).bind fun l => l.comments f.comments

/-- What is left over could be stored as a node without a tag or without a text only. -/
def Idle (l : Lead) : Prop := l.name = [] ∨ stripWhitespace l.value = []

theorem gap_blank (l : Lead) (word : Str) {c : Char} (h : c ≠ '\n') (w : Str) :
    l.gap word (c :: w) = some (l.blank word c) := by
  simp [gap]

theorem start_idle : start.Idle := Or.inl rfl

theorem not_clean {l : Lead} (h : l.endLine = none) : ¬ l.Clean := by
  intro hclean
  rw [endLine, if_pos hclean] at h
  cases h

end Lead

namespace Filler

/-- The comments behind the first empty line. -/
def behindLine : List (Str × Str) → Option (List (Str × Str))
  | [] => none
  | p :: lines => if p.2.head? = some '\n' then some lines else behindLine lines

/-- The comments behind the first line end that the parser sees. -/
def settled (f : Filler) : Option (List (Str × Str)) :=
  if f.space.head? = some '\n' then some f.comments else behindLine f.comments

end Filler

/-- The parser has this left over, and these items. -/
structure Between (l : Lead) (items : List Node) (s : ConfigState) : Prop where
  name : s.name = l.name
  value : s.value = l.value
  newKey : s.newKey = l.key
  items : s.items = items

theorem between_start : Between .start [] ({} : ConfigState) := ⟨rfl, rfl, rfl, rfl⟩

namespace ConfigState

theorem gap_grows (s : ConfigState) (w : Str) : s.items <+: (s.gap w).items := by
  unfold gap
  split
  · exact List.prefix_rfl
  · exact endLine_grows s _
  · rw [blank_items]

theorem comments_grows (s : ConfigState) (lines : List (Str × Str)) :
    s.items <+: (s.comments lines).items := by
  induction lines generalizing s with
  | nil => exact List.prefix_rfl
  | cons p lines ih => exact (gap_grows (s.comment p.1) p.2).trans (ih _)

end ConfigState

section Between

variable {l l' : Lead} {items : List Node} {s : ConfigState} (h : Between l items s)
include h

theorem Between.comment (text : Str) : Between l items (s.comment text) :=
  ⟨h.name, h.value, h.newKey, h.items⟩

theorem Between.endLine_items (hclean : l.Clean) (token : Str) :
    (s.endLine token).items = items := by
  unfold ConfigState.endLine
  split
  · rename_i hne
    rw [h.value] at hne
    obtain ⟨hname, hblank⟩ := hclean.resolve_left hne
    simp [parserAddValue, h.name, h.value, hname, hblank, h.items]
  · exact h.items

theorem Between.endLine_read (hl : l.endLine = some l') (token : Str) :
    Between l' items (s.endLine token) := by
  unfold Lead.endLine at hl
  split at hl
  · rename_i hclean
    obtain rfl := Option.some.inj hl
    have hitems := h.endLine_items hclean token
    by_cases hempty : l.value = []
    · have hvalue : ¬ s.value ≠ [] := by simp [h.value, hempty]
      rw [ConfigState.endLine, if_neg hvalue, if_pos hempty]
      exact ⟨h.name, h.value, rfl, h.items⟩
    · have hvalue : s.value ≠ [] := by simp [h.value, hempty]
      rw [ConfigState.endLine, if_pos hvalue] at hitems
      rw [ConfigState.endLine, if_pos hvalue, if_neg hempty]
      exact ⟨rfl, rfl, rfl, hitems⟩
  · cases hl

theorem Between.endLine_stored (hclean : ¬ l.Clean) (token : Str) :
    Between .start (items ++ [l.node]) (s.endLine token) := by
  obtain ⟨hvalue, hboth⟩ := not_or.mp hclean
  have hne : s.value ≠ [] := by simp [h.value, hvalue]
  have hstored : l.name ≠ [] ∨ stripWhitespace l.value ≠ [] := by tauto
  rw [ConfigState.endLine, if_pos hne, h.name, h.value, h.items]
  exact ⟨rfl, rfl, rfl, if_pos hstored⟩

theorem Between.blank {word : Str} (hprev : s.prevToken = word) (c : Char) :
    Between (l.blank word c) items (s.blank [c]) := by
  unfold Lead.blank ConfigState.blank
  rw [h.newKey]
  split
  · exact ⟨hprev, rfl, rfl, h.items⟩
  · rw [h.value]
    exact ⟨h.name, rfl, rfl, h.items⟩

theorem Between.gap_read {word w : Str} (hprev : s.prevToken = word)
    (hl : l.gap word w = some l') : Between l' items (s.gap w) := by
  cases w with
  | nil =>
    obtain rfl := Option.some.inj hl
    exact h
  | cons c w =>
    by_cases hline : c = '\n'
    · subst hline
      exact h.endLine_read hl _
    · rw [l.gap_blank word hline] at hl
      obtain rfl := Option.some.inj hl
      rw [s.gap_blank hline]
      exact h.blank hprev c

theorem Between.gap_stored {word w : Str} (hl : l.gap word w = none) :
    (s.gap w).items = items ++ [l.node] := by
  cases w with
  | nil => cases hl
  | cons c w =>
    by_cases hline : c = '\n'
    · subst hline
      exact (h.endLine_stored (Lead.not_clean hl) _).items
    · rw [l.gap_blank word hline] at hl
      cases hl

theorem Between.comments_read {lines : List (Str × Str)} (hl : l.comments lines = some l') :
    Between l' items (s.comments lines) := by
  induction lines generalizing s l with
  | nil =>
    obtain rfl := Option.some.inj hl
    exact h
  | cons p lines ih =>
    obtain ⟨k, hgap, hrest⟩ := Option.bind_eq_some_iff.mp hl
    exact ih ((h.comment p.1).gap_read rfl hgap) hrest

end Between

namespace Lead

variable {l l' : Lead} (h : l.Idle)
include h

theorem Idle.gap {word w : Str} (hw : Filler.IsGap w) (hl : l.gap word w = some l') : l'.Idle := by
  cases w with
  | nil =>
    obtain rfl := Option.some.inj hl
    exact h
  | cons c w =>
    by_cases hline : c = '\n'
    · subst hline
      have hend : l.endLine = some l' := hl
      unfold Lead.endLine at hend
      split at hend
      · obtain rfl := Option.some.inj hend
        split
        · exact h
        · exact start_idle
      · cases hend
    · rw [l.gap_blank word hline] at hl
      obtain rfl := Option.some.inj hl
      unfold blank
      split
      · exact Or.inr rfl
      · rcases h with hname | hvalue
        · exact Or.inl hname
        · right
          rw [strip_eq_nil_iff] at hvalue ⊢
          intro d hd
          rcases List.mem_append.mp hd with hd | hd
          · exact hvalue d hd
          · rw [List.mem_singleton.mp hd]
            exact hw.space List.mem_cons_self

theorem Idle.comments {lines : List (Str × Str)} (hlines : ∀ p ∈ lines, Filler.IsGap p.2)
    (hl : l.comments lines = some l') : l'.Idle := by
  induction lines generalizing l with
  | nil =>
    obtain rfl := Option.some.inj hl
    exact h
  | cons p lines ih =>
    obtain ⟨hp, hrest⟩ := List.forall_mem_cons.mp hlines
    obtain ⟨k, hgap, hmore⟩ := Option.bind_eq_some_iff.mp hl
    exact ih (h.gap hp hgap) hrest hmore

end Lead

/-- Comments that store something store a node that is not meant. -/
theorem Between.comments_stored {l : Lead} {items : List Node} {s : ConfigState}
    (h : Between l items s) (hidle : l.Idle) {lines : List (Str × Str)}
    (hlines : ∀ p ∈ lines, Filler.IsGap p.2) (hl : l.comments lines = none) :
    ∃ k : Lead, k.Idle ∧ items ++ [k.node] <+: (s.comments lines).items := by
  induction lines generalizing s l with
  | nil => cases hl
  | cons p lines ih =>
    obtain ⟨hp, hrest⟩ := List.forall_mem_cons.mp hlines
    cases hgap : l.gap p.1 p.2 with
    | none =>
      have hstored := (h.comment p.1).gap_stored hgap
      refine ⟨l, hidle, ?_⟩
      rw [← hstored]
      exact ConfigState.comments_grows _ lines
    | some k =>
      have hmore : k.comments lines = none := by
        rw [Lead.comments, hgap] at hl
        exact hl
      exact ih ((h.comment p.1).gap_read rfl hgap) (hidle.gap hp hgap) hrest hmore

/-! ## Behind a rule -/

/-- A rule is read that the parser has not stored. -/
def Unstored (key value : Str) (items : List Node) (s : ConfigState) : Prop :=
  ∃ pad, (∀ c ∈ pad, isSpace c = true) ∧
    Between { name := key, value := value ++ pad, key := false } items s

section Unstored

variable {key value : Str} {items : List Node} {s : ConfigState} (hvalue : IsValue value)
  (h : Unstored key value items s)
include h

theorem Unstored.comment (text : Str) : Unstored key value items (s.comment text) := by
  obtain ⟨pad, hpad, hbetween⟩ := h
  exact ⟨pad, hpad, hbetween.comment text⟩

theorem Unstored.blank {c : Char} (hc : isSpace c = true) :
    Unstored key value items (s.blank [c]) := by
  obtain ⟨pad, hpad, hbetween⟩ := h
  refine ⟨pad ++ [c], ?_, ?_⟩
  · intro d hd
    rcases List.mem_append.mp hd with hd | hd
    · exact hpad d hd
    · rw [List.mem_singleton.mp hd]
      exact hc
  · have hblank := hbetween.blank rfl c
    rw [Lead.blank, if_neg Bool.false_ne_true, List.append_assoc] at hblank
    exact hblank

include hvalue

theorem Unstored.endLine (token : Str) :
    Between .start (items ++ [.value (tagOf key) value]) (s.endLine token) := by
  obtain ⟨pad, hpad, hbetween⟩ := h
  have hstrip := hvalue.strip hpad
  have hclean : ¬ Lead.Clean { name := key, value := value ++ pad, key := false } := by
    rintro (hnil | ⟨_, hnil⟩)
    · exact hvalue.ne_nil (List.append_eq_nil_iff.mp hnil).1
    · exact hvalue.ne_nil (hstrip.symm.trans hnil)
  have hstored := hbetween.endLine_stored hclean token
  rw [Lead.node, hstrip] at hstored
  exact hstored

theorem Unstored.gap {w : Str} (hw : Filler.IsGap w) :
    if w.head? = some '\n' then Between .start (items ++ [.value (tagOf key) value]) (s.gap w)
    else Unstored key value items (s.gap w) := by
  cases w with
  | nil => exact h
  | cons c w =>
    by_cases hline : c = '\n'
    · subst hline
      exact h.endLine hvalue _
    · rw [if_neg (by simpa using hline), s.gap_blank hline]
      exact h.blank (hw.space List.mem_cons_self)

/-- What the comments behind a rule leave: it is stored at the first empty line. -/
theorem Unstored.comments {lines : List (Str × Str)} (hlines : ∀ p ∈ lines, Filler.IsGap p.2) :
    match Filler.behindLine lines with
    | none => Unstored key value items (s.comments lines)
    | some rest => ∃ t, Between .start (items ++ [.value (tagOf key) value]) t ∧
        s.comments lines = t.comments rest := by
  induction lines generalizing s with
  | nil => exact h
  | cons p lines ih =>
    obtain ⟨hp, hrest⟩ := List.forall_mem_cons.mp hlines
    have hgap := (h.comment p.1).gap hvalue hp
    rw [Filler.behindLine]
    by_cases hline : p.2.head? = some '\n'
    · rw [if_pos hline] at hgap ⊢
      exact ⟨_, hgap, rfl⟩
    · rw [if_neg hline] at hgap ⊢
      exact ih hgap hrest

/-- Behind a rule line the rule is stored if the parser has seen an end of the line. -/
theorem Unstored.fill {f : Filler} (hf : f.Valid) :
    match f.settled with
    | none => Unstored key value items (s.fill f)
    | some rest => ∃ t, Between .start (items ++ [.value (tagOf key) value]) t ∧
        s.fill f = t.comments rest := by
  have hgap := h.gap hvalue hf.space
  rw [Filler.settled]
  by_cases hline : f.space.head? = some '\n'
  · rw [if_pos hline] at hgap ⊢
    exact ⟨_, hgap, rfl⟩
  · rw [if_neg hline] at hgap ⊢
    exact hgap.comments hvalue fun p hp => (hf.comments p hp).2

end Unstored

end Invocation
