import Invocation.ConfigReading
import Invocation.Rules

/-!
# Additions to a configuration

Where lines do not stay apart the parser adds a node that is not meant, or
none; nothing is ever taken back. So the layout is read as it is meant only if
its lines stay apart.
-/

namespace Invocation

set_option autoImplicit false

/-! ## Nodes that are not meant -/

theorem misses_of_bad {base more result : List Node} {bad good : Node}
    (h : base ++ [bad] <+: result) (hne : bad ≠ good) : ¬ base ++ good :: more <+: result := by
  rintro ⟨rest, hrest⟩
  obtain ⟨rest', hrest'⟩ := h
  rw [← hrest', List.append_assoc, List.append_assoc] at hrest
  have htail := List.append_cancel_left hrest
  rw [List.cons_append, List.singleton_append, List.cons.injEq] at htail
  exact hne htail.1.symm

theorem ne_of_misses {meant result : List Node} (h : ¬ meant <+: result) : result ≠ meant := by
  rintro rfl
  exact h List.prefix_rfl

theorem Lead.node_ne_block (k : Lead) (tag : Option Str) (items : List Node) :
    k.node ≠ .block tag items := nofun

theorem Lead.Idle.not_meant {k : Lead} (h : k.Idle) {L : Layout Filler} (hwritten : L.Written) :
    k.node ∉ L.nodes := by
  induction L with
  | nil => exact List.not_mem_nil
  | rule key value eol rest ih =>
    rw [Layout.nodes, List.mem_cons, not_or]
    refine ⟨?_, ih hwritten.2.2⟩
    intro heq
    rw [Lead.node, Node.value.injEq] at heq
    rcases h with hname | hvalue
    · rw [hname] at heq
      cases heq.1
    · exact hwritten.2.1.ne_nil (heq.2.symm.trans hvalue)
  | block name eol inside items behind rest _ ih =>
    rw [Layout.nodes, List.mem_cons, not_or]
    exact ⟨k.node_ne_block _ _, ih hwritten.2.2⟩

theorem Lead.Idle.misses {k : Lead} (h : k.Idle) {L : Layout Filler} (hwritten : L.Written)
    {base result : List Node} (hgrows : base ++ [k.node] <+: result) :
    result ≠ base ++ L.nodes := by
  rintro rfl
  have hfirst : [k.node] <+: L.nodes := (List.prefix_append_right_inj base).mp hgrows
  exact h.not_meant hwritten (hfirst.subset (List.mem_singleton_self _))

/-- A node that is no value of this weight. -/
def Heavy (w : Nat) (node : Node) : Prop := ∀ tag text, node = .value tag text → w < weight text

theorem heavy_block (w : Nat) (tag : Str) (items : List Node) :
    Heavy w (.block (some tag) items) := by
  intro _ _ heq
  cases heq

/-- From here on the list has not become longer, or it has got a heavy node. -/
def Doomed (w : Nat) (base result : List Node) : Prop :=
  result = base ∨ ∃ bad, Heavy w bad ∧ base ++ [bad] <+: result

theorem Doomed.misses {w : Nat} {base result : List Node} (h : Doomed w base result)
    {name value : Str} (hvalue : weight value ≤ w) (more : List Node) :
    ¬ base ++ .value (some name) value :: more <+: result := by
  rcases h with rfl | ⟨bad, hbad, hgrows⟩
  · intro h
    have hlen := h.length_le
    rw [List.length_append, List.length_cons] at hlen
    omega
  · apply misses_of_bad hgrows
    intro heq
    have hlt := hbad _ _ heq
    omega

/-- While the parser looks for no key, a value only becomes longer. -/
theorem parserConfigItems_doomed (n : Nat) (parentTag : Str) {w : Nat} {s : ConfigState}
    (hkey : s.newKey = false) (hw : w < weight s.value) (ptr : Option Str) :
    Doomed w s.items (parserConfigItems n parentTag s ptr).1 := by
  induction n generalizing s ptr with
  | zero => exact Or.inl rfl
  | succ n ih =>
    cases ptr with
    | none => exact Or.inl rfl
    | some text =>
      have happend (token : Str) (ptr : Option Str) :
          Doomed w s.items (parserConfigItems n parentTag (s.append token) ptr).1 := by
        apply ih (s := s.append token) hkey
        show w < weight (s.value ++ token)
        rw [weight_append]
        omega
      have hblock (tag : Str) (sub : List Node) (ptr : Option Str) (t : ConfigState)
          (ht : t.items = s.items) :
          Doomed w s.items (parserConfigItems n parentTag (t.addBlock tag sub) ptr).1 := by
        right
        refine ⟨.block (some tag) sub, heavy_block w tag sub, ?_⟩
        rw [← ht]
        exact parserConfigItems_grows n parentTag (t.addBlock tag sub) ptr
      have hline (token : Str) : ∃ bad, Heavy w bad ∧ (s.endLine token).items =
          s.items ++ [bad] := by
        have hne : s.value ≠ [] := by
          intro hnil
          rw [hnil] at hw
          exact absurd hw (Nat.not_lt_zero w)
        have hstrip : stripWhitespace s.value ≠ [] := by
          intro hnil
          rw [← weight_strip, hnil] at hw
          exact absurd hw (Nat.not_lt_zero w)
        refine ⟨.value (tagOf s.name) (stripWhitespace s.value), ?_, ?_⟩
        · rintro _ _ ⟨⟩
          rw [weight_strip]
          exact hw
        · rw [ConfigState.endLine, if_pos hne]
          exact if_pos (Or.inr hstrip)
      cases text with
      | nil =>
        rw [parserConfigItems, configStep_end]
        exact happend [] none
      | cons c text =>
        have hmoves := configStep_moves s c text
        rw [parserConfigItems]
        generalize configStep s (c :: text) = step at hmoves
        cases hmoves with
        | @note ptr token _ => exact ih (s := { s with prevToken := token }) hkey hw ptr
        | enter _ => exact hblock _ _ _ s.opened rfl
        | @blank ptr token _ =>
          rw [ConfigState.blank_value hkey]
          exact happend token ptr
        | @toBrace r token _ hbrace =>
          cases n with
          | zero => exact Or.inl rfl
          | succ n =>
            dsimp only
            rw [parserConfigItems, configStep_brace hbrace]
            dsimp only
            generalize parserObjectTag parentTag (s.toBrace token).opened.items
              (stripWhitespace (s.toBrace token).name) = tag
            generalize parserConfigItems n _ {} (configToken r).2 = sub
            right
            refine ⟨.block (some tag) sub.1, heavy_block w tag sub.1, ?_⟩
            exact parserConfigItems_grows n parentTag
              ((s.toBrace token).opened.addBlock tag sub.1) _
        | leaveBrace _ _ => exact Or.inl rfl
        | @endLine ptr token _ =>
          obtain ⟨bad, hbad, hitems⟩ := hline token
          right
          refine ⟨bad, hbad, ?_⟩
          rw [← hitems]
          exact parserConfigItems_grows n parentTag (s.endLine token) ptr
        | leaveLine token _ =>
          obtain ⟨bad, hbad, hitems⟩ := hline token
          right
          exact ⟨bad, hbad, hitems ▸ List.prefix_rfl⟩
        | append token _ => exact happend token _

theorem parseFrom_grows (parentTag : Str) (s : ConfigState) (ptr : Option Str) :
    s.items <+: (parseFrom parentTag s ptr).1 :=
  parserConfigItems_grows _ parentTag s ptr

/-! ## Lines that do not stay apart -/

theorem weight_name {name : Str} (h : IsName name) : 0 < weight name := by
  obtain ⟨c, t, rfl⟩ := List.exists_cons_of_ne_nil h.1
  have hc : isSpace c = false := nameChar_space (h.2 c List.mem_cons_self)
  simp [weight, hc]

theorem layout_name {L : Layout Filler} (hwritten : L.Written) (hvalid : L.All Filler.Valid)
    (hne : L ≠ .nil) (r : Str) :
    ∃ name behind, IsName name ∧ AtSeparator behind ∧ L.text Filler.text ++ r = name ++ behind := by
  cases L with
  | nil => exact absurd rfl hne
  | rule name value eol rest =>
    refine ⟨name, ' ' :: (value ++ (eol.text ++ (rest.text Filler.text ++ r))), hwritten.1, ?_, ?_⟩
    · rintro _ ⟨⟩
      decide
    · simp [Layout.text]
  | block name eol inside items behind rest =>
    refine ⟨name, _, hwritten.1, atSeparator_fill hvalid.1 _, text_block ..⟩

theorem parserObjectTag_ne {parentTag : Str} {parent : List Node} {full name : Str}
    (hname : IsName name) (hne : full ≠ name) : parserObjectTag parentTag parent full ≠ name := by
  have hcolon : ':' ∉ name := hname.not_mem (by decide)
  unfold parserObjectTag
  split
  · exact hne
  · split
    · rintro rfl
      apply hcolon
      simp
    · rintro rfl
      apply hcolon
      simp

section Misses

variable (parentTag : Str) {s : ConfigState} {base : List Node}

theorem parseFrom_lost {l : Lead} (hs : Between l base s) (hl : l.key = false) {key value : Str}
    (hkey : IsName key) (hvalue : IsValue value) {r : Str} (hr : AtSeparator r) (more : List Node) :
    ¬ base ++ .value (some key) value :: more <+:
      (parseFrom parentTag s (some (key ++ ' ' :: (value ++ r)))).1 := by
  obtain rfl : s.items = base := hs.items
  have hjoined : IsValue (key ++ ' ' :: value) := .between hkey.solid (by decide) hvalue
  have hfalse : s.newKey = false := hs.newKey.trans hl
  obtain ⟨p, hp⟩ := parseFrom_value hjoined parentTag hfalse hr
  have hweight : weight value < weight (s.value ++ (key ++ ' ' :: value)) := by
    have hpos := weight_name hkey
    have hblank : weight (' ' :: value) = weight value := rfl
    rw [weight_append, weight_append, hblank]
    omega
  have hdoomed := parserConfigItems_doomed (r.length + 1) parentTag
    (s := { s with value := s.value ++ (key ++ ' ' :: value), prevToken := p }) hfalse hweight
    (some r)
  have htext : key ++ ' ' :: (value ++ r) = key ++ ' ' :: value ++ r := by simp
  rw [htext, hp]
  exact hdoomed.misses (Nat.le_refl _) more

theorem parseFrom_merged {key value : Str} (hs : Unstored key value base s)
    {L : Layout Filler} (hwritten : L.Written) (hvalid : L.All Filler.Valid) (hne : L ≠ .nil)
    (r : Str) (more : List Node) :
    ¬ base ++ .value (some key) value :: more <+:
      (parseFrom parentTag s (some (L.text Filler.text ++ r))).1 := by
  obtain ⟨pad, _, hs⟩ := hs
  obtain rfl : s.items = base := hs.items
  obtain ⟨name, behind, hname, hbehind, htext⟩ := layout_name hwritten hvalid hne r
  have hword : parseFrom parentTag s (some (name ++ behind)) =
      parseFrom parentTag (s.append name) (some behind) := by
    have hstep := configStep_word s hname.solid.word hbehind
    obtain ⟨c, t, rfl⟩ := List.exists_cons_of_ne_nil hname.1
    exact parseFrom_next hstep
  have hweight : weight value < weight (s.append name).value := by
    have hpos := weight_name hname
    show weight value < weight (s.value ++ name)
    rw [hs.value, weight_append, weight_append]
    omega
  have hdoomed := parserConfigItems_doomed (behind.length + 1) parentTag (s := s.append name)
    hs.newKey hweight (some behind)
  rw [htext, hword]
  exact hdoomed.misses (Nat.le_refl _) more

/-- A block whose name is not read as it is written is another node. -/
theorem parseFrom_misnamed {name : Str} (hname : IsName name)
    (hother : stripWhitespace s.name ≠ name)
    (r : Str) (items more : List Node) :
    ¬ s.items ++ .block (some name) items :: more <+:
      (parseFrom parentTag s (some ('{' :: r))).1 := by
  rw [parseFrom_enter (configStep_open s r)]
  generalize parseFrom (stripWhitespace s.name) {} (some r) = sub
  apply misses_of_bad
  · exact parseFrom_grows parentTag (s.opened.addBlock
      (parserObjectTag parentTag s.opened.items (stripWhitespace s.name)) sub.1) sub.2
  · intro heq
    rw [Node.block.injEq, Option.some.injEq] at heq
    exact parserObjectTag_ne hname hother heq.1

/-- What stands behind the items of a list: the brace of their block, or nothing. -/
inductive Closing : Bool → Str → Prop
  | brace {r : Str} : (r.dropWhile isSpace).head? ≠ some '{' → Closing true ('}' :: r)
  | document : Closing false []

theorem Closing.solid {closed : Bool} {r : Str} (h : Closing closed r) : Solid r := by
  cases h with
  | brace _ =>
    rintro _ ⟨⟩
    decide
  | document => exact nofun

theorem closing_behind {behind : Filler} (hbehind : behind.Valid) {r : Str} (hr : Solid r) :
    Closing true ('}' :: (behind.text ++ r)) := by
  apply Closing.brace
  rw [Filler.text, List.append_assoc, gap_dropWhile hbehind.space, (solid_comments hr).dropWhile]
  exact fun h => (solid_comments hr _ h).2 rfl

theorem Filler.settled_subset {f : Filler} {lines : List (Str × Str)} (h : f.settled = some lines) :
    lines ⊆ f.comments := by
  have hbehind {all : List (Str × Str)} (h : behindLine all = some lines) : lines ⊆ all := by
    induction all with
    | nil => cases h
    | cons p all ih =>
      rw [behindLine] at h
      split at h
      · obtain rfl := Option.some.inj h
        exact List.subset_cons_self p all
      · exact List.subset_cons_of_subset p (ih h)
  rw [settled] at h
  split at h
  · obtain rfl := Option.some.inj h
    exact List.Subset.refl _
  · exact hbehind h

theorem Lead.Idle.fill {l l' : Lead} (h : l.Idle) {word : Str} {f : Filler} (hf : f.Valid)
    (hl : l.fill word f = some l') : l'.Idle := by
  obtain ⟨k, hgap, hrest⟩ := Option.bind_eq_some_iff.mp hl
  exact (h.gap hf.space hgap).comments (fun p hp => (hf.comments p hp).2) hrest

theorem Between.fill_stored {l : Lead} {items : List Node} {s : ConfigState} (h : Between l items s)
    (hidle : l.Idle) {f : Filler} (hf : f.Valid) {word : Str} (hprev : s.prevToken = word)
    (hl : l.fill word f = none) :
    ∃ k : Lead, k.Idle ∧ items ++ [k.node] <+: (s.fill f).items := by
  cases hgap : l.gap word f.space with
  | none =>
    have hstored := h.gap_stored hgap
    refine ⟨l, hidle, ?_⟩
    rw [← hstored]
    exact ConfigState.comments_grows _ f.comments
  | some k =>
    have hmore : k.comments f.comments = none := by
      rw [Lead.fill, hgap] at hl
      exact hl
    exact (h.gap_read hprev hgap).comments_stored (hidle.gap hf.space hgap)
      (fun p hp => (hf.comments p hp).2) hmore

/-- Comments behind items store nothing, or a node that is not meant. -/
theorem parseFrom_behind {l : Lead} (hs : Between l base s) (hidle : l.Idle)
    {lines : List (Str × Str)} (hlines : ∀ p ∈ lines, Filler.IsGap p.2) {L : Layout Filler}
    (hwritten : L.Written) {ptr : Option Str}
    (h : ∀ l', l.comments lines = some l' →
      (parseFrom parentTag (s.comments lines) ptr).1 ≠ base ++ L.nodes) :
    (parseFrom parentTag (s.comments lines) ptr).1 ≠ base ++ L.nodes := by
  cases hcomments : l.comments lines with
  | none =>
    obtain ⟨k, hk, hstored⟩ := hs.comments_stored hidle hlines hcomments
    exact hk.misses hwritten (hstored.trans (parseFrom_grows parentTag _ ptr))
  | some l' => exact h l' hcomments

/-- Where the lines do not stay apart the list is not as it is meant. -/
theorem parseFrom_misses {L : Layout Filler} (hwritten : L.Written) (hvalid : L.All Filler.Valid)
    {closed : Bool} {l : Lead} (hidle : l.Idle) (hapart : ¬ L.Apart closed l)
    (hs : Between l base s)
    {r : Str} (hr : Closing closed r) :
    (parseFrom parentTag s (some (L.text Filler.text ++ r))).1 ≠ base ++ L.nodes := by
  induction L generalizing parentTag s base closed l r with
  | nil =>
    obtain ⟨rfl, hclean⟩ := Classical.not_imp.mp hapart
    cases hr with
    | brace hbrace =>
      have hstored := (hs.endLine_stored hclean ['}']).items
      rw [Layout.text, List.nil_append, parseFrom_leave (configStep_close s hbrace), hstored]
      exact hidle.misses hwritten List.prefix_rfl
  | rule name value eol rest ih =>
    obtain ⟨hname, hvalue, hrest⟩ := hwritten
    have htext : (Layout.rule name value eol rest).text Filler.text ++ r =
        name ++ ' ' :: (value ++ (eol.text ++ (rest.text Filler.text ++ r))) := by
      simp [Layout.text]
    have hat := atSeparator_fill hvalid.1 (rest.text Filler.text ++ r)
    rw [htext, Layout.nodes]
    cases hkey : l.key with
    | false =>
      exact ne_of_misses (parseFrom_lost parentTag hs hkey hname hvalue hat rest.nodes)
    | true =>
      obtain ⟨t, ht, hunstored⟩ := parseFrom_rule parentTag hs hkey hname hvalue hat
      have hfill := hunstored.fill hvalue hvalid.1
      rw [ht, parseFrom_fill parentTag t hvalid.1 (solid_layout hrest hr.solid)]
      rw [Layout.Apart] at hapart
      cases hcase : eol.settled with
      | some lines =>
        rw [hcase] at hfill hapart
        obtain ⟨u, hu, hlines⟩ := hfill
        rw [tagOf_name hname] at hu
        have hgaps : ∀ p ∈ lines, Filler.IsGap p.2 := by
          intro p hp
          exact (hvalid.1.comments p (Filler.settled_subset hcase hp)).2
        rw [hlines, List.append_cons]
        apply parseFrom_behind parentTag hu Lead.start_idle hgaps hrest
        intro l' hl'
        exact ih parentTag hrest hvalid.2 (Lead.start_idle.comments hgaps hl')
          (fun h => hapart ⟨hkey, l', hl', h⟩) (hu.comments_read hl') hr
      | none =>
        rw [hcase] at hfill hapart
        have hne : rest ≠ .nil := fun h => hapart ⟨hkey, h⟩
        exact ne_of_misses (parseFrom_merged parentTag hfill hrest hvalid.2 hne r rest.nodes)
  | block name eol inside items behind rest ihitems ih =>
    obtain ⟨hname, hitems, hrest⟩ := hwritten
    obtain ⟨heol, hinside, hvitems, hbehind, hvrest⟩ := hvalid
    have hrest' : Solid (rest.text Filler.text ++ r) := solid_layout hrest hr.solid
    have hclose := closing_behind hbehind hrest'
    rw [text_block, parseFrom_name parentTag s hname heol, Layout.nodes]
    cases hread : l.named name eol with
    | none =>
      obtain ⟨k, hk⟩ := (hs.append name).fillBrace_stored rfl hread
      have hgrows :=
        hk.trans (parseFrom_grows parentTag _ (some ('{' :: blockText inside items behind
        (rest.text Filler.text ++ r))))
      exact ne_of_misses (misses_of_bad hgrows (k.node_ne_block _ _))
    | some k =>
      have hbetween := (hs.append name).fillBrace_read rfl hread
      by_cases hsame : stripWhitespace k.name = name
      · by_cases hinner : ∃ l', Lead.start.fill [] inside = some l' ∧ items.Apart true l'
        · obtain ⟨first, hfirst, happart⟩ := hinner
          obtain ⟨v, hv, hfinished, _⟩ := parseFrom_layout name hitems hvitems happart
            (between_start.fill_read rfl hfirst) hclose.solid
          have hsub := parseFrom_inside hinside hbehind hitems hrest' hv
          rw [hfinished.endLine, List.nil_append] at hsub
          obtain ⟨t, ht, hblock⟩ := parseFrom_block parentTag hbetween hsame hname.1 hsub
          have hgaps : ∀ p ∈ behind.comments, Filler.IsGap p.2 :=
            fun p hp => (hbehind.comments p hp).2
          rw [ht, parseFrom_comments parentTag t hbehind.comments hrest', List.append_cons]
          apply parseFrom_behind parentTag hblock k.opened_idle hgaps hrest
          intro l' hl'
          exact ih parentTag hrest hvrest (k.opened_idle.comments hgaps hl')
            (fun h => hapart ⟨⟨first, hfirst, happart⟩, k, hread, hsame, l', hl', h⟩)
            (hblock.comments_read hl') hr
        · have hmisses : (parseFrom name {} (some (blockText inside items behind
              (rest.text Filler.text ++ r)))).1 ≠ items.nodes := by
            rw [blockText, parseFrom_fill name {} hinside (solid_layout hitems hclose.solid)]
            cases hfirst : Lead.start.fill [] inside with
            | none =>
              obtain ⟨n, hn, hstored⟩ :=
                between_start.fill_stored Lead.start_idle hinside rfl hfirst
              exact hn.misses hitems (hstored.trans (parseFrom_grows name _ _))
            | some first =>
              exact ihitems name hitems hvitems (Lead.start_idle.fill hinside hfirst)
                (fun h => hinner ⟨first, hfirst, h⟩) (between_start.fill_read rfl hfirst) hclose
          generalize hsub : parseFrom name {} (some (blockText inside items behind
            (rest.text Filler.text ++ r))) = sub at hmisses
          obtain ⟨t, ht, hblock⟩ := parseFrom_block parentTag hbetween hsame hname.1 hsub
          have hgrows := parseFrom_grows parentTag t sub.2
          rw [hblock.items] at hgrows
          rw [ht]
          apply ne_of_misses
          apply misses_of_bad hgrows
          intro heq
          rw [Node.block.injEq] at heq
          exact hmisses heq.2
      · have hother : stripWhitespace (((s.append name).fillBrace eol.space eol.comments)).name ≠
            name := by
          rw [hbetween.name]
          exact hsame
        have hmisses := parseFrom_misnamed parentTag hname hother
          (blockText inside items behind (rest.text Filler.text ++ r)) items.nodes rest.nodes
        rw [hbetween.items] at hmisses
        exact ne_of_misses hmisses

end Misses

/-! ## Additions -/

/-- What may be added in front of the first line. -/
structure Filler.Opening (f : Filler) : Prop where
  space : IsGap f.space
  comments : ∀ p ∈ f.comments, '\n' ∉ p.1 ∧ IsGap p.2

/-- In front of the first line only comments count. -/
theorem parserParseDocument_opening {top : Filler} (htop : top.Opening) {L : Layout Filler}
    (hwritten : L.Written) :
    parserParseDocument (top.text ++ L.text Filler.text) =
      (parseFrom [] (({} : ConfigState).comments top.comments) (some (L.text Filler.text))).1 := by
  have hsolid : Solid (L.text Filler.text) := by
    have h : Solid (L.text Filler.text ++ []) := solid_layout hwritten nofun
    rwa [List.append_nil] at h
  have hskip : (top.text ++ L.text Filler.text).dropWhile isSpace =
      top.comments.flatMap commentLine ++ L.text Filler.text := by
    rw [Filler.text, List.append_assoc, gap_dropWhile htop.space,
      (solid_comments hsolid).dropWhile]
  have hhead : ∀ c, (top.comments.flatMap commentLine ++ L.text Filler.text).head? = some c →
      isSpace c = false ∧ c ≠ '{' ∧ c ≠ '[' := by
    cases top.comments with
    | nil => exact sections_head hwritten
    | cons p lines =>
      rintro _ ⟨⟩
      decide
  have hdocument : parserParseDocument (top.text ++ L.text Filler.text) =
      parserParseDocument (top.comments.flatMap commentLine ++ L.text Filler.text) := by
    unfold parserParseDocument
    rw [hskip, (solid_comments hsolid).dropWhile]
  rw [hdocument, parserParseDocument_eq hhead, parseFrom_comments [] {} htop.comments hsolid]

/-- The lines of a file stay apart, with what stands in front of the first. -/
def Layout.StaysApart (top : Filler) (L : Layout Filler) : Prop :=
  ∃ l, Lead.start.comments top.comments = some l ∧ L.Apart false l

/-- Additions leave the configuration as it is if and only if the lines stay apart. -/
theorem loadConfig_additions_iff (config : List Node) (top : Filler) (L : Layout Filler)
    (hsections : L.Sections) (hwritten : L.Written) (htop : top.Opening)
    (hvalid : L.All Filler.Valid) :
    loadConfig config (some (top.text ++ L.text Filler.text)) =
      loadConfig config (some (L.text fun _ => "\n".toList)) ↔ L.StaysApart top := by
  have hgaps : ∀ p ∈ top.comments, Filler.IsGap p.2 := fun p hp => (htop.comments p hp).2
  rw [loadConfig, loadConfig, parserParseDocument_plain hwritten hsections,
    parserParseDocument_opening htop hwritten]
  constructor
  · intro hsame
    by_contra hapart
    refine parseFrom_behind [] between_start Lead.start_idle hgaps hwritten ?_ hsame
    intro l hl
    have hmisses := parseFrom_misses [] hwritten hvalid (Lead.start_idle.comments hgaps hl)
      (fun h => hapart ⟨l, hl, h⟩) (between_start.comments_read hl) .document
    rwa [List.append_nil] at hmisses
  · rintro ⟨l, hl, hapart⟩
    obtain ⟨t, ht, _, hitems⟩ := parseFrom_layout [] hwritten hvalid hapart
      (between_start.comments_read hl) (r := []) nofun
    rw [List.append_nil] at ht
    rw [ht, parseFrom_nil, hitems hsections, List.nil_append]

def commentedSection : Layout Filler :=
  .block "mount".toList { space := "  ".toList, comments := [(" a section".toList, [])] }
    { space := "\n\n".toList, comments := [] }
    (.rule "user".toList "bob".toList
      { space := " ".toList, comments := [(" who".toList, "  \n".toList), ([], "\n".toList)] }
      (.block "Convo".toList { space := "\n".toList, comments := [] }
        { space := [], comments := [(" none".toList, [])] } .nil Filler.plain
        (.rule "run".toList "x".toList { space := " \n".toList, comments := [] } .nil)))
    Filler.plain .nil

theorem loadConfig_additions_commented : loadConfig [] (some
    ("\n# invoked\nmount  # a section\n\x7b\n\nuser bob # who\n  \n#\n\nConvo\n\x7b# none\n\x7d\n"
      ++
      "run x \n\x7d\n").toList) =
    loadConfig [] (some "mount\n\x7b\nuser bob\nConvo\n\x7b\n\x7d\nrun x\n\x7d\n".toList) := by
  have hname : ∀ w ∈ ["mount".toList, "user".toList, "bob".toList, "Convo".toList, "run".toList,
      "x".toList], IsName w := by
    simp only [IsName]
    decide +kernel
  have hvalue {w : Str} (hw : IsName w) : IsValue w := .word hw.solid
  refine (loadConfig_additions_iff []
    { space := "\n".toList, comments := [(" invoked".toList, [])] }
    commentedSection trivial ⟨hname _ (by decide),
      ⟨hname _ (by decide), hvalue (hname _ (by decide)),
      hname _ (by decide), trivial, hname _ (by decide), hvalue (hname _ (by decide)), trivial⟩,
      trivial⟩ ⟨by simp [Filler.IsGap], by simp [Filler.IsGap]⟩ ?_).mpr ?_
  · have hfiller {space : Str} {comments : List (Str × Str)}
        (h : (∀ c ∈ space, c = ' ' ∨ c = '\t' ∨ c = '\n') ∧
          (∀ p ∈ comments, '\n' ∉ p.1 ∧ ∀ c ∈ p.2, c = ' ' ∨ c = '\t' ∨ c = '\n') ∧
          (comments = [] → '\n' ∈ space)) : Filler.Valid { space, comments } :=
      ⟨h.1, h.2.1, h.2.2⟩
    refine ⟨hfiller ?_, hfiller ?_, ⟨hfiller ?_, ⟨hfiller ?_, hfiller ?_, trivial, hfiller ?_,
      hfiller ?_, trivial⟩⟩, hfiller ?_, trivial⟩
    all_goals decide +kernel
  · refine ⟨.start, rfl, ⟨.start, rfl, rfl, .start, rfl, ?_⟩, _, rfl, rfl, _, rfl,
      fun h => absurd h Bool.false_ne_true⟩
    exact ⟨⟨.start, rfl, fun _ => Or.inl rfl⟩, _, rfl, rfl, .start, rfl, rfl, rfl⟩

def bob : Peer :=
  { userName := "bob".toList, groupName := "users".toList, exePath := "/bin/sh".toList,
    uid := 1000, gid := 100, pid := 1 }

/-- A blank behind the user's line takes the restriction to a group away. -/
theorem trailing_blank_merges : ∃ merged meant : List (Str × Str),
    loadConfig [] (some "mount\n\x7b\nuser bob \ngroup root\nrun x\n\x7d\n".toList) =
      [.block (some "mount".toList) (ruleNodes merged)] ∧
    loadConfig [] (some "mount\n\x7b\nuser bob\ngroup root\nrun x\n\x7d\n".toList) =
      [.block (some "mount".toList) (ruleNodes meant)] ∧
    ∀ (checkAuth : Str → Server Bool) (s : ServerState),
      Process.exec (checkRules bob checkAuth (ruleNodes merged) false) s = (.ok true, s) ∧
      Process.exec (checkRules bob checkAuth (ruleNodes meant) false) s = (.ok false, s) := by
  have huser : ruleIdentity bob "user".toList = some bob.userName := by decide +kernel
  have hgroup : ruleIdentity bob "group".toList = some bob.groupName := by decide +kernel
  have hrun : ruleIdentity bob "run".toList = none := by decide +kernel
  have hauth : strCaseEq "run".toList "auth".toList = false := by decide +kernel
  have hmerged : isItemInList bob.userName "bob group root".toList = true := by decide +kernel
  have hmember : isItemInList bob.userName "bob".toList = true := by decide +kernel
  have hforeign : isItemInList bob.groupName "root".toList = false := by decide +kernel
  refine ⟨[("user".toList, "bob group root".toList), ("run".toList, "x".toList)],
    [("user".toList, "bob".toList), ("group".toList, "root".toList), ("run".toList, "x".toList)],
    rfl, rfl, ?_⟩
  intro checkAuth s
  constructor
  · rw [checkRules_identity bob checkAuth _ _ _ _ huser, hmerged, if_pos rfl,
      checkRules_other bob checkAuth _ _ _ _ hrun hauth]
    rfl
  · rw [checkRules_identity bob checkAuth _ _ _ _ huser, hmember, if_pos rfl,
      checkRules_identity bob checkAuth _ _ _ _ hgroup, hforeign, if_neg Bool.false_ne_true]
    rfl

end Invocation
