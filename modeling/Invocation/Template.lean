import Invocation.ShellSafety

/-!
# Templates

Which templates the substitution gets through without leaving them, what it
makes of references in brackets, and what becomes of a dollar sign behind a
backslash.
-/

namespace Invocation

set_option autoImplicit false

/-! ## References that end inside the template -/

mutual

/-- What may follow a dollar sign, up to and including the character that ends the reference. -/
inductive Reference : Str → Prop
  | indirect {r : Str} : Reference r → Reference ('$' :: r)
  | brackets {items : Str} : Items (· == ')') items → Reference ('(' :: items ++ [')'])
  | bare {c e : Char} {items : Str} : c ≠ '$' → c ≠ '(' → isSpace e = true →
    Items isSpace items → Reference (c :: items ++ [e])

/-- The name of a variable, with references of its own. -/
inductive Items : (Char → Bool) → Str → Prop
  | nil {stop : Char → Bool} : Items stop []
  | char {stop : Char → Bool} {c : Char} {s : Str} : stop c = false → c ≠ '$' → Items stop s →
    Items stop (c :: s)
  | reference {stop : Char → Bool} {r s : Str} : Reference r → Items stop s →
    Items stop ('$' :: (r ++ s))

end

/-- A template in which every reference ends: $(name) at its bracket, $name at white space. -/
inductive ClosedTemplate : Str → Prop
  | nil : ClosedTemplate []
  | char {c : Char} {s : Str} : c ≠ '$' → ClosedTemplate s → ClosedTemplate (c :: s)
  | reference {r s : Str} : Reference r → ClosedTemplate s → ClosedTemplate ('$' :: (r ++ s))

section Range

variable (vars : Vars) (shellSafe : Bool)

/-- The cursor comes back on the last character of a reference, or on the terminating NUL. -/
theorem parseVar_reference (n : Nat) :
    (∀ s value e rest, parseVar vars shellSafe n s = some (value, e :: rest) →
      ∃ r, Reference r ∧ s = r ++ rest) ∧
    (∀ stop tempstr name s value e rest, stop '$' = false →
      parseVarName vars shellSafe n stop tempstr name s = some (value, e :: rest) →
      ∃ items, Items stop items ∧ stop e = true ∧ s = items ++ e :: rest) := by
  induction n with
  | zero => exact ⟨nofun, nofun⟩
  | succ n ih =>
    constructor
    · intro s value e rest h
      cases s with
      | nil => cases h
      | cons c s =>
        rw [parseVar] at h
        split_ifs at h with hdollar hbracket
        · split at h
          · cases h
          · rename_i inner hinner
            cases h
            obtain ⟨r, hr, rfl⟩ := ih.1 _ _ _ _ hinner
            exact ⟨'$' :: r, .indirect hr, by rw [hdollar, List.cons_append]⟩
        · obtain ⟨items, hitems, hstop, rfl⟩ := ih.2 _ _ _ _ _ _ _ (by decide) h
          have he : e = ')' := by simpa using hstop
          refine ⟨'(' :: items ++ [')'], .brackets hitems, ?_⟩
          rw [hbracket, he]
          simp
        · obtain ⟨items, hitems, hstop, rfl⟩ := ih.2 _ _ _ _ _ _ _ (by decide) h
          exact ⟨c :: items ++ [e], .bare hdollar hbracket hstop hitems, by simp⟩
    · intro stop tempstr name s value e rest hfree h
      cases s with
      | nil => cases h
      | cons c s =>
        rw [parseVarName] at h
        split_ifs at h with hstop hdollar
        · cases h
          exact ⟨[], .nil, hstop, rfl⟩
        · split at h
          · rename_i inner d later hinner
            obtain ⟨r, hr, rfl⟩ := ih.1 _ _ _ _ hinner
            obtain ⟨items, hitems, he, rfl⟩ := ih.2 _ _ _ _ _ _ _ hfree h
            refine ⟨'$' :: (r ++ items), .reference hr hitems, he, ?_⟩
            rw [hdollar]
            simp
          · cases h
        · obtain ⟨items, hitems, he, rfl⟩ := ih.2 _ _ _ _ _ _ _ hfree h
          exact ⟨c :: items, .char (by simpa using hstop) hdollar hitems, he, rfl⟩

mutual

/-- A reference that ends is read up to its end. -/
theorem Reference.reads {r : Str} (h : Reference r) : ∀ (n : Nat) (rest : Str), r.length ≤ n →
    ∃ value e, parseVar vars shellSafe n (r ++ rest) = some (value, e :: rest) := by
  intro n rest hn
  cases h with
  | @indirect r hr =>
    obtain ⟨n, rfl⟩ : ∃ m, n = m + 1 := Nat.exists_eq_add_of_le' (Nat.le_trans (by simp) hn)
    obtain ⟨value, e, hvalue⟩ := hr.reads n rest (by simpa using hn)
    refine ⟨varValue vars shellSafe [], e, ?_⟩
    rw [List.cons_append, parseVar, if_pos rfl, hvalue]
  | @brackets items hitems =>
    obtain ⟨n, rfl⟩ : ∃ m, n = m + 1 := Nat.exists_eq_add_of_le' (Nat.le_trans (by simp) hn)
    obtain ⟨value, hvalue⟩ :=
      hitems.reads ')' (by decide) (by decide) n [] [] rest (by simpa using hn)
    refine ⟨value, ')', ?_⟩
    rw [List.append_assoc, List.cons_append, List.singleton_append, parseVar, if_neg (by decide),
      if_pos rfl, hvalue]
  | @bare c e items hdollar hbracket he hitems =>
    obtain ⟨n, rfl⟩ : ∃ m, n = m + 1 := Nat.exists_eq_add_of_le' (Nat.le_trans (by simp) hn)
    obtain ⟨value, hvalue⟩ := hitems.reads e he (by decide) n [] [] rest (by simpa using hn)
    refine ⟨value, e, ?_⟩
    rw [List.append_assoc, List.cons_append, List.singleton_append, parseVar, if_neg hdollar,
      if_neg hbracket, hvalue]

theorem Items.reads {stop : Char → Bool} {items : Str} (h : Items stop items) :
    ∀ (e : Char), stop e = true → stop '$' = false → ∀ (n : Nat) (tempstr name rest : Str),
      items.length + 1 ≤ n → ∃ value,
        parseVarName vars shellSafe n stop tempstr name (items ++ e :: rest) =
          some (value, e :: rest) := by
  intro e he hfree n tempstr name rest hn
  obtain ⟨n, rfl⟩ : ∃ m, n = m + 1 := Nat.exists_eq_add_of_le' (Nat.le_trans (by simp) hn)
  cases h with
  | nil =>
    refine ⟨varValue vars shellSafe name, ?_⟩
    rw [List.nil_append, parseVarName, if_pos he]
  | @char _ c s hstop hdollar hs =>
    obtain ⟨value, hvalue⟩ := hs.reads e he hfree n tempstr (name ++ [c]) rest (by simpa using hn)
    refine ⟨value, ?_⟩
    rw [List.cons_append, parseVarName, if_neg (by simp [hstop]), if_neg hdollar, hvalue]
  | @reference _ r s hr hs =>
    simp only [List.length_cons, List.length_append] at hn
    obtain ⟨inner, d, hinner⟩ := hr.reads n (s ++ e :: rest) (by omega)
    obtain ⟨value, hvalue⟩ := hs.reads e he hfree n (tempstr ++ inner)
      (name ++ (tempstr ++ inner)) rest (by omega)
    refine ⟨value, ?_⟩
    rw [List.cons_append, List.append_assoc, parseVarName, if_neg (by simp [hfree]), if_pos rfl,
      hinner]
    exact hvalue

end

/-- A substitution that stays within its template, with any fuel, has only references that end. -/
theorem closedTemplate_of_substituted {n : Nat} {fmt : Str} {pieces : List Piece}
    (h : substitutePieces vars shellSafe n fmt = some pieces) : ClosedTemplate fmt := by
  induction n generalizing fmt pieces with
  | zero =>
    cases fmt with
    | nil => exact .nil
    | cons c s => cases h
  | succ n ih =>
    cases fmt with
    | nil => exact .nil
    | cons c s =>
      rw [substitutePieces] at h
      split_ifs at h with hdollar
      · split at h
        · rename_i value e rest hvar
          obtain ⟨later, hlater, _⟩ := Option.map_eq_some_iff.mp h
          obtain ⟨r, hr, rfl⟩ := (parseVar_reference vars shellSafe n).1 _ _ _ _ hvar
          rw [hdollar]
          exact .reference hr (ih hlater)
        · cases h
      · obtain ⟨later, hlater, _⟩ := Option.map_eq_some_iff.mp h
        exact .char hdollar (ih hlater)

theorem ClosedTemplate.substituted {fmt : Str} (h : ClosedTemplate fmt) {n : Nat}
    (hn : fmt.length ≤ n) : ∃ pieces, substitutePieces vars shellSafe n fmt = some pieces := by
  induction h generalizing n with
  | nil => exact ⟨[], by cases n <;> rfl⟩
  | @char c s hdollar _ ih =>
    rw [List.length_cons] at hn
    obtain ⟨n, rfl⟩ : ∃ m, n = m + 1 := Nat.exists_eq_add_of_le' (Nat.le_trans (by simp) hn)
    obtain ⟨pieces, hpieces⟩ := ih (Nat.le_of_succ_le_succ hn)
    rw [substitutePieces, if_neg hdollar, hpieces]
    exact ⟨_, rfl⟩
  | @reference r s hr _ ih =>
    simp only [List.length_cons, List.length_append] at hn
    obtain ⟨n, rfl⟩ : ∃ m, n = m + 1 := Nat.exists_eq_add_of_le' (Nat.le_trans (by simp) hn)
    obtain ⟨value, e, hvar⟩ := hr.reads vars shellSafe n s (by omega)
    obtain ⟨pieces, hpieces⟩ := ih (n := n) (by omega)
    refine ⟨.value value :: pieces, ?_⟩
    rw [substitutePieces, if_pos rfl, hvar]
    show (substitutePieces vars shellSafe n s).map (.value value :: ·) = _
    rw [hpieces]
    rfl

/-- The substitution ends within its template exactly when every reference in it ends; more steps
do not help the others. -/
theorem substitution_in_range_iff (fmt : Str) :
    ((substituteVarsInString vars shellSafe fmt).isSome = true ↔ ClosedTemplate fmt) ∧
      ((∃ n, (substitutePieces vars shellSafe n fmt).isSome = true) ↔ ClosedTemplate fmt) := by
  have hsound : (∃ n, (substitutePieces vars shellSafe n fmt).isSome = true) →
      ClosedTemplate fmt := by
    rintro ⟨n, hn⟩
    obtain ⟨pieces, hpieces⟩ := Option.isSome_iff_exists.mp hn
    exact closedTemplate_of_substituted vars shellSafe hpieces
  have hcomplete : ClosedTemplate fmt →
      (substitutePieces vars shellSafe (2 * fmt.length + 2) fmt).isSome = true := by
    intro h
    obtain ⟨pieces, hpieces⟩ := h.substituted vars shellSafe (n := 2 * fmt.length + 2) (by omega)
    rw [hpieces]
    rfl
  unfold substituteVarsInString
  rw [Option.isSome_map]
  exact ⟨⟨fun h => hsound ⟨_, h⟩, hcomplete⟩, ⟨hsound, fun h => ⟨_, hcomplete h⟩⟩⟩

end Range

/-- A dollar sign at the end of a run entry is read past. -/
theorem substitution_leaves_template :
    ¬ ∀ (vars : Vars) (shellSafe : Bool) (fmt : Str),
      (substituteVarsInString vars shellSafe fmt).isSome = true := by
  intro h
  have hsome := h [] true "/bin/echo $user".toList
  revert hsome
  decide +kernel

/-! ## References in brackets -/

/-- A character without a meaning to the substitution. -/
structure OrdinaryChar where
  char : Char
  ordinary : char ≠ '$' ∧ char ≠ '\\'

/-- A name as it may stand in brackets. -/
structure VarName where
  text : Str
  closed : ∀ c ∈ text, c ≠ '$' ∧ c ≠ '\\' ∧ c ≠ ')'

inductive Part
  | text (c : OrdinaryChar)
  | ref (name : VarName)

namespace Part

def source : Part → Str
  | text c => [c.char]
  | ref name => '$' :: '(' :: name.text ++ [')']

/-- What a part stands for: itself, or the shell-escaped value of the variable. -/
def meaning (vars : Vars) : Part → Str
  | text c => [c.char]
  | ref name => makeShellSafeString (getVar vars name.text)

def piece (vars : Vars) : Part → Piece
  | text c => .char c.char
  | ref name => .value (varValue vars true name.text)

end Part

section Parts

variable (vars : Vars)

theorem getVar_strlwr (name : Str) : getVar vars (strlwr name) = getVar vars name := by
  have hsame : ∀ tag, sameTag tag (strlwr name) = sameTag tag name := by
    intro tag
    rw [Bool.eq_iff_iff, sameTag_iff, sameTag_iff, strlwr_strlwr]
    simp [strlwr]
  unfold getVar KeyedList.get KeyedList.locate
  simp only [hsame]

theorem parseVarName_closed {n : Nat} (tempstr name : Str) {text : Str}
    (h : ∀ c ∈ text, c ≠ '$' ∧ c ≠ '\\' ∧ c ≠ ')') (rest : Str) (hn : text.length + 1 ≤ n) :
    parseVarName vars true n (· == ')') tempstr name (text ++ ')' :: rest) =
      some (varValue vars true (name ++ text), ')' :: rest) := by
  induction text generalizing n name with
  | nil =>
    obtain ⟨n, rfl⟩ : ∃ m, n = m + 1 := Nat.exists_eq_add_of_le' (Nat.le_trans (by simp) hn)
    rw [List.nil_append, parseVarName, if_pos (by decide), List.append_nil]
  | cons c text ih =>
    rw [List.length_cons] at hn
    obtain ⟨n, rfl⟩ : ∃ m, n = m + 1 := Nat.exists_eq_add_of_le' (Nat.le_trans (by simp) hn)
    obtain ⟨hdollar, _, hbracket⟩ := h c List.mem_cons_self
    have hrest := ih (n := n) (name ++ [c]) (fun d hd => h d (List.mem_cons_of_mem _ hd)) (by omega)
    rw [List.cons_append, parseVarName, if_neg (by simpa using hbracket), if_neg hdollar, hrest,
      List.append_assoc, List.singleton_append]

/-- Each part is written in its turn, and nothing that is written is read again. -/
theorem substitutePieces_parts (parts : List Part) {n : Nat}
    (hn : (parts.flatMap Part.source).length ≤ n) :
    substitutePieces vars true n (parts.flatMap Part.source) =
      some (parts.map (Part.piece vars)) := by
  induction parts generalizing n with
  | nil => cases n <;> rfl
  | cons part parts ih =>
    rw [List.flatMap_cons, List.length_append] at hn
    cases part with
    | text c =>
      simp only [Part.source, List.length_cons, List.length_nil] at hn
      obtain ⟨n, rfl⟩ : ∃ m, n = m + 1 := Nat.exists_eq_add_of_le' (Nat.le_trans (by omega) hn)
      have hsource : (Part.text c :: parts).flatMap Part.source =
          c.char :: parts.flatMap Part.source := rfl
      rw [hsource, substitutePieces, if_neg c.ordinary.1, ih (n := n) (by omega)]
      rfl
    | ref name =>
      simp only [Part.source, List.length_cons, List.length_append, List.length_nil] at hn
      obtain ⟨n, rfl⟩ : ∃ m, n = m + 2 := Nat.exists_eq_add_of_le' (Nat.le_trans (by omega) hn)
      have hsource : (Part.ref name :: parts).flatMap Part.source =
          '$' :: '(' :: (name.text ++ ')' :: parts.flatMap Part.source) := by
        simp [Part.source]
      have hname := parseVarName_closed vars (n := n) [] [] name.closed
        (parts.flatMap Part.source) (by omega)
      rw [List.nil_append] at hname
      have hvar :
          parseVar vars true (n + 1) ('(' :: (name.text ++ ')' :: parts.flatMap Part.source)) =
          some (varValue vars true name.text, ')' :: parts.flatMap Part.source) := by
        rw [parseVar, if_neg (by decide), if_pos rfl, hname]
      rw [hsource, substitutePieces, if_pos rfl, hvar]
      show (substitutePieces vars true (n + 1) (parts.flatMap Part.source)).map _ = _
      rw [ih (n := n + 1) (by omega)]
      rfl

theorem getVar_unset {name : Str} (h : ∀ v ∈ vars, strCaseEq v.1 name = false) :
    getVar vars name = [] := by
  have hnone : KeyedList.get sameTag name vars = none := by
    rw [KeyedList.get, Option.map_eq_none_iff]
    by_contra hsome
    obtain ⟨v, hv⟩ := Option.ne_none_iff_exists'.mp hsome
    obtain ⟨hmem, hsame⟩ := KeyedList.locate_mem hv
    simp [sameTag, h v hmem] at hsame
  rw [getVar, hnone]
  rfl

theorem substitution_parts (parts : List Part) :
    substituteVarsInString vars true (parts.flatMap Part.source) =
      some (parts.flatMap (Part.meaning vars)) := by
  have htext : ∀ part : Part, (part.piece vars).text = part.meaning vars := by
    intro part
    cases part with
    | text c => rfl
    | ref name => simp [Part.piece, Piece.text, Part.meaning, varValue, getVar_strlwr]
  rw [substituteVarsInString, substitutePieces_parts vars parts (by omega), Option.map_some,
    List.flatMap_map]
  simp only [htext]

/-- One pass: the text as it stands and the escaped values in their places, whatever the values
look like and whatever else is set. -/
theorem substitution_single_pass (parts : List Part) :
    substituteVarsInString vars true (parts.flatMap Part.source) =
        some (parts.flatMap (Part.meaning vars)) ∧
      (∀ name other : VarName, strCaseEq name.text other.text = true →
        (Part.ref name).meaning vars = (Part.ref other).meaning vars) ∧
      (∀ name : VarName, (∀ v ∈ vars, strCaseEq v.1 name.text = false) →
        (Part.ref name).meaning vars = []) ∧
      ∀ others : Vars, (∀ name, Part.ref name ∈ parts →
          getVar others name.text = getVar vars name.text) →
        substituteVarsInString others true (parts.flatMap Part.source) =
          substituteVarsInString vars true (parts.flatMap Part.source) := by
  refine ⟨substitution_parts vars parts, ?_, ?_, ?_⟩
  · intro name other hsame
    rw [strCaseEq_iff] at hsame
    rw [Part.meaning, Part.meaning, ← getVar_strlwr vars name.text, hsame, getVar_strlwr]
  · intro name hunset
    rw [Part.meaning, getVar_unset vars hunset]
    rfl
  · intro others hagree
    rw [substitution_parts others, substitution_parts vars]
    congr 1
    apply List.flatMap_congr
    intro part hpart
    cases part with
    | text c => rfl
    | ref name => rw [Part.meaning, Part.meaning, hagree name hpart]

end Parts

/-! ## The documented escape -/

/-- A template in which dollar signs may stand behind a backslash. -/
inductive QuotedPart
  | part (p : Part)
  | dollar

namespace QuotedPart

def source : QuotedPart → Str
  | part p => p.source
  | dollar => "\\$".toList

/-- What a part is to become, `sign` being what is left of an escaped dollar sign. -/
def meaning (vars : Vars) (sign : Str) : QuotedPart → Str
  | part p => p.meaning vars
  | dollar => sign

end QuotedPart

/-- Each escaped dollar sign reaches the command line, with its backslash or without, and the text
around it as well. -/
def EscapeWorks (parts : List QuotedPart) : Prop :=
  ∀ vars, ∃ sign ∈ ["$".toList, "\\$".toList],
    substituteVarsInString vars true (parts.flatMap QuotedPart.source) =
      some (parts.flatMap (QuotedPart.meaning vars sign))

/-- Without variables, nothing that the substitution writes is a dollar sign. -/
theorem substitutePieces_dollar {n : Nat} {fmt : Str} {pieces : List Piece}
    (h : substitutePieces [] true n fmt = some pieces) : '$' ∉ pieces.flatMap Piece.text := by
  induction n generalizing fmt pieces with
  | zero =>
    cases fmt with
    | nil =>
      cases h
      simp
    | cons c s => cases h
  | succ n ih =>
    cases fmt with
    | nil =>
      cases h
      simp
    | cons c s =>
      rw [substitutePieces] at h
      split_ifs at h with hdollar
      · split at h
        · rename_i value e rest hvar
          obtain ⟨later, hlater, rfl⟩ := Option.map_eq_some_iff.mp h
          obtain ⟨name, rfl⟩ := (parseVar_value [] true n).1 _ _ _ hvar
          have hempty : varValue [] true name = [] := rfl
          rw [List.flatMap_cons, Piece.text, hempty, List.nil_append]
          exact ih hlater
        · cases h
      · obtain ⟨later, hlater, rfl⟩ := Option.map_eq_some_iff.mp h
        rw [List.flatMap_cons, Piece.text, List.singleton_append, List.mem_cons, not_or]
        exact ⟨Ne.symm hdollar, ih hlater⟩

/-- The escape works on the templates that do not use it. -/
theorem escape_works_iff (parts : List QuotedPart) :
    EscapeWorks parts ↔ QuotedPart.dollar ∉ parts := by
  constructor
  · intro h hmem
    obtain ⟨sign, hsign, hresult⟩ := h []
    obtain ⟨pieces, hpieces, htext⟩ := Option.map_eq_some_iff.mp hresult
    apply substitutePieces_dollar hpieces
    rw [htext, List.mem_flatMap]
    refine ⟨.dollar, hmem, ?_⟩
    simp only [List.mem_cons, List.not_mem_nil, or_false] at hsign
    rcases hsign with rfl | rfl
    · exact List.mem_cons_self
    · exact List.mem_cons_of_mem _ List.mem_cons_self
  · intro h vars
    obtain ⟨plain, rfl⟩ : ∃ plain : List Part, parts = plain.map .part := by
      clear * - h
      induction parts with
      | nil => exact ⟨[], rfl⟩
      | cons part parts ih =>
        rw [List.mem_cons, not_or] at h
        obtain ⟨plain, rfl⟩ := ih h.2
        cases part with
        | part p => exact ⟨p :: plain, rfl⟩
        | dollar => exact absurd rfl h.1
    refine ⟨"$".toList, by simp, ?_⟩
    have hsource : (plain.map QuotedPart.part).flatMap QuotedPart.source =
        plain.flatMap Part.source := by rw [List.flatMap_map]; rfl
    have hmeaning : (plain.map QuotedPart.part).flatMap (QuotedPart.meaning vars "$".toList) =
        plain.flatMap (Part.meaning vars) := by rw [List.flatMap_map]; rfl
    rw [hsource, hmeaning]
    exact substitution_parts vars plain

def plainText (c : Char) (h : c ≠ '$' ∧ c ≠ '\\') : QuotedPart := .part (.text ⟨c, h⟩)

/-- The name behind the escaped dollar sign is taken for a variable of the request, together with
the blank that ends it. -/
theorem escape_loses_name : ¬ ∀ parts : List QuotedPart, EscapeWorks parts := by
  intro h
  obtain ⟨sign, hsign, hresult⟩ := h [.dollar, plainText 'F' (by decide), plainText ';' (by decide),
    plainText ' ' (by decide), plainText 'x' (by decide)] []
  simp only [List.mem_cons, List.not_mem_nil, or_false] at hsign
  have hactual : substituteVarsInString [] true "\\$F; x".toList = some "\\x".toList := by
    decide +kernel
  have hsource : substituteVarsInString [] true "\\$F; x".toList = some (sign ++ "F; x".toList) :=
    hresult
  rw [hactual] at hsource
  rcases hsign with rfl | rfl
  · revert hsource
    decide
  · revert hsource
    decide

end Invocation
