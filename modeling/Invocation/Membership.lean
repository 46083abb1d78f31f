import Invocation.AppDBLine
import Invocation.Lib.Pieces

/-!
# Lists of names

What `IsItemInList` says about a list in which nothing is escaped: the pieces
between commas and blanks, empty ones included unless they end the list.
-/

namespace Invocation

set_option autoImplicit false

open Pieces

def listSep (c : Char) : Bool := sepAny listItems c

/-- The list is read as if every blank took the white space behind it along. -/
def squeezeFrom : Bool → Str → Str
  | _, [] => []
  | behind, c :: s =>
    if behind = true ∧ isSpace c = true then squeezeFrom true s
    else if sepBlank c then ' ' :: squeezeFrom true s
    else c :: squeezeFrom false s

def squeeze (list : Str) : Str := squeezeFrom false list

/-! ## One token -/

theorem listSep_iff (c : Char) : listSep c = true ↔ sepBlank c ∨ c = ',' := by
  have hsep : listSep c = (decide (sepBlank c) || (decide (',' = c) || false)) := rfl
  rw [hsep, Bool.or_false, Bool.or_eq_true, decide_eq_true_iff, decide_eq_true_iff,
    eq_comm (a := ',')]

section Token

variable {w : Str} (hslash : '\\' ∉ w) (hw : ∀ c ∈ w, listSep c = false)
include hslash hw

theorem pieceFrom_word : pieceFrom (sepAny listItems) w = true := by
  induction w with
  | nil => rfl
  | cons c w ih =>
    rw [List.mem_cons, not_or] at hslash
    have hrest := ih hslash.2 fun d hd => hw d (List.mem_cons_of_mem _ hd)
    have hc := hw c List.mem_cons_self
    unfold listSep at hc
    rw [pieceFrom.eq_def]
    simp only [if_neg (Ne.symm hslash.1), hc, hrest, Bool.not_false, Bool.and_self]

theorem tokens_split {c : Char} (hc : listSep c = true) (r : Str) :
    tokens listSeparator .multi (w ++ c :: r) =
      w :: tokens listSeparator .multi (if sepBlank c then r.dropWhile isSpace else r) := by
  have hpiece := pieceFrom_word hslash hw
  have hne : c ≠ '\\' := by
    rintro rfl
    exact absurd hc (by decide)
  have htoken : getToken (w ++ c :: r) listSeparator .multi =
      (w, some (if sepBlank c then r.dropWhile isSpace else r)) := by
    rcases (listSep_iff c).mp hc with hblank | rfl
    · have hitems : (buildMultiSeparators listSeparator).map sepItems =
          ([] ++ SepItem.space :: [SepItem.lit ',']).map ([·]) := by decide
      exact getToken_piece [] [.lit ','] (by decide) hitems hpiece hne rfl (decide_eq_true hblank) r
    · have hitems : (buildMultiSeparators listSeparator).map sepItems =
          ([SepItem.space] ++ SepItem.lit ',' :: []).map ([·]) := by decide
      have hcomma : ¬ sepBlank ',' := by decide
      rw [if_neg hcomma]
      exact getToken_piece [.space] [] (by decide) hitems hpiece hne (by decide) (by decide) r
  have hnext : nextToken listSeparator .multi (w ++ c :: r) =
      some (w, if sepBlank c then r.dropWhile isSpace else r) := by
    rw [nextToken, htoken]
  exact Scan.unfold_some (nextToken_shrinks _ _) hnext

theorem tokens_last (hne : w ≠ []) : tokens listSeparator .multi w = [w] := by
  have hmatch : getTokenMultiSepMatch .multi (listItems.map ([·])) (w ++ []) =
      getTokenMultiSepMatch .multi (listItems.map ([·])) [] :=
    getTokenMultiSepMatch_piece rfl rfl listItems w [] (pieceFrom_word hslash hw)
  have hnone : getTokenMultiSepMatch .multi (listItems.map ([·])) [] = none := rfl
  have hitems : (buildMultiSeparators listSeparator).map sepItems =
    listItems.map ([·]) := by decide +kernel
  rw [List.append_nil, hnone, ← hitems] at hmatch
  have htoken : getToken w listSeparator .multi = (w, some []) := by
    rw [getToken_multiSep rfl (by decide) hne, hmatch]
  have hnext : nextToken listSeparator .multi w = some (w, []) := by rw [nextToken, htoken]
  rw [tokens, Scan.unfold_some (nextToken_shrinks _ _) hnext]
  rfl

end Token

/-! ## All tokens -/

theorem squeezeFrom_true (s : Str) : squeezeFrom true s = squeeze (s.dropWhile isSpace) := by
  unfold squeeze
  induction s with
  | nil => rfl
  | cons c s ih =>
    cases hc : isSpace c with
    | true =>
      rw [squeezeFrom, if_pos ⟨rfl, hc⟩, List.dropWhile_cons_of_pos hc]
      exact ih
    | false => rw [List.dropWhile_cons_of_neg (by simp [hc]), squeezeFrom, squeezeFrom]; simp [hc]

theorem squeeze_split {w : Str} (hw : ∀ c ∈ w, listSep c = false) {c : Char}
    (hc : listSep c = true) (r : Str) : ∃ d, listSep d = true ∧
      squeeze (w ++ c :: r) =
        w ++ d :: squeeze (if sepBlank c then r.dropWhile isSpace else r) := by
  unfold squeeze
  induction w with
  | nil =>
    by_cases hblank : sepBlank c
    · refine ⟨' ', by decide, ?_⟩
      rw [List.nil_append, squeezeFrom, if_neg (by simp), if_pos hblank, if_pos hblank,
        squeezeFrom_true]
      rfl
    · refine ⟨c, hc, ?_⟩
      rw [List.nil_append, squeezeFrom, if_neg (by simp), if_neg hblank, if_neg hblank]
      rfl
  | cons a w ih =>
    have ha : ¬ sepBlank a := by
      intro hblank
      have hsep := (listSep_iff a).mpr (Or.inl hblank)
      rw [hw a List.mem_cons_self] at hsep
      cases hsep
    obtain ⟨d, hd, heq⟩ := ih fun b hb => hw b (List.mem_cons_of_mem _ hb)
    refine ⟨d, hd, ?_⟩
    rw [List.cons_append, squeezeFrom, if_neg (by simp), if_neg ha, heq, List.cons_append]

theorem squeeze_word {w : Str} (hw : ∀ c ∈ w, listSep c = false) : squeeze w = w := by
  unfold squeeze
  induction w with
  | nil => rfl
  | cons a w ih =>
    have ha : ¬ sepBlank a := by
      intro hblank
      have hsep := (listSep_iff a).mpr (Or.inl hblank)
      rw [hw a List.mem_cons_self] at hsep
      cases hsep
    rw [squeezeFrom, if_neg (by simp), if_neg ha, ih fun b hb => hw b (List.mem_cons_of_mem _ hb)]

/-- What is left behind a separator has no more than what follows it. -/
theorem behind_sublist (c : Char) (r : Str) :
    (if sepBlank c then r.dropWhile isSpace else r).Sublist r := by
  split_ifs
  · exact List.dropWhile_sublist _
  · exact List.Sublist.refl r

theorem mem_tokens_iff (item : Str) {list : Str} (hslash : '\\' ∉ list) :
    item ∈ tokens listSeparator .multi list ↔ IsPiece listSep (squeeze list) item := by
  induction list using split_induction listSep with
  | last w hw =>
    rw [squeeze_word hw, isPiece_whole hw]
    cases w with
    | nil =>
      have hempty : tokens listSeparator .multi [] = [] := rfl
      simp [hempty]
    | cons a w =>
      rw [tokens_last hslash hw (by simp)]
      simp
  | split w c r hw hc ih =>
    have hbehind := behind_sublist c r
    simp only [List.mem_append, List.mem_cons, not_or] at hslash
    obtain ⟨d, hd, hsqueeze⟩ := squeeze_split hw hc r
    have hrest := ih _ hbehind.length_le fun hmem => hslash.2.2 (hbehind.subset hmem)
    rw [tokens_split hslash.1 hw hc, hsqueeze, isPiece_split hw hd, List.mem_cons, hrest]

theorem isItemInList_iff (item : Str) {list : Str} (hslash : '\\' ∉ list) :
    isItemInList item list = true ↔ item = ['*'] ∨ IsPiece listSep (squeeze list) item := by
  rw [← mem_tokens_iff item hslash, isItemInList]
  by_cases hstar : item = ['*']
  · simp [hstar]
  · simp [hstar, List.any_eq]

/-! ## Exact lists -/

/-- The white space behind blanks does not decide: the squeezed list has the name if and only if
the list has it. -/
def SameRuns (list item : Str) : Prop :=
  IsRun listSep (squeeze list) item ↔ IsRun listSep list item

/-- It never decides when the only white space is blanks. -/
theorem sameRuns_of_blanks (item : Str) {list : Str}
    (h : ∀ c ∈ list, isSpace c = true → sepBlank c) : SameRuns list item := by
  unfold SameRuns
  induction list using split_induction listSep with
  | last w hw => rw [squeeze_word hw]
  | split w c r hw hc ih =>
    have hbehind := behind_sublist c r
    obtain ⟨d, hd, hsqueeze⟩ := squeeze_split hw hc r
    have hr : ∀ a ∈ r, isSpace a = true → sepBlank a := fun a ha =>
      h a (List.mem_append_right _ (List.mem_cons_of_mem _ ha))
    have hdropped : IsRun listSep (if sepBlank c then r.dropWhile isSpace else r) item ↔
        IsRun listSep r item := by
      split_ifs
      · have hblanks : ∀ a ∈ r.takeWhile isSpace, listSep a = true := fun a ha =>
          (listSep_iff a).mpr
            (Or.inl (hr a ((List.takeWhile_prefix _).subset ha) (List.mem_takeWhile_imp ha)))
        rw [← isRun_separators (t := r.dropWhile isSpace) hblanks, List.takeWhile_append_dropWhile]
      · exact Iff.rfl
    have hrest := ih _ hbehind.length_le fun a ha => hr a (hbehind.subset ha)
    rw [hsqueeze, isRun_split hw hd, isRun_split hw hc, hrest, hdropped]

/-- The items about which a list is right: a `*` that stands in it, the empty text unless a
separator starts the list or follows another, and names that do not depend on other white space
than blanks. -/
def Exact (item list : Str) : Prop :=
  if item = ['*'] then IsRun listSep list item
  else if item = [] then ¬ IsPiece listSep (squeeze list) []
  else SameRuns list item

/-- `IsItemInList` finds the maximal runs of a list, and nothing else, exactly on these items. -/
theorem isItemInList_exact_iff (item : Str) {list : Str} (hslash : '\\' ∉ list) :
    (isItemInList item list = true ↔ IsRun listSep list item) ↔ Exact item list := by
  rw [isItemInList_iff item hslash]
  unfold Exact SameRuns
  split_ifs with hstar hempty
  · simp [hstar]
  · have hnot : ¬ IsRun listSep list [] := fun h => h.1 rfl
    simp [hempty, hnot]
  · simp [hstar, IsRun, hempty]

theorem isItemInList_exact_iff_plain :
    (isItemInList "eve".toList "adam, eve".toList = true ↔
      IsRun listSep "adam, eve".toList "eve".toList) ↔ Exact "eve".toList "adam, eve".toList :=
  isItemInList_exact_iff _ (by decide)

/-- The empty name is in a list with a blank behind a comma, and so is a star. -/
theorem isItemInList_not_exact :
    ¬ ∀ item list : Str, '\\' ∉ list →
      (isItemInList item list = true ↔ IsRun listSep list item) := by
  intro h
  have hmem : isItemInList [] "adam, eve".toList = true := by decide +kernel
  exact ((h [] "adam, eve".toList (by decide)).mp hmem).1 rfl

end Invocation
