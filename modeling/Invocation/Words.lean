import Invocation.Tokenizer

/-!
# Words of the quote-aware tokeniser

`wordFrom sep` reads a text the way `GetTokenFindSeparator` walks over it when
quotes are honoured: a backslash hides one character, a quote hides everything
up to its partner. A text it accepts shows no separator and leaves nothing
open, so the tokeniser takes it off a longer string in one piece.
-/

namespace Invocation

set_option autoImplicit false

/-! ## Progress -/

theorem traverseUntil_self (q : Char) (s : Str) : traverseUntil q (q :: s) = q :: s := by
  unfold traverseUntil
  rw [if_pos rfl]

theorem traverseUntil_backslash {q : Char} (h : '\\' ≠ q) (c : Char) (s : Str) :
    traverseUntil q ('\\' :: c :: s) = traverseUntil q s := by
  rw [traverseUntil, if_neg h, if_pos rfl]

theorem traverseUntil_other {q c : Char} (h1 : c ≠ q) (h2 : c ≠ '\\') (s : Str) :
    traverseUntil q (c :: s) = traverseUntil q s := by
  rw [traverseUntil.eq_def]
  simp [h1, h2]

theorem traverseUntil_suffix (q : Char) (s : Str) : traverseUntil q s <:+ s := by
  fun_induction traverseUntil q s with
  | case1 => exact List.suffix_refl _
  | case2 => exact List.suffix_refl _
  | case3 => exact List.nil_suffix
  | case4 _ _ t ih =>
    apply ih.trans
    exact (List.suffix_cons _ _).trans (List.suffix_cons _ _)
  | case5 c s _ _ ih => exact ih.trans (List.suffix_cons _ _)

theorem getTokenStepThru_suffix (fl : TokenFlags) (c : Char) (s : Str) :
    getTokenStepThru fl (c :: s) <:+ s := by
  simp only [getTokenStepThru]
  by_cases h1 : c = '\\' ∧ fl.backslash = false ∧ s ≠ []
  · rw [if_pos h1]
    exact List.tail_suffix s
  · rw [if_neg h1]
    by_cases h2 : isQuote c = true ∧ fl.honorQuotes = true
    · rw [if_pos h2]
      exact (List.tail_suffix _).trans (traverseUntil_suffix c s)
    · rw [if_neg h2]

/-- A failed match leaves the start pointer in place or moves it into the text matched so far. -/
theorem getTokenSepMatch_failed (fl : TokenFlags) (start : Str) (items : List SepItem) (s : Str)
    {u : Str} (h : getTokenSepMatch fl start items s = .failed u) : u = start ∨ u <:+ s := by
  induction items generalizing s with
  | nil => simp [getTokenSepMatch] at h
  | cons item items ih =>
    cases s with
    | nil =>
      simp only [getTokenSepMatch, SepMatch.failed.injEq] at h
      exact Or.inr (by simp [← h])
    | cons c s =>
      have hd : s.dropWhile isSpace <:+ s := List.dropWhile_suffix isSpace
      have shorter {t : Str} (ht : t <:+ s)
          (hm : getTokenSepMatch fl start items t = .failed u) : u = start ∨ u <:+ c :: s := by
        rcases ih t hm with hu | hu
        · exact Or.inl hu
        · exact Or.inr ((hu.trans ht).trans (List.suffix_cons c s))
      have stays (hf : SepMatch.failed start = .failed u) : u = start ∨ u <:+ c :: s := by
        cases hf
        exact Or.inl rfl
      unfold getTokenSepMatch at h
      split at h
      · split at h
        · split at h
          · exact shorter (List.suffix_refl s) h
          · exact stays h
        · cases h
          exact Or.inr (List.suffix_cons c u)
      · split at h
        · split at h
          · exact stays h
          · split at h
            · exact shorter (List.suffix_refl s) h
            · exact stays h
        · split at h
          · split at h
            · exact shorter hd h
            · split at h
              · exact shorter (List.suffix_refl s) h
              · exact stays h
          · split at h
            · split at h
              · exact shorter (List.suffix_refl s) h
              · exact stays h
            · split at h
              · exact shorter (List.suffix_refl s) h
              · exact stays h

/-- The search goes on in the text behind the cursor. -/
theorem findSeparatorStep_move {fl : TokenFlags} {items : List SepItem} {a : Char} {s t : Str}
    (ht : findSeparatorStep fl items (a :: s) = .inr t) : t <:+ s := by
  have key {u : Str} (hu : getTokenSepMatch fl (a :: s) items (a :: s) = .failed u) :
      getTokenStepThru fl u <:+ s := by
    rcases getTokenSepMatch_failed fl (a :: s) items (a :: s) hu with rfl | h
    · exact getTokenStepThru_suffix fl a s
    · cases u with
      | nil => exact List.nil_suffix
      | cons c u =>
        apply (getTokenStepThru_suffix fl c u).trans
        rcases List.suffix_cons_iff.mp h with heq | h
        · injection heq with _ heq
          rw [heq]
        · exact (List.suffix_cons c u).trans h
  unfold findSeparatorStep at ht
  split at ht
  · rename_i b heq
    injection heq with _ hb
    subst hb
    split at ht
    · cases ht
      exact List.tail_suffix s
    · split at ht
      · cases ht
      · rename_i u hu
        cases ht
        have ha : a = '\\' := by assumption
        subst ha
        exact key hu
  · split at ht
    · cases ht
    · rename_i u hu
      cases ht
      exact key hu

theorem findSeparatorStep_stop {fl : TokenFlags} {items : List SepItem} {s : Str} {p : Str × Str}
    (h : findSeparatorStep fl items s = .inl p) :
    p.1 = s ∧ getTokenSepMatch fl s items s = .matched p.2 := by
  have key {e : Str} (he : getTokenSepMatch fl s items s = .matched e) (hp : (s, e) = p) :
      p.1 = s ∧ getTokenSepMatch fl s items s = .matched p.2 := by
    subst hp
    exact ⟨rfl, he⟩
  unfold findSeparatorStep at h
  split at h
  · split at h
    · cases h
    · split at h
      · rename_i e he
        exact key he (Sum.inl.inj h)
      · cases h
  · split at h
    · rename_i e he
      exact key he (Sum.inl.inj h)
    · cases h

theorem findSeparatorStep_advances (fl : TokenFlags) (items : List SepItem) :
    Scan.Advances (findSeparatorStep fl items) := by
  intro a s t ht
  exact (findSeparatorStep_move ht).length_le

/-- A match ends behind the cursor and consumes at least one character for each item. -/
theorem getTokenSepMatch_matched (fl : TokenFlags) (start : Str) (items : List SepItem) (s : Str)
    {e : Str} (h : getTokenSepMatch fl start items s = .matched e) :
    e <:+ s ∧ e.length + items.length ≤ s.length := by
  induction items generalizing s with
  | nil =>
    simp only [getTokenSepMatch, SepMatch.matched.injEq] at h
    simp [h]
  | cons item items ih =>
    cases s with
    | nil => cases h
    | cons c s =>
      have hd : s.dropWhile isSpace <:+ s := List.dropWhile_suffix isSpace
      have shorter {t : Str} (ht : t <:+ s)
          (hm : getTokenSepMatch fl start items t = .matched e) :
          e <:+ c :: s ∧ e.length + (item :: items).length ≤ (c :: s).length := by
        obtain ⟨hsuffix, hlength⟩ := ih t hm
        have := ht.length_le
        simp only [List.length_cons]
        exact ⟨(hsuffix.trans ht).trans (List.suffix_cons c s), by omega⟩
      have here := shorter (List.suffix_refl s)
      unfold getTokenSepMatch at h
      split at h
      · split at h
        · split at h
          · exact here h
          · cases h
        · cases h
      · split at h
        · split at h
          · cases h
          · split at h
            · exact here h
            · cases h
        · split at h
          · split at h
            · exact shorter hd h
            · split at h
              · exact here h
              · cases h
          · split at h
            · split at h
              · exact here h
              · cases h
            · split at h
              · exact here h
              · cases h

theorem multiSepStep_advances (fl : TokenFlags) (seps : List (List SepItem)) :
    Scan.Advances (multiSepStep fl seps) := by
  intro a s t ht
  unfold multiSepStep at ht
  split at ht
  · cases ht
  · cases ht
    exact (getTokenStepThru_suffix fl a s).length_le

theorem sepItems_ne_nil {p : Str} (h : p ≠ []) : sepItems p ≠ [] := by
  fun_cases sepItems p <;> simp_all

/-- A search result `(start, end)` of a non-empty text: the end lies behind the start. -/
def Separates (s : Str) (p : Str × Str) : Prop :=
  s ≠ [] → p.1.length ≤ s.length ∧ p.2.length < s.length

theorem getTokenSepMatch_separates {fl : TokenFlags} {items : List SepItem} (hne : items ≠ [])
    {s e : Str} (h : getTokenSepMatch fl s items s = .matched e) : Separates s (s, e) := by
  intro _
  have := (getTokenSepMatch_matched fl s items s h).2
  have := List.length_pos_of_ne_nil hne
  refine ⟨Nat.le_refl _, ?_⟩
  show e.length < s.length
  omega

theorem separates_move {a : Char} {s t : Str} {p : Str × Str} (ht : t.length ≤ s.length)
    (hend : t = [] → p = ([], [])) (h : Separates t p) : Separates (a :: s) p := by
  intro _
  by_cases hnil : t = []
  · rw [hend hnil]
    simp
  · have := h hnil
    simp only [List.length_cons]
    exact ⟨by omega, by omega⟩

theorem getTokenFindSeparator_separates (fl : TokenFlags) {items : List SepItem} (hne : items ≠ [])
    (s : Str) : Separates s (getTokenFindSeparator fl items s) := by
  have hadv := findSeparatorStep_advances fl items
  suffices h : Separates s (getTokenFindSeparator fl items s) ∧
      (s = [] → getTokenFindSeparator fl items s = ([], [])) from h.1
  refine Scan.find_induct hadv
    (fun s p => Separates s p ∧ (s = [] → p = ([], [])))
      ⟨fun h => absurd rfl h, fun _ => rfl⟩ ?_ ?_ s
  · intro a s b hb
    obtain ⟨h1, h2⟩ := findSeparatorStep_stop hb
    have hsep := getTokenSepMatch_separates hne h2
    rw [← h1] at hsep
    exact ⟨h1 ▸ hsep, fun h => by cases h⟩
  · intro a s t b hs ih
    exact ⟨separates_move (hadv a s t hs) ih.2 ih.1, fun h => by cases h⟩

theorem getTokenMultiSepMatch_separates (fl : TokenFlags) {seps : List (List SepItem)}
    (hne : ∀ items ∈ seps, items ≠ []) (s : Str) :
    ∀ p, getTokenMultiSepMatch fl seps s = some p → Separates s p ∧ s ≠ [] := by
  have hadv := multiSepStep_advances fl seps
  refine Scan.find_induct hadv (fun s r => ∀ p, r = some p → Separates s p ∧ s ≠ []) ?_ ?_ ?_ s
  · intro p hp
    cases hp
  · intro a s b hb p hp
    refine ⟨?_, by simp⟩
    subst hp
    unfold multiSepStep at hb
    split at hb
    · rename_i q hq
      cases hb
      unfold matchAnySeparator at hq
      obtain ⟨items, hmem, hm⟩ := List.exists_of_findSome?_eq_some hq
      split at hm
      · rename_i e he
        cases hm
        exact getTokenSepMatch_separates (hne items hmem) he
      · cases hm
    · cases hb
  · intro a s t b hs ih p hp
    obtain ⟨h1, h2⟩ := ih p hp
    exact ⟨separates_move (hadv a s t hs) (fun h => absurd h h2) h1, by simp⟩

theorem getTokenFindSeparator_suffix (fl : TokenFlags) (items : List SepItem) (s : Str) :
    (getTokenFindSeparator fl items s).1 <:+ s ∧
      (getTokenFindSeparator fl items s).2 <:+ (getTokenFindSeparator fl items s).1 := by
  refine Scan.find_induct (findSeparatorStep_advances fl items)
    (fun s p => p.1 <:+ s ∧ p.2 <:+ p.1) ⟨List.nil_suffix, List.suffix_refl _⟩ ?_ ?_ s
  · intro a s p hp
    obtain ⟨h1, h2⟩ := findSeparatorStep_stop hp
    rw [h1]
    exact ⟨List.suffix_refl _, (getTokenSepMatch_matched fl (a :: s) items (a :: s) h2).1⟩
  · intro a s t p ht ih
    exact ⟨(ih.1.trans (findSeparatorStep_move ht)).trans (List.suffix_cons a s), ih.2⟩

theorem getTokenPostProcess_shrinks (fl : TokenFlags) {s : Str} {p : Str × Str} (hs : s ≠ [])
    (h : Separates s p) {rest : Str} (hr : (getTokenPostProcess fl s p.1 p.2).2 = some rest) :
    rest.length < s.length := by
  obtain ⟨h1, h2⟩ := h hs
  simp only [getTokenPostProcess, Option.some.injEq] at hr
  split at hr
  · rename_i hc
    subst hr
    omega
  · subst hr
    exact h2

theorem getToken_shrinks (s separator : Str) (fl : TokenFlags) {rest : Str}
    (h : (getToken s separator fl).2 = some rest) : rest.length < s.length := by
  unfold getToken at h
  split at h
  · cases h
  · cases h
  · rename_i sep more hs
    have hlt := List.length_pos_of_ne_nil (l := s) (by simpa using hs)
    split at h
    · unfold getTokenSimple at h
      have hd := (List.dropWhile_sublist (p := (· ≠ sep)) (l := s)).length_le
      split at h
      · cases h
        simpa using hlt
      · rename_i c t hdrop
        rw [hdrop, List.length_cons] at hd
        split at h
        · cases h
          omega
        · refine getTokenPostProcess_shrinks fl (p := (c :: t, t)) (by simpa using hs) ?_ h
          intro _
          simp only [List.length_cons]
          exact ⟨hd, by omega⟩
    · split at h
      · split at h
        · rename_i a b hm
          refine getTokenPostProcess_shrinks fl (p := (a, b)) (by simpa using hs) ?_ h
          refine (getTokenMultiSepMatch_separates fl ?_ s _ hm).1
          intro items hi
          obtain ⟨piece, hp, rfl⟩ := List.mem_map.mp hi
          refine sepItems_ne_nil ?_
          have := (List.mem_filter.mp hp).2
          simpa using this
        · cases h
          simpa using hlt
      · exact getTokenPostProcess_shrinks fl (by simpa using hs)
          (getTokenFindSeparator_separates fl (sepItems_ne_nil (by simp)) s) h

/-- Every token leaves a strictly shorter rest, so the loops over tokens end. -/
theorem nextToken_shrinks (separator : Str) (fl : TokenFlags) :
    Scan.Shrinks (nextToken separator fl) := by
  intro s b t h
  unfold nextToken at h
  split at h
  · rename_i token rest hg
    cases h
    exact getToken_shrinks s separator fl (by rw [hg])
  · cases h

theorem nextPair_shrinks (pairDelim nameValueDelim : Str) :
    Scan.Shrinks (nextPair pairDelim nameValueDelim) := by
  intro s b t h
  unfold nextPair at h
  split at h
  · rename_i pair rest hg
    cases h
    refine getToken_shrinks s pairDelim .quotes ?_
    exact congrArg Prod.snd hg
  · cases h

theorem getTokenPostProcess_suffix (fl : TokenFlags) (search : Str) {p : Str × Str} {s rest : Str}
    (h : p.1 <:+ s ∧ p.2 <:+ p.1) (hr : (getTokenPostProcess fl search p.1 p.2).2 = some rest) :
    rest <:+ s := by
  simp only [getTokenPostProcess, Option.some.injEq] at hr
  split at hr
  · rw [← hr]
    exact h.1
  · rw [← hr]
    exact h.2.trans h.1

theorem getTokenMultiSepMatch_suffix (fl : TokenFlags) (seps : List (List SepItem)) (s : Str) :
    ∀ p, getTokenMultiSepMatch fl seps s = some p → p.1 <:+ s ∧ p.2 <:+ p.1 := by
  refine Scan.find_induct (multiSepStep_advances fl seps)
    (fun s r => ∀ p, r = some p → p.1 <:+ s ∧ p.2 <:+ p.1) ?_ ?_ ?_ s
  · intro p hp
    cases hp
  · intro a s r hr p hp
    subst hp
    unfold multiSepStep at hr
    cases hm : matchAnySeparator fl seps (a :: s) with
    | none => simp [hm] at hr
    | some q =>
      simp only [hm, Sum.inl.injEq, Option.some.injEq] at hr
      subst hr
      unfold matchAnySeparator at hm
      obtain ⟨items, _, hitems⟩ := List.exists_of_findSome?_eq_some hm
      cases he : getTokenSepMatch fl (a :: s) items (a :: s) with
      | failed u => simp [he] at hitems
      | matched e =>
        simp only [he, Option.some.injEq] at hitems
        subst hitems
        exact ⟨List.suffix_refl _, (getTokenSepMatch_matched fl _ items _ he).1⟩
  · intro a s t r ht ih p hp
    obtain ⟨h1, h2⟩ := ih p hp
    refine ⟨h1.trans ?_, h2⟩
    unfold multiSepStep at ht
    cases hm : matchAnySeparator fl seps (a :: s) with
    | some q => simp [hm] at ht
    | none =>
      simp only [hm, Sum.inr.injEq] at ht
      subst ht
      exact (getTokenStepThru_suffix fl a s).trans (List.suffix_cons a s)

/-- The pointer that `GetToken` returns points into the searched string. -/
theorem getToken_suffix (s separator : Str) (fl : TokenFlags) {rest : Str}
    (h : (getToken s separator fl).2 = some rest) : rest <:+ s := by
  unfold getToken at h
  split at h
  · cases h
  · cases h
  · rename_i sep more hs
    split at h
    · unfold getTokenSimple at h
      have hd : s.dropWhile (· ≠ sep) <:+ s := List.dropWhile_suffix _
      split at h
      · cases h
        exact List.nil_suffix
      · rename_i c t hdrop
        rw [hdrop] at hd
        have ht : t <:+ c :: t := List.suffix_cons c t
        split at h
        · cases h
          exact ht.trans hd
        · exact getTokenPostProcess_suffix fl s (p := (c :: t, t)) ⟨hd, ht⟩ h
    · split at h
      · split at h
        · rename_i a b hm
          exact getTokenPostProcess_suffix fl s (p := (a, b))
            (getTokenMultiSepMatch_suffix fl _ s _ hm) h
        · cases h
          exact List.nil_suffix
      · exact getTokenPostProcess_suffix fl s (getTokenFindSeparator_suffix fl _ s) h

theorem nextToken_finishes (separator : Str) (fl : TokenFlags) :
    Scan.Finishes (nextToken separator fl) := by
  apply (nextToken_shrinks separator fl).finishes
  intro s token rest h
  apply getToken_suffix s separator fl
  unfold nextToken at h
  split at h
  · rename_i token' rest' hg
    cases h
    rw [hg]
  · cases h

theorem nextPair_finishes (pairDelim nameValueDelim : Str) :
    Scan.Finishes (nextPair pairDelim nameValueDelim) := by
  apply (nextPair_shrinks pairDelim nameValueDelim).finishes
  intro s pair rest h
  apply getToken_suffix s pairDelim .quotes
  unfold nextPair at h
  split at h
  · rename_i pair' rest' hg
    cases h
    exact congrArg Prod.snd hg
  · cases h

/-! ## Characters of a token -/

/-- The search goes past an opening quote, except for a lone one. -/
theorem getTokenFindSeparator_quote {fl : TokenFlags} (hfl : fl.honorQuotes = true)
    {items : List SepItem} (hne : items ≠ []) {q : Char} (hq : isQuote q = true) {s : Str}
    (hs : s ≠ []) : (getTokenFindSeparator fl items (q :: s)).1.length < s.length := by
  have hbackslash : q ≠ '\\' := by
    rintro rfl
    cases hq
  have hstep : findSeparatorStep fl items (q :: s) = .inr (traverseUntil q s).tail := by
    obtain ⟨item, items, rfl⟩ := List.exists_cons_of_ne_nil hne
    unfold findSeparatorStep
    split
    · rename_i t heq
      injection heq with hc _
      exact absurd hc hbackslash
    · simp [getTokenSepMatch, getTokenStepThru, hbackslash, hq, hfl]
  have hfind := getTokenFindSeparator_suffix fl items (traverseUntil q s).tail
  have htraverse := (traverseUntil_suffix q s).length_le
  have hlength := hfind.1.length_le
  have hpos := List.length_pos_of_ne_nil hs
  rw [getTokenFindSeparator, Scan.find_move (findSeparatorStep_advances fl items) hstep,
    ← getTokenFindSeparator]
  rw [List.length_tail] at hlength
  omega

/-- Quoted or not, the text that ends at the separator gives up its quotes at most. -/
theorem stripTokenQuotes_sublist {search tok : Str}
    (h : ∀ q, isQuote q = true → tok = [q] → search.tail = []) :
    (stripTokenQuotes search tok).Sublist tok := by
  unfold stripTokenQuotes
  split
  · exact List.Sublist.refl _
  · rename_i q t
    split
    · rename_i hq
      split
      · rename_i ht
        rw [h q hq (by rw [ht])]
        exact List.nil_sublist _
      · split
        · exact (List.dropLast_sublist t).trans (List.sublist_cons_self q t)
        · exact List.Sublist.refl _
    · exact List.Sublist.refl _

theorem stripQuotes_sublist (s : Str) : (stripQuotes s).Sublist s := by
  have hdrop : (s.dropWhile isSpace).Sublist s := List.dropWhile_sublist isSpace
  unfold stripQuotes
  split
  · exact List.Sublist.refl _
  · rename_i q rest heq
    rw [heq] at hdrop
    split
    · split
      · exact List.takeWhile_sublist isSpace
      · split
        · exact ((List.dropLast_sublist rest).trans (List.sublist_cons_self q rest)).trans hdrop
        · exact List.Sublist.refl _
    · exact List.Sublist.refl _

/-- The token comes from the text in front of the separator, and the rest from behind it. -/
theorem getToken_parts {separator : Str} (hsep : separator ≠ []) {s start tail : Str} (hs : s ≠ [])
    (hfind : getTokenFindSeparator .quotes (sepItems separator) s = (start, tail)) :
    ∃ before, before ++ start = s ∧ (getToken s separator .quotes).1.Sublist before ∧
      (getToken s separator .quotes).2 = some tail := by
  have hitems := sepItems_ne_nil hsep
  obtain ⟨sep, more, rfl⟩ := List.exists_cons_of_ne_nil hsep
  obtain ⟨c, s, rfl⟩ := List.exists_cons_of_ne_nil hs
  obtain ⟨before, hbefore⟩ :=
    (getTokenFindSeparator_suffix .quotes (sepItems (sep :: more)) (c :: s)).1
  have htoken : getToken (c :: s) (sep :: more) .quotes =
      (stripTokenQuotes (c :: s) ((c :: s).take ((c :: s).length -
        (getTokenFindSeparator .quotes (sepItems (sep :: more)) (c :: s)).1.length)),
        some (getTokenFindSeparator .quotes (sepItems (sep :: more)) (c :: s)).2) := rfl
  have hlone := fun q (hq : isQuote q = true) (hnil : s ≠ []) (hc : c = q) =>
    @getTokenFindSeparator_quote .quotes rfl _ hitems c (hc ▸ hq) s hnil
  rw [hfind] at hbefore htoken hlone
  have htake : (c :: s).take ((c :: s).length - start.length) = before := by
    rw [← hbefore]
    simp
  rw [htoken, htake]
  refine ⟨before, hbefore, ?_, rfl⟩
  apply stripTokenQuotes_sublist
  intro q hq hbq
  by_contra hnil
  rw [hbq] at hbefore
  obtain ⟨hc, hrest⟩ := List.cons.inj hbefore
  have hlt := hlone q hq hnil hc.symm
  rw [← hrest] at hlt
  exact absurd hlt (Nat.lt_irrefl _)

/-- No character of the text is both in the token and behind it. -/
theorem getToken_count (a : Char) {separator : Str} (hsep : separator ≠ []) (s : Str) :
    (getToken s separator .quotes).1.count a +
      ((getToken s separator .quotes).2.getD []).count a ≤ s.count a := by
  by_cases hs : s = []
  · subst hs
    exact Nat.zero_le _
  · have hsuffix := (getTokenFindSeparator_suffix .quotes (sepItems separator) s).2
    cases hfind : getTokenFindSeparator .quotes (sepItems separator) s with
    | mk start tail =>
      rw [hfind] at hsuffix
      obtain ⟨before, hbefore, htoken, hrest⟩ := getToken_parts hsep hs hfind
      have hcount : s.count a = before.count a + start.count a := by
        rw [← hbefore, List.count_append]
      rw [hrest, Option.getD_some, hcount]
      exact Nat.add_le_add (htoken.count_le a) (hsuffix.sublist.count_le a)

theorem splitNameValue_count (a : Char) {delim : Str} (hdelim : delim ≠ []) (token : Str) :
    (splitNameValue token delim).1.count a + (splitNameValue token delim).2.count a ≤
      token.count a := by
  unfold splitNameValue splitNameText readValue
  by_cases htoken : token = []
  · rw [if_pos htoken]
    exact Nat.zero_le _
  · rw [if_neg htoken]
    have hcount := getToken_count a hdelim token
    have hstrip := (stripQuotes_sublist ((getToken token delim .quotes).2.getD [])).count_le a
    by_cases hvalue : (getToken token delim .quotes).2.getD [] = []
    · simp only [hvalue, if_true, List.count_nil] at hcount ⊢
      exact hcount
    · simp only [hvalue, if_false]
      omega

theorem pairs_count (a : Char) {pairDelim delim : Str} (hpair : pairDelim ≠ [])
    (hdelim : delim ≠ [])
    (s : Str) : ((pairs pairDelim delim s).map fun p => p.1.count a + p.2.count a).sum ≤
      s.count a := by
  refine Scan.unfold_weight ?_ s
  intro s b t h
  unfold nextPair getNameValuePair at h
  have htoken := getToken_count a hpair s
  have hsplit := splitNameValue_count a hdelim (getToken s pairDelim .quotes).1
  cases hg : getToken s pairDelim .quotes with
  | mk token rest =>
    rw [hg] at h htoken hsplit
    cases rest with
    | none => cases h
    | some rest =>
      cases h
      simp only [Option.getD_some] at htoken
      exact (Nat.add_le_add_right hsplit _).trans htoken

/-! ## Steps of the search -/

abbrev sepBlank (c : Char) : Prop := c = ' ' ∨ c = '\t' ∨ c = '\n' ∨ c = '\r'

abbrev sepCode (c : Char) : Prop := c = '(' ∨ c = ')' ∨ c = '=' ∨ c = '!' ∨ c = '<' ∨ c = '>'

/-- The characters that a one-item pattern matches. -/
def sepChar : SepItem → Char → Bool
  | .space, c => decide (sepBlank c)
  | .code, c => decide (sepBlank c ∨ sepCode c)
  | .lit d, c => decide (d = c)

/-- What follows a match of the item at `c`: a blank takes its whole run along. -/
def sepEnd : SepItem → Char → Str → Str
  | .lit _, _, s => s
  | _, c, s => if sepBlank c then s.dropWhile isSpace else s

section Steps

variable (fl : TokenFlags)

theorem findSeparatorStep_backslash (hb : fl.backslash = false) (items : List SepItem) (s : Str) :
    findSeparatorStep fl items ('\\' :: s) = .inr s.tail := by
  simp [findSeparatorStep, hb]

theorem findSeparatorStep_quote (hq : fl.honorQuotes = true) (item : SepItem) {q : Char}
    (h : isQuote q = true) (s : Str) :
    findSeparatorStep fl [item] (q :: s) = .inr (traverseUntil q s).tail := by
  have hne : q ≠ '\\' := by
    rintro rfl
    exact absurd h (by decide)
  simp [findSeparatorStep, getTokenSepMatch, getTokenStepThru, hne, h, hq]

theorem getTokenSepMatch_quote (hq : fl.honorQuotes = false) (item : SepItem) {c : Char}
    (h : isQuote c = true) (start s : Str) :
    getTokenSepMatch fl start [item] (c :: s) =
      if sepChar item c then .matched (sepEnd item c s) else .failed start := by
  obtain rfl | rfl : c = '"' ∨ c = '\'' := by simpa [isQuote] using h
  all_goals
    cases item <;> simp [getTokenSepMatch, sepChar, sepEnd, isQuote, hq]

/-- Off the backslash, one item matches one character; quotes never match while they are
honoured. -/
theorem getTokenSepMatch_plain (item : SepItem) {c : Char} (h1 : c ≠ '\\')
    (h2 : isQuote c = false ∨ fl.honorQuotes = false) (start s : Str) :
    getTokenSepMatch fl start [item] (c :: s) =
      if sepChar item c then .matched (sepEnd item c s) else .failed start := by
  by_cases hc : isQuote c = true
  · have hq : fl.honorQuotes = false := by
      rcases h2 with h | h
      · rw [hc] at h
        cases h
      · exact h
    exact getTokenSepMatch_quote fl hq item hc start s
  rw [Bool.not_eq_true] at hc
  simp only [getTokenSepMatch, if_neg h1, hc, Bool.false_eq_true, if_false]
  by_cases hw : sepBlank c
  · rw [if_pos hw]
    cases item with
    | space => simp only [sepChar, sepEnd, hw, true_or, decide_true, if_true]
    | code => simp only [sepChar, sepEnd, hw, true_or, or_true, decide_true, if_true]
    | lit d => simp [sepChar, sepEnd]
  · rw [if_neg hw]
    by_cases hc : sepCode c
    · rw [if_pos hc]
      cases item with
      | space => simp [sepChar, hw]
      | code =>
        simp only [sepChar, sepEnd, hw, hc, true_or, or_true, decide_true, if_true, if_false]
      | lit d => simp [sepChar, sepEnd]
    · rw [if_neg hc]
      cases item with
      | space => simp [sepChar, hw]
      | code => simp [sepChar, hw, hc]
      | lit d => simp [sepChar, sepEnd]

theorem findSeparatorStep_other (item : SepItem) {c : Char} (h1 : c ≠ '\\')
    (h2 : isQuote c = false) (h3 : sepChar item c = false) (s : Str) :
    findSeparatorStep fl [item] (c :: s) = .inr s := by
  have hm : getTokenSepMatch fl (c :: s) [item] (c :: s) = _ :=
    getTokenSepMatch_plain fl item h1 (Or.inl h2) (c :: s) s
  rw [h3] at hm
  simp [findSeparatorStep, hm, getTokenStepThru, h1, h2]

theorem findSeparatorStep_separator (item : SepItem) {c : Char} (h1 : c ≠ '\\')
    (h2 : isQuote c = false) (h3 : sepChar item c = true) (s : Str) :
    findSeparatorStep fl [item] (c :: s) = .inl (c :: s, sepEnd item c s) := by
  have hm : getTokenSepMatch fl (c :: s) [item] (c :: s) = _ :=
    getTokenSepMatch_plain fl item h1 (Or.inl h2) (c :: s) s
  rw [h3] at hm
  simp [findSeparatorStep, hm, h1]

end Steps

/-! ## Words -/

/-- No separator in sight and nothing left open, reading on inside the quote `mode`. -/
def wordFrom (sep : Char → Bool) : Option Char → Str → Bool
  | none, [] => true
  | some _, [] => false
  | none, c :: s =>
    if c = '\\' then
      match s with
      | [] => false
      | _ :: t => wordFrom sep none t
    else if isQuote c then wordFrom sep (some c) s
    else !sep c && wordFrom sep none s
  | some q, c :: s =>
    if c = q then wordFrom sep none s
    else if c = '\\' then
      match s with
      | [] => false
      | _ :: t => wordFrom sep (some q) t
    else wordFrom sep (some q) s

/-- The cursor behind the quote that `mode` has open. -/
def leaveQuote : Option Char → Str → Str
  | none, s => s
  | some q, s => (traverseUntil q s).tail

/-- A search that goes on behind hidden characters, behind quoted text and behind characters that
do not separate goes on behind a word. -/
theorem passes_word {β : Type} {F : Str → β} {sep : Char → Bool}
    (hbackslash : ∀ c s, F ('\\' :: c :: s) = F s)
    (hquote : ∀ q s, isQuote q = true → F (q :: s) = F (traverseUntil q s).tail)
    (hother : ∀ c s, c ≠ '\\' → isQuote c = false → sep c = false → F (c :: s) = F s)
    (r : Str) (mode : Option Char) (w : Str) (h : wordFrom sep mode w = true) :
    F (leaveQuote mode (w ++ r)) = F r := by
  fun_induction wordFrom sep mode w with
  | case1 => rfl
  | case2 => cases h
  | case3 => cases h
  | case4 a t ih =>
    refine Eq.trans ?_ (ih h)
    exact hbackslash a (t ++ r)
  | case5 c s _ hc ih =>
    refine Eq.trans ?_ (ih h)
    exact hquote c (s ++ r) hc
  | case6 c s h1 h2 ih =>
    simp only [Bool.and_eq_true, Bool.not_eq_true'] at h
    refine Eq.trans ?_ (ih h.2)
    exact hother c (s ++ r) h1 (by simpa using h2) h.1
  | case7 q s ih =>
    refine Eq.trans ?_ (ih h)
    simp [leaveQuote, traverseUntil_self]
  | case8 => cases h
  | case9 q c s hne ih =>
    refine Eq.trans ?_ (ih h)
    simp [leaveQuote, traverseUntil_backslash hne]
  | case10 q c s h1 h2 ih =>
    refine Eq.trans ?_ (ih h)
    simp [leaveQuote, traverseUntil_other h1 h2]

theorem getTokenFindSeparator_word (fl : TokenFlags) (hb : fl.backslash = false)
    (hq : fl.honorQuotes = true) (item : SepItem) (r : Str) (mode : Option Char) (w : Str)
    (h : wordFrom (sepChar item) mode w = true) :
    getTokenFindSeparator fl [item] (leaveQuote mode (w ++ r)) =
      getTokenFindSeparator fl [item] r := by
  have move {c : Char} {s t : Str} (hs : findSeparatorStep fl [item] (c :: s) = .inr t) :
      getTokenFindSeparator fl [item] (c :: s) = getTokenFindSeparator fl [item] t :=
    Scan.find_move (findSeparatorStep_advances fl [item]) hs
  refine passes_word ?_ ?_ ?_ r mode w h
  · intro c s
    exact move (findSeparatorStep_backslash fl hb [item] (c :: s))
  · intro q s hquote
    exact move (findSeparatorStep_quote fl hq item hquote s)
  · intro c s h1 h2 hsep
    exact move (findSeparatorStep_other fl item h1 h2 hsep s)

/-- Characters without a meaning of their own to a quote-aware search. -/
def plainChar (sep : Char → Bool) (c : Char) : Bool := c != '\\' && !isQuote c && !sep c

theorem plainChar_iff (sep : Char → Bool) (c : Char) :
    plainChar sep c = true ↔ c ≠ '\\' ∧ isQuote c = false ∧ sep c = false := by
  simp [plainChar, and_assoc]

theorem wordFrom_plain_append {sep : Char → Bool} {p : Str} (hp : p.all (plainChar sep) = true)
    (s : Str) : wordFrom sep none (p ++ s) = wordFrom sep none s := by
  induction p with
  | nil => rfl
  | cons c p ih =>
    simp only [List.all_cons, Bool.and_eq_true] at hp
    obtain ⟨h1, h2, h3⟩ := (plainChar_iff sep c).mp hp.1
    rw [List.cons_append, wordFrom.eq_def]
    simp only [if_neg h1, h2, h3, Bool.not_false, Bool.true_and, Bool.false_eq_true, if_false]
    exact ih hp.2

theorem wordFrom_plain {sep : Char → Bool} {p : Str} (hp : p.all (plainChar sep) = true) :
    wordFrom sep none p = true := by
  have h := wordFrom_plain_append hp []
  rw [List.append_nil] at h
  rw [h]
  rfl

theorem wordFrom_quote {sep : Char → Bool} {q : Char} (hq : isQuote q = true) (s : Str) :
    wordFrom sep none (q :: s) = wordFrom sep (some q) s := by
  have hne : q ≠ '\\' := by
    rintro rfl
    exact absurd hq (by decide)
  rw [wordFrom.eq_def]
  simp only [if_neg hne, hq, if_true]

theorem wordFrom_inside {sep : Char → Bool} {q : Char} {s : Str} (hs : ∀ c ∈ s, c ≠ q ∧ c ≠ '\\')
    (r : Str) : wordFrom sep (some q) (s ++ q :: r) = wordFrom sep none r := by
  induction s with
  | nil =>
    rw [List.nil_append, wordFrom.eq_def]
    exact if_pos rfl
  | cons c s ih =>
    obtain ⟨h1, h2⟩ := hs c List.mem_cons_self
    rw [List.cons_append, wordFrom.eq_def]
    simp only [if_neg h1, if_neg h2]
    exact ih fun d hd => hs d (List.mem_cons_of_mem c hd)

theorem wordFrom_enclosed {sep : Char → Bool} {q : Char} (hq : isQuote q = true) {s : Str}
    (hs : ∀ c ∈ s, c ≠ q ∧ c ≠ '\\') : wordFrom sep none (q :: s ++ [q]) = true := by
  rw [List.cons_append, wordFrom_quote hq, wordFrom_inside hs]
  rfl

/-- The outer pair of quotes is taken off, as `GetTokenPostProcess` does for a whole word. -/
def dequote : Str → Str
  | [] => []
  | q :: t => if isQuote q && t.getLast? == some q then t.dropLast else q :: t

theorem stripTokenQuotes_word {sep : Char → Bool} {w : Str} (h : wordFrom sep none w = true)
    (search : Str) : stripTokenQuotes search w = dequote w := by
  cases w with
  | nil => rfl
  | cons q t =>
    by_cases hq : isQuote q = true
    · have ht : t ≠ [] := by
        rintro rfl
        have hne : q ≠ '\\' := by
          rintro rfl
          exact absurd hq (by decide)
        simp [wordFrom, hne, hq] at h
      simp [stripTokenQuotes, dequote, hq, ht]
    · simp [stripTokenQuotes, dequote, hq]

/-- `GETTOKEN_HONOR_QUOTES`, alone or as part of `GETTOKEN_QUOTES`. -/
def wordFlags (strip : Bool) : TokenFlags := { honorQuotes := true, stripQuotes := strip }

def wordToken (strip : Bool) (w : Str) : Str := if strip then dequote w else w

section GetToken

variable (strip : Bool) (r : Str) {separator : Str} {item : SepItem}
  (hsep : separator ≠ []) (hitem : sepItems separator = [item])
  {w : Str} (hw : wordFrom (sepChar item) none w = true)
include hsep hitem hw

theorem getToken_find (hne : w ++ r ≠ []) :
    getToken (w ++ r) separator (wordFlags strip) =
      getTokenPostProcess (wordFlags strip) (w ++ r)
        (getTokenFindSeparator (wordFlags strip) [item] r).1
        (getTokenFindSeparator (wordFlags strip) [item] r).2 := by
  have hfind := getTokenFindSeparator_word (wordFlags strip) rfl rfl item r none w hw
  simp only [leaveQuote] at hfind
  obtain ⟨a, s, hs⟩ := List.exists_cons_of_ne_nil hne
  obtain ⟨d, more, hd⟩ := List.exists_cons_of_ne_nil hsep
  rw [← hfind, ← hitem, hs, hd]
  simp [getToken, wordFlags]

theorem getToken_word {c : Char} (h1 : c ≠ '\\') (h2 : isQuote c = false)
    (h3 : sepChar item c = true) :
    getToken (w ++ c :: r) separator (wordFlags strip) =
      (wordToken strip w, some (sepEnd item c r)) := by
  have hstep := findSeparatorStep_separator (wordFlags strip) item h1 h2 h3 r
  have hfind : getTokenFindSeparator (wordFlags strip) [item] (c :: r) =
      (c :: r, sepEnd item c r) :=
    Scan.find_stop hstep
  rw [getToken_find strip (c :: r) hsep hitem hw (by simp), hfind]
  simp [getTokenPostProcess, wordFlags, wordToken, stripTokenQuotes_word hw]

omit r in
theorem getToken_lastWord (hne : w ≠ []) :
    getToken w separator (wordFlags strip) = (wordToken strip w, some []) := by
  have hfind : getTokenFindSeparator (wordFlags strip) [item] [] = ([], []) := rfl
  have h := getToken_find strip [] hsep hitem hw (by simpa using hne)
  rw [List.append_nil, hfind] at h
  rw [h]
  simp [getTokenPostProcess, wordFlags, wordToken, stripTokenQuotes_word hw]

end GetToken

/-! ## Pairs and tokens made of words -/

/-- The blank that separates the pairs of a request or of a line of the database. -/
def blank : Char → Bool := sepChar (.lit ' ')

section Pairs

variable (nameValueDelim : Str) {w : Str} (hw : wordFrom blank none w = true)
include hw

theorem nextPair_word (r : Str) : nextPair [' '] nameValueDelim (w ++ ' ' :: r) =
    some (splitNameValue (dequote w) nameValueDelim, r) := by
  have h : getToken (w ++ ' ' :: r) [' '] .quotes = (dequote w, some r) :=
    getToken_word true r (List.cons_ne_nil _ _) rfl hw (by decide) (by decide) (by decide)
  simp only [nextPair, getNameValuePair, h]

theorem nextPair_lastWord (hne : w ≠ []) : nextPair [' '] nameValueDelim w =
    some (splitNameValue (dequote w) nameValueDelim, []) := by
  have h : getToken w [' '] .quotes = (dequote w, some []) :=
    getToken_lastWord true (List.cons_ne_nil _ _) rfl hw hne
  simp only [nextPair, getNameValuePair, h]

theorem pairs_word (r : Str) : pairs [' '] nameValueDelim (w ++ ' ' :: r) =
    splitNameValue (dequote w) nameValueDelim :: pairs [' '] nameValueDelim r :=
  Scan.unfold_some (nextPair_shrinks _ _) (nextPair_word nameValueDelim hw r)

theorem pairs_lastWord (hne : w ≠ []) :
    pairs [' '] nameValueDelim w = [splitNameValue (dequote w) nameValueDelim] := by
  have h := Scan.unfold_some (nextPair_shrinks _ _) (nextPair_lastWord nameValueDelim hw hne)
  exact h

end Pairs

theorem dequote_plain {sep : Char → Bool} {name : Str} (hne : name ≠ [])
    (hname : name.all (plainChar sep) = true) (s : Str) : dequote (name ++ s) = name ++ s := by
  obtain ⟨c, t, rfl⟩ := List.exists_cons_of_ne_nil hne
  simp only [List.all_cons, Bool.and_eq_true] at hname
  obtain ⟨_, hq, _⟩ := (plainChar_iff sep c).mp hname.1
  simp [dequote, hq]

theorem readValue_stripQuotes (s : Str) : readValue s = stripQuotes s := by
  unfold readValue
  split_ifs with hnil
  · rw [hnil]
    rfl
  · rfl

/-- A plain name is split off at the first equals sign, whatever the value holds. -/
theorem splitNameText_assign {name : Str} (hne : name ≠ [])
    (hname : name.all (plainChar (sepChar (.lit '='))) = true) (value : Str) :
    splitNameText (name ++ '=' :: value) ['='] = (name, value) := by
  have h : getToken (name ++ '=' :: value) ['='] .quotes = (dequote name, some value) :=
    getToken_word true value (List.cons_ne_nil _ _) rfl (wordFrom_plain hname) (by decide)
      (by decide) (by decide)
  have hd : dequote name = name := by
    have := dequote_plain hne hname []
    rwa [List.append_nil] at this
  simp [splitNameText, h, hd]

theorem splitNameValue_assign {name : Str} (hne : name ≠ [])
    (hname : name.all (plainChar (sepChar (.lit '='))) = true) (value : Str) :
    splitNameValue (name ++ '=' :: value) ['='] = (name, readValue value) := by
  rw [splitNameValue, splitNameText_assign hne hname]

theorem stripQuotes_unquoted {s : Str} (hs : ∀ c ∈ s, isQuote c = false) : stripQuotes s = s := by
  unfold stripQuotes
  split
  · rfl
  · rename_i q rest hq
    have hmem : q ∈ s := (List.dropWhile_suffix isSpace).subset (hq ▸ List.mem_cons_self)
    rw [hs q hmem]
    rfl

theorem stripQuotes_enclosed {q : Char} (hq : isQuote q = true) (s : Str) :
    stripQuotes (q :: s ++ [q]) = s := by
  have hs : isSpace q = false := by
    have hcases : q = '"' ∨ q = '\'' := by simpa [isQuote] using hq
    rcases hcases with rfl | rfl
    · decide
    · decide
  simp [stripQuotes, hs, hq]

theorem stripQuotes_quoted (s : Str) : stripQuotes ('\'' :: s ++ ['\'']) = s :=
  stripQuotes_enclosed (by decide) s

/-! ## Pieces between several separators -/

/-- No separator in sight where quotes mean nothing. -/
def pieceFrom (sep : Char → Bool) : Str → Bool
  | [] => true
  | c :: s =>
    if c = '\\' then
      match s with
      | [] => false
      | _ :: t => pieceFrom sep t
    else !sep c && pieceFrom sep s

/-- The first item that matches at `c`, as an alternative of its own each. -/
def sepAny (items : List SepItem) (c : Char) : Bool := items.any (sepChar · c)

section MultiSep

variable {fl : TokenFlags} (hq : fl.honorQuotes = false) (hb : fl.backslash = false)
  (items : List SepItem)

theorem multiSepStep_other {c : Char} (hquote : isQuote c = false ∨ fl.honorQuotes = false)
    (h1 : c ≠ '\\') (h2 : sepAny items c = false) (s : Str) :
    multiSepStep fl (items.map ([·])) (c :: s) = .inr s := by
  have hnone : matchAnySeparator fl (items.map ([·])) (c :: s) = none := by
    rw [matchAnySeparator, List.findSome?_eq_none_iff]
    intro one hone
    obtain ⟨item, hitem, rfl⟩ := List.mem_map.mp hone
    have hno : sepChar item c = false := by
      simp only [sepAny, List.any_eq_false, Bool.not_eq_true] at h2
      exact h2 item hitem
    rw [getTokenSepMatch_plain fl item h1 hquote, hno]
    rfl
  unfold multiSepStep
  rw [hnone]
  rcases hquote with h | h <;> simp [getTokenStepThru, h1, h]

theorem multiSepStep_separator {item : SepItem} {before : List SepItem} (after : List SepItem)
    {c : Char} (hquote : isQuote c = false ∨ fl.honorQuotes = false) (h1 : c ≠ '\\')
    (hfirst : sepAny before c = false) (h2 : sepChar item c = true) (s : Str) :
    multiSepStep fl ((before ++ item :: after).map ([·])) (c :: s) =
      .inl (some (c :: s, sepEnd item c s)) := by
  have hsome : matchAnySeparator fl ((before ++ item :: after).map ([·])) (c :: s) =
      some (c :: s, sepEnd item c s) := by
    unfold matchAnySeparator
    induction before with
    | nil =>
      simp only [List.nil_append, List.map_cons, List.findSome?_cons,
        getTokenSepMatch_plain fl item h1 hquote, h2, if_true]
    | cons b before ih =>
      simp only [sepAny, List.any_cons, Bool.or_eq_false_iff] at hfirst
      simp only [List.cons_append, List.map_cons, List.findSome?_cons,
        getTokenSepMatch_plain fl b h1 hquote, hfirst.1, Bool.false_eq_true, if_false]
      exact ih hfirst.2
  unfold multiSepStep
  rw [hsome]

include hb in
theorem multiSepStep_backslash (c : Char) (s : Str) :
    multiSepStep fl (items.map ([·])) ('\\' :: c :: s) = .inr s := by
  have hnone : matchAnySeparator fl (items.map ([·])) ('\\' :: c :: s) = none := by
    rw [matchAnySeparator, List.findSome?_eq_none_iff]
    intro one hone
    obtain ⟨item, _, rfl⟩ := List.mem_map.mp hone
    simp [getTokenSepMatch, hb]
  unfold multiSepStep
  rw [hnone]
  simp [getTokenStepThru, hb]

theorem multiSepStep_quote (hhonor : fl.honorQuotes = true) {q : Char} (h : isQuote q = true)
    (s : Str) : multiSepStep fl (items.map ([·])) (q :: s) = .inr (traverseUntil q s).tail := by
  have hne : q ≠ '\\' := by
    rintro rfl
    exact absurd h (by decide)
  have hnone : matchAnySeparator fl (items.map ([·])) (q :: s) = none := by
    rw [matchAnySeparator, List.findSome?_eq_none_iff]
    intro one hone
    obtain ⟨item, _, rfl⟩ := List.mem_map.mp hone
    simp [getTokenSepMatch, hne, h, hhonor]
  unfold multiSepStep
  rw [hnone]
  simp [getTokenStepThru, hne, h, hhonor]

include hb in
theorem getTokenMultiSepMatch_word (hhonor : fl.honorQuotes = true) (r : Str)
    (mode : Option Char) (w : Str) (h : wordFrom (sepAny items) mode w = true) :
    getTokenMultiSepMatch fl (items.map ([·])) (leaveQuote mode (w ++ r)) =
      getTokenMultiSepMatch fl (items.map ([·])) r := by
  have move {c : Char} {s t : Str} (hs : multiSepStep fl (items.map ([·])) (c :: s) = .inr t) :
      getTokenMultiSepMatch fl (items.map ([·])) (c :: s) =
        getTokenMultiSepMatch fl (items.map ([·])) t :=
    Scan.find_move (multiSepStep_advances fl _) hs
  refine passes_word ?_ ?_ ?_ r mode w h
  · intro c s
    exact move (multiSepStep_backslash hb items c s)
  · intro q s hquote
    exact move (multiSepStep_quote items hhonor hquote s)
  · intro c s h1 h2 hsep
    exact move (multiSepStep_other items (Or.inl h2) h1 hsep s)

include hq hb in
theorem getTokenMultiSepMatch_piece (w r : Str) (h : pieceFrom (sepAny items) w = true) :
    getTokenMultiSepMatch fl (items.map ([·])) (w ++ r) =
      getTokenMultiSepMatch fl (items.map ([·])) r := by
  have move {c : Char} {s t : Str} (hs : multiSepStep fl (items.map ([·])) (c :: s) = .inr t) :
      getTokenMultiSepMatch fl (items.map ([·])) (c :: s) =
        getTokenMultiSepMatch fl (items.map ([·])) t :=
    Scan.find_move (multiSepStep_advances fl _) hs
  fun_induction pieceFrom (sepAny items) w with
  | case1 => rfl
  | case2 => cases h
  | case3 c t ih =>
    refine Eq.trans ?_ (ih h)
    exact move (multiSepStep_backslash hb items c (t ++ r))
  | case4 c s hne ih =>
    simp only [Bool.and_eq_true, Bool.not_eq_true'] at h
    refine Eq.trans ?_ (ih h.2)
    exact move (multiSepStep_other items (Or.inr hq) hne h.1 (s ++ r))

theorem getToken_multiSep {fl : TokenFlags} (hmulti : fl.multiSep = true) {separator : Str}
    (hlong : 1 < separator.length) {s : Str} (hne : s ≠ []) : getToken s separator fl =
    match getTokenMultiSepMatch fl ((buildMultiSeparators separator).map sepItems) s with
    | some (sepStart, sepEnd) => getTokenPostProcess fl s sepStart sepEnd
    | none => (s, some []) := by
  obtain ⟨c, t, rfl⟩ := List.exists_cons_of_ne_nil hne
  obtain ⟨d, e, more, rfl⟩ : ∃ d e more, separator = d :: e :: more := by
    rcases separator with _ | ⟨d, _ | ⟨e, more⟩⟩
    · simp at hlong
    · simp at hlong
    · exact ⟨d, e, more, rfl⟩
  have hsome : ¬ (fl.honorQuotes = false ∧ e :: more = []) := by simp
  exact (if_neg hsome).trans (if_pos hmulti)

theorem getToken_piece {separator w : Str} {item : SepItem} (before after : List SepItem)
    (hlong : 1 < separator.length)
    (hitems : (buildMultiSeparators separator).map sepItems =
      (before ++ item :: after).map ([·]))
    (hw : pieceFrom (sepAny (before ++ item :: after)) w = true) {c : Char} (h1 : c ≠ '\\')
    (hfirst : sepAny before c = false) (h2 : sepChar item c = true) (r : Str) :
    getToken (w ++ c :: r) separator .multi = (w, some (sepEnd item c r)) := by
  have hq : TokenFlags.multi.honorQuotes = false := rfl
  have hstep := multiSepStep_separator after (Or.inr hq) h1 hfirst h2 r
  have hmatch : getTokenMultiSepMatch .multi ((buildMultiSeparators separator).map sepItems)
      (w ++ c :: r) = some (c :: r, sepEnd item c r) := by
    rw [hitems, getTokenMultiSepMatch_piece hq rfl _ w (c :: r) hw]
    exact Scan.find_stop hstep
  rw [getToken_multiSep rfl hlong (by simp), hmatch]
  simp [getTokenPostProcess, TokenFlags.multi]

end MultiSep

/-! ## The last word of a text -/

/-- No separator in sight, reading on inside the quote `mode`; a quote may stay open. -/
def unbroken (sep : Char → Bool) : Option Char → Str → Bool
  | _, [] => true
  | none, c :: s =>
    if c = '\\' then
      match s with
      | [] => true
      | _ :: t => unbroken sep none t
    else if isQuote c then unbroken sep (some c) s
    else !sep c && unbroken sep none s
  | some q, c :: s =>
    if c = q then unbroken sep none s
    else if c = '\\' then
      match s with
      | [] => true
      | _ :: t => unbroken sep (some q) t
    else unbroken sep (some q) s

theorem unbroken_plain_append {sep : Char → Bool} {p : Str} (hp : p.all (plainChar sep) = true)
    (s : Str) : unbroken sep none (p ++ s) = unbroken sep none s := by
  induction p with
  | nil => rfl
  | cons c p ih =>
    simp only [List.all_cons, Bool.and_eq_true] at hp
    obtain ⟨h1, h2, h3⟩ := (plainChar_iff sep c).mp hp.1
    rw [List.cons_append, unbroken.eq_def]
    simp only [if_neg h1, h2, h3, Bool.not_false, Bool.true_and, Bool.false_eq_true, if_false]
    exact ih hp.2

theorem unbroken_of_wordFrom {sep : Char → Bool} {mode : Option Char} {w : Str}
    (h : wordFrom sep mode w = true) : unbroken sep mode w = true := by
  fun_induction wordFrom sep mode w with
  | case1 => rfl
  | case2 => cases h
  | case3 => cases h
  | case4 a t ih => exact ih h
  | case5 c s hne hc ih =>
    rw [unbroken.eq_def]
    simp only [if_neg hne, hc, if_true]
    exact ih h
  | case6 c s hne hc ih =>
    rw [Bool.and_eq_true] at h
    rw [unbroken.eq_def]
    simp only [if_neg hne, hc, h.1, Bool.true_and]
    exact ih h.2
  | case7 q s ih =>
    rw [unbroken.eq_def]
    simp only [if_true]
    exact ih h
  | case8 => cases h
  | case9 q a s hne ih =>
    rw [unbroken.eq_def]
    simp only [if_neg hne, if_true]
    exact ih h
  | case10 q c s h1 h2 ih =>
    rw [unbroken.eq_def]
    simp only [if_neg h1, if_neg h2]
    exact ih h

theorem getTokenFindSeparator_unbroken (fl : TokenFlags) (hb : fl.backslash = false)
    (hq : fl.honorQuotes = true) (item : SepItem) (mode : Option Char) (w : Str)
    (h : unbroken (sepChar item) mode w = true) :
    getTokenFindSeparator fl [item] (leaveQuote mode w) = ([], []) := by
  have move {c : Char} {s t : Str} (hs : findSeparatorStep fl [item] (c :: s) = .inr t) :
      getTokenFindSeparator fl [item] (c :: s) = getTokenFindSeparator fl [item] t :=
    Scan.find_move (findSeparatorStep_advances fl [item]) hs
  fun_induction unbroken (sepChar item) mode w with
  | case1 mode => cases mode <;> rfl
  | case2 => exact move (findSeparatorStep_backslash fl hb [item] [])
  | case3 a t ih =>
    refine Eq.trans ?_ (ih h)
    exact move (findSeparatorStep_backslash fl hb [item] (a :: t))
  | case4 c s _ hc ih =>
    refine Eq.trans ?_ (ih h)
    exact move (findSeparatorStep_quote fl hq item hc s)
  | case5 c s h1 h2 ih =>
    simp only [Bool.and_eq_true, Bool.not_eq_true'] at h
    refine Eq.trans ?_ (ih h.2)
    exact move (findSeparatorStep_other fl item h1 (by simpa using h2) h.1 s)
  | case6 q s ih =>
    refine Eq.trans ?_ (ih h)
    simp [leaveQuote, traverseUntil_self]
  | case7 q hne =>
    have hopen : traverseUntil q ['\\'] = [] := by simp [traverseUntil, hne]
    rw [leaveQuote, hopen]
    rfl
  | case8 q c s hne ih =>
    refine Eq.trans ?_ (ih h)
    simp [leaveQuote, traverseUntil_backslash hne]
  | case9 q c s h1 h2 ih =>
    refine Eq.trans ?_ (ih h)
    simp [leaveQuote, traverseUntil_other h1 h2]

/-- A last assignment comes off whole, even with a quote open. -/
theorem getToken_lastAssignment {name value : Str} (hne : name ≠ [])
    (hblank : name.all (plainChar blank) = true)
    (hvalue : unbroken blank none (name ++ '=' :: value) = true) :
    getToken (name ++ '=' :: value) [' '] .quotes = (name ++ '=' :: value, some []) := by
  have hfind := getTokenFindSeparator_unbroken .quotes rfl rfl (.lit ' ') none _ hvalue
  obtain ⟨c, t, rfl⟩ := List.exists_cons_of_ne_nil hne
  have hquote : isQuote c = false := by
    simp only [List.all_cons, Bool.and_eq_true] at hblank
    exact ((plainChar_iff blank c).mp hblank.1).2.1
  have hitems : sepItems [' '] = [.lit ' '] := rfl
  simp only [leaveQuote, List.cons_append] at hfind
  simp [getToken, TokenFlags.quotes, hitems] at hfind ⊢
  simp [hfind, getTokenPostProcess, stripTokenQuotes, hquote]

theorem nextPair_lastAssignment {name value : Str} (hne : name ≠ [])
    (hname : name.all (plainChar (sepChar (.lit '='))) = true)
    (hblank : name.all (plainChar blank) = true)
    (hvalue : unbroken blank none (name ++ '=' :: value) = true) :
    nextPair [' '] ['='] (name ++ '=' :: value) = some ((name, readValue value), []) := by
  rw [nextPair, getNameValuePair, getToken_lastAssignment hne hblank hvalue]
  simp only [splitNameValue_assign hne hname]

end Invocation
