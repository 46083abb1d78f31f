import Invocation.ExpectDialogs

/-!
# Dialog blocks of a configuration

`ProcessExpect` reads the entries of a block, substitutes variables in their
texts and replies, and holds the conversation with the command.
-/

namespace Invocation

set_option autoImplicit false

open Process Matching
open Server (exec_need_some exec_emit)

/-! ## Reading a block -/

/-- The entries of a block, each with the text and the reply that its words stand for. -/
def blockEntries (vars : Vars) : List Node → Option (List Entry)
  | [] => some []
  | .block _ _ :: items => blockEntries vars items
  | .value tag text :: items => do
    let first := getToken text spaceSeparator .quotes
    let second := getToken (first.2.getD []) spaceSeparator .quotes
    let text ← substituteVarsInString vars false first.1
    let reply ← substituteVarsInString vars false second.1
    let tag ← tag
    let rest ← blockEntries vars items
    pure (((EntryKind.ofTag tag).map fun kind => Entry.mk kind text reply).toList ++ rest)

section Reading

variable {vars : Vars} {s : ServerState}

theorem expectDialog_entry (tag text reply : Str) : expectDialog tag text reply =
    (EntryKind.ofTag tag).map fun kind => (Entry.mk kind text reply).dialog := by
  unfold expectDialog EntryKind.ofTag
  split_ifs
  all_goals rfl

theorem exec_expectDialogs {items : List Node} {entries : List Entry}
    (h : blockEntries vars items = some entries) :
    exec (expectDialogs vars items) s = (.ok (entries.map Entry.dialog), s) := by
  induction items generalizing entries with
  | nil =>
    cases h
    rfl
  | cons node items ih =>
    cases node with
    | block tag inner => exact ih h
    | value tag text =>
      rw [blockEntries] at h
      simp only [Option.bind_eq_bind, Option.bind_eq_some_iff, Option.pure_def,
        Option.some_inj] at h
      obtain ⟨text', htext, reply, hreply, tag', rfl, rest, hrest, rfl⟩ := h
      rw [expectDialogs]
      simp only [htext, hreply, exec_bind, exec_need_some, ih hrest, exec_pure, expectDialog_entry]
      cases EntryKind.ofTag tag' with
      | none => rfl
      | some kind => rfl

theorem exec_processExpect {name : Str} {section? : Option (List Node)} {items : List Node}
    {timeout : Int} {output : List (Option Char)} {entries : List Entry}
    {r : List Str × Bool × List (Option Char)}
    (hopen : exec (openDialog section? name) s = (.ok items, s))
    (hentries : blockEntries vars items = some entries) (hne : entries ≠ [])
    (hr : streamExpectDialog timeout output (entries.map Entry.dialog) = r) :
    exec (processExpect name vars section? timeout output) s =
      (.ok r.2, { s with history := .reply r.1.flatten :: s.history }) := by
  have hdialogs : entries.map Entry.dialog ≠ [] := fun h => hne (List.map_eq_nil_iff.mp h)
  unfold processExpect
  simp only [exec_bind, hopen, exec_expectDialogs hentries, hr, exec_emit, if_neg hdialogs,
    exec_pure]

/-- A block without entries ends in a double free. -/
theorem exec_processExpect_nil {name : Str} {section? : Option (List Node)} {items : List Node}
    {timeout : Int} {output : List (Option Char)}
    (hopen : exec (openDialog section? name) s = (.ok items, s))
    (hentries : blockEntries vars items = some []) :
    (exec (processExpect name vars section? timeout output) s).1 = .error .undefined := by
  have hdialogs : ([] : List Entry).map Entry.dialog = [] := rfl
  unfold processExpect
  simp only [exec_bind, hopen, exec_expectDialogs hentries, exec_emit, hdialogs, if_true]
  rfl

end Reading

/-- Wherever a block has these entries, `ProcessExpect` sends the replies of the reaction to what
the command writes, returns its verdict and leaves what it leaves. -/
def Reacts (entries : List Entry) : Prop :=
  ∀ (name : Str) (vars : Vars) (section? : Option (List Node)) (items : List Node) (timeout : Int)
    (output : List (Option Char)) (s : ServerState),
    exec (openDialog section? name) s = (.ok items, s) → blockEntries vars items = some entries →
    (0 < timeout → none ∉ output) → some '\x00' ∉ output →
    ∃ r : List Str × Bool × List (Option Char), Reacted (reaction entries (output.filterMap id)) r ∧
      exec (processExpect name vars section? timeout output) s =
        (.ok r.2, { s with history := .reply r.1.flatten :: s.history })

theorem reacts_of_usable {entries : List Entry} (hne : entries ≠ [])
    (h : ∀ e ∈ entries, Usable e) : Reacts entries := by
  intro name vars section? items timeout output s hopen hentries hquiet hnul
  have hstart : Tracks (output.filterMap id) 0 (some 0) entries (entries.map Entry.dialog) :=
    tracks_start h
  have hreacted := streamExpectDialog_reacts h hquiet hnul (Nat.zero_le _) hstart List.drop_zero
  exact ⟨_, hreacted, exec_processExpect hopen hentries hne rfl⟩

theorem not_reacts_nil : ¬ Reacts [] := by
  intro hreacts
  obtain ⟨r, _, hexec⟩ := hreacts ['/'] [] none [] 0 [] { input := [] } rfl rfl
    (fun _ => List.not_mem_nil) List.not_mem_nil
  have hundefined : (exec (processExpect ['/'] [] none 0 []) { input := [] }).1 =
      .error .undefined := exec_processExpect_nil rfl rfl
  rw [hexec] at hundefined
  cases hundefined

/-! ## A text that is missed -/

def Misses : ExpectDialog → Str → Prop
  | _, [] => True
  | d, c :: rest => (d.advance c).done = false ∧ Misses (d.advance c) rest

section Missed

variable {e : Entry}

theorem streamExpectDialog_misses {d : ExpectDialog} {read : Str} (hdone : d.done = false)
    (hoptional : d.isOptional = false) (hnul : '\x00' ∉ read) (h : Misses d read) :
    streamExpectDialog 0 (read.map some) [d] = ([], false, []) := by
  induction read generalizing d with
  | nil => simp [streamExpectDialog, expectDialogsDone, hdone, hoptional]
  | cons c read ih =>
    rw [List.mem_cons, not_or] at hnul
    obtain ⟨hwaiting, hmisses⟩ := h
    have hsame : (d.advance c).isOptional = false := by
      unfold ExpectDialog.advance
      dsimp only
      split_ifs
      all_goals exact hoptional
    rw [List.map_cons, streamExpectDialog, if_neg (Ne.symm hnul.1),
      expectByte_waits hdone rfl hwaiting, hoptional]
    have hrest := ih hwaiting hsame hnul.2 hmisses
    simp only [Bool.false_eq_true, if_false, hrest, List.nil_append]

theorem misses_of_neverFull (hascii : ∀ c ∈ e.text, c.toNat < 128) (hne : e.text ≠ [])
    {count : Nat} {read : Str} (h : NeverFull e.text count read) :
    Misses { e.dialog with matched := count } read := by
  induction read generalizing count with
  | nil => trivial
  | cons c read ih =>
    obtain ⟨hshort, hrest⟩ := h
    have hadvance := advance_dialog hascii hne count c
    rw [if_neg (Nat.ne_of_lt hshort)] at hadvance
    refine ⟨?_, ?_⟩
    · rw [hadvance]
      rfl
    · rw [hadvance]
      exact ih hrest

/-- No byte equals a character that a signed `char` turns negative, so the count stays before it. -/
theorem advance_before {i : Nat} {c₀ : Char} (hi : e.text[i]? = some c₀) (hhigh : 128 ≤ c₀.toNat)
    {count : Nat} (hcount : count ≤ i) (c : Char) :
    ∃ m ≤ i, ExpectDialog.advance { e.dialog with matched := count } c =
      { e.dialog with matched := m } := by
  have hlength := (List.getElem?_eq_some_iff.mp hi).1
  have hreads : ∀ j ≤ i, ExpectDialog.reads { e.dialog with matched := count } j c = true →
      j + 1 ≤ i := by
    intro j hj hread
    obtain ⟨hlow, hget⟩ := Bool.and_eq_true_iff.mp hread
    have hlow := of_decide_eq_true hlow
    have hget : e.text[j]? = some c := of_decide_eq_true hget
    have hne : j ≠ i := by
      rintro rfl
      rw [hi, Option.some_inj] at hget
      subst hget
      omega
    omega
  unfold ExpectDialog.advance
  dsimp only
  generalize hstart : (if ExpectDialog.reads { e.dialog with matched := count } count c = true
    then count else 0) = start
  have hle : start ≤ i := by
    rw [← hstart]
    split_ifs
    · exact hcount
    · exact Nat.zero_le i
  have hnot : ExpectDialog.reads { e.dialog with matched := count } start c = true →
      ¬ start + 1 = e.text.length := by
    intro hread
    have hbefore := hreads start hle hread
    omega
  by_cases hread : ExpectDialog.reads { e.dialog with matched := count } start c = true
  · refine ⟨start + 1, hreads start hle hread, ?_⟩
    rw [if_pos hread]
    exact if_neg (hnot hread)
  · refine ⟨start, hle, ?_⟩
    rw [if_neg hread]

theorem misses_beyond {i : Nat} {c₀ : Char} (hi : e.text[i]? = some c₀) (hhigh : 128 ≤ c₀.toNat)
    {count : Nat} (hcount : count ≤ i) (read : Str) :
    Misses { e.dialog with matched := count } read := by
  induction read generalizing count with
  | nil => trivial
  | cons c read ih =>
    obtain ⟨m, hm, hadvance⟩ := advance_before hi hhigh hcount c
    refine ⟨?_, ?_⟩
    · rw [hadvance]
      rfl
    · rw [hadvance]
      exact ih hm

end Missed

/-- Every text that is not matchable occurs in an output in which its dialog misses it. -/
theorem exists_missed {t : Str} (hne : t ≠ []) (h : ¬ Matchable t) :
    ∃ read, t <:+: read ∧ (∀ c ∈ read, c ∈ t) ∧
      Misses (Entry.mk .expect t []).dialog read := by
  by_cases hascii : ∀ c ∈ t, c.toNat < 128
  · have hrestart : ¬ Restartable t := fun hrestart => h ⟨hascii, hrestart⟩
    obtain ⟨read, hinside, hsub, hnever⟩ := missed t hrestart
    exact ⟨read, hinside, hsub, misses_of_neverFull (e := ⟨.expect, t, []⟩) hascii hne hnever⟩
  · obtain ⟨c, hc⟩ := not_forall.mp hascii
    obtain ⟨hmem, hhigh⟩ := Classical.not_imp.mp hc
    obtain ⟨i, hi⟩ := List.mem_iff_getElem?.mp hmem
    refine ⟨t, List.infix_rfl, fun _ hc => hc, ?_⟩
    exact misses_beyond (e := ⟨.expect, t, []⟩) hi (by omega) (Nat.zero_le _) t

theorem blockEntries_variable (t : Str) :
    blockEntries [(['t'], t)] [.value (some "expect".toList) "$(t)".toList] =
      some [⟨.expect, t, []⟩] := by
  have hword : (getToken "$(t)".toList spaceSeparator .quotes).1 = ['$', '(', 't', ')'] := by
    decide +kernel
  have hnone : (getToken ((getToken "$(t)".toList spaceSeparator .quotes).2.getD [])
      spaceSeparator .quotes).1 = [] := by
    decide +kernel
  have hreply : substituteVarsInString [(['t'], t)] false [] = some [] :=
    substituteVarsInString_plain _ _ (by decide)
  have htext : substituteVarsInString [(['t'], t)] false ['$', '(', 't', ')'] = some t := by
    have hvalue : varValue [(['t'], t)] false ['t'] = t := rfl
    simp [substituteVarsInString, substitutePieces, parseVar, parseVarName, Piece.text, hvalue]
  have htag : EntryKind.ofTag "expect".toList = some .expect := by decide +kernel
  generalize "expect".toList = tag at htag
  rw [blockEntries, blockEntries]
  simp only [hword, hnone, hreply, htext, htag, Option.bind_eq_bind, Option.bind_some,
    Option.map_some, Option.toList_some, List.append_nil, Option.pure_def]

theorem react_expect_verdict {e : Entry} (hkind : e.kind = .expect) (f n : Nat) (rest : Str) :
    (react [(e, some f)] n rest).verdict = true := by
  induction rest generalizing n with
  | nil => simp [react]
  | cons c rest ih =>
    have hnone : (firing [(e, some f)] (n + 1)).findSome? (·.kind.verdict) = none := by
      rw [firing_cons]
      split_ifs
      · simp [firing, hkind, EntryKind.verdict]
      · rfl
    rw [react, hnone]
    exact ih (n + 1)

theorem not_reacts {t : Str} (hne : t ≠ []) (hnul : '\x00' ∉ t) (h : ¬ Matchable t) :
    ¬ Reacts [⟨.expect, t, []⟩] := by
  intro hreacts
  obtain ⟨read, hinside, hsub, hmisses⟩ := exists_missed hne h
  have hread : '\x00' ∉ read := fun hmem => hnul (hsub _ hmem)
  have hbytes : (read.map some).filterMap id = read := by
    rw [List.filterMap_map]
    exact List.filterMap_some
  obtain ⟨r, hreacted, hexec⟩ := hreacts "/".toList _ (some _) _ 0 (read.map some) { input := [] }
    rfl (blockEntries_variable t) (fun ht => absurd ht (Int.lt_irrefl 0)) (by simp [hread])
  have hmissed := streamExpectDialog_misses rfl rfl hread hmisses
  rw [exec_processExpect rfl (blockEntries_variable t) (List.cons_ne_nil _ _) hmissed] at hexec
  have hresult : (false, []) = r.2 := Except.ok.inj (Prod.mk.inj hexec).1
  -- the text is in what the command wrote, so the entry is to fire
  have hseen : t <:+: since read read.length (some 0) := by simpa [since] using hinside
  obtain ⟨f, hf, _⟩ := (firesAt_le_iff (e := ⟨.expect, t, []⟩) hne).mpr hseen
  have hverdict := hreacted.verdict
  rw [hbytes, reaction, schedule, schedule, hf, react_expect_verdict rfl, ← hresult] at hverdict
  cases hverdict

/-- A set of texts can be used in every dialog block that has an entry, whatever the command
writes, if and only if each of them is matchable. No process outlives a block without entries. -/
theorem processExpect_reacts_iff (texts : Set Str) (htexts : ∀ t ∈ texts, t ≠ [] ∧ '\x00' ∉ t) :
    ¬ Reacts [] ∧
      ((∀ entries : List Entry, entries ≠ [] → (∀ e ∈ entries, e.text ∈ texts) →
          Reacts entries) ↔ ∀ t ∈ texts, Matchable t) := by
  refine ⟨not_reacts_nil, ?_, ?_⟩
  · intro h t ht
    by_contra hnot
    obtain ⟨hne, hnul⟩ := htexts t ht
    apply not_reacts hne hnul hnot
    apply h _ (List.cons_ne_nil _ _)
    intro e he
    rw [List.mem_singleton.mp he]
    exact ht
  · intro h entries hne hentries
    apply reacts_of_usable hne
    intro e he
    have htext := hentries e he
    exact ⟨(htexts _ htext).1, h _ htext⟩

/-- `password:` has no second `p`. -/
theorem processExpect_reacts_password :
    Matchable "password:".toList ∧
      ∀ entries : List Entry, entries ≠ [] →
        (∀ e ∈ entries, e.text ∈ ({"password:".toList} : Set Str)) → Reacts entries := by
  have htexts : ∀ t ∈ ({"password:".toList} : Set Str), t ≠ [] ∧ '\x00' ∉ t := by
    rintro t rfl
    decide +kernel
  have hmatchable : Matchable "password:".toList := by
    unfold Matchable
    decide +kernel
  refine ⟨hmatchable, ?_⟩
  apply (processExpect_reacts_iff _ htexts).2.mpr
  rintro t rfl
  exact hmatchable

/-- An entry that waits for `aab` misses it in `aaab`: the second `a` is taken for the first one
again, and the third for the second. -/
theorem processExpect_misses :
    (¬ ∀ entries : List Entry, entries ≠ [] → (∀ e ∈ entries, e.text ≠ [] ∧ '\x00' ∉ e.text) →
      Reacts entries) ∧
    reaction [⟨.expect, "aab".toList, "yes".toList⟩] "aaab".toList =
      ⟨["yes\n".toList], true, []⟩ ∧
    streamExpectDialog 0 ("aaab".toList.map some)
      [(Entry.mk .expect "aab".toList "yes".toList).dialog] = ([], false, []) := by
  refine ⟨?_, by decide +kernel, by decide +kernel⟩
  intro h
  have hmissed : ¬ Reacts [⟨.expect, "aab".toList, []⟩] := by
    apply not_reacts (by decide) (by decide)
    unfold Matchable
    decide +kernel
  apply hmissed
  apply h _ (List.cons_ne_nil _ _)
  intro e he
  rw [List.mem_singleton.mp he]
  decide +kernel

end Invocation
