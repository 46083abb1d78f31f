import Invocation.Lib.Matching
import Invocation.Server

/-!
# Dialog blocks

What a block of `expect`, `optional`, `fail` and `end` entries is to do: each
entry has a time at which it becomes current and from then on waits for its
text, and the conversation goes through the entries in the order of their
times. `STREAMExpectDialog` runs one restarting matcher for each entry.
-/

namespace Invocation

set_option autoImplicit false

open Process Matching

/-! ## Entries -/

inductive EntryKind
  | expect
  | optional
  | fail
  | finish
deriving DecidableEq

namespace EntryKind

def ofTag (tag : Str) : Option EntryKind :=
  if tag = "expect".toList then some expect
  else if tag = "optional".toList then some optional
  else if tag = "fail".toList then some fail
  else if tag = "end".toList then some finish
  else none

def mandatory : EntryKind → Bool
  | expect => true
  | optional => false
  | fail => false
  | finish => true

def verdict : EntryKind → Option Bool
  | expect => none
  | optional => none
  | fail => some false
  | finish => some true

end EntryKind

structure Entry where
  kind : EntryKind
  text : Str
  reply : Str
deriving DecidableEq

namespace Entry

def answer (e : Entry) : Str := e.reply ++ "\n".toList

def dialog (e : Entry) : ExpectDialog where
  expect := e.text
  reply := e.answer
  isOptional := ! e.kind.mandatory
  isFail := decide (e.kind = .fail)
  isEnd := decide (e.kind = .finish)

end Entry

/-! ## What the block is to do -/

/-- How much has been read when an entry that became current at `start` has its text. -/
def Entry.firesAt (out : Str) (start : Option Nat) (e : Entry) : Option Nat :=
  start.bind fun s => (firstEnd e.text (out.drop s)).map (s + ·)

/-- When the entries behind this one become current. -/
def Entry.next (out : Str) (start : Option Nat) (e : Entry) : Option Nat :=
  if e.kind.mandatory then e.firesAt out start else start

def schedule (out : Str) : Option Nat → List Entry → List (Entry × Option Nat)
  | _, [] => []
  | start, e :: es => (e, e.firesAt out start) :: schedule out (e.next out start) es

/-- The entries that fire on the `n`-th byte, in the order of the block. -/
def firing (plan : List (Entry × Option Nat)) (n : Nat) : List Entry :=
  (plan.filter fun p => p.2 = some n).map Prod.fst

/-- The entries up to the first one that ends the conversation. -/
def upToVerdict : List Entry → List Entry
  | [] => []
  | e :: es => if e.kind.verdict.isSome then [e] else e :: upToVerdict es

structure Reaction where
  replies : List Str
  verdict : Bool
  left : Str
deriving DecidableEq

/-- The conversation from the `n`-th byte on. -/
def react (plan : List (Entry × Option Nat)) : Nat → Str → Reaction
  | _, [] => ⟨[], plan.all fun p => ! p.1.kind.mandatory || p.2.isSome, []⟩
  | n, _ :: rest =>
    match (firing plan (n + 1)).findSome? (·.kind.verdict) with
    | some verdict => ⟨(upToVerdict (firing plan (n + 1))).map Entry.answer, verdict, rest⟩
    | none =>
      let r := react plan (n + 1) rest
      ⟨(firing plan (n + 1)).map Entry.answer ++ r.replies, r.verdict, r.left⟩

/-- The documented reaction of a block to the output of a command. -/
def reaction (entries : List Entry) (out : Str) : Reaction :=
  react (schedule out (some 0) entries) 0 out

/-! ## Times -/

/-- What an entry that is current from `start` on has read by `n`. -/
def since (out : Str) (n : Nat) (start : Option Nat) : Str :=
  match start with
  | none => []
  | some s => (out.drop s).take (n - s)

def Late (n : Nat) (start : Option Nat) : Prop := ∀ s, start = some s → n < s

section Times

variable {out : Str} {n : Nat} {start : Option Nat} {e : Entry}

theorem since_late (h : Late n start) : since out n start = [] := by
  cases start with
  | none => rfl
  | some s =>
    have hlt := h s rfl
    have hzero : n - s = 0 := by omega
    rw [since, hzero, List.take_zero]

theorem since_succ_late (h : Late n start) : since out (n + 1) start = [] := by
  cases start with
  | none => rfl
  | some s =>
    have hlt := h s rfl
    have hzero : n + 1 - s = 0 := by omega
    rw [since, hzero, List.take_zero]

theorem since_succ {s : Nat} {c : Char} (hs : s ≤ n) (hc : out[n]? = some c) :
    since out (n + 1) (some s) = since out n (some s) ++ [c] := by
  have hsub : n + 1 - s = (n - s) + 1 := by omega
  have hget : (out.drop s)[n - s]? = some c := by
    rw [List.getElem?_drop, Nat.add_sub_cancel' hs, hc]
  rw [since, since, hsub, List.take_add_one, hget]
  rfl

theorem firesAt_le_iff (hne : e.text ≠ []) :
    (∃ f, e.firesAt out start = some f ∧ f ≤ n) ↔ e.text <:+: since out n start := by
  cases start with
  | none =>
    simp [Entry.firesAt, since, hne]
  | some s =>
    have hle : (∃ f, firstEnd e.text (out.drop s) = some f ∧ f ≤ n - s) ↔
        e.text <:+: (out.drop s).take (n - s) := firstEnd_le_iff
    unfold since
    rw [← hle]
    constructor
    · rintro ⟨f, hf, hfn⟩
      obtain ⟨g, hg, rfl⟩ := Option.map_eq_some_iff.mp hf
      exact ⟨g, hg, by omega⟩
    · rintro ⟨g, hg, hgn⟩
      have hpos : 0 < g := by
        obtain ⟨_, hinside, _⟩ := firstEnd_eq_some_iff.mp hg
        rcases Nat.eq_zero_or_pos g with rfl | hpos
        · rw [List.take_zero, List.infix_nil] at hinside
          exact absurd hinside hne
        · exact hpos
      exact ⟨s + g, Option.map_eq_some_iff.mpr ⟨g, hg, rfl⟩, by omega⟩

/-- An entry fires on the byte that completes its text. -/
theorem firesAt_succ_iff (hne : e.text ≠ []) : e.firesAt out start = some (n + 1) ↔
    e.text <:+: since out (n + 1) start ∧ ¬ e.text <:+: since out n start := by
  rw [← firesAt_le_iff hne, ← firesAt_le_iff hne]
  constructor
  · intro hf
    refine ⟨⟨n + 1, hf, Nat.le_refl _⟩, ?_⟩
    rintro ⟨f, hf', hle⟩
    rw [hf, Option.some_inj] at hf'
    omega
  · rintro ⟨⟨f, hf, hle⟩, hnot⟩
    have hlt : ¬ f ≤ n := fun hfn => hnot ⟨f, hf, hfn⟩
    have heq : f = n + 1 := by omega
    rw [hf, heq]

end Times

/-! ## One matcher -/

/-- What `STREAMExpectDialog` keeps for an entry that has read `seen`. -/
inductive InState (e : Entry) (seen : Str) : ExpectDialog → Prop
  | waiting {count : Nat} : ¬ e.text <:+: seen → Longest e.text seen count →
    InState e seen { e.dialog with matched := count }
  | fired : e.text <:+: seen → InState e seen { e.dialog with done := true }

/-- A text that the restarting matcher never misses: it is restartable, and it has no bytes that a
signed `char` turns negative. -/
def Matchable (text : Str) : Prop := (∀ c ∈ text, c.toNat < 128) ∧ Restartable text

section Matcher

variable {e : Entry} {seen : Str} {c : Char}

theorem reads_matchable (hascii : ∀ c ∈ e.text, c.toNat < 128) (count i : Nat) (c : Char) :
    ExpectDialog.reads { e.dialog with matched := count } i c = decide (e.text[i]? = some c) := by
  show (decide (c.toNat < 128) && decide (e.text[i]? = some c)) = _
  by_cases hc : e.text[i]? = some c
  · have hlow := hascii c (List.mem_of_getElem? hc)
    simp [hc, hlow]
  · simp [hc]

theorem advance_dialog (hascii : ∀ c ∈ e.text, c.toNat < 128) (hne : e.text ≠ []) (count : Nat)
    (c : Char) : ExpectDialog.advance { e.dialog with matched := count } c =
      if Matching.advance e.text count c = e.text.length then { e.dialog with done := true }
      else { e.dialog with matched := Matching.advance e.text count c } := by
  have hreads := reads_matchable hascii count
  have hpos := List.length_pos_of_ne_nil hne
  unfold ExpectDialog.advance Matching.advance
  dsimp only
  have hexpect : e.dialog.expect = e.text := rfl
  simp only [hreads, decide_eq_true_iff]
  simp only [hexpect]
  by_cases hgo : e.text[count]? = some c
  · simp only [if_pos hgo]
    split_ifs <;> rfl
  · simp only [if_neg hgo]
    by_cases hfirst : e.text[0]? = some c
    · simp only [if_pos hfirst]
      split_ifs <;> rfl
    · have hzero : ¬ 0 = e.text.length := by omega
      simp only [if_neg hfirst, if_neg hzero]

theorem InState.advance (htext : Matchable e.text) (hne : e.text ≠ []) {count : Nat}
    (hwait : ¬ e.text <:+: seen) (h : Longest e.text seen count) :
    InState e (seen ++ [c]) (ExpectDialog.advance { e.dialog with matched := count } c) := by
  have hcount : count < e.text.length := by
    apply Nat.lt_of_le_of_ne h.le
    intro hfull
    exact hwait (h.full_iff.mp hfull).isInfix
  have hlongest := advance_longest (a := c) htext.2 h hcount
  rw [advance_dialog htext.1 hne]
  by_cases hfull : Matching.advance e.text count c = e.text.length
  · rw [if_pos hfull]
    exact .fired (hlongest.full_iff.mp hfull).isInfix
  · rw [if_neg hfull]
    refine .waiting ?_ hlongest
    rw [List.infix_concat_iff]
    rintro (hsuffix | hinside)
    · exact hfull (hlongest.full_iff.mpr hsuffix)
    · exact hwait hinside

end Matcher

/-! ## The block, byte by byte -/

/-- The dialogs are in the states of their entries after `n` bytes. -/
inductive Tracks (out : Str) (n : Nat) : Option Nat → List Entry → List ExpectDialog → Prop
  | nil {start : Option Nat} : Tracks out n start [] []
  | cons {start : Option Nat} {e : Entry} {d : ExpectDialog} {es : List Entry}
    {ds : List ExpectDialog} : InState e (since out n start) d →
    Tracks out n (e.next out start) es ds → Tracks out n start (e :: es) (d :: ds)

structure Usable (e : Entry) : Prop where
  ne : e.text ≠ []
  matchable : Matchable e.text

section Late

variable {out : Str} {n : Nat}

theorem Late.firesAt {start : Option Nat} {e : Entry} (h : Late n start) (hne : e.text ≠ []) :
    Late (n + 1) (e.firesAt out start) := by
  intro f hf
  have hsome : start.isSome := by
    cases start with
    | none => cases hf
    | some s => rfl
  have hread : ¬ e.text <:+: since out (n + 1) start := by
    rw [since_succ_late h, List.infix_nil]
    exact hne
  rw [← firesAt_le_iff hne] at hread
  by_contra hle
  exact hread ⟨f, hf, by omega⟩

theorem Late.next {start : Option Nat} {e : Entry} (h : Late n start) (hne : e.text ≠ []) :
    Late n (e.next out start) := by
  unfold Entry.next
  split_ifs
  · intro f hf
    exact Nat.lt_of_succ_lt (h.firesAt hne f hf)
  · exact h

theorem firing_cons (e : Entry) (f : Option Nat) (plan : List (Entry × Option Nat)) (n : Nat) :
    firing ((e, f) :: plan) n = if f = some n then e :: firing plan n else firing plan n := by
  unfold firing
  by_cases h : f = some n
  · simp [h]
  · simp [h]

theorem Tracks.late {start : Option Nat} {es : List Entry} {ds : List ExpectDialog}
    (h : Tracks out n start es ds) (hlate : Late n start) (hne : ∀ e ∈ es, e.text ≠ []) :
    Tracks out (n + 1) start es ds ∧ firing (schedule out start es) (n + 1) = [] := by
  induction h with
  | nil => exact ⟨.nil, rfl⟩
  | @cons start e d es ds hstate _ ih =>
    have htext := hne e List.mem_cons_self
    obtain ⟨htracks, hfiring⟩ := ih (hlate.next htext) fun e he => hne e (List.mem_cons_of_mem _ he)
    have hnot : ¬ e.firesAt out start = some (n + 1) := by
      intro hf
      exact absurd (hlate.firesAt htext _ hf) (Nat.lt_irrefl _)
    have hseen : since out (n + 1) start = since out n start := by
      rw [since_succ_late hlate, since_late hlate]
    rw [← hseen] at hstate
    refine ⟨.cons hstate htracks, ?_⟩
    rw [schedule, firing_cons, if_neg hnot, hfiring]

end Late

section Byte

variable {out : Str} {n : Nat} {c : Char}

theorem upToVerdict_none {es : List Entry} (h : es.findSome? (·.kind.verdict) = none) :
    upToVerdict es = es := by
  induction es with
  | nil => rfl
  | cons e es ih =>
    rw [List.findSome?_cons] at h
    cases hverdict : e.kind.verdict with
    | some v =>
      rw [hverdict] at h
      cases h
    | none =>
      rw [hverdict] at h
      rw [upToVerdict, hverdict, ih h]
      rfl

/-- The entries that fire are answered up to the first one that ends the conversation, and without
one the dialogs go on. -/
structure Follows (out : Str) (n : Nat) (start : Option Nat) (es fire : List Entry)
    (r : List ExpectDialog × List Str × Option Bool) : Prop where
  verdict : r.2.2 = fire.findSome? (·.kind.verdict)
  replies : r.2.1 = (upToVerdict fire).map Entry.answer
  tracks : r.2.2 = none → Tracks out (n + 1) start es r.1

theorem expectByte_done {d : ExpectDialog} (hd : d.done = true) (ds : List ExpectDialog) :
    expectByte c (d :: ds) = (d :: (expectByte c ds).1, (expectByte c ds).2) := by
  rw [expectByte, if_pos hd]

theorem expectByte_waits {d d' : ExpectDialog} (hd : d.done = false) (hadvance : d.advance c = d')
    (hd' : d'.done = false) (ds : List ExpectDialog) : expectByte c (d :: ds) =
      if d.isOptional then (d' :: (expectByte c ds).1, (expectByte c ds).2)
      else (d' :: ds, [], none) := by
  rw [expectByte]
  simp [hd, hadvance, hd']

theorem expectByte_fires {d d' : ExpectDialog} (hd : d.done = false) (hadvance : d.advance c = d')
    (hd' : d'.done = true) (ds : List ExpectDialog) : expectByte c (d :: ds) =
      if d.isEnd then (d' :: ds, [d.reply], some true)
      else if d.isFail then (d' :: ds, [d.reply], some false)
      else if d.isOptional then
        (d' :: (expectByte c ds).1, d.reply :: (expectByte c ds).2.1, (expectByte c ds).2.2)
      else (d' :: ds, [d.reply], none) := by
  rw [expectByte]
  simp [hd, hadvance, hd']

section Entry

variable {start : Option Nat} {e : Entry} {es fire : List Entry} {ds : List ExpectDialog}
  {d d' : ExpectDialog}

theorem Follows.skip {r : List ExpectDialog × List Str × Option Bool}
    (h : Follows out n (e.next out start) es fire r) (hd : InState e (since out (n + 1) start) d) :
    Follows out n start (e :: es) fire (d :: r.1, r.2) :=
  ⟨h.verdict, h.replies, fun hnone => .cons hd (h.tracks hnone)⟩

theorem Follows.fires {r : List ExpectDialog × List Str × Option Bool}
    (h : Follows out n (e.next out start) es fire r) (hverdict : e.kind.verdict = none)
    (hd : InState e (since out (n + 1) start) d) :
    Follows out n start (e :: es) (e :: fire) (d :: r.1, e.answer :: r.2.1, r.2.2) := by
  refine ⟨?_, ?_, fun hnone => .cons hd (h.tracks hnone)⟩
  · rw [List.findSome?_cons, hverdict]
    exact h.verdict
  · rw [upToVerdict, hverdict]
    exact congrArg (e.answer :: ·) h.replies

/-- Behind an entry that the others wait for, nothing moves. -/
theorem Follows.stop (h : Tracks out n (e.next out start) es ds) (hlate : Late n (e.next out start))
    (hne : ∀ e ∈ es, e.text ≠ []) :
    Follows out n (e.next out start) es (firing (schedule out (e.next out start) es) (n + 1))
      (ds, [], none) := by
  obtain ⟨htracks, hfiring⟩ := h.late hlate hne
  rw [hfiring]
  exact ⟨rfl, rfl, fun _ => htracks⟩

end Entry

theorem expectByte_follows_fires {s : Nat} (hs : s ≤ n) {e : Entry} {es : List Entry}
    {d : ExpectDialog} {ds : List ExpectDialog} (hes : ∀ e ∈ es, Usable e)
    (hd : d.isOptional = e.dialog.isOptional ∧
      d.isFail = e.dialog.isFail ∧ d.isEnd = e.dialog.isEnd ∧ d.reply = e.dialog.reply)
    (hundone : d.done = false) (hadvance : d.advance c = { e.dialog with done := true })
    (hinside : e.text <:+: since out (n + 1) (some s))
    (hfires : e.firesAt out (some s) = some (n + 1))
    (hrest : Tracks out n (e.next out (some s)) es ds)
    (ih : (∃ s', e.next out (some s) = some s' ∧ s' ≤ n) → Follows out n (e.next out (some s)) es
      (firing (schedule out (e.next out (some s)) es) (n + 1)) (expectByte c ds)) :
    Follows out n (some s) (e :: es)
      (e :: firing (schedule out (e.next out (some s)) es) (n + 1)) (expectByte c (d :: ds)) := by
  have hstate : InState e (since out (n + 1) (some s)) { e.dialog with done := true } :=
    .fired hinside
  obtain ⟨hoptional, hfail, hend, hreply⟩ := hd
  rw [expectByte_fires hundone hadvance rfl, hoptional, hfail, hend, hreply]
  cases hkind : e.kind with
  | expect =>
    have hnext : e.next out (some s) = some (n + 1) := by
      rw [Entry.next, hkind]
      exact hfires
    have hlate : Late n (e.next out (some s)) := by
      rw [hnext]
      intro s' hs'
      cases hs'
      exact Nat.lt_succ_self n
    have hstop := Follows.stop hrest hlate fun e he => (hes e he).ne
    have hfollows := hstop.fires (by rw [hkind]; rfl) hstate
    simpa [Entry.dialog, hkind, EntryKind.mandatory] using hfollows
  | optional =>
    have hnext : e.next out (some s) = some s := by
      rw [Entry.next, hkind]
      rfl
    have hfollows := (ih ⟨s, hnext, hs⟩).fires (by rw [hkind]; rfl) hstate
    simpa [Entry.dialog, hkind, EntryKind.mandatory] using hfollows
  | fail =>
    refine ⟨?_, ?_, ?_⟩
    all_goals simp [Entry.dialog, hkind, EntryKind.verdict, upToVerdict]
  | finish =>
    refine ⟨?_, ?_, ?_⟩
    all_goals simp [Entry.dialog, hkind, EntryKind.verdict, upToVerdict]

theorem expectByte_follows_waits {s : Nat} (hs : s ≤ n) {e : Entry}
    {es : List Entry} {d d' : ExpectDialog} {ds : List ExpectDialog} (he : Usable e)
    (hes : ∀ e ∈ es, Usable e) (hd : d.isOptional = e.dialog.isOptional)
    (hundone : d.done = false) (hadvance : d.advance c = d') (hwaiting : d'.done = false)
    (hstate : InState e (since out (n + 1) (some s)) d')
    (hinside : ¬ e.text <:+: since out (n + 1) (some s))
    (hrest : Tracks out n (e.next out (some s)) es ds)
    (ih : (∃ s', e.next out (some s) = some s' ∧ s' ≤ n) → Follows out n (e.next out (some s)) es
      (firing (schedule out (e.next out (some s)) es) (n + 1)) (expectByte c ds)) :
    Follows out n (some s) (e :: es)
      (firing (schedule out (e.next out (some s)) es) (n + 1)) (expectByte c (d :: ds)) := by
  rw [expectByte_waits hundone hadvance hwaiting, hd]
  cases hmandatory : e.kind.mandatory with
  | true =>
    have hnext : e.next out (some s) = e.firesAt out (some s) := by
      rw [Entry.next, if_pos hmandatory]
    have hlate : Late n (e.next out (some s)) := by
      rw [hnext]
      intro f hf
      by_contra hle
      exact hinside ((firesAt_le_iff he.ne).mp ⟨f, hf, by omega⟩)
    have hstop := Follows.stop hrest hlate fun e he => (hes e he).ne
    simpa [Entry.dialog, hmandatory] using hstop.skip hstate
  | false =>
    have hnext : e.next out (some s) = some s := by
      rw [Entry.next, hmandatory]
      rfl
    simpa [Entry.dialog, hmandatory] using (ih ⟨s, hnext, hs⟩).skip hstate

/-- One byte does to the dialogs what it is to do to the entries. -/
theorem expectByte_follows (hc : out[n]? = some c) {start : Option Nat} {es : List Entry}
    {ds : List ExpectDialog} (h : Tracks out n start es ds) (hes : ∀ e ∈ es, Usable e)
    (hstart : ∃ s, start = some s ∧ s ≤ n) :
    Follows out n start es (firing (schedule out start es) (n + 1)) (expectByte c ds) := by
  induction h with
  | nil => exact ⟨rfl, rfl, fun _ => .nil⟩
  | @cons start e d es ds hstate hrest ih =>
    obtain ⟨s, rfl, hs⟩ := hstart
    have he := hes e List.mem_cons_self
    obtain ⟨hne, hmatchable⟩ := he
    have hes' : ∀ e ∈ es, Usable e := fun e he => hes e (List.mem_cons_of_mem _ he)
    have hsince := since_succ hs hc
    rw [schedule, firing_cons]
    cases hstate with
    | fired hinside =>
      obtain ⟨f, hf, hfn⟩ := (firesAt_le_iff hne).mpr hinside
      have hcurrent : ∃ s', e.next out (some s) = some s' ∧ s' ≤ n := by
        unfold Entry.next
        split_ifs
        · exact ⟨f, hf, hfn⟩
        · exact ⟨s, rfl, hs⟩
      have hnot : ¬ e.firesAt out (some s) = some (n + 1) := by
        rw [hf, Option.some_inj]
        omega
      have hstate' : InState e (since out (n + 1) (some s)) { e.dialog with done := true } := by
        rw [hsince]
        exact .fired (hinside.trans (List.prefix_append _ _).isInfix)
      rw [if_neg hnot, expectByte_done rfl]
      exact (ih hes' hcurrent).skip hstate'
    | @waiting count hwait hlongest =>
      have hadvance := InState.advance (c := c) hmatchable hne hwait hlongest
      rw [← hsince] at hadvance
      generalize hd' : ExpectDialog.advance { e.dialog with matched := count } c = d' at hadvance
      cases hadvance with
      | fired hinside =>
        have hfires : e.firesAt out (some s) = some (n + 1) :=
          (firesAt_succ_iff hne).mpr ⟨hinside, hwait⟩
        rw [if_pos hfires]
        exact expectByte_follows_fires hs hes' ⟨rfl, rfl, rfl, rfl⟩ rfl hd'
          hinside hfires hrest (ih hes')
      | waiting hinside hlongest' =>
        have hnot : ¬ e.firesAt out (some s) = some (n + 1) := by
          intro hfires
          exact hinside ((firesAt_succ_iff hne).mp hfires).1
        rw [if_neg hnot]
        exact expectByte_follows_waits hs ⟨hne, hmatchable⟩ hes' rfl rfl hd' rfl
          (.waiting hinside hlongest') hinside hrest (ih hes')

end Byte

/-! ## The conversation -/

section Run

variable {out : Str} {entries : List Entry}

theorem firesAt_le_length {start : Option Nat} {e : Entry} (hne : e.text ≠ []) {f : Nat}
    (hf : e.firesAt out start = some f) : f ≤ out.length := by
  obtain ⟨s, rfl, hs⟩ := Option.bind_eq_some_iff.mp hf
  obtain ⟨g, hg, rfl⟩ := Option.map_eq_some_iff.mp hs
  obtain ⟨hle, hinside, _⟩ := firstEnd_eq_some_iff.mp hg
  rw [List.length_drop] at hle
  have hpos : 0 < g := by
    rcases Nat.eq_zero_or_pos g with rfl | hpos
    · rw [List.take_zero, List.infix_nil] at hinside
      exact absurd hinside hne
    · exact hpos
  omega

theorem Tracks.done {start : Option Nat} {es : List Entry} {ds : List ExpectDialog}
    (h : Tracks out out.length start es ds) (hes : ∀ e ∈ es, Usable e) : expectDialogsDone ds =
      (schedule out start es).all fun p => ! p.1.kind.mandatory || p.2.isSome := by
  induction h with
  | nil => rfl
  | @cons start e d es ds hstate _ ih =>
    have hne := (hes e List.mem_cons_self).ne
    have hrest := ih fun e he => hes e (List.mem_cons_of_mem _ he)
    have hfires : (e.firesAt out start).isSome ↔ e.text <:+: since out out.length start := by
      rw [← firesAt_le_iff hne, Option.isSome_iff_exists]
      constructor
      · rintro ⟨f, hf⟩
        exact ⟨f, hf, firesAt_le_length hne hf⟩
      · rintro ⟨f, hf, _⟩
        exact ⟨f, hf⟩
    rw [schedule, List.all_cons, ← hrest]
    unfold expectDialogsDone
    rw [List.all_cons]
    congr 1
    cases hstate with
    | waiting hinside _ =>
      rw [Bool.eq_false_iff.mpr (mt hfires.mp hinside)]
      simp [Entry.dialog]
    | fired hinside =>
      rw [hfires.mpr hinside]
      simp

theorem tracks_start {start : Option Nat} {es : List Entry} (hes : ∀ e ∈ es, Usable e) :
    Tracks out 0 start es (es.map Entry.dialog) := by
  induction es generalizing start with
  | nil => exact .nil
  | cons e es ih =>
    have hne := (hes e List.mem_cons_self).ne
    have hseen : since out 0 start = [] := by
      cases start with
      | none => rfl
      | some s => rw [since, Nat.zero_sub, List.take_zero]
    refine .cons ?_ (ih fun e he => hes e (List.mem_cons_of_mem _ he))
    rw [hseen]
    have hwait : ¬ e.text <:+: [] := by
      rw [List.infix_nil]
      exact hne
    exact .waiting hwait (longest_nil hne)

structure Reacted (want : Reaction) (r : List Str × Bool × List (Option Char)) : Prop where
  replies : r.1 = want.replies
  verdict : r.2.1 = want.verdict
  left : r.2.2.filterMap id = want.left

/-- From the `n`-th byte on, the conversation goes as planned. -/
theorem streamExpectDialog_reacts {timeout : Int} (hes : ∀ e ∈ entries, Usable e)
    {output : List (Option Char)} (hquiet : 0 < timeout → none ∉ output)
    (hnul : some '\x00' ∉ output) {n : Nat} (hn : n ≤ out.length) {ds : List ExpectDialog}
    (h : Tracks out n (some 0) entries ds) (hdrop : out.drop n = output.filterMap id) :
    Reacted (react (schedule out (some 0) entries) n (output.filterMap id))
      (streamExpectDialog timeout output ds) := by
  induction output generalizing n ds with
  | nil =>
    have hlength := List.drop_eq_nil_iff.mp hdrop
    have hend : n = out.length := Nat.le_antisymm hn hlength
    subst hend
    exact ⟨rfl, h.done hes, rfl⟩
  | cons read output ih =>
    rw [List.mem_cons, not_or] at hnul
    have hquiet' : 0 < timeout → none ∉ output := fun ht hmem =>
      hquiet ht (List.mem_cons_of_mem _ hmem)
    cases read with
    | none =>
      have htimeout : ¬ timeout > 0 := fun ht => hquiet ht List.mem_cons_self
      rw [streamExpectDialog, if_neg htimeout]
      exact ih hquiet' hnul.2 hn h hdrop
    | some c =>
      have hc : ¬ c = '\x00' := fun hc => hnul.1 (by rw [hc])
      have hbytes : (some c :: output).filterMap id = c :: output.filterMap id := rfl
      rw [hbytes] at hdrop ⊢
      have hget : out[n]? = some c := by
        rw [← Nat.add_zero n, ← List.getElem?_drop, hdrop]
        rfl
      have hlt := (List.getElem?_eq_some_iff.mp hget).1
      have hdrop' : out.drop (n + 1) = output.filterMap id := by
        rw [← List.drop_drop, hdrop]
        rfl
      obtain ⟨hverdict, hreplies, htracks⟩ :=
        expectByte_follows hget h hes ⟨0, rfl, Nat.zero_le _⟩
      rw [streamExpectDialog, if_neg hc, react]
      generalize firing (schedule out (some 0) entries) (n + 1) = fire at hverdict hreplies
      generalize expectByte c ds = r at hverdict hreplies htracks
      obtain ⟨ds', replies, verdict⟩ := r
      dsimp only at hverdict hreplies htracks ⊢
      rw [← hverdict]
      cases verdict with
      | some v => exact ⟨hreplies, rfl, rfl⟩
      | none =>
        have hrest := ih hquiet' hnul.2 hlt (htracks rfl) hdrop'
        rw [upToVerdict_none hverdict.symm] at hreplies
        subst hreplies
        exact ⟨congrArg (fire.map Entry.answer ++ ·) hrest.replies, hrest.verdict, hrest.left⟩

end Run

end Invocation
