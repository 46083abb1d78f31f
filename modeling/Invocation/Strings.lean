import Invocation.StrLenCache

/-!
# What the string functions do to their texts

Each function turns a block that holds one text into a block that holds another,
with its length in the slots unless the text is empty.
-/

namespace Invocation

set_option autoImplicit false

namespace StrLenCache

open Blocks SlotCache

/-- A string: a block that holds a text, whose slot has the right length. The
length of an empty string is never looked up. -/
structure StringAt (m : Memory) (a : Nat) (s : Str) : Prop where
  block : ∃ b, m.heap a = some b ∧ Holds NUL b s
  cached : ∀ n, some (a, n) ∈ m.cache → n = s.length ∨ s = []

/-- A pointer and the string behind it. -/
def ValueAt (m : Memory) (p : Option Nat) (v : Option Str) : Prop :=
  match p with
  | none => v = none
  | some a => ∃ s, v = some s ∧ StringAt m a s

def SourceAt (m : Memory) (src : Source) (v : Option Str) : Prop :=
  match src with
  | .null => v = none
  | .literal s => v = some (text NUL s)
  | .block a => ∃ s, v = some s ∧ StringAt m a s

/-- The source is not the string that is written. -/
def Apart (p : Option Nat) (src : Source) : Prop := ∀ c, src = .block c → p ≠ some c

theorem StringAt.proper {m : Memory} {a : Nat} {s : Str} (h : StringAt m a s) : NUL ∉ s := by
  obtain ⟨_, _, hholds⟩ := h.block
  exact hholds.proper

theorem StringAt.strLenFromCache_eq {m : Memory} {a : Nat} {s : Str} (h : StringAt m a s) :
    strLenFromCache m (some a) = .ok s.length := by
  obtain ⟨b, hb, hholds⟩ := h.block
  obtain ⟨rest, hrest⟩ := hholds.split
  have hstrlen := hholds.strlen_eq
  simp only [strLenFromCache, load_eq hb]
  cases s with
  | nil =>
    rw [hrest]
    rfl
  | cons first tail =>
    rw [hrest]
    have hne : first ≠ NUL := by
      intro heq
      exact hholds.proper (heq ▸ List.mem_cons_self)
    show (if first = NUL then _ else _) = _
    rw [if_neg hne]
    cases hlook : lookup a m.cache with
    | none =>
      rw [hrest] at hstrlen
      exact hstrlen
    | some n =>
      rcases h.cached n (mem_of_lookup hlook) with hn | hempty
      · rw [hn]
      · cases hempty

theorem ValueAt.strLenFromCache_eq {m : Memory} {p : Option Nat} {v : Option Str}
    (h : ValueAt m p v) : strLenFromCache m p = .ok (v.getD []).length := by
  cases p with
  | none =>
    cases h
    rfl
  | some a =>
    obtain ⟨s, rfl, hs⟩ := h
    exact hs.strLenFromCache_eq

theorem ValueAt.begins {m : Memory} {p : Option Nat} {v : Option Str} (h : ValueAt m p v) :
    Begins m p (v.getD []) := by
  cases p with
  | none =>
    cases h
    rfl
  | some a =>
    obtain ⟨s, rfl, hs⟩ := h
    obtain ⟨b, hb, hholds⟩ := hs.block
    exact ⟨b, hb, hholds.begins⟩

theorem ValueAt.proper {m : Memory} {p : Option Nat} {v : Option Str} (h : ValueAt m p v) :
    NUL ∉ v.getD [] := by
  cases p with
  | none =>
    cases h
    exact List.not_mem_nil
  | some a =>
    obtain ⟨s, rfl, hs⟩ := h
    exact hs.proper

theorem read_of_holds {m : Memory} {a : Nat} {b s : Str} (hb : m.heap a = some b)
    (h : Holds NUL b s) : (Source.block a).read m = .ok s := by
  simp only [Source.read, load_eq hb]
  show (strlen NUL b >>= fun len => _) = _
  rw [h.strlen_eq]
  exact congrArg Except.ok (List.prefix_iff_eq_take.mp h.begins).symm

theorem SourceAt.read_eq {m : Memory} {src : Source} {v : Option Str} (h : SourceAt m src v) :
    src.read m = .ok (v.getD []) := by
  cases src with
  | null =>
    cases h
    rfl
  | literal s =>
    cases h
    rfl
  | block a =>
    obtain ⟨s, rfl, hs⟩ := h
    obtain ⟨b, hb, hholds⟩ := hs.block
    exact read_of_holds hb hholds

theorem SourceAt.strLen_eq {m : Memory} {src : Source} {v : Option Str} (h : SourceAt m src v) :
    src.strLen m = .ok (v.getD []).length := by
  unfold Source.strLen
  rw [h.read_eq]
  rfl

theorem SourceAt.strLenFromCache_eq {m : Memory} {src : Source} {v : Option Str}
    (h : SourceAt m src v) : src.strLenFromCache m = .ok (v.getD []).length := by
  cases src with
  | null => exact h.strLen_eq
  | literal s => exact h.strLen_eq
  | block a =>
    obtain ⟨s, rfl, hs⟩ := h
    exact hs.strLenFromCache_eq

theorem SourceAt.proper {m : Memory} {src : Source} {v : Option Str} (h : SourceAt m src v) :
    NUL ∉ v.getD [] := by
  cases src with
  | null =>
    cases h
    exact List.not_mem_nil
  | literal s =>
    cases h
    exact zero_not_mem_text s
  | block a =>
    obtain ⟨s, rfl, hs⟩ := h
    exact hs.proper

theorem ValueAt.mono {m m' : Memory} {p : Option Nat} {v : Option Str} (h : ValueAt m p v)
    (hstring : ∀ a s, p = some a → StringAt m a s → StringAt m' a s) : ValueAt m' p v := by
  cases p with
  | none => exact h
  | some a =>
    obtain ⟨s, hs, hat⟩ := h
    exact ⟨s, hs, hstring a s rfl hat⟩

theorem SourceAt.some_of_ne {m : Memory} {src : Source} {v : Option Str} (h : SourceAt m src v)
    (hne : src ≠ .null) : ∃ s, v = some s := by
  cases src with
  | null => exact absurd rfl hne
  | literal s => exact ⟨_, h⟩
  | block a =>
    obtain ⟨s, hv, _⟩ := h
    exact ⟨s, hv⟩

namespace Moves

variable {m m' : Memory} {p : Option Nat} {a : Nat}

/-- Another string is not where this one went. -/
theorem place_ne (h : Moves m p m' a) {c : Nat} {s : Str} (hs : StringAt m c s)
    (hp : p ≠ some c) : c ≠ a := by
  intro heq
  rw [heq] at hp hs
  obtain ⟨b, hb, _⟩ := hs.block
  rcases h.place with hplace | hfree
  · exact hp hplace
  · rw [hfree] at hb
    cases hb

theorem stringAt (h : Moves m p m' a) {c : Nat} {s : Str} (hs : StringAt m c s)
    (hp : p ≠ some c) : StringAt m' c s := by
  have hne := h.place_ne hs hp
  constructor
  · rw [h.others c hne hp]
    exact hs.block
  · intro n hmem
    exact hs.cached n (h.cached c n hne hmem).2

theorem sourceAt (h : Moves m p m' a) {src : Source} {v : Option Str} (hsrc : SourceAt m src v)
    (hapart : Apart p src) : SourceAt m' src v := by
  cases src with
  | null => exact hsrc
  | literal s => exact hsrc
  | block c =>
    obtain ⟨s, hv, hs⟩ := hsrc
    exact ⟨s, hv, h.stringAt hs (hapart c rfl)⟩

theorem apart (h : Moves m p m' a) {src : Source} {v : Option Str} (hsrc : SourceAt m src v)
    (hapart : Apart p src) : Apart (some a) src := by
  intro c hc
  rw [hc] at hsrc
  obtain ⟨s, _, hs⟩ := hsrc
  exact other_pointer (h.place_ne hs (hapart c hc))

end Moves

/-- What a function that writes the string at `p` has to do. -/
structure Becomes (m : Memory) (p : Option Nat) (s : Str) (r : Memory × Nat) : Prop where
  moves : Moves m p r.1 r.2
  string : StringAt r.1 r.2 s

/-- A string that has just been written has its slot if it is long. -/
structure Written (m : Memory) (p : Option Nat) (s : Str) (r : Memory × Nat) : Prop
    extends Becomes m p s r where
  slot : lookup r.2 r.1.cache = remembered s.length

theorem catStr_written {m : Memory} (hm : Sound m) (c : Choice) {p : Option Nat} {src : Source}
    {v w : Option Str} (hv : ValueAt m p v) (hw : SourceAt m src w) (hapart : Apart p src) :
    Ensures (catStr c m p src) (Written m p (v.getD [] ++ w.getD [])) := by
  refine Ensures.of_eq hw.strLen_eq (Ensures.of_eq hv.strLenFromCache_eq ?_)
  refine Ensures.bind (setStrLen_resized hm c hv.begins (Nat.le_add_right _ _)) ?_
  rintro moved ⟨hmoved, hslot⟩
  obtain ⟨b, hb, hbegins, hlen⟩ := hmoved.begins
  refine Ensures.of_eq (hmoved.moves.sourceAt hw hapart).read_eq (Ensures.of_eq (load_eq hb) ?_)
  rw [List.take_length]
  have hbound : (v.getD []).length + (w.getD [] ++ [NUL]).length ≤ b.length := by
    rw [hlen, List.length_append, List.length_singleton]
    omega
  refine Ensures.bind (write_append hbegins hbound) ?_
  intro b' hb'
  refine Ensures.ok ⟨⟨hmoved.moves.store b', ?_, ?_⟩, ?_⟩
  · refine ⟨b', store_self .., ?_, ?_⟩
    · exact fun h => (List.mem_append.mp h).elim hv.proper hw.proper
    · rw [List.append_assoc]
      exact hb'.1
  · intro n hmem
    rw [List.length_append]
    exact .inl (hmoved.cached n hmem)
  · rw [List.length_append]
    exact hslot

theorem catStr_becomes {m : Memory} (hm : Sound m) (c : Choice) {p : Option Nat} {src : Source}
    {v w : Option Str} (hv : ValueAt m p v) (hw : SourceAt m src w) (hapart : Apart p src) :
    Ensures (catStr c m p src) (Becomes m p (v.getD [] ++ w.getD [])) :=
  (catStr_written hm c hv hw hapart).mono fun _ h => h.toBecomes

/-- A NUL behind what the block begins with. -/
theorem cutAt_holds {m : Memory} {a : Nat} {s b : Str} (hb : m.heap a = some b)
    (hproper : NUL ∉ s) (hbegins : s <+: b) (hlen : s.length < b.length) :
    Ensures (cutAt m a s.length) fun m' => ∃ b', m' = m.store a b' ∧ Holds NUL b' s := by
  refine Ensures.of_eq (load_eq hb) ?_
  refine Ensures.bind (write_append hbegins (by rw [List.length_singleton]; omega)) ?_
  intro b' hb'
  exact Ensures.ok ⟨b', rfl, hproper, hb'.1⟩

/-- A string that has been cleared keeps its slot, whatever that says. -/
theorem clear_spec {m : Memory} (hm : Sound m) {a : Nat} {s : Str}
    (hs : ∃ b, m.heap a = some b ∧ Holds NUL b s) :
    Ensures (clear m (some a)) fun m' => Moves m (some a) m' a ∧ StringAt m' a [] := by
  obtain ⟨b, hb, hholds⟩ := hs
  have hlen : ([] : Str).length < b.length := Nat.lt_of_le_of_lt (Nat.zero_le _) hholds.length_lt
  refine (cutAt_holds hb List.not_mem_nil List.nil_prefix hlen).mono ?_
  rintro _ ⟨b', rfl, hb'⟩
  exact ⟨(Moves.refl hm.unique a).store b', ⟨b', store_self .., hb'⟩, fun _ _ => .inr rfl⟩

/-- A string that is being put together: it may not have its NUL yet. -/
structure Partial (m : Memory) (a : Nat) (s : Str) : Prop where
  proper : NUL ∉ s
  block : ∃ b, m.heap a = some b ∧ s <+: b ∧ s.length < b.length
  cached : ∀ n, some (a, n) ∈ m.cache → n = s.length ∨ s = []

theorem StringAt.started {m : Memory} {a : Nat} {s : Str} (h : StringAt m a s) :
    Partial m a s := by
  obtain ⟨b, hb, hholds⟩ := h.block
  exact ⟨hholds.proper, ⟨b, hb, hholds.begins, hholds.length_lt⟩, h.cached⟩

/-- The pieces before the first `NULL`. -/
def given : List (Option Str) → Str
  | [] => []
  | none :: _ => []
  | some s :: vs => s ++ given vs

structure Pieces (m : Memory) (p : Option Nat) (srcs : List Source) (vs : List (Option Str)) :
    Prop where
  values : List.Forall₂ (SourceAt m) srcs vs
  apart : ∀ src ∈ srcs, Apart p src

theorem Pieces.tail {m : Memory} {p : Option Nat} {src : Source} {srcs : List Source}
    {v : Option Str} {vs : List (Option Str)} (h : Pieces m p (src :: srcs) (v :: vs)) :
    Pieces m p srcs vs :=
  ⟨(List.forall₂_cons.mp h.values).2, fun src' hsrc' => h.apart src' (List.mem_cons_of_mem _ hsrc')⟩

theorem Pieces.moved {m m' : Memory} {p : Option Nat} {a : Nat} {srcs : List Source}
    {vs : List (Option Str)} (h : Pieces m p srcs vs) (hmoves : Moves m p m' a) :
    Pieces m' (some a) srcs vs := by
  obtain ⟨hvalues, hapart⟩ := h
  induction hvalues with
  | nil => exact ⟨.nil, nofun⟩
  | cons hv _ ih =>
    have hap := hapart _ List.mem_cons_self
    have hrest := ih fun src' hsrc' => hapart src' (List.mem_cons_of_mem _ hsrc')
    refine ⟨.cons (hmoves.sourceAt hv hap) hrest.values, ?_⟩
    intro src' hsrc'
    cases hsrc' with
    | head => exact hmoves.apart hv hap
    | tail _ hmem => exact hrest.apart src' hmem

theorem appendPiece_spec {m : Memory} (hm : Sound m) (c : Choice) {a : Nat} {src : Source}
    {s t : Str} (hs : Partial m a s) (ht : SourceAt m src (some t)) (hapart : Apart (some a) src) :
    Ensures (appendPiece c m a s.length src t.length) fun r =>
      Moves m (some a) r.1 r.2 ∧ Partial r.1 r.2 (s ++ t) := by
  obtain ⟨old, hold, hbegins, _⟩ := hs.block
  refine Ensures.bind (setStrLen_resized hm c ⟨old, hold, hbegins⟩ (Nat.le_add_right _ _)) ?_
  rintro moved ⟨hmoved, _⟩
  obtain ⟨b, hb, hbegins, hlen⟩ := hmoved.begins
  refine Ensures.of_eq (hmoved.moves.sourceAt ht hapart).read_eq (Ensures.of_eq (load_eq hb) ?_)
  show Ensures (write b s.length (t.take t.length) >>= _) _
  rw [List.take_length]
  refine Ensures.bind (write_append hbegins (by omega)) ?_
  intro b' hb'
  refine Ensures.ok ⟨hmoved.moves.store b', ?_, ⟨b', store_self .., hb'.1, ?_⟩, ?_⟩
  · exact fun h => (List.mem_append.mp h).elim hs.proper ht.proper
  · rw [hb'.2, hlen, List.length_append]
    omega
  · intro n hmem
    rw [List.length_append]
    exact .inl (hmoved.cached n hmem)

theorem vcatLoop_spec {srcs : List Source} {vs : List (Option Str)} (c : Nat → Choice) {m : Memory}
    {a : Nat} {s : Str} (hm : Sound m) (hs : Partial m a s) (hsrcs : Pieces m (some a) srcs vs) :
    Ensures (vcatLoop c m a s.length srcs) fun r =>
      Moves m (some a) r.1 r.2.1 ∧ Partial r.1 r.2.1 (s ++ given vs) ∧
        r.2.2 = (s ++ given vs).length := by
  induction srcs generalizing vs c m a s with
  | nil =>
    cases hsrcs.values
    rw [vcatLoop, given, List.append_nil]
    exact Ensures.ok ⟨Moves.refl hm.unique a, hs, rfl⟩
  | cons src srcs ih =>
    cases hvalues : hsrcs.values with
    | cons hv hrest => ?_
    rename_i v vs
    rw [vcatLoop]
    by_cases hnull : src = .null
    · rw [hnull] at hv
      cases hv
      rw [if_pos hnull, given, List.append_nil]
      exact Ensures.ok ⟨Moves.refl hm.unique a, hs, rfl⟩
    · rw [if_neg hnull]
      obtain ⟨t, rfl⟩ := hv.some_of_ne hnull
      refine Ensures.of_eq hv.strLen_eq ?_
      show Ensures (if 0 < t.length then _ else _) _
      rw [given, ← List.append_assoc]
      by_cases hempty : 0 < t.length
      · rw [if_pos hempty]
        refine Ensures.bind
          (appendPiece_spec hm (c 0) hs hv (hsrcs.apart src List.mem_cons_self)) ?_
        intro r hr
        obtain ⟨_, hb, _⟩ := hr.2.block
        rw [← List.length_append]
        refine (ih _ (hr.1.sound hm hb) hr.2 (hsrcs.tail.moved hr.1)).mono ?_
        exact fun last hlast => ⟨hr.1.trans hlast.1, hlast.2⟩
      · have ht : t = [] := List.eq_nil_of_length_eq_zero (Nat.eq_zero_of_not_pos hempty)
        rw [if_neg hempty, ht, List.append_nil]
        exact ih c hm hs hsrcs.tail

/-- `VCatStr` once the destination is there. -/
theorem vcat_closed {srcs : List Source} {vs : List (Option Str)} (c : Nat → Choice) {m : Memory}
    {a : Nat} {s : Str} (hm : Sound m) (hs : Partial m a s) (hsrcs : Pieces m (some a) srcs vs) :
    Ensures (do
      let last ← vcatLoop c m a s.length srcs
      let m' ← cutAt last.1 last.2.1 last.2.2
      .ok (m', last.2.1)) (Becomes m (some a) (s ++ given vs)) := by
  refine Ensures.bind (vcatLoop_spec c hm hs hsrcs) ?_
  intro last hlast
  obtain ⟨hmoves, hs', hlen⟩ := hlast
  obtain ⟨b, hb, hbegins, hlt⟩ := hs'.block
  rw [hlen]
  refine Ensures.bind (cutAt_holds hb hs'.proper hbegins hlt) ?_
  rintro _ ⟨b', rfl, hholds⟩
  exact Ensures.ok ⟨hmoves.store b', ⟨b', store_self .., hholds⟩, hs'.cached⟩

/-- `calloc` makes an empty string. -/
theorem setStrLen_fresh {m : Memory} (hm : Sound m) (c : Choice) (len : Nat) :
    Ensures (setStrLen c m none len) (Becomes m none []) := by
  refine Ensures.bind (allot_resized hm c.addr len) ?_
  rintro heap ⟨hresized, hnone, hzero⟩
  have hheap (m' : Memory) : m' = ⟨heap, m.cache⟩ →
      (if minLen < len then strLenCacheAdd c m' c.addr len else m').heap c.addr =
        some (List.replicate (len + 8) NUL) := by
    rintro rfl
    split
    · exact hzero
    · exact hzero
  refine Ensures.ok ⟨(hresized.noted hm hnone c _ rfl).1.moves,
    ⟨_, hheap _ rfl, List.not_mem_nil, ?_⟩, ?_⟩
  · exact ⟨List.replicate (len + 7) NUL, rfl⟩
  · exact fun _ _ => .inr rfl

theorem vcatStart_spec {m : Memory} (hm : Sound m) (c : Choice) {p : Option Nat} {src : Source}
    {v w : Option Str} (hv : ValueAt m p v) (hw : SourceAt m src w) :
    Ensures (vcatStart c m p src) fun start =>
      Becomes m p (v.getD []) start.1 ∧ start.2 = (v.getD []).length := by
  cases p with
  | some a =>
    obtain ⟨s, rfl, hs⟩ := hv
    refine Ensures.of_eq hs.strLenFromCache_eq ?_
    exact Ensures.ok ⟨⟨Moves.refl hm.unique a, hs⟩, rfl⟩
  | none =>
    cases hv
    refine Ensures.of_eq hw.strLenFromCache_eq ?_
    refine Ensures.bind (setStrLen_fresh hm c _) ?_
    exact fun fresh hfresh => Ensures.ok ⟨hfresh, rfl⟩

theorem vcatStr_becomes {m : Memory} (hm : Sound m) (c : Nat → Choice) {p : Option Nat}
    {src : Source} {srcs : List Source} {v w : Option Str} {ws : List (Option Str)}
    (hv : ValueAt m p v) (hsrcs : Pieces m p (src :: srcs) (w :: ws)) :
    Ensures (vcatStr c m p src srcs) (Becomes m p (v.getD [] ++ given (w :: ws))) := by
  have hw := (List.forall₂_cons.mp hsrcs.values).1
  refine Ensures.bind (vcatStart_spec hm (c 0) hv hw) ?_
  rintro ⟨start, len⟩ ⟨hstart, hlen⟩
  by_cases hnull : src = .null
  · rw [hnull] at hw
    cases hw
    rw [if_pos hnull, given, List.append_nil]
    exact Ensures.ok hstart
  · rw [if_neg hnull, hlen]
    obtain ⟨_, hb, _⟩ := hstart.string.block
    have hsound := hstart.moves.sound hm hb
    refine (vcat_closed _ hsound hstart.string.started (hsrcs.moved hstart.moves)).mono ?_
    exact fun r hr => ⟨hstart.moves.trans hr.moves, hr.string⟩

/-- Overwriting is appending to an empty string. -/
theorem overwrite_becomes {m : Memory} (hm : Sound m) {p : Option Nat} {v : Option Str}
    {srcs : List Source} {vs : List (Option Str)} {t : Str}
    {next : Memory → Except Fault (Memory × Nat)} (hv : ValueAt m p v) (hsrcs : Pieces m p srcs vs)
    (hnext : ∀ m', Sound m' → ValueAt m' p (v.map fun _ => []) → Pieces m' p srcs vs →
      Ensures (next m') (Becomes m' p t)) :
    Ensures (clear m p >>= next) (Becomes m p t) := by
  cases p with
  | none =>
    cases hv
    exact hnext m hm rfl hsrcs
  | some a =>
    obtain ⟨s, rfl, hs⟩ := hv
    refine Ensures.bind (clear_spec hm hs.block) ?_
    intro m' hm'
    obtain ⟨hmoves, hempty⟩ := hm'
    obtain ⟨_, hb, _⟩ := hempty.block
    have hsound := hmoves.sound hm hb
    refine (hnext m' hsound ⟨[], rfl, hempty⟩ (hsrcs.moved hmoves)).mono ?_
    exact fun r hr => ⟨hmoves.trans hr.moves, hr.string⟩

theorem getD_map_nil (v : Option Str) : (v.map fun _ => ([] : Str)).getD [] = [] := by
  cases v with
  | none => rfl
  | some s => rfl

/-- A string whose slot may hold any length. -/
def BlockAt (m : Memory) (p : Option Nat) : Prop :=
  ∀ a, p = some a → ∃ s b, m.heap a = some b ∧ Holds NUL b s

/-- `CopyStr` does not depend on the slot of the string that it overwrites. -/
theorem copyStr_written {m : Memory} (hm : Sound m) (c : Choice) {p : Option Nat} {src : Source}
    {w : Option Str} (hp : BlockAt m p) (hw : SourceAt m src w) (hapart : Apart p src) :
    Ensures (copyStr c m p src) (Written m p (w.getD [])) := by
  cases p with
  | none =>
    have hv : ValueAt m none none := rfl
    exact catStr_written hm c hv hw hapart
  | some a =>
    obtain ⟨s, hs⟩ := hp a rfl
    refine Ensures.bind (clear_spec hm hs) ?_
    rintro m' ⟨hmoves, hempty⟩
    obtain ⟨_, hb, _⟩ := hempty.block
    have hsound := hmoves.sound hm hb
    have hw' : SourceAt m' src w := hmoves.sourceAt hw hapart
    have hv : ValueAt m' (some a) (some []) := ⟨[], rfl, hempty⟩
    refine (catStr_written hsound c hv hw' hapart).mono ?_
    exact fun r hr => ⟨⟨hmoves.trans hr.moves, hr.string⟩, hr.slot⟩

theorem copyStr_becomes {m : Memory} (hm : Sound m) (c : Choice) {p : Option Nat} {src : Source}
    {v w : Option Str} (hv : ValueAt m p v) (hw : SourceAt m src w) (hapart : Apart p src) :
    Ensures (copyStr c m p src) (Becomes m p (w.getD [])) := by
  have hp : BlockAt m p := by
    rintro a rfl
    obtain ⟨s, _, hs⟩ := hv
    exact ⟨s, hs.block⟩
  exact (copyStr_written hm c hp hw hapart).mono fun _ h => h.toBecomes

theorem mcopyStr_becomes {m : Memory} (hm : Sound m) (c : Nat → Choice) {p : Option Nat}
    {src : Source} {srcs : List Source} {v w : Option Str} {ws : List (Option Str)}
    (hv : ValueAt m p v) (hsrcs : Pieces m p (src :: srcs) (w :: ws)) :
    Ensures (mcopyStr c m p src srcs) (Becomes m p (given (w :: ws))) := by
  refine overwrite_becomes hm hv hsrcs ?_
  intro m' hm' hv' hsrcs'
  have hspec := vcatStr_becomes hm' c hv' hsrcs'
  rw [getD_map_nil, List.nil_append] at hspec
  exact hspec

/-- The slot of a string whose length is given. -/
theorem StringAt.add {m : Memory} {a : Nat} {s : Str} (h : ∃ b, m.heap a = some b ∧ Holds NUL b s)
    (hunique : Unique m.cache) (c : Choice) : StringAt (strLenCacheAdd c m a s.length) a s where
  block := h
  cached := by
    intro n hmem
    rcases mem_put hunique hmem with ⟨_, hn⟩ | ⟨hne, _⟩
    · exact .inl hn
    · exact absurd rfl hne

/-- What a function that leaves the string where it is has to do. -/
def Rewrites (m : Memory) (a : Nat) (s : Str) (m' : Memory) : Prop := Becomes m (some a) s (m', a)

theorem strTrunc_spec {m : Memory} (hm : Sound m) (c : Choice) {a : Nat} {s : Str} (len : Nat)
    (hs : StringAt m a s) : Ensures (strTrunc c m (some a) len) (Rewrites m a (s.take len)) := by
  have hsrc : SourceAt m (.block a) (some s) := ⟨s, rfl, hs⟩
  refine Ensures.of_eq hsrc.strLen_eq ?_
  show Ensures (if len < s.length then _ else _) _
  by_cases hlen : len < s.length
  · obtain ⟨b, hb, hholds⟩ := hs.block
    have hcut : (s.take len).length = len := List.length_take_of_le (Nat.le_of_lt hlen)
    have hproper : NUL ∉ s.take len := fun h => hholds.proper (List.mem_of_mem_take h)
    have hprefix : s.take len <+: b := (List.take_prefix len s).trans hholds.begins
    have hlt : (s.take len).length < b.length := by
      have := hholds.length_lt
      omega
    have hspec := cutAt_holds hb hproper hprefix hlt
    rw [hcut] at hspec
    rw [if_pos hlen]
    refine Ensures.bind hspec ?_
    rintro _ ⟨b', rfl, hb'⟩
    have hmoves := (Moves.refl hm.unique a).store b'
    have hstring := StringAt.add ⟨b', store_self .., hb'⟩ hmoves.unique c
    rw [hcut] at hstring
    exact Ensures.ok ⟨hmoves.cacheAdd c len, hstring⟩
  · rw [if_neg hlen, List.take_of_length_le (Nat.le_of_not_lt hlen)]
    exact Ensures.ok ⟨Moves.refl hm.unique a, hs⟩

theorem begins_nul (n : Nat) (rest : Str) : [NUL] <+: List.replicate n NUL ++ NUL :: rest := by
  cases n with
  | zero => exact ⟨rest, rfl⟩
  | succ n => exact ⟨List.replicate n NUL ++ NUL :: rest, rfl⟩

theorem stripTrailingWhitespace_spec {m : Memory} (hm : Sound m) {a : Nat} {s : Str}
    (hs : StringAt m a s) :
    Ensures (stripTrailingWhitespace m (some a))
      (Rewrites m a (Invocation.stripTrailingWhitespace s)) := by
  refine Ensures.of_eq hs.strLenFromCache_eq ?_
  by_cases hlen : 0 < s.length
  · rw [if_pos hlen]
    obtain ⟨b, hb, hholds⟩ := hs.block
    refine Ensures.of_eq (load_eq hb) ?_
    rw [← List.prefix_iff_eq_take.mp hholds.begins]
    obtain ⟨rest, rfl⟩ := hholds.split
    obtain ⟨blanks, hblanks⟩ := List.rdropWhile_prefix isSpace s
    have hlen' : s.length = (s.rdropWhile isSpace).length + blanks.length := by
      rw [← List.length_append, hblanks]
    have hzeros :
        blanks.length = (List.replicate (s.length - (s.rdropWhile isSpace).length) NUL).length := by
      rw [List.length_replicate]
      omega
    have hwrite := write_middle (s.rdropWhile isSpace) (NUL :: rest) hzeros
    rw [hblanks] at hwrite
    refine Ensures.of_eq hwrite (Ensures.ok ⟨(Moves.refl hm.unique a).cacheDel.store _, ?_, ?_⟩)
    · have hsub := (List.rdropWhile_prefix isSpace s).subset
      refine ⟨_, store_self .., fun h => hholds.proper (hsub h), ?_⟩
      rw [List.append_assoc]
      exact (List.prefix_append_right_inj _).mpr (begins_nul _ rest)
    · intro n hmem
      exact absurd rfl (mem_remove.mp hmem).1
  · have hempty : s = [] := List.eq_nil_of_length_eq_zero (Nat.eq_zero_of_not_pos hlen)
    rw [if_neg hlen, hempty]
    rw [hempty] at hs
    exact Ensures.ok ⟨Moves.refl hm.unique a, hs⟩

theorem stripLeadingWhitespace_spec {m : Memory} (hm : Sound m) (c : Choice) {a : Nat} {s : Str}
    (hs : StringAt m a s) :
    Ensures (stripLeadingWhitespace c m (some a))
      (Rewrites m a (Invocation.stripLeadingWhitespace s)) := by
  have hsrc : SourceAt m (.block a) (some s) := ⟨s, rfl, hs⟩
  obtain ⟨b, hb, hholds⟩ := hs.block
  refine Ensures.of_eq hsrc.read_eq (Ensures.of_eq (load_eq hb) ?_)
  have hsuffix : s.dropWhile isSpace <:+ s := List.dropWhile_suffix isSpace
  have hlen : (s.dropWhile isSpace ++ [NUL]).length ≤ b.length := by
    rw [List.length_append, List.length_singleton]
    exact Nat.lt_of_le_of_lt hsuffix.length_le hholds.length_lt
  refine Ensures.bind (write_start hlen) ?_
  intro b' hb'
  have hmoves := (Moves.refl hm.unique a).store b'
  have hproper : NUL ∉ s.dropWhile isSpace := fun h => hholds.proper (hsuffix.subset h)
  refine Ensures.ok ⟨hmoves.cacheAdd c _, StringAt.add ?_ hmoves.unique c⟩
  exact ⟨b', store_self .., hproper, hb'.1⟩

/-- `StripQuotes` finds a closing quote, which may be the opening one. -/
def quoted (s : Str) : Bool :=
  match s.dropWhile isSpace with
  | [] => false
  | q :: rest => isQuote q && (q :: rest).getLast? == some q

theorem takeWhile_spaces (s rest : Str) :
    (s ++ NUL :: rest).takeWhile isSpace = s.takeWhile isSpace := by
  induction s with
  | nil => rfl
  | cons c s ih => rw [List.cons_append, List.takeWhile_cons, List.takeWhile_cons, ih]

theorem quoted_of_rest {s t : Str} {q : Char} (hrest : s.dropWhile isSpace = q :: t)
    (hquote : isQuote q = true) : quoted s = ((q :: t).getLast? == some q) := by
  rw [quoted, hrest]
  show (isQuote q && _) = _
  rw [hquote, Bool.true_and]

theorem stripQuotes_of_rest {s t : Str} {q : Char} (hrest : s.dropWhile isSpace = q :: t)
    (hquote : isQuote q = true) :
    Invocation.stripQuotes s =
      if t = [] then s.takeWhile isSpace else if t.getLast? = some q then t.dropLast else s := by
  rw [Invocation.stripQuotes, hrest]
  exact if_pos hquote

/-- What `StripQuotes` leaves: the text without its quotes, and slots in which the
NUL is counted. -/
structure Unquoted (c : Choice) (m : Memory) (a : Nat) (s : Str) (m' : Memory) : Prop where
  moves : Moves m (some a) m' a
  block : ∃ b, m'.heap a = some b ∧ Holds NUL b (Invocation.stripQuotes s)
  cache : m'.cache = if quoted s then
    (strLenCacheAdd c m a ((s.dropWhile isSpace).length - 1)).cache else m.cache

theorem stripQuotes_of_not_quoted {s : Str} (h : quoted s = false) :
    Invocation.stripQuotes s = s := by
  cases hrest : s.dropWhile isSpace with
  | nil => rw [Invocation.stripQuotes, hrest]
  | cons q t =>
    cases hquote : isQuote q with
    | false =>
      rw [Invocation.stripQuotes, hrest]
      show (if isQuote q = true then _ else s) = s
      rw [hquote, if_neg Bool.false_ne_true]
    | true =>
      rw [quoted_of_rest hrest hquote, beq_eq_false_iff_ne] at h
      rw [stripQuotes_of_rest hrest hquote]
      cases t with
      | nil => exact absurd rfl h
      | cons d t =>
        rw [List.getLast?_cons_cons] at h
        rw [if_neg (List.cons_ne_nil d t), if_neg h]

theorem Unquoted.same {c : Choice} {m : Memory} {a : Nat} {s b : Str} (hm : Sound m)
    (hb : m.heap a = some b) (hholds : Holds NUL b s) (hquoted : quoted s = false) :
    Unquoted c m a s m where
  moves := Moves.refl hm.unique a
  block := by
    rw [stripQuotes_of_not_quoted hquoted]
    exact ⟨b, hb, hholds⟩
  cache := by
    rw [hquoted]
    rfl

/-- Both writes of `StripQuotes`. -/
theorem quotes_written {s t rest : Str} {q : Char} (hproper : NUL ∉ s)
    (hrest : s.dropWhile isSpace = q :: t) (hquote : isQuote q = true)
    (hlast : (q :: t).getLast? = some q) :
    Ensures (do
      let cut ← write (s ++ NUL :: rest) ((s.takeWhile isSpace).length + t.length) [NUL]
      write cut 0 ((cut.drop ((s.takeWhile isSpace).length + 1)).take t.length))
      fun b => Holds NUL b (Invocation.stripQuotes s) := by
  have hsplit : s.takeWhile isSpace ++ q :: t = s := by
    rw [← hrest]
    exact List.takeWhile_append_dropWhile
  obtain ⟨init, hinit⟩ := List.getLast?_eq_some_iff.mp hlast
  have hlen : t.length = init.length := by
    have h := congrArg List.length hinit
    rw [List.length_append, List.length_cons, List.length_singleton] at h
    omega
  have hwrite : write (s ++ NUL :: rest) ((s.takeWhile isSpace).length + t.length) [NUL] =
      .ok (s.takeWhile isSpace ++ init ++ [NUL] ++ NUL :: rest) := by
    have hone : [q].length = [NUL].length := rfl
    have h := write_middle (s.takeWhile isSpace ++ init) (NUL :: rest) hone
    rw [List.append_assoc (s.takeWhile isSpace), ← hinit, hsplit, List.length_append, ← hlen] at h
    exact h
  refine Ensures.of_eq hwrite ?_
  rw [stripQuotes_of_rest hrest hquote]
  cases init with
  | nil =>
    have ht : t = [] := List.eq_nil_of_length_eq_zero hlen
    rw [if_pos ht, ht, List.append_nil, List.append_assoc]
    have hspaces : NUL ∉ s.takeWhile isSpace := fun h => hproper (List.takeWhile_subset _ h)
    exact Ensures.ok (Holds.of_append hspaces)
  | cons q' body =>
    have ht : t = body ++ [q] := (List.cons.inj hinit).2
    rw [← (List.cons.inj hinit).1, ht]
    have hcut : s.takeWhile isSpace ++ q :: body ++ [NUL] ++ NUL :: rest =
        (s.takeWhile isSpace ++ [q]) ++ ((body ++ [NUL]) ++ NUL :: rest) := by
      simp only [List.append_assoc, List.cons_append, List.nil_append]
    have hdrop : (s.takeWhile isSpace).length + 1 = (s.takeWhile isSpace ++ [q]).length := by
      rw [List.length_append, List.length_singleton]
    have htake : (body ++ [q]).length = (body ++ [NUL]).length := by
      rw [List.length_append, List.length_append, List.length_singleton, List.length_singleton]
    have hne : body ++ [q] ≠ [] := List.append_ne_nil_of_right_ne_nil _ (List.cons_ne_nil q [])
    rw [hcut, hdrop, List.drop_left, htake, List.take_left, if_neg hne,
      if_pos List.getLast?_concat, List.dropLast_concat]
    have hlen' : (body ++ [NUL]).length ≤
        ((s.takeWhile isSpace ++ [q]) ++ ((body ++ [NUL]) ++ NUL :: rest)).length := by
      simp only [List.length_append]
      omega
    refine (write_start hlen').mono fun b' hb' => ⟨?_, hb'.1⟩
    intro hmem
    apply hproper
    rw [← hsplit, ht]
    exact List.mem_append_right _ (List.mem_cons_of_mem _ (List.mem_append_left _ hmem))

theorem closeQuotes_spec {m : Memory} (hm : Sound m) (c : Choice) {a : Nat} {s t rest : Str}
    {q : Char}
    (hb : m.heap a = some (s ++ NUL :: rest)) (hproper : NUL ∉ s)
    (hrest : s.dropWhile isSpace = q :: t) (hquote : isQuote q = true) :
    Ensures (closeQuotes c m a (s ++ NUL :: rest) (s.takeWhile isSpace).length (q :: t).length q)
      (Unquoted c m a s) := by
  have hsplit : s.takeWhile isSpace ++ q :: t = s := by
    rw [← hrest]
    exact List.takeWhile_append_dropWhile
  have hend : (s ++ NUL :: rest)[(s.takeWhile isSpace).length + ((q :: t).length - 1)]? =
      (q :: t).getLast? := by
    have hlen : (q :: t).length - 1 = t.length := Nat.add_sub_cancel ..
    rw [hlen]
    calc
      (s ++ NUL :: rest)[(s.takeWhile isSpace).length + t.length]? =
          (s.takeWhile isSpace ++ (q :: t ++ NUL :: rest))[(s.takeWhile isSpace).length +
            t.length]? := by
        rw [← List.append_assoc, hsplit]
      _ = (q :: t ++ NUL :: rest)[t.length]? := by
        rw [List.getElem?_append_right (Nat.le_add_right _ _), Nat.add_sub_cancel_left]
      _ = (q :: t)[t.length]? := List.getElem?_append_left (Nat.lt_succ_self _)
      _ = (q :: t).getLast? := List.getLast?_eq_getElem?.symm
  unfold closeQuotes
  rw [hend]
  have hquoted := quoted_of_rest hrest hquote
  cases hlast : (q :: t).getLast? with
  | none => exact absurd (List.getLast?_eq_none_iff.mp hlast) (List.cons_ne_nil q t)
  | some last =>
    show Ensures (if 0 < t.length + 1 ∧ last = q then _ else _) _
    by_cases heq : last = q
    · rw [heq] at hlast
      rw [hlast, beq_self_eq_true] at hquoted
      rw [if_pos ⟨Nat.succ_pos _, heq⟩]
      rw [← bind_assoc]
      refine Ensures.bind (quotes_written hproper hrest hquote hlast) ?_
      intro b' hb'
      refine Ensures.ok ⟨((Moves.refl hm.unique a).store b').cacheAdd c _,
        ⟨b', store_self .., hb'⟩, ?_⟩
      rw [hquoted, hrest]
      rfl
    · rw [hlast] at hquoted
      rw [if_neg fun h => heq h.2]
      have hne : quoted s = false := by
        rw [hquoted]
        exact beq_eq_false_iff_ne.mpr fun h => heq (Option.some.inj h)
      exact Ensures.ok (Unquoted.same hm hb (Holds.of_append hproper) hne)

theorem stripQuotes_spec {m : Memory} (hm : Sound m) (c : Choice) {a : Nat} {s : Str}
    (hs : StringAt m a s) : Ensures (stripQuotes c m (some a)) (Unquoted c m a s) := by
  obtain ⟨b, hb, hholds⟩ := hs.block
  obtain ⟨rest, rfl⟩ := hholds.split
  have hdrop : (s ++ NUL :: rest).drop (s.takeWhile isSpace).length =
      s.dropWhile isSpace ++ NUL :: rest := by
    calc
      (s ++ NUL :: rest).drop (s.takeWhile isSpace).length =
          (s.takeWhile isSpace ++ (s.dropWhile isSpace ++ NUL :: rest)).drop
            (s.takeWhile isSpace).length := by
        rw [← List.append_assoc, List.takeWhile_append_dropWhile]
      _ = s.dropWhile isSpace ++ NUL :: rest := List.drop_left
  refine Ensures.of_eq (load_eq hb) ?_
  simp only [takeWhile_spaces]
  have hfirst : (s ++ NUL :: rest)[(s.takeWhile isSpace).length]? =
      (s.dropWhile isSpace ++ NUL :: rest).head? := by
    rw [← hdrop, List.head?_drop]
  rw [hfirst]
  cases hrest : s.dropWhile isSpace with
  | nil =>
    refine Ensures.ok (Unquoted.same hm hb hholds ?_)
    rw [quoted, hrest]
  | cons q t =>
    show Ensures (if isQuote q = true then _ else _) _
    cases hquote : isQuote q with
    | false =>
      refine Ensures.ok (Unquoted.same hm hb hholds ?_)
      rw [quoted, hrest]
      show (isQuote q && _) = false
      rw [hquote, Bool.false_and]
    | true =>
      have hlen : lenBehind m a (s ++ NUL :: rest) (s.takeWhile isSpace).length =
          .ok (q :: t).length := by
        unfold lenBehind
        by_cases hblanks : (s.takeWhile isSpace).length = 0
        · have hs' := List.takeWhile_append_dropWhile (p := isSpace) (l := s)
          rw [List.eq_nil_of_length_eq_zero hblanks, List.nil_append, hrest] at hs'
          rw [if_pos hblanks, hs.strLenFromCache_eq, ← hs']
        · have hproper : NUL ∉ q :: t := by
            intro hmem
            rw [← hrest] at hmem
            exact hholds.proper ((List.dropWhile_suffix isSpace).subset hmem)
          have hbehind : Holds NUL (q :: t ++ NUL :: rest) (q :: t) := Holds.of_append hproper
          rw [if_neg hblanks, hdrop, hrest, hbehind.strlen_eq]
      refine Ensures.of_eq hlen ?_
      exact closeQuotes_spec hm c hb hholds.proper hrest hquote

end StrLenCache

end Invocation
