import Invocation.Strings

/-!
# Runs of string functions

A program that keeps its strings in variables, against one that keeps values.
-/

namespace Invocation

set_option autoImplicit false

namespace StrLenCache

open Blocks SlotCache

abbrev Values := Nat → Option Str

inductive Arg where
  | null
  | text (s : Str)
  | var (x : Nat)
deriving DecidableEq

def Arg.value (env : Values) : Arg → Option Str
  | null => none
  | text s => some (Blocks.text NUL s)
  | var x => env x

def Arg.source (vars : Nat → Option Nat) : Arg → Source
  | null => .null
  | text s => .literal s
  | var x =>
    match vars x with
    | none => .null
    | some a => .block a

theorem Arg.source_none {vars : Nat → Option Nat} {x : Nat} (h : vars x = none) :
    (Arg.var x).source vars = .null := by
  rw [source, h]

theorem Arg.source_some {vars : Nat → Option Nat} {x a : Nat} (h : vars x = some a) :
    (Arg.var x).source vars = .block a := by
  rw [source, h]

inductive Op where
  | copyStr (x : Nat) (src : Arg)
  | catStr (x : Nat) (src : Arg)
  | mcopyStr (x : Nat) (src : Arg) (srcs : List Arg)
  | mcatStr (x : Nat) (src : Arg) (srcs : List Arg)
  | strTrunc (x len : Nat)
  | stripTrailingWhitespace (x : Nat)
  | stripLeadingWhitespace (x : Nat)
  | stripQuotes (x : Nat)
  | destroy (x : Nat)
deriving DecidableEq

/-- What each function is for. -/
def Op.apply (env : Values) : Op → Values
  | copyStr x src => Function.update env x (some ((src.value env).getD []))
  | catStr x src => Function.update env x (some ((env x).getD [] ++ (src.value env).getD []))
  | mcopyStr x src srcs =>
    Function.update env x (some (given ((src :: srcs).map (Arg.value env))))
  | mcatStr x src srcs =>
    Function.update env x (some ((env x).getD [] ++ given ((src :: srcs).map (Arg.value env))))
  | strTrunc x len => Function.update env x ((env x).map (List.take len))
  | stripTrailingWhitespace x =>
    Function.update env x ((env x).map Invocation.stripTrailingWhitespace)
  | stripLeadingWhitespace x =>
    Function.update env x ((env x).map Invocation.stripLeadingWhitespace)
  | stripQuotes x => Function.update env x ((env x).map Invocation.stripQuotes)
  | destroy x => Function.update env x none

structure State where
  memory : Memory
  vars : Nat → Option Nat

def State.assign (σ : State) (x : Nat) (r : Memory × Nat) : State :=
  ⟨r.1, Function.update σ.vars x (some r.2)⟩

theorem State.assign_self (σ : State) (x : Nat) (r : Memory × Nat) :
    (σ.assign x r).vars x = some r.2 := Function.update_self ..

theorem State.assign_other (σ : State) {x y : Nat} (r : Memory × Nat) (h : y ≠ x) :
    (σ.assign x r).vars y = σ.vars y := Function.update_of_ne h ..

def State.keep (σ : State) (m : Memory) : State := ⟨m, σ.vars⟩

def State.drop (σ : State) (x : Nat) (m : Memory) : State := ⟨m, Function.update σ.vars x none⟩

theorem State.drop_self (σ : State) (x : Nat) (m : Memory) : (σ.drop x m).vars x = none :=
  Function.update_self ..

theorem State.drop_other (σ : State) {x y : Nat} (m : Memory) (h : y ≠ x) :
    (σ.drop x m).vars y = σ.vars y := Function.update_of_ne h ..

def Op.run (c : Nat → Choice) (σ : State) : Op → Except Fault State
  | copyStr x src => do
    let r ← StrLenCache.copyStr (c 0) σ.memory (σ.vars x) (src.source σ.vars)
    .ok (σ.assign x r)
  | catStr x src => do
    let r ← StrLenCache.catStr (c 0) σ.memory (σ.vars x) (src.source σ.vars)
    .ok (σ.assign x r)
  | mcopyStr x src srcs => do
    let r ← StrLenCache.mcopyStr c σ.memory (σ.vars x) (src.source σ.vars)
      (srcs.map (Arg.source σ.vars))
    .ok (σ.assign x r)
  | mcatStr x src srcs => do
    let r ← StrLenCache.mcatStr c σ.memory (σ.vars x) (src.source σ.vars)
      (srcs.map (Arg.source σ.vars))
    .ok (σ.assign x r)
  | strTrunc x len => do
    let m ← StrLenCache.strTrunc (c 0) σ.memory (σ.vars x) len
    .ok (σ.keep m)
  | stripTrailingWhitespace x => do
    let m ← StrLenCache.stripTrailingWhitespace σ.memory (σ.vars x)
    .ok (σ.keep m)
  | stripLeadingWhitespace x => do
    let m ← StrLenCache.stripLeadingWhitespace (c 0) σ.memory (σ.vars x)
    .ok (σ.keep m)
  | stripQuotes x => do
    let m ← StrLenCache.stripQuotes (c 0) σ.memory (σ.vars x)
    .ok (σ.keep m)
  | destroy x => do
    let m ← StrLenCache.destroy σ.memory (σ.vars x)
    .ok (σ.drop x m)

/-- No string is appended to itself, and quotes come off short strings without a
slot only. -/
def Op.Careful (σ : State) (env : Values) : Op → Prop
  | copyStr x src => src ≠ .var x
  | catStr x src => src ≠ .var x
  | mcopyStr x src srcs => ∀ src' ∈ src :: srcs, src' ≠ .var x
  | mcatStr x src srcs => ∀ src' ∈ src :: srcs, src' ≠ .var x
  | stripQuotes x => ∀ a s, σ.vars x = some a → env x = some s → quoted s = true →
      lookup a σ.memory.cache = none ∧ (s.dropWhile isSpace).length ≤ minLen + 1
  | _ => True

/-- The state of the program stands for values: no two variables share a block, and
no block is lost. -/
structure Simulates (σ : State) (env : Values) : Prop where
  sound : Sound σ.memory
  apart : ∀ x y a, σ.vars x = some a → σ.vars y = some a → x = y
  owned : ∀ a b, σ.memory.heap a = some b → ∃ x, σ.vars x = some a
  values : ∀ x, ValueAt σ.memory (σ.vars x) (env x)

namespace Simulates

variable {σ : State} {env : Values}

theorem source (h : Simulates σ env) (src : Arg) :
    SourceAt σ.memory (src.source σ.vars) (src.value env) := by
  cases src with
  | null => rfl
  | text s => rfl
  | var x =>
    have hx := h.values x
    cases hp : σ.vars x with
    | none =>
      rw [hp] at hx
      rw [Arg.source_none hp]
      exact hx
    | some a =>
      rw [hp] at hx
      rw [Arg.source_some hp]
      exact hx

theorem source_apart (h : Simulates σ env) {x : Nat} {src : Arg} (hsrc : src ≠ .var x) :
    Apart (σ.vars x) (src.source σ.vars) := by
  intro c hc hx
  cases src with
  | null => cases hc
  | text s => cases hc
  | var y =>
    cases hy : σ.vars y with
    | none =>
      rw [Arg.source_none hy] at hc
      cases hc
    | some a =>
      rw [Arg.source_some hy] at hc
      cases hc
      exact hsrc (congrArg Arg.var (h.apart y x c hy hx))

theorem pieces (h : Simulates σ env) {x : Nat} {srcs : List Arg}
    (hsrcs : ∀ src ∈ srcs, src ≠ .var x) :
    Pieces σ.memory (σ.vars x) (srcs.map (Arg.source σ.vars)) (srcs.map (Arg.value env)) := by
  constructor
  · induction srcs with
    | nil => exact .nil
    | cons src srcs ih =>
      exact .cons (h.source src) (ih fun src' hmem => hsrcs src' (List.mem_cons_of_mem _ hmem))
  · intro src' hmem
    obtain ⟨src, hsrc, rfl⟩ := List.mem_map.mp hmem
    exact h.source_apart (hsrcs src hsrc)

/-- Writing one variable. -/
theorem assign (h : Simulates σ env) {x : Nat} {s : Str} {r : Memory × Nat}
    (hr : Becomes σ.memory (σ.vars x) s r) :
    Simulates (σ.assign x r) (Function.update env x (some s)) := by
  obtain ⟨b, hb, hholds⟩ := hr.string.block
  have hother {y : Nat} (hy : y ≠ x) (a : Nat) (ha : σ.vars y = some a) :
      σ.vars x ≠ some a := fun hx => hy (h.apart y x a ha hx)
  have hplace {y a : Nat} (hy : y ≠ x) (ha : σ.vars y = some a) : a ≠ r.2 := by
    have hvalue := h.values y
    rw [ha] at hvalue
    obtain ⟨s', _, hs'⟩ := hvalue
    exact hr.moves.place_ne hs' (hother hy a ha)
  constructor
  · exact hr.moves.sound h.sound hb
  · intro y z a hy hz
    by_cases hyx : y = x
    · by_cases hzx : z = x
      · rw [hyx, hzx]
      · rw [hyx, State.assign_self] at hy
        rw [σ.assign_other r hzx] at hz
        exact absurd (Option.some.inj hy).symm (hplace hzx hz)
    · rw [σ.assign_other r hyx] at hy
      by_cases hzx : z = x
      · rw [hzx, State.assign_self] at hz
        exact absurd (Option.some.inj hz).symm (hplace hyx hy)
      · rw [σ.assign_other r hzx] at hz
        exact h.apart y z a hy hz
  · intro a b' hb'
    by_cases ha : a = r.2
    · refine ⟨x, ?_⟩
      rw [ha]
      exact σ.assign_self x r
    · by_cases hx : σ.vars x = some a
      · have hfreed : r.1.heap a = some b' := hb'
        rw [hr.moves.freed a ha hx] at hfreed
        cases hfreed
      · obtain ⟨y, hy⟩ := h.owned a b' ((hr.moves.others a ha hx).symm.trans hb')
        have hyx : y ≠ x := fun heq => hx (heq ▸ hy)
        exact ⟨y, (σ.assign_other r hyx).trans hy⟩
  · intro y
    by_cases hyx : y = x
    · rw [hyx, State.assign_self, Function.update_self]
      exact ⟨s, rfl, hr.string⟩
    · rw [σ.assign_other r hyx, Function.update_of_ne hyx]
      exact (h.values y).mono fun a s' hy hs' => hr.moves.stringAt hs' (hother hyx a hy)

/-- Rewriting a string where it is. -/
theorem keep (h : Simulates σ env) {x : Nat} {f : Str → Str}
    (next : Option Nat → Except Fault Memory) (hnull : next none = .ok σ.memory)
    (hnext : ∀ a s, StringAt σ.memory a s → σ.vars x = some a → env x = some s →
      Ensures (next (some a)) (Rewrites σ.memory a (f s))) :
    Ensures (do
      let m ← next (σ.vars x)
      .ok (σ.keep m)) fun σ' => Simulates σ' (Function.update env x ((env x).map f)) := by
  have hvalue := h.values x
  cases hp : σ.vars x with
  | none =>
    rw [hp] at hvalue
    have hsame : Function.update env x ((env x).map f) = env := by
      have hnone : env x = none := hvalue
      rw [hnone]
      exact Function.update_eq_self_iff.mpr hnone.symm
    rw [hnull, hsame]
    exact Ensures.ok h
  | some a =>
    rw [hp] at hvalue
    obtain ⟨s, hs, hstring⟩ := hvalue
    refine Ensures.bind (hnext a s hstring hp hs) ?_
    intro m hm
    have hr : Becomes σ.memory (σ.vars x) (f s) (m, a) := by
      rw [hp]
      exact hm
    have hassign := h.assign hr
    have hvars : Function.update σ.vars x (some a) = σ.vars :=
      Function.update_eq_self_iff.mpr hp.symm
    rw [State.assign, hvars] at hassign
    rw [hs]
    exact Ensures.ok hassign

end Simulates

/-- The memory after `Destroy`. -/
def freed (m : Memory) (a : Nat) : Memory := { strLenCacheDel m a with heap := free m.heap a }

theorem destroy_spec {m : Memory} {a : Nat} {b : Str} (hb : m.heap a = some b) :
    Ensures (destroy m (some a)) fun m' => m' = freed m a :=
  Ensures.of_eq (load_eq hb) (Ensures.ok rfl)

theorem freed_sound {m : Memory} (hm : Sound m) (a : Nat) : Sound (freed m a) where
  unique := hm.unique.remove
  live := by
    intro c n hmem
    obtain ⟨hca, hmem⟩ := mem_remove.mp hmem
    obtain ⟨b, hb⟩ := hm.live c n hmem
    exact ⟨b, (free_other hca).trans hb⟩
  sized := by
    have hsize : (freed m a).cache.length = m.cache.length := length_remove a m.cache
    rw [hsize]
    exact hm.sized

theorem freed_stringAt {m : Memory} {a c : Nat} {s : Str} (h : StringAt m c s) (hca : c ≠ a) :
    StringAt (freed m a) c s where
  block := by
    obtain ⟨b, hb, hholds⟩ := h.block
    exact ⟨b, (free_other hca).trans hb, hholds⟩
  cached n hmem := h.cached n (mem_remove.mp hmem).2

theorem drop_vars {σ : State} {x y a : Nat} {m : Memory} (h : (σ.drop x m).vars y = some a) :
    y ≠ x ∧ σ.vars y = some a := by
  by_cases hyx : y = x
  · rw [hyx, State.drop_self] at h
    cases h
  · rw [σ.drop_other m hyx] at h
    exact ⟨hyx, h⟩

namespace Simulates

variable {σ : State} {env : Values}

/-- `Destroy`: the block and its slot go together. -/
theorem drop (h : Simulates σ env) (x : Nat) :
    Ensures (do
      let m ← destroy σ.memory (σ.vars x)
      .ok (σ.drop x m)) fun σ' => Simulates σ' (Function.update env x none) := by
  have hvalue := h.values x
  cases hp : σ.vars x with
  | none =>
    rw [hp] at hvalue
    have henv : Function.update env x none = env := Function.update_eq_self_iff.mpr hvalue.symm
    have hvars : Function.update σ.vars x none = σ.vars := Function.update_eq_self_iff.mpr hp.symm
    rw [henv]
    refine Ensures.ok ?_
    rw [State.drop, hvars]
    exact h
  | some a =>
    rw [hp] at hvalue
    obtain ⟨s, _, hstring⟩ := hvalue
    obtain ⟨b, hb, _⟩ := hstring.block
    have hother {y : Nat} {c : Nat} (hy : y ≠ x) (hc : σ.vars y = some c) : c ≠ a :=
      fun heq => hy (h.apart y x a (heq ▸ hc) hp)
    refine Ensures.bind (destroy_spec hb) ?_
    rintro m rfl
    refine Ensures.ok ?_
    constructor
    · exact freed_sound h.sound a
    · intro y z c hy hz
      obtain ⟨_, hy⟩ := drop_vars hy
      obtain ⟨_, hz⟩ := drop_vars hz
      exact h.apart y z c hy hz
    · intro c b' hb'
      have hca : c ≠ a := by
        rintro rfl
        cases (free_self σ.memory.heap c).symm.trans hb'
      obtain ⟨y, hy⟩ := h.owned c b' ((free_other hca).symm.trans hb')
      have hyx : y ≠ x := by
        rintro rfl
        exact hca (Option.some.inj (hy.symm.trans hp))
      exact ⟨y, (σ.drop_other _ hyx).trans hy⟩
    · intro y
      by_cases hyx : y = x
      · rw [hyx, State.drop_self, Function.update_self]
        rfl
      · rw [σ.drop_other _ hyx, Function.update_of_ne hyx]
        exact (h.values y).mono fun c t hy ht => freed_stringAt ht (hother hyx hy)

end Simulates

theorem Unquoted.rewrites {c : Choice} {m m' : Memory} {a : Nat} {s : Str}
    (h : Unquoted c m a s m') (hs : StringAt m a s)
    (hcareful : quoted s = true → lookup a m.cache = none ∧ (s.dropWhile isSpace).length ≤
      minLen + 1) :
    Rewrites m a (Invocation.stripQuotes s) m' := by
  refine ⟨h.moves, h.block, ?_⟩
  intro n hmem
  have hmem : some (a, n) ∈ m'.cache := hmem
  rw [h.cache] at hmem
  cases hquoted : quoted s with
  | false =>
    rw [hquoted, if_neg Bool.false_ne_true] at hmem
    rw [stripQuotes_of_not_quoted hquoted]
    exact hs.cached n hmem
  | true =>
    obtain ⟨hnone, hshort⟩ := hcareful hquoted
    have hworth : decide (minLen < (s.dropWhile isSpace).length - 1) = false := by
      rw [decide_eq_false_iff_not]
      omega
    rw [hquoted, if_pos rfl] at hmem
    simp only [strLenCacheAdd, put, hnone, hworth] at hmem
    exact absurd hmem (not_mem_of_lookup hnone n)

theorem step_simulates {σ : State} {env : Values} (h : Simulates σ env) (c : Nat → Choice) {op : Op}
    (hop : op.Careful σ env) :
    Ensures (op.run c σ) fun σ' => Simulates σ' (op.apply env) := by
  cases op with
  | copyStr x src =>
    exact Ensures.bind
      (copyStr_becomes h.sound (c 0) (h.values x) (h.source src) (h.source_apart hop))
      fun r hr => Ensures.ok (h.assign hr)
  | catStr x src =>
    exact Ensures.bind
      (catStr_becomes h.sound (c 0) (h.values x) (h.source src) (h.source_apart hop))
      fun r hr => Ensures.ok (h.assign hr)
  | mcopyStr x src srcs =>
    exact Ensures.bind (mcopyStr_becomes h.sound c (h.values x) (h.pieces hop))
      fun r hr => Ensures.ok (h.assign hr)
  | mcatStr x src srcs =>
    exact Ensures.bind (vcatStr_becomes h.sound c (h.values x) (h.pieces hop))
      fun r hr => Ensures.ok (h.assign hr)
  | strTrunc x len =>
    exact h.keep (f := List.take len) (fun p => StrLenCache.strTrunc (c 0) σ.memory p len) rfl
      fun a s hs _ _ => strTrunc_spec h.sound (c 0) len hs
  | stripTrailingWhitespace x =>
    exact h.keep (StrLenCache.stripTrailingWhitespace σ.memory) rfl
      fun a s hs _ _ => stripTrailingWhitespace_spec h.sound hs
  | stripLeadingWhitespace x =>
    exact h.keep (StrLenCache.stripLeadingWhitespace (c 0) σ.memory) rfl
      fun a s hs _ _ => stripLeadingWhitespace_spec h.sound (c 0) hs
  | stripQuotes x =>
    refine h.keep (StrLenCache.stripQuotes (c 0) σ.memory) rfl fun a s hs hp henv => ?_
    exact (stripQuotes_spec h.sound (c 0) hs).mono fun m' hm' => hm'.rewrites hs (hop a s hp henv)
  | destroy x => exact h.drop x

abbrev Step := Op × (Nat → Choice)

def run (σ : State) : List Step → Except Fault State
  | [] => .ok σ
  | step :: steps => do
    let σ' ← step.1.run step.2 σ
    run σ' steps

def applyAll (env : Values) (steps : List Step) : Values :=
  steps.foldl (fun env step => step.1.apply env) env

/-- Every step of the run is careful where it is taken. -/
def CarefulRun (σ : State) (env : Values) : List Step → Prop
  | [] => True
  | step :: steps => step.1.Careful σ env ∧
      ∀ σ', step.1.run step.2 σ = .ok σ' → CarefulRun σ' (step.1.apply env) steps

theorem run_simulates {steps : List Step} {σ : State} {env : Values} (h : Simulates σ env)
    (hcareful : CarefulRun σ env steps) :
    Ensures (run σ steps) fun σ' => Simulates σ' (applyAll env steps) := by
  induction steps generalizing σ env with
  | nil => exact Ensures.ok h
  | cons step steps ih =>
    refine Ensures.bind (Ensures.with_eq (step_simulates h step.2 hcareful.1)) ?_
    intro σ' hσ'
    exact ih hσ'.2 (hcareful.2 σ' hσ'.1)

def State.empty : State := ⟨⟨fun _ => none, List.replicate 20 none⟩, fun _ => none⟩

theorem unique_replicate (n : Nat) : Unique (List.replicate n (none : Option (Nat × Nat))) := by
  induction n with
  | zero => trivial
  | succ n ih => exact ih

theorem empty_simulates : Simulates State.empty fun _ => none where
  sound := {
    unique := unique_replicate 20
    live := fun _ _ hmem => nomatch List.eq_of_mem_replicate hmem
    sized := Nat.succ_pos 19 }
  apart _ _ _ h := nomatch h
  owned _ _ h := nomatch h
  values _ := rfl

/-- The string of a variable, read up to its NUL. -/
def State.string (σ : State) (x : Nat) : Except Fault (Option Str) :=
  match σ.vars x with
  | none => .ok none
  | some a => do
    let s ← (Source.block a).read σ.memory
    .ok (some s)

theorem Simulates.string_eq {σ : State} {env : Values} (h : Simulates σ env) (x : Nat) :
    σ.string x = .ok (env x) := by
  have hvalue := h.values x
  unfold State.string
  cases hp : σ.vars x with
  | none =>
    rw [hp] at hvalue
    exact congrArg Except.ok hvalue.symm
  | some a =>
    rw [hp] at hvalue
    obtain ⟨s, hs, hstring⟩ := hvalue
    have hsrc : SourceAt σ.memory (.block a) (some s) := ⟨s, rfl, hstring⟩
    show ((Source.block a).read σ.memory >>= fun s => Except.ok (some s)) = _
    rw [hsrc.read_eq, hs]
    rfl

/-- In every run that is careful, whatever the allocator does, no access falls
outside a block, the variables hold the values they are meant to, the lengths that
are looked up are theirs, and no block is lost. -/
theorem strings_hold_values {steps : List Step}
    (hcareful : CarefulRun State.empty (fun _ => none) steps) :
    Ensures (run State.empty steps) fun σ =>
      (∀ x, σ.string x = .ok (applyAll (fun _ => none) steps x) ∧
        strLenFromCache σ.memory (σ.vars x) =
          .ok ((applyAll (fun _ => none) steps x).getD []).length) ∧
      ∀ a b, σ.memory.heap a = some b → ∃ x, σ.vars x = some a := by
  refine (run_simulates empty_simulates hcareful).mono fun σ hσ => ⟨fun x => ?_, hσ.owned⟩
  exact ⟨hσ.string_eq x, (hσ.values x).strLenFromCache_eq⟩

/-- An allocator that hands out addresses in order. -/
def inOrder (first : Nat) : Nat → Choice := fun i => ⟨first + i, fun _ => 'j', i⟩

def quotedSteps : List Step :=
  [(.copyStr 0 (.text ['\'', 'a', '\'']), inOrder 0), (.stripQuotes 0, inOrder 0),
    (.mcatStr 1 (.text (List.replicate 120 'x')) [.var 0, .null], inOrder 5)]

theorem quotedSteps_careful : CarefulRun State.empty (fun _ => none) quotedSteps := by
  refine ⟨Arg.noConfusion, ?_⟩
  intro σ hσ
  cases hσ
  refine ⟨?_, ?_⟩
  · intro a s ha hs _
    cases ha
    cases hs
    exact ⟨rfl, by decide⟩
  · intro σ hσ
    refine ⟨?_, fun _ _ => trivial⟩
    show ∀ src ∈ [Arg.text (List.replicate 120 'x'), .var 0, .null], src ≠ .var 1
    decide

theorem strings_hold_values_quoted :
    Ensures (run State.empty quotedSteps) fun σ =>
      (∀ x, σ.string x = .ok (applyAll (fun _ => none) quotedSteps x) ∧
        strLenFromCache σ.memory (σ.vars x) =
          .ok ((applyAll (fun _ => none) quotedSteps x).getD []).length) ∧
      ∀ a b, σ.memory.heap a = some b → ∃ x, σ.vars x = some a :=
  @strings_hold_values quotedSteps quotedSteps_careful

theorem strLenFromCache_slot {m : Memory} {a n : Nat} {b s : Str} (hb : m.heap a = some b)
    (hholds : Holds NUL b s) (hne : s ≠ []) (hlook : lookup a m.cache = some n) :
    strLenFromCache m (some a) = .ok n := by
  obtain ⟨rest, rfl⟩ := hholds.split
  obtain ⟨first, tail, rfl⟩ := List.exists_cons_of_ne_nil hne
  have hfirst : first ≠ NUL := fun heq => hholds.proper (heq ▸ List.mem_cons_self)
  simp only [strLenFromCache, load_eq hb, hlook]
  exact if_neg hfirst

/-- A length that counts the NUL leaves what is appended behind it. -/
theorem catStr_behind {m : Memory} (hm : Sound m) (c : Choice) {a : Nat} {b s : Str} (t : Str)
    (hb : m.heap a = some b) (hholds : Holds NUL b s) (hne : s ≠ [])
    (hlook : lookup a m.cache = some (s.length + 1)) :
    Ensures (catStr c m (some a) (.literal t)) fun r =>
      ∃ b', r.1.heap r.2 = some b' ∧ Holds NUL b' s := by
  have hlen := strLenFromCache_slot hb hholds hne hlook
  have hlen' : (s ++ [NUL]).length = s.length + 1 := List.length_append
  rw [← hlen'] at hlen
  have hw : SourceAt m (.literal t) (some (text NUL t)) := rfl
  refine Ensures.of_eq hw.strLen_eq (Ensures.of_eq hlen ?_)
  refine Ensures.bind (setStrLen_resized hm c ⟨b, hb, hholds.stands⟩ (Nat.le_add_right _ _)) ?_
  rintro moved ⟨hmoved, _⟩
  obtain ⟨b₁, hb₁, hbegins, hsize⟩ := hmoved.begins
  refine Ensures.of_eq rfl (Ensures.of_eq (load_eq hb₁) ?_)
  show Ensures
    (write b₁ (s ++ [NUL]).length ((text NUL t).take (text NUL t).length ++ [NUL]) >>= _) _
  rw [List.take_length]
  have hbound : (s ++ [NUL]).length + (text NUL t ++ [NUL]).length ≤ b₁.length := by
    have hone : (text NUL t ++ [NUL]).length = (text NUL t).length + 1 := List.length_append
    have hsize' : b₁.length = (s ++ [NUL]).length + (text NUL t).length + 8 := hsize
    omega
  refine Ensures.bind (write_append hbegins hbound) ?_
  intro b₂ hb₂
  refine Ensures.ok ⟨b₂, store_self .., hholds.proper, ?_⟩
  exact (List.prefix_append _ _).trans hb₂.1

theorem run_append (σ : State) (steps steps' : List Step) :
    run σ (steps ++ steps') = run σ steps >>= fun σ' => run σ' steps' := by
  induction steps generalizing σ with
  | nil => rfl
  | cons step steps ih =>
    show (step.1.run step.2 σ >>= fun σ' => run σ' (steps ++ steps')) =
      (step.1.run step.2 σ >>= fun σ' => run σ' steps) >>= _
    rw [bind_assoc]
    exact congrArg _ (funext ih)

theorem applyAll_append (env : Values) (steps steps' : List Step) :
    applyAll env (steps ++ steps') = applyAll (applyAll env steps) steps' := List.foldl_append

theorem value_appended {env : Values} {x : Nat} {s body : Str} (hx : env x = some s)
    (hstrip : Invocation.stripQuotes s = body) (c c' : Nat → Choice) (t : Str) :
    applyAll env [(.stripQuotes x, c), (.catStr x (.text t), c')] x =
      some (body ++ text NUL t) := by
  show Function.update (Function.update env x ((env x).map Invocation.stripQuotes)) x
    (some ((Function.update env x ((env x).map Invocation.stripQuotes) x).getD [] ++ text NUL t))
      x = _
  rw [Function.update_self, Function.update_self, hx, Option.map_some, hstrip]
  rfl

/-- `StripQuotes` counts the NUL of a long string, which is why a text that is
appended to it afterwards is lost. -/
theorem append_lost {steps : List Step} (hcareful : CarefulRun State.empty (fun _ => none) steps)
    {x : Nat} {s body : Str} {q : Char} (hx : applyAll (fun _ => none) steps x = some s)
    (hs : s.dropWhile isSpace = q :: (body ++ [q])) (hquote : isQuote q = true)
    (hlong : minLen ≤ body.length) (c c' : Nat → Choice) (t : Str) :
    let lost := steps ++ [(.stripQuotes x, c), (.catStr x (.text t), c')]
    applyAll (fun _ => none) lost x = some (body ++ text NUL t) ∧
      Ensures (run State.empty lost) fun σ => σ.string x = .ok (some body) := by
  have hne : body ++ [q] ≠ [] := List.append_ne_nil_of_right_ne_nil _ (List.cons_ne_nil q [])
  have hstrip : Invocation.stripQuotes s = body := by
    rw [stripQuotes_of_rest hs hquote, if_neg hne, if_pos List.getLast?_concat,
      List.dropLast_concat]
  constructor
  · rw [applyAll_append]
    exact value_appended hx hstrip c c' t
  · rw [run_append]
    refine Ensures.bind (run_simulates empty_simulates hcareful) ?_
    intro σ hσ
    have hvalue := hσ.values x
    rw [hx] at hvalue
    cases hp : σ.vars x with
    | none =>
      rw [hp] at hvalue
      cases hvalue
    | some a =>
      rw [hp] at hvalue
      obtain ⟨_, hs', hstring⟩ := hvalue
      cases hs'
      have hstep : Ensures (Op.run c σ (.stripQuotes x)) fun σ' =>
          ∃ m', σ' = σ.keep m' ∧ Unquoted (c 0) σ.memory a s m' := by
        show Ensures (stripQuotes (c 0) σ.memory (σ.vars x) >>= _) _
        rw [hp]
        refine Ensures.bind (stripQuotes_spec hσ.sound (c 0) hstring) ?_
        exact fun m' hm' => Ensures.ok ⟨m', rfl, hm'⟩
      refine Ensures.bind hstep ?_
      rintro _ ⟨m', rfl, hm'⟩
      obtain ⟨b, hb, hholds⟩ := hm'.block
      rw [hstrip] at hholds
      have hlook : lookup a m'.cache = some (body.length + 1) := by
        have hquoted : quoted s = true := by
          rw [quoted_of_rest hs hquote, ← List.cons_append, List.getLast?_concat]
          exact beq_self_eq_true _
        have hcount : (s.dropWhile isSpace).length - 1 = body.length + 1 := by
          rw [hs, List.length_cons, List.length_append, List.length_singleton]
          omega
        rw [hm'.cache, if_pos hquoted, hcount]
        refine lookup_put hσ.sound.unique (Nat.mod_lt _ hσ.sound.sized) fun _ => ?_
        exact decide_eq_true (Nat.lt_succ_of_le hlong)
      have hbody : body ≠ [] := by
        rintro rfl
        exact absurd hlong (by decide)
      have hcat := catStr_behind (hm'.moves.sound hσ.sound hb) (c' 0) t hb hholds hbody hlook
      show Ensures ((catStr (c' 0) m' (σ.vars x) (.literal t) >>= _) >>= _) _
      rw [hp, bind_assoc]
      refine Ensures.bind hcat ?_
      rintro r ⟨b', hb', hholds'⟩
      refine Ensures.ok ?_
      unfold State.string
      rw [State.assign_self]
      show ((Source.block r.2).read r.1 >>= fun s => Except.ok (some s)) = _
      rw [read_of_holds hb' hholds']
      rfl

def longSteps : List Step :=
  [(.copyStr 0 (.text ('\'' :: (List.replicate 100 'x' ++ ['\'']))), inOrder 0)]

theorem longSteps_careful : CarefulRun State.empty (fun _ => none) longSteps :=
  ⟨Arg.noConfusion, fun _ _ => trivial⟩

theorem append_lost_long :
    let lost := longSteps ++ [(.stripQuotes 0, inOrder 1), (.catStr 0 (.text ['y']), inOrder 1)]
    applyAll (fun _ => none) lost 0 = some (List.replicate 100 'x' ++ text NUL ['y']) ∧
      Ensures (run State.empty lost) fun σ => σ.string 0 = .ok (some (List.replicate 100 'x')) :=
  append_lost longSteps_careful (q := '\'') rfl rfl rfl (Nat.le_refl _)
    (inOrder 1) (inOrder 1) ['y']

end StrLenCache

end Invocation
