import Mathlib.Data.List.Basic

/-!
# Processes that may stop

A process reads and writes a state and either returns or stops for a reason;
the state it leaves stays visible in both cases. `Triple P m Q E` says that `m`
started in `P` ends in `Q` of its result or stops in `E` of its reason.
`EachEvent` is safety over a history kept newest first: each event is allowed
by the events before it.
-/

set_option autoImplicit false

universe u

abbrev Process (σ ε : Type u) : Type u → Type u := ExceptT ε (StateM σ)

namespace Process

variable {σ ε α β : Type u}

def stop (e : ε) : Process σ ε α := fun s => (.error e, s)

def read (f : σ → α) : Process σ ε α := fun s => (.ok (f s), s)

def update (f : σ → σ) : Process σ ε PUnit := fun s => (.ok ⟨⟩, f s)

def exec (m : Process σ ε α) (s : σ) : Except ε α × σ := m s

theorem exec_bind (x : Process σ ε α) (f : α → Process σ ε β) (s : σ) :
    exec (x >>= f) s =
      match exec x s with
      | (.ok a, s') => exec (f a) s'
      | (.error e, s') => (.error e, s') := by
  show (ExceptT.bindCont f (x s).1 : StateM σ (Except ε β)) (x s).2 = _
  unfold exec
  cases x s with
  | mk r s' =>
    cases r with
    | ok a => rfl
    | error e => rfl

@[simp] theorem exec_pure (a : α) (s : σ) : exec (pure a : Process σ ε α) s = (.ok a, s) := rfl
@[simp] theorem exec_stop (e : ε) (s : σ) : exec (stop e : Process σ ε α) s = (.error e, s) := rfl
@[simp] theorem exec_read (f : σ → α) (s : σ) :
    exec (read f : Process σ ε α) s = (.ok (f s), s) := rfl
@[simp] theorem exec_update (f : σ → σ) (s : σ) :
    exec (update f : Process σ ε PUnit) s = (.ok ⟨⟩, f s) := rfl

def Triple (P : σ → Prop) (m : Process σ ε α) (Q : α → σ → Prop) (E : ε → σ → Prop) : Prop :=
  ∀ s, P s →
    match exec m s with
    | (.ok a, s') => Q a s'
    | (.error e, s') => E e s'

variable {P P' : σ → Prop} {Q Q' : α → σ → Prop} {E : ε → σ → Prop}

theorem Triple.bind {x : Process σ ε α} {f : α → Process σ ε β} {R : β → σ → Prop}
    (hx : Triple P x Q E) (hf : ∀ a, Triple (Q a) (f a) R E) : Triple P (x >>= f) R E := by
  intro s hs
  have h := hx s hs
  rw [exec_bind]
  cases hres : exec x s with
  | mk r s' =>
    rw [hres] at h
    cases r with
    | ok a => exact hf a s' h
    | error e => exact h

theorem Triple.pure {a : α} (h : ∀ s, P s → Q a s) : Triple P (Pure.pure a) Q E := h

theorem Triple.stop {e : ε} (h : ∀ s, P s → E e s) : Triple P (Process.stop e) Q E := h

theorem Triple.read {f : σ → α} (h : ∀ s, P s → Q (f s) s) : Triple P (Process.read f) Q E := h

theorem Triple.update {f : σ → σ} {Q : PUnit → σ → Prop} (h : ∀ s, P s → Q ⟨⟩ (f s)) :
    Triple P (Process.update f) Q E := h

theorem Triple.mono {m : Process σ ε α} {E' : ε → σ → Prop} (h : Triple P m Q E)
    (hP : ∀ s, P' s → P s) (hQ : ∀ a s, Q a s → Q' a s) (hE : ∀ e s, E e s → E' e s) :
    Triple P' m Q' E' := by
  intro s hs
  have hm := h s (hP s hs)
  cases hres : exec m s with
  | mk r s' =>
    rw [hres] at hm
    cases r with
    | ok a => exact hQ a s' hm
    | error e => exact hE e s' hm

theorem Triple.ite {c : Prop} [Decidable c] {x y : Process σ ε α} (hx : c → Triple P x Q E)
    (hy : ¬ c → Triple P y Q E) : Triple P (if c then x else y) Q E := by
  by_cases h : c
  · rw [if_pos h]
    exact hx h
  · rw [if_neg h]
    exact hy h

end Process

/-! ## Histories -/

variable {η : Type u}

/-- Every event of the history is allowed by the events before it. -/
inductive EachEvent (allowed : η → List η → Prop) : List η → Prop
  | nil : EachEvent allowed []
  | cons {e : η} {past : List η} :
    allowed e past → EachEvent allowed past → EachEvent allowed (e :: past)

namespace EachEvent

variable {allowed allowed' : η → List η → Prop} {history past later : List η} {e : η}

theorem head (h : EachEvent allowed (e :: past)) : allowed e past := by
  cases h
  assumption

theorem tail (h : EachEvent allowed (e :: past)) : EachEvent allowed past := by
  cases h
  assumption

theorem of_append (h : EachEvent allowed (later ++ e :: past)) : allowed e past := by
  induction later with
  | nil => exact h.head
  | cons _ later ih => exact ih h.tail

theorem get (h : EachEvent allowed history) {n : Nat} (hget : history[n]? = some e) :
    allowed e (history.drop (n + 1)) := by
  induction h generalizing n with
  | nil => cases hget
  | cons he hpast ih =>
    cases n with
    | zero =>
      cases hget
      exact he
    | succ n => exact ih hget

/-- What follows from the events up to each event holds of each event. -/
theorem imp (h : ∀ e past, EachEvent allowed (e :: past) → allowed' e past)
    (hall : EachEvent allowed history) : EachEvent allowed' history := by
  induction hall with
  | nil => exact .nil
  | cons he hpast ih => exact .cons (h _ _ (.cons he hpast)) ih

end EachEvent
