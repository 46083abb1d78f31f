import Invocation.Lib.Runs
import Invocation.SectionLoop

/-!
# Lock files

Any number of serving processes whose sections start with the same
`require lock`. A lock is held until its process exits; an attempt ends with a
descriptor, and only while nobody holds the lock, or with -1.
-/

namespace Invocation

set_option autoImplicit false

inductive LockPhase
  | arriving
  | past
  | refused
  | gone
deriving DecidableEq

structure LockState (ι : Type) where
  phase : ι → LockPhase
  failed : ι → Bool
  owner : Option ι

/-- A process reaches the requirement, in an environment of its own, or exits. -/
inductive LockAction (ι : Type)
  | attempt (process : ι) (env : Env) (history : List Event)
  | exit (process : ι)

section Locks

variable {ι : Type} [DecidableEq ι] (details : Str)

def lockResult (env : Env) (history : List Event) : Int :=
  env.createLockFile history (requirementArg details)

namespace LockState

def initial : LockState ι where
  phase := fun _ => .arriving
  failed := fun _ => false
  owner := none

def step (s : LockState ι) : LockAction ι → LockState ι
  | .attempt i env history =>
    { phase := Function.update s.phase i
        (if requirementPasses env details history then .past else .refused)
      failed := Function.update s.failed i (lockResult details env history < 0)
      owner := if 0 < lockResult details env history then some i else s.owner }
  | .exit i =>
    { s with
      phase := Function.update s.phase i .gone
      owner := if s.owner = some i then none else s.owner }

/-- `flock` gives the lock to one process at a time, and an attempt may fail. -/
def Legal (s : LockState ι) : LockAction ι → Prop
  | .attempt i env history =>
    s.phase i = .arriving ∧
      (lockResult details env history = -1 ∨ 0 < lockResult details env history ∧ s.owner = none)
  | .exit i => s.phase i = .past ∨ s.phase i = .refused

/-- At most one process is past the requirement, and none whose attempt failed. -/
def Excludes (s : LockState ι) : Prop :=
  (∀ i j, s.phase i = .past → s.phase j = .past → i = j) ∧
    ∀ i, s.failed i = true → s.phase i ≠ .past

def Held (s : LockState ι) : Prop :=
  (∀ i, s.phase i = .past → s.owner = some i) ∧ ∀ i, s.failed i = false

end LockState

def LockAction.Fails : LockAction ι → Prop
  | .attempt _ env history => lockResult details env history < 0
  | .exit _ => False

open LockState

omit [DecidableEq ι] in
theorem LockState.Held.excludes {s : LockState ι} (h : s.Held) : s.Excludes := by
  constructor
  · intro i j hi hj
    have heq : some i = some j := (h.1 i hi).symm.trans (h.1 j hj)
    exact Option.some.inj heq
  · intro i hfailed
    rw [h.2 i] at hfailed
    cases hfailed

variable {details}

/-- One step by a process whose attempt does not fail. -/
theorem LockState.held_step {s : LockState ι} {a : LockAction ι} (h : s.Held)
    (hlegal : s.Legal details a) (hholds : ¬ a.Fails details) : (s.step details a).Held := by
  cases a with
  | attempt i env history =>
    obtain ⟨_, hresult⟩ := hlegal
    have hpos : 0 < lockResult details env history := by
      rcases hresult with hfail | hlock
      · have hneg : lockResult details env history < 0 := by omega
        exact absurd hneg hholds
      · exact hlock.1
    have hfree : s.owner = none := by
      rcases hresult with hfail | hlock
      · omega
      · exact hlock.2
    constructor
    · intro j hj
      show (if 0 < lockResult details env history then some i else s.owner) = some j
      rw [if_pos hpos]
      by_cases hij : j = i
      · rw [hij]
      · have hold : s.phase j = .past := by
          have hother : Function.update s.phase i _ j = .past := hj
          rwa [Function.update_of_ne hij] at hother
        have howner := h.1 j hold
        rw [hfree] at howner
        cases howner
    · intro j
      show Function.update s.failed i (decide (lockResult details env history < 0)) j = false
      by_cases hij : j = i
      · rw [hij, Function.update_self, decide_eq_false (by omega)]
      · rw [Function.update_of_ne hij]
        exact h.2 j
  | exit i =>
    refine ⟨?_, h.2⟩
    intro j hj
    by_cases hij : j = i
    · have hgone : Function.update s.phase i .gone j = .past := hj
      rw [hij, Function.update_self] at hgone
      cases hgone
    · have hold : s.phase j = .past := by
        have hother : Function.update s.phase i .gone j = .past := hj
        rwa [Function.update_of_ne hij] at hother
      have howner := h.1 j hold
      show (if s.owner = some i then none else s.owner) = some j
      rw [howner, if_neg]
      intro heq
      exact hij (Option.some.inj heq)

theorem LockState.not_excludes_step (hlock : requirementType details = .lock) {s : LockState ι}
    {a : LockAction ι} (hfails : a.Fails details) : ¬ (s.step details a).Excludes := by
  cases a with
  | attempt i env history =>
    have hneg : lockResult details env history < 0 := hfails
    have hpasses : requirementPasses env details history = true := by
      unfold requirementPasses
      rw [hlock]
      have hne : env.createLockFile history (requirementArg details) ≠ 0 := by
        unfold lockResult at hneg
        omega
      simpa using hne
    intro h
    refine h.2 i ?_ ?_
    · show Function.update s.failed i (decide (lockResult details env history < 0)) i = true
      rw [Function.update_self, decide_eq_true hneg]
    · show Function.update s.phase i _ i = .past
      rw [Function.update_self, if_pos hpasses]
  | exit i => exact hfails.elim

/-- A lock requirement excludes in every state of a run if and only if no attempt of the run
fails. -/
theorem lock_excludes_iff (hlock : requirementType details = .lock) (actions : List (LockAction ι))
    (hlegal : Runs.Guarded (step details) (Legal details) initial actions) :
    (∀ before after, actions = before ++ after →
        (Runs.run (step details) initial before).Excludes) ↔
      ∀ a ∈ actions, ¬ a.Fails details := by
  constructor
  · intro h a ha hfails
    obtain ⟨before, after, rfl⟩ := List.append_of_mem ha
    have hexcludes := h (before ++ [a]) after (by simp)
    rw [Runs.run_append] at hexcludes
    exact not_excludes_step hlock hfails hexcludes
  · rintro h before after rfl
    have hguard := hlegal.left.and fun a ha => h a (List.mem_append_left _ ha)
    have hstart : (initial : LockState ι).Held := ⟨fun _ hi => (nomatch hi), fun _ => rfl⟩
    have hheld := Runs.invariant (fun s a hs ha => held_step hs ha.1 ha.2) hstart hguard
    exact hheld.excludes

end Locks

def lockingEnv (result : Int) : Env := { quietEnv with createLockFile := fun _ _ => result }

def lockDetails : Str := "lock /var/lock/backup".toList

def timedOutRun : List (LockAction Nat) :=
  [.attempt 0 (lockingEnv 3) [], .attempt 1 (lockingEnv (-1)) []]

theorem timedOutRun_legal :
    Runs.Guarded (LockState.step lockDetails) (LockState.Legal lockDetails) LockState.initial
      timedOutRun := by
  have hfirst : 0 < lockResult lockDetails (lockingEnv 3) [] := by decide +kernel
  exact ⟨⟨rfl, Or.inr ⟨hfirst, rfl⟩⟩, ⟨rfl, Or.inl rfl⟩, trivial⟩

theorem lock_excludes_iff_timedOut :
    (∀ before after, timedOutRun = before ++ after →
        (Runs.run (LockState.step lockDetails) LockState.initial before).Excludes) ↔
      ∀ a ∈ timedOutRun, ¬ a.Fails lockDetails :=
  lock_excludes_iff (by decide +kernel) timedOutRun timedOutRun_legal

/-- A process whose attempt timed out is past the requirement next to the one that holds it. -/
theorem lock_timeout_passes :
    ¬ ∀ (details : Str), requirementType details = .lock → ∀ (actions : List (LockAction Nat)),
      Runs.Guarded (LockState.step details) (LockState.Legal details) LockState.initial actions →
        (Runs.run (LockState.step details) LockState.initial actions).Excludes := by
  intro h
  have hexcludes := h lockDetails (by decide +kernel) timedOutRun timedOutRun_legal
  have hfails :
      LockAction.Fails lockDetails (.attempt 1 (lockingEnv (-1)) [] : LockAction Nat) := by
    show lockResult lockDetails (lockingEnv (-1)) [] < 0
    decide +kernel
  exact LockState.not_excludes_step (by decide +kernel) hfails hexcludes

end Invocation
