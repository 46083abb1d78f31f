import Invocation.Auth
import Invocation.Lib.Runs

/-!
# PAM handles

`auth.c` keeps one handle for the whole process. `PAMStart` answers TRUE, which is
not `PAM_SUCCESS`, so `AuthPAM` takes a service that started for one that did not:
it ends the handle, and `AuthPAMClose` uses and ends it once more.
-/

namespace Invocation

set_option autoImplicit false

inductive PamCall
  | setItem
  | authenticate
  | closeSession
  | finish
deriving DecidableEq

/-- What the handle is that a call is given. -/
inductive HandleKind
  | null
  | live
  | ended
deriving DecidableEq

/-- The handles are numbered as they are opened. -/
structure PamUse where
  pamh : Option Nat := none
  opened : Nat := 0
  ended : List Nat := []
  calls : List (PamCall × HandleKind) := []

structure PamRequest where
  pamTypes : Str
  userName : Str
  pass : Option Str

namespace PamUse

def kind (s : PamUse) : HandleKind :=
  match s.pamh with
  | none => .null
  | some h => if h ∈ s.ended then .ended else .live

def call (s : PamUse) (c : PamCall) : PamUse := { s with calls := s.calls ++ [(c, s.kind)] }

def pamEnd (s : PamUse) : PamUse :=
  let t := s.call .finish
  match s.pamh with
  | none => t
  | some h => { t with ended := h :: s.ended }

/-- The loop of `PAMStart`. A start that fails leaves the handle alone or clears it, as the
library has it. -/
def startLoop (pam : Pam) (clears : Bool) (userName : Str) : List Str → PamUse → Bool × PamUse
  | [], s => (false, s)
  | service :: services, s =>
    if pam.start service userName then (true,
      { s with pamh := some s.opened, opened := s.opened + 1 })
    else startLoop pam clears userName services (if clears then { s with pamh := none } else s)

def pamStart (pam : Pam) (clears : Bool) (pamTypes userName : Str) (s : PamUse) : Int × PamUse :=
  match startLoop pam clears userName (authTypes pamTypes) s with
  | (true, s) => (cTrue, (s.call .setItem).call .setItem)
  | (false, s) => (cFalse, s)

/-- `AuthPAM`. What a handle that is not NULL answers decides nothing below, so it is a
parameter. -/
def authPAM (pam : Pam) (clears answer : Bool) (r : PamRequest) (s : PamUse) : Int × PamUse :=
  match pamStart pam clears r.pamTypes r.userName s with
  | (result, s) =>
    if result ≠ pamSuccess then (userUnknown, s.pamEnd)
    else
      (if s.kind ≠ .null ∧ answer = true then cTrue else cFalse, s.call .authenticate)

def authPAMClose (s : PamUse) : PamUse :=
  match s.pamh with
  | none => s
  | some _ => (s.call .closeSession).pamEnd

/-- An AUTH request, as `HandleClientAuth` serves it. -/
def request (pam : Pam) (clears answer : Bool) (s : PamUse) (r : PamRequest) : PamUse :=
  (authPAM pam clears answer r s).2.authPAMClose

theorem startLoop_started {pam : Pam} (clears : Bool) {userName : Str} {services : List Str}
    {s : PamUse} (h : ∃ service ∈ services, pam.start service userName = true) :
    ∃ t : PamUse, startLoop pam clears userName services s = (true, t) ∧
      t.pamh = some s.opened ∧ t.opened = s.opened + 1 ∧ t.ended = s.ended ∧ t.calls = s.calls := by
  induction services generalizing s with
  | nil =>
    obtain ⟨service, hmem, _⟩ := h
    cases hmem
  | cons first services ih =>
    rw [startLoop]
    by_cases hfirst : pam.start first userName = true
    · rw [if_pos hfirst]
      exact ⟨_, rfl, rfl, rfl, rfl, rfl⟩
    · have hrest : ∃ service ∈ services, pam.start service userName = true := by
        obtain ⟨service, hmem, hstart⟩ := h
        rcases List.mem_cons.mp hmem with rfl | hmem
        · exact absurd hstart hfirst
        · exact ⟨service, hmem, hstart⟩
      obtain ⟨t, ht, hpamh, hopened, hended, hcalls⟩ :=
        ih (s := if clears then { s with pamh := none } else s) hrest
      rw [if_neg hfirst]
      refine ⟨t, ht, ?_⟩
      cases clears with
      | true => exact ⟨hpamh, hopened, hended, hcalls⟩
      | false => exact ⟨hpamh, hopened, hended, hcalls⟩

theorem startLoop_failed {pam : Pam} (clears : Bool) {userName : Str} {services : List Str}
    {s : PamUse} (h : ¬ ∃ service ∈ services, pam.start service userName = true) :
    ∃ t : PamUse, startLoop pam clears userName services s = (false, t) ∧
      (t.pamh = none ∨ t.pamh = s.pamh) ∧ t.opened = s.opened ∧ t.ended = s.ended ∧
      t.calls = s.calls := by
  induction services generalizing s with
  | nil => exact ⟨s, rfl, .inr rfl, rfl, rfl, rfl⟩
  | cons first services ih =>
    have hfirst : ¬ pam.start first userName = true :=
      fun hstart => h ⟨first, List.mem_cons_self, hstart⟩
    have hrest : ¬ ∃ service ∈ services, pam.start service userName = true := by
      intro hex
      obtain ⟨service, hmem, hstart⟩ := hex
      exact h ⟨service, List.mem_cons_of_mem first hmem, hstart⟩
    obtain ⟨t, ht, hpamh, hopened, hended, hcalls⟩ :=
      ih (s := if clears then { s with pamh := none } else s) hrest
    rw [startLoop, if_neg hfirst]
    refine ⟨t, ht, ?_⟩
    cases clears with
    | true => exact ⟨.inl (hpamh.elim id id), hopened, hended, hcalls⟩
    | false => exact ⟨hpamh, hopened, hended, hcalls⟩

end PamUse

/-- One of the services of a request starts. -/
def PamRequest.Starts (pam : Pam) (r : PamRequest) : Prop :=
  ∃ service ∈ authTypes r.pamTypes, pam.start service r.userName = true

namespace PamUse

/-- Between two requests no handle is live, and each one was ended twice or more. -/
structure Spent (s : PamUse) : Prop where
  bound : ∀ h ∈ s.ended, h < s.opened
  dangling : ∀ h, s.pamh = some h → h ∈ s.ended
  twice : ∀ h, h < s.opened → 2 ≤ s.ended.count h
  unchecked : (PamCall.authenticate, HandleKind.live) ∉ s.calls

/-- A service that starts: its handle is ended, and closed and ended again. -/
theorem request_started {pam : Pam} (clears answer : Bool) {s : PamUse} {r : PamRequest}
    (hs : Spent s) (h : r.Starts pam) :
    ∃ t : PamUse, request pam clears answer s r = t ∧ t.pamh = some s.opened ∧
      t.opened = s.opened + 1 ∧ t.ended = s.opened :: s.opened :: s.ended ∧
      t.calls = s.calls ++ [(.setItem, .live), (.setItem, .live), (.finish, .live),
        (.closeSession, .ended), (.finish, .ended)] := by
  obtain ⟨t, ht, hpamh, hopened, hended, hcalls⟩ := startLoop_started clears (s := s) h
  have hfresh : s.opened ∉ s.ended := fun hmem => Nat.lt_irrefl _ (hs.bound _ hmem)
  obtain ⟨pamh, opened, ended, calls⟩ := t
  dsimp only at hpamh hopened hended hcalls
  subst hpamh hopened hended hcalls
  refine ⟨_, rfl, ?_⟩
  have hne : cTrue ≠ pamSuccess := by decide
  simp [request, authPAM, pamStart, ht, hne, pamEnd, call, kind, authPAMClose, hfresh]

/-- No service starts: the password goes to the handle that was there, or to none. -/
theorem request_failed {pam : Pam} (clears answer : Bool) {s : PamUse} {r : PamRequest}
    (hs : Spent s) (h : ¬ r.Starts pam) :
    ∃ t : PamUse, request pam clears answer s r = t ∧ (t.pamh = none ∨ t.pamh = s.pamh) ∧
      t.opened = s.opened ∧
      (t.pamh = none ∧ t.ended = s.ended ∧ t.calls = s.calls ++ [(.authenticate, .null)] ∨
        ∃ k ∈ s.ended, t.pamh = some k ∧ t.ended = k :: s.ended ∧
          t.calls = s.calls ++ [(.authenticate, .ended), (.closeSession, .ended),
            (.finish, .ended)]) := by
  obtain ⟨t, ht, hpamh, hopened, hended, hcalls⟩ := startLoop_failed clears (s := s) h
  have heq : cFalse = pamSuccess := rfl
  obtain ⟨pamh, opened, ended, calls⟩ := t
  dsimp only at hpamh hopened hended hcalls
  subst hopened hended hcalls
  refine ⟨_, rfl, ?_⟩
  cases pamh with
  | none =>
    simp [request, authPAM, pamStart, ht, heq, call, kind, authPAMClose]
  | some k =>
    have hk : s.pamh = some k := by
      rcases hpamh with hnone | hsame
      · cases hnone
      · exact hsame.symm
    have hmem := hs.dangling k hk
    simp [request, authPAM, pamStart, ht, heq, pamEnd, call, kind, authPAMClose, hmem, hk]

theorem request_spent (pam : Pam) (clears answer : Bool) {s : PamUse} (r : PamRequest)
    (hs : Spent s) : Spent (request pam clears answer s r) := by
  by_cases h : r.Starts pam
  · obtain ⟨t, ht, hpamh, hopened, hended, hcalls⟩ :=
      request_started clears answer hs h
    rw [ht]
    refine ⟨?_, ?_, ?_, ?_⟩
    · intro k hk
      rw [hended] at hk
      rw [hopened]
      rcases List.mem_cons.mp hk with rfl | hk
      · omega
      · rcases List.mem_cons.mp hk with rfl | hk
        · omega
        · have := hs.bound k hk
          omega
    · intro k hk
      rw [hpamh] at hk
      cases hk
      rw [hended]
      exact List.mem_cons_self
    · intro k hk
      rw [hopened] at hk
      rw [hended]
      by_cases heq : k = s.opened
      · rw [heq, List.count_cons_self, List.count_cons_self]
        omega
      · rw [List.count_cons_of_ne (Ne.symm heq), List.count_cons_of_ne (Ne.symm heq)]
        exact hs.twice k (by omega)
    · rw [hcalls]
      intro hmem
      rcases List.mem_append.mp hmem with hmem | hmem
      · exact hs.unchecked hmem
      · revert hmem
        decide
  · obtain ⟨t, ht, _, hopened, hcase⟩ :=
      request_failed clears answer hs h
    rw [ht]
    rcases hcase with ⟨hpamh, hended, hcalls⟩ | ⟨k, hk, hpamh, hended, hcalls⟩
    · refine ⟨?_, ?_, ?_, ?_⟩
      · rw [hended, hopened]
        exact hs.bound
      · intro j hj
        rw [hpamh] at hj
        cases hj
      · rw [hended, hopened]
        exact hs.twice
      · rw [hcalls]
        intro hmem
        rcases List.mem_append.mp hmem with hmem | hmem
        · exact hs.unchecked hmem
        · revert hmem
          decide
    · refine ⟨?_, ?_, ?_, ?_⟩
      · intro j hj
        rw [hended] at hj
        rw [hopened]
        rcases List.mem_cons.mp hj with rfl | hj
        · exact hs.bound _ hk
        · exact hs.bound j hj
      · intro j hj
        rw [hpamh] at hj
        cases hj
        rw [hended]
        exact List.mem_cons_self
      · intro j hj
        rw [hopened] at hj
        rw [hended]
        exact Nat.le_trans (hs.twice j hj) List.count_le_count_cons
      · rw [hcalls]
        intro hmem
        rcases List.mem_append.mp hmem with hmem | hmem
        · exact hs.unchecked hmem
        · revert hmem
          decide

theorem request_calls (pam : Pam) (clears answer : Bool) {s : PamUse} (r : PamRequest)
    (hs : Spent s) : ∃ more, (request pam clears answer s r).calls = s.calls ++ more ∧
      (r.Starts pam → (.finish, .ended) ∈ more) := by
  by_cases h : r.Starts pam
  · obtain ⟨t, ht, _, _, _, hcalls⟩ := request_started clears answer hs h
    rw [ht]
    exact ⟨_, hcalls, fun _ => by decide⟩
  · obtain ⟨t, ht, _, _, hcase⟩ := request_failed clears answer hs h
    rw [ht]
    rcases hcase with ⟨_, _, hcalls⟩ | ⟨k, _, _, _, hcalls⟩
    · exact ⟨_, hcalls, fun hstart => absurd hstart h⟩
    · exact ⟨_, hcalls, fun hstart => absurd hstart h⟩

/-- A connection on which no service has started yet. -/
structure Unused (s : PamUse) : Prop extends Spent s where
  null : s.pamh = none
  calls : ∀ c ∈ s.calls, c.2 = .null

theorem request_unused {pam : Pam} {clears answer : Bool} {s : PamUse} {r : PamRequest}
    (hs : Unused s) (h : ¬ r.Starts pam) : Unused (request pam clears answer s r) := by
  have hspent := request_spent pam clears answer r hs.toSpent
  obtain ⟨t, ht, hpamh, _, hcase⟩ :=
    request_failed clears answer hs.toSpent h
  rw [ht] at hspent ⊢
  have hnull : t.pamh = none := hpamh.elim id fun hsame => hsame.trans hs.null
  rcases hcase with ⟨_, _, hcalls⟩ | ⟨k, _, hsome, _⟩
  · refine ⟨hspent, hnull, ?_⟩
    intro c hc
    rw [hcalls] at hc
    rcases List.mem_append.mp hc with hc | hc
    · exact hs.calls c hc
    · rw [List.mem_singleton.mp hc]
  · rw [hnull] at hsome
    cases hsome

/-- No handle was opened yet. -/
def fresh : PamUse := {}

theorem unused_fresh : Unused fresh :=
  ⟨⟨nofun, nofun, fun _ h => absurd h (Nat.not_lt_zero _), List.not_mem_nil⟩, rfl, nofun⟩

/-- With no handle left from before, the request is answered as if there were no handles. -/
theorem authPAM_result {pam : Pam} {clears answer : Bool} {s : PamUse} (r : PamRequest)
    (hs : Unused s) : (authPAM pam clears answer r s).1 =
      Invocation.authPAM pam r.pamTypes r.userName r.pass := by
  rw [authPAM_eq]
  by_cases h : r.Starts pam
  · obtain ⟨t, ht, _⟩ := startLoop_started clears (s := s) h
    have hne : cTrue ≠ pamSuccess := by decide
    unfold PamRequest.Starts at h
    rw [if_pos h]
    unfold authPAM pamStart
    rw [ht]
    dsimp only
    rw [if_pos hne]
  · obtain ⟨t, ht, hpamh, _⟩ := startLoop_failed clears (s := s) h
    have heq : ¬ cFalse ≠ pamSuccess := fun hne => hne rfl
    have hnull : t.pamh = none := hpamh.elim id fun hsame => hsame.trans hs.null
    have hkind : t.kind = .null := by
      unfold kind
      rw [hnull]
    unfold PamRequest.Starts at h
    rw [if_neg h]
    unfold authPAM pamStart
    rw [ht]
    dsimp only
    rw [if_neg heq, if_neg (fun hboth => hboth.1 hkind)]

def runRequests (pam : Pam) (clears answer : Bool) (requests : List PamRequest) : PamUse :=
  Runs.run (request pam clears answer) fresh requests

theorem runRequests_spent (pam : Pam) (clears answer : Bool) (requests : List PamRequest) :
    Spent (runRequests pam clears answer requests) := by
  have hguard : Runs.Guarded (request pam clears answer) (fun _ _ => True) fresh requests :=
    Runs.guarded_of_forall (fun _ _ _ => trivial) fresh (fun _ _ => trivial)
  exact Runs.invariant (fun _ r hs _ => request_spent pam clears answer r hs)
    unused_fresh.toSpent hguard

theorem runRequests_unused {pam : Pam} {clears answer : Bool} {requests : List PamRequest}
    (h : ∀ r ∈ requests, ¬ r.Starts pam) : Unused (runRequests pam clears answer requests) := by
  have hguard : Runs.Guarded (request pam clears answer)
      (fun _ r => ¬ r.Starts pam) fresh requests :=
    Runs.guarded_of_forall (fun _ _ hr => hr) fresh h
  exact Runs.invariant (fun _ _ hs hr => request_unused hs hr) unused_fresh hguard

/-- What was called stays in the record. -/
theorem mem_calls_run {pam : Pam} {clears answer : Bool} {s : PamUse} (hs : Spent s)
    (requests : List PamRequest) {c : PamCall × HandleKind} (hc : c ∈ s.calls) :
    c ∈ (Runs.run (request pam clears answer) s requests).calls := by
  induction requests generalizing s with
  | nil => exact hc
  | cons r requests ih =>
    obtain ⟨more, hmore, _⟩ := request_calls pam clears answer r hs
    refine ih (request_spent pam clears answer r hs) ?_
    rw [hmore]
    exact List.mem_append_left more hc

end PamUse

open PamUse in
/-- Over every connection: a service that starts is never asked for the password, its handle is
ended twice or more, and handles are used only while they are open just as long as none starts. -/
theorem pam_handles (pam : Pam) (clears answer : Bool) (requests : List PamRequest) :
    (∀ h, h < (runRequests pam clears answer requests).opened →
        2 ≤ (runRequests pam clears answer requests).ended.count h) ∧
      (PamCall.authenticate, HandleKind.live) ∉ (runRequests pam clears answer requests).calls ∧
      ((∀ c ∈ (runRequests pam clears answer requests).calls, c.2 ≠ .ended) ↔
        ∀ r ∈ requests, ¬ r.Starts pam) ∧
      ∀ earlier r later, requests = earlier ++ r :: later → (∀ q ∈ earlier, ¬ q.Starts pam) →
        (PamUse.authPAM pam clears answer r (runRequests pam clears answer earlier)).1 =
          authPAM pam r.pamTypes r.userName r.pass := by
  have hspent := runRequests_spent pam clears answer requests
  refine ⟨hspent.twice, hspent.unchecked, ⟨?_, ?_⟩, ?_⟩
  · intro hrespected r hr hstart
    obtain ⟨earlier, later, rfl⟩ := List.append_of_mem hr
    have hs := runRequests_spent pam clears answer earlier
    obtain ⟨more, hmore, hfinish⟩ :=
      request_calls pam clears answer r hs
    have hmem : (PamCall.finish, HandleKind.ended) ∈
        (runRequests pam clears answer (earlier ++ r :: later)).calls := by
      unfold runRequests
      rw [Runs.run_append, Runs.run_cons]
      refine mem_calls_run (request_spent pam clears answer r hs) later ?_
      rw [hmore]
      exact List.mem_append_right _ (hfinish hstart)
    exact hrespected _ hmem rfl
  · intro h c hc heq
    have hnull := (runRequests_unused h).calls c hc
    rw [hnull] at heq
    cases heq
  · intro earlier r later _ hearlier
    exact authPAM_result r (runRequests_unused hearlier)

end Invocation
