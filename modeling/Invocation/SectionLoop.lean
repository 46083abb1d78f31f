import Invocation.Permission

/-!
# The loop over a section

`RunInvokeCommand` item by item: one round of its loop, the states it passes
through, and what a `require` item means for the items behind it.
-/

namespace Invocation

set_option autoImplicit false

open Process Server

variable (env : Env) (items : List Node)

/-- One round of the loop: the variables to go on with, none when a requirement is not met. -/
def runItem : Node → Vars → Server (Option Vars)
  | .block _ _, vars => pure (some vars)
  | .value tag text, vars => do
    let tag ← need tag
    if tag = "require".toList then do
      let p ← checkRequirement env text vars
      pure (if p.1 then some p.2 else none)
    else if tag = "chuser".toList then do
      let result ← observe fun h => env.switchUser h text
      switchTo result (.switchUser text)
      pure (some vars)
    else if tag = "chgrp".toList then do
      let result ← observe fun h => env.switchGroup h text
      switchTo result (.switchGroup text)
      pure (some vars)
    else if tag = "bookout".toList then do
      bookoutFileToClient env text vars
      pure (some vars)
    else if tag = "bookin".toList then do
      bookinFileFromClient env text vars
      pure (some vars)
    else if tag = "clientrun".toList then do
      emit (.send ("clientrun ".toList ++ text ++ "\n".toList))
      pure (some vars)
    else if tag = "run".toList then do
      runCommand env text vars (some items)
      pure (some vars)
    else pure (some vars)

/-- Behind one round of the loop. -/
def runRest (rest : List Node) : Option Vars → Server PUnit
  | some vars => runItems env items rest vars
  | none => pure ⟨⟩

theorem ite_bind {α β : Type} {c : Prop} [Decidable c] (x y : Server α) (f : α → Server β) :
    (if c then x else y) >>= f = if c then x >>= f else y >>= f := by
  split <;> rfl

theorem runItems_cons (item : Node) (rest : List Node) (vars : Vars) :
    runItems env items (item :: rest) vars =
      runItem env items item vars >>= runRest env items rest := by
  cases item with
  | block tag sub => rfl
  | value tag text =>
    rw [runItem, bind_assoc]
    apply bind_congr
    intro tag
    simp only [ite_bind, bind_assoc, pure_bind]
    refine if_congr Iff.rfl ?_ rfl
    apply bind_congr
    intro p
    obtain ⟨met, vars⟩ := p
    cases met with
    | true => rfl
    | false => rfl

theorem runItem_run (text : Str) (vars : Vars) (t : ServerState) :
    (exec (runItem env items (.value (some "run".toList) text) vars) t).2 =
      (exec (runCommand env text vars (some items)) t).2 := by
  have hrun : runItem env items (.value (some "run".toList) text) vars =
      runCommand env text vars (some items) >>= fun _ => pure (some vars) := rfl
  rw [hrun, exec_bind]
  cases exec (runCommand env text vars (some items)) t with
  | mk r s =>
    cases r with
    | ok a => rfl
    | error e => rfl

/-- An item that was executed, and what had happened before. -/
structure Visit where
  item : Node
  history : List Event

/-- The loop has executed the items of `visits`, newest first, and stands in front of `rest`. -/
inductive Reaches (vars : Vars) (s : ServerState) :
    List Visit → List Node → Vars → ServerState → Prop
  | start : Reaches vars s [] items vars s
  | next {visits : List Visit} {item : Node} {rest : List Node} {v v' : Vars} {t t' : ServerState} :
    Reaches vars s visits (item :: rest) v t →
    exec (runItem env items item v) t = (.ok (some v'), t') →
    Reaches vars s (⟨item, t.history⟩ :: visits) rest v' t'

section Reaches

variable {env items} {vars : Vars} {s : ServerState} {visits : List Visit} {rest : List Node}
    {v : Vars}
  {t : ServerState}

/-- The items of a section are executed in order, none is left out. -/
theorem Reaches.items_eq (h : Reaches env items vars s visits rest v t) :
    items = (visits.map Visit.item).reverse ++ rest := by
  induction h with
  | start => rfl
  | next _ _ ih => simpa using ih

/-- What is left of the loop is what `RunInvokeCommand` goes on with. -/
theorem Reaches.exec_eq (h : Reaches env items vars s visits rest v t) :
    exec (runItems env items items vars) s = exec (runItems env items rest v) t := by
  induction h with
  | start => rfl
  | next _ hitem ih =>
    rw [ih, runItems_cons, exec_bind, hitem]
    rfl

end Reaches

/-! ## Requirements -/

/-- The requirement types: those that `CheckRequirement` implements, the documented one that it
does not, and any other word. -/
inductive RequirementType
  | absent
  | arglen
  | directory
  | present
  | lock
  | peerSha256
  | unknown
deriving DecidableEq

def requirementType (details : Str) : RequirementType :=
  let word := (getToken details spaceSeparator .none).1
  if strCaseEq word "absent".toList then .absent
  else if strCaseEq word "arglen".toList then .arglen
  else if strCaseEq word "directory".toList then .directory
  else if strCaseEq word "exists".toList then .present
  else if strCaseEq word "lock".toList then .lock
  else if strCaseEq word "peer-sha256".toList then .peerSha256
  else .unknown

def requirementArg (details : Str) : Str := (getToken details spaceSeparator .none).2.getD []

/-- The verdict of `CheckRequirement`: zero is the only result of a lock attempt that fails it. -/
def requirementPasses (details : Str) (history : List Event) : Bool :=
  match requirementType details with
  | .absent => ! env.access history (requirementArg details)
  | .directory => ((env.files history).stat (requirementArg details)).any (·.kind = .directory)
  | .present => env.access history (requirementArg details)
  | .lock => env.createLockFile history (requirementArg details) ≠ 0
  | _ => true

/-- What a requirement asks for, `peerHash` being the hash of the requestor's program file. -/
def Held (peerHash : List Event → Option Str) (details : Str) (history : List Event) : Prop :=
  match requirementType details with
  | .absent => env.access history (requirementArg details) = false
  | .arglen => True
  | .directory =>
    ((env.files history).stat (requirementArg details)).any (·.kind = .directory) = true
  | .present => env.access history (requirementArg details) = true
  | .lock => 0 < env.createLockFile history (requirementArg details)
  | .peerSha256 => peerHash history = some (requirementArg details)
  | .unknown => False

/-- The type is implemented and its lock, if it is one, does not fail; or the hash that nobody
compares is the right one. -/
def Enforced (peerHash : List Event → Option Str) (details : Str) (history : List Event) : Prop :=
  match requirementType details with
  | .lock => 0 ≤ env.createLockFile history (requirementArg details)
  | .peerSha256 => peerHash history = some (requirementArg details)
  | .unknown => False
  | _ => True

theorem checkRequirement_passes (details : Str) (vars : Vars) (s : ServerState) :
    ∃ vars' s', exec (checkRequirement env details vars) s =
      (.ok (requirementPasses env details s.history, vars'), s') := by
  unfold checkRequirement requirementPasses requirementType requirementArg
  dsimp only
  split_ifs with h1 h2 h3 h4 h5 h6
  · exact ⟨vars, s, rfl⟩
  · exact ⟨_, s, rfl⟩
  · exact ⟨vars, s, rfl⟩
  · exact ⟨vars, s, rfl⟩
  · exact ⟨vars, _, rfl⟩
  · exact ⟨vars, s, rfl⟩
  · exact ⟨vars, s, rfl⟩

theorem held_iff_enforced {peerHash : List Event → Option Str} {details : Str}
    {history : List Event} (h : requirementPasses env details history = true) :
    Held env peerHash details history ↔ Enforced env peerHash details history := by
  unfold requirementPasses at h
  unfold Held Enforced
  cases htype : requirementType details with
  | absent => simpa [htype] using h
  | arglen => exact Iff.rfl
  | directory => simpa [htype] using h
  | present => simpa [htype] using h
  | lock =>
    simp only [htype, decide_eq_true_eq, ne_eq] at h
    show 0 < _ ↔ 0 ≤ _
    omega
  | peerSha256 => exact Iff.rfl
  | unknown => exact Iff.rfl

def requireItem (details : Str) : Node := .value (some "require".toList) details

theorem exec_runItem_require (details : Str) (vars : Vars) (s : ServerState) :
    ∃ vars' s', exec (runItem env items (requireItem details) vars) s =
      (.ok (if requirementPasses env details s.history then some vars' else none), s') := by
  obtain ⟨vars', s', h⟩ := checkRequirement_passes env details vars s
  refine ⟨vars', s', ?_⟩
  show exec (checkRequirement env details vars >>= fun p =>
    pure (if p.1 then some p.2 else none)) s =
    _
  rw [exec_bind, h]
  rfl

theorem Reaches.passes {env : Env} {items : List Node} {vars : Vars} {s : ServerState}
    {visits : List Visit} {rest : List Node} {v : Vars} {t : ServerState}
    (h : Reaches env items vars s visits rest v t) {visit : Visit} (hvisit : visit ∈ visits)
    {details : Str} (hitem : visit.item = requireItem details) :
    requirementPasses env details visit.history = true := by
  induction h with
  | start => cases hvisit
  | @next visits item rest v v' t t' _ hexec ih =>
    rcases List.mem_cons.mp hvisit with rfl | hold
    · obtain ⟨vars', s', heq⟩ := exec_runItem_require env items details v t
      have hrequire : item = requireItem details := hitem
      rw [hrequire, heq] at hexec
      by_contra hfail
      rw [if_neg hfail] at hexec
      cases hexec
    · exact ih hold

/-- Wherever the loop stands, every requirement before it held when it was evaluated if and only
if each of them was of an implemented type and no lock attempt failed, the hash that is never
compared aside. -/
theorem requirements_held_iff (env : Env) (items : List Node) (peerHash : List Event → Option Str)
    (vars : Vars) (s : ServerState) {visits : List Visit} {rest : List Node} {v : Vars}
    {t : ServerState} (h : Reaches env items vars s visits rest v t) :
    (∀ visit ∈ visits, ∀ details, visit.item = requireItem details →
        Held env peerHash details visit.history) ↔
      ∀ visit ∈ visits, ∀ details, visit.item = requireItem details →
        Enforced env peerHash details visit.history := by
  constructor
  · intro hheld visit hvisit details hitem
    exact (held_iff_enforced env (h.passes hvisit hitem)).mp (hheld visit hvisit details hitem)
  · intro henforced visit hvisit details hitem
    exact (held_iff_enforced env (h.passes hvisit hitem)).mpr (henforced visit hvisit details hitem)

def flaggedSection (details : String) : List Node :=
  [requireItem details.toList, .value (some "run".toList) "/bin/true".toList]

theorem requirements_held_iff_absent :
    (∀ visit ∈ [(⟨requireItem "absent /etc/nologin".toList, []⟩ : Visit)], ∀ details,
        visit.item = requireItem details → Held quietEnv (fun _ => none) details visit.history) ↔
      ∀ visit ∈ [(⟨requireItem "absent /etc/nologin".toList, []⟩ : Visit)], ∀ details,
        visit.item = requireItem details →
        Enforced quietEnv (fun _ => none) details visit.history :=
  requirements_held_iff quietEnv (flaggedSection "absent /etc/nologin") (fun _ => none) []
    { input := [] } (.next .start (by decide +kernel) :
      Reaches quietEnv (flaggedSection "absent /etc/nologin") [] { input := [] }
        [⟨requireItem "absent /etc/nologin".toList, []⟩]
        [.value (some "run".toList) "/bin/true".toList] [] { input := [] })

/-- A hash that the requestor's program does not have blocks nothing. -/
theorem peer_hash_ignored :
    ¬ ∀ (env : Env) (items : List Node) (peerHash : List Event → Option Str) (vars : Vars)
      (s : ServerState) (visits : List Visit) (rest : List Node) (v : Vars) (t : ServerState),
      Reaches env items vars s visits rest v t → ∀ visit ∈ visits, ∀ details,
        visit.item = requireItem details → Held env peerHash details visit.history := by
  intro h
  have hreach : Reaches quietEnv (flaggedSection "peer-sha256 ff00") [] { input := [] }
      [⟨requireItem "peer-sha256 ff00".toList, []⟩]
      [.value (some "run".toList) "/bin/true".toList] [] { input := [] } :=
    .next .start (by decide +kernel)
  have hheld := h _ _ (fun _ => none) _ _ _ _ _ _ hreach _ List.mem_cons_self _ rfl
  have htype : requirementType "peer-sha256 ff00".toList = .peerSha256 := by decide +kernel
  simp only [Held, htype] at hheld
  cases hheld

end Invocation
