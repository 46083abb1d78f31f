import Invocation.ConfigReading
import Invocation.SectionLoop

/-!
# The kinds of nodes

A node is untyped in memory. Here every use of one is checked against what it
is: the name of a node that has none, the content of a block as a string, the
content of a value as a list. What the four functions call is a parameter.
-/

namespace Invocation

set_option autoImplicit false

open Process Server

inductive Misuse
  | noName
  | blockAsText
  | valueAsList
deriving DecidableEq

/-- Why a run ends: a node is misused, or a function that was called does not return. -/
inductive Fault
  | misuse (kind : Misuse)
  | halt (reason : Halt)
deriving DecidableEq

abbrev Kinded := Process ServerState Fault

/-- The functions that are called on the way. -/
structure Callees where
  appDBCheck : Str → Server Bool
  checkAuth : Str → Server Bool
  runItem : List Node → Node → Vars → Server (Option Vars)
  runCommand : Str → Server PUnit

def Env.callees (env : Env) (checkAuth : Str → Server Bool) : Callees where
  appDBCheck := grantCheck env
  checkAuth := checkAuth
  runItem := runItem env
  runCommand := fun details => runCommand env details [] none

/-- A request that is checked against the configuration. -/
inductive CheckedRequest
  | exec (details : Str)
  | invoke (details : Str)

namespace CheckedRequest

def command : CheckedRequest → Str
  | exec details => (getToken details spaceSeparator .none).1
  | invoke details => (invokeCommand details).1

end CheckedRequest

namespace Kinded

def call {α : Type} (m : Server α) : Kinded α := fun s =>
  match Process.exec m s with
  | (.ok a, s') => (.ok a, s')
  | (.error h, s') => (.error (.halt h), s')

theorem exec_call {α : Type} (m : Server α) (s : ServerState) : Process.exec (call m) s =
    match Process.exec m s with
    | (.ok a, s') => (.ok a, s')
    | (.error h, s') => (.error (.halt h), s') := rfl

def misuse {α : Type} (kind : Misuse) : Kinded α := stop (.misuse kind)

def name (node : Node) : Kinded Str :=
  match node.tag with
  | some tag => pure tag
  | none => misuse .noName

def text (node : Node) : Kinded Str :=
  match node.text? with
  | some text => pure text
  | none => misuse .blockAsText

def list (node : Node) : Kinded (List Node) :=
  match node.items? with
  | some items => pure items
  | none => misuse .valueAsList

section Functions

variable (env : Env) (calls : Callees)

def checkRules : List Node → Bool → Kinded Bool
  | [], result => pure result
  | node :: rules, result => do
    let logged ← text node
    let tag ← name node
    match ruleIdentity env.peer tag with
    | some identity => if isItemInList identity logged then checkRules rules true else pure false
    | none =>
      if strCaseEq tag "auth".toList then do
        let passed ← call (calls.checkAuth logged)
        if passed then checkRules rules true else pure false
      else checkRules rules result

def checkPermission (command : Str) (section_ : Node) : Kinded Bool := do
  let granted ← call (calls.appDBCheck command)
  if granted then pure true
  else do
    let rules ← list section_
    checkRules env calls rules false

def firstSection {α : Type} (p : Str → Bool) (found : Node → Kinded α) (missing : Kinded α) :
    List Node → Kinded α
  | [] => missing
  | node :: sections => do
    let tag ← name node
    if p tag then found node else firstSection p found missing sections

def findPermission (command : Str) : Kinded Bool := do
  let allowed ← firstSection (relates env command) (checkPermission env calls command) (pure false)
    env.config
  call (emit (.verdict command allowed))
  pure allowed

def runItems (items : List Node) : List Node → Vars → Kinded PUnit
  | [], _ => pure ⟨⟩
  | .block _ _ :: rest, vars => runItems items rest vars
  | .value tag text :: rest, vars => do
    let _ ← name (.value tag text)
    let vars? ← call (calls.runItem items (.value tag text) vars)
    match vars? with
    | some vars => runItems items rest vars
    | none => pure ⟨⟩

def runInvokeCommand (command : Str) (vars : Vars) (section_ : Node) : Kinded PUnit := do
  let items ← list section_
  call (emit (.enter command vars items))
  runItems calls items items vars

def runInvoke (command : Str) (vars : Vars) : Kinded PUnit :=
  firstSection (· = command) (runInvokeCommand calls command vars) (pure ⟨⟩) env.config

def handle : CheckedRequest → Kinded PUnit
  | .exec details => do
    let command := (CheckedRequest.exec details).command
    let allowed ← findPermission env calls command
    if allowed then do
      call (emit (.execText details))
      call (calls.runCommand details)
    else call (emit (.send "FAIL: Not authorized\n".toList))
  | .invoke details => do
    let command := (CheckedRequest.invoke details).command
    let allowed ← findPermission env calls command
    if allowed then runInvoke env calls command (invokeVars env details)
    else call (emit (.send "FAIL: Not authorized\n".toList))

end Functions

/-! ## The checks change nothing else -/

/-- Unless a node is misused the run is the one of the server. -/
def Erases {α : Type} (k : Kinded α) (m : Server α) : Prop :=
  ∀ s, match exec k s with
    | (.ok a, s') => exec m s = (.ok a, s')
    | (.error (.halt h), s') => exec m s = (.error h, s')
    | (.error (.misuse _), _) => True

theorem Erases.pure {α : Type} (a : α) : Erases (Pure.pure a) (Pure.pure a) := fun _ => rfl

theorem Erases.misuse {α : Type} (kind : Misuse) (m : Server α) : Erases (misuse kind) m :=
  fun _ => trivial

theorem Erases.call {α : Type} (m : Server α) : Erases (Kinded.call m) m := by
  intro s
  rw [exec_call]
  cases exec m s with
  | mk r s' =>
    cases r with
    | ok a => rfl
    | error h => rfl

theorem Erases.bind {α β : Type} {k : Kinded α} {m : Server α} {f : α → Kinded β} {g : α → Server β}
    (h : Erases k m) (hf : ∀ a, Erases (f a) (g a)) : Erases (k >>= f) (m >>= g) := by
  intro s
  have hs := h s
  rw [exec_bind]
  cases hk : exec k s with
  | mk r s' =>
    rw [hk] at hs
    cases r with
    | ok a =>
      dsimp only at hs ⊢
      rw [exec_bind, hs]
      exact hf a s'
    | error e =>
      cases e with
      | misuse kind => trivial
      | halt reason =>
        dsimp only at hs ⊢
        rw [exec_bind, hs]

theorem Erases.ite {α : Type} {c : Prop} [Decidable c] {k k' : Kinded α} {m m' : Server α}
    (h : Erases k m) (h' : Erases k' m') : Erases (if c then k else k') (if c then m else m') := by
  split
  · exact h
  · exact h'

theorem Erases.name (node : Node) : Erases (name node) (need node.tag) := by
  unfold Kinded.name
  cases node.tag with
  | none => exact Erases.misuse _ _
  | some tag => exact Erases.pure tag

theorem Erases.list (node : Node) : Erases (list node) (need node.items?) := by
  unfold Kinded.list
  cases node.items? with
  | none => exact Erases.misuse _ _
  | some items => exact Erases.pure items

section Functions

variable {env : Env} {calls : Callees} {checkAuth : Str → Server Bool}

theorem erases_checkRules (hauth : calls.checkAuth = checkAuth) (rules : List Node)
    (result : Bool) :
    Erases (checkRules env calls rules result)
      (Invocation.checkRules env.peer checkAuth rules result) := by
  induction rules generalizing result with
  | nil => exact Erases.pure result
  | cons node rules ih =>
    cases node with
    | block tag items => exact Erases.misuse .blockAsText _
    | value tag logged =>
      have htext : text (.value tag logged) = pure logged := rfl
      rw [checkRules, htext, pure_bind]
      refine Erases.bind (Erases.name (.value tag logged)) fun name => ?_
      cases ruleIdentity env.peer name with
      | some identity => exact Erases.ite (ih true) (Erases.pure false)
      | none =>
        refine Erases.ite ?_ (ih result)
        refine Erases.bind (hauth ▸ Erases.call _) fun passed => ?_
        exact Erases.ite (ih true) (Erases.pure false)

theorem erases_checkPermission (hauth : calls.checkAuth = checkAuth)
    (hcheck : calls.appDBCheck = grantCheck env) (command : Str) (section_ : Node) :
    Erases (checkPermission env calls command section_)
      (Invocation.checkPermission env checkAuth command section_.items?) := by
  refine Erases.bind (hcheck ▸ Erases.call _) fun granted => ?_
  refine Erases.ite (Erases.pure true) ?_
  exact Erases.bind (Erases.list section_) fun rules => erases_checkRules hauth rules false

theorem erases_findPermission (command : Str) :
    Erases (findPermission env (env.callees checkAuth) command)
      (Invocation.findPermission env checkAuth command) := by
  have hloop (sections : List Node) : Erases
      (firstSection (relates env command) (checkPermission env (env.callees checkAuth) command)
        (pure false) sections) (findPermissionIn env checkAuth command sections) := by
    induction sections with
    | nil => exact Erases.pure false
    | cons node sections ih =>
      refine Erases.bind (Erases.name node) fun tag => ?_
      exact Erases.ite (erases_checkPermission rfl rfl command node) ih
  refine Erases.bind (hloop env.config) fun allowed => ?_
  exact Erases.bind (Erases.call _) fun _ => Erases.pure allowed

theorem erases_runItems (items rest : List Node) (vars : Vars) :
    Erases (runItems (env.callees checkAuth) items rest vars)
      (Invocation.runItems env items rest vars) := by
  induction rest generalizing vars with
  | nil => exact Erases.pure _
  | cons item rest ih =>
    cases item with
    | block tag sub => exact ih vars
    | value tag text =>
      cases tag with
      | none => exact Erases.misuse .noName _
      | some tag =>
        rw [runItems_cons]
        refine Erases.bind (Erases.call _) fun vars? => ?_
        cases vars? with
        | some vars => exact ih vars
        | none => exact Erases.pure _

theorem erases_runInvoke (command : Str) (vars : Vars) :
    Erases (runInvoke env (env.callees checkAuth) command vars)
      (runInvokeIn env command vars env.config) := by
  have hloop (sections : List Node) : Erases
      (firstSection (· = command) (runInvokeCommand (env.callees checkAuth) command vars) (pure ⟨⟩)
        sections) (runInvokeIn env command vars sections) := by
    induction sections with
    | nil => exact Erases.pure _
    | cons node sections ih =>
      refine Erases.bind (Erases.name node) fun tag => ?_
      simp only [decide_eq_true_eq]
      refine Erases.ite ?_ ih
      refine Erases.bind (Erases.list node) fun items => ?_
      exact Erases.bind (Erases.call _) fun _ => erases_runItems items items vars
  exact hloop env.config

end Functions

theorem erases_handle (env : Env) (checkAuth : Str → Server Bool) (request : CheckedRequest) :
    Erases (handle env (env.callees checkAuth) request)
      (match request with
      | .exec details => handleExec env checkAuth details
      | .invoke details => handleInvoke env checkAuth details) := by
  cases request with
  | exec details =>
    refine Erases.bind (erases_findPermission _) fun allowed => ?_
    refine Erases.ite ?_ (Erases.call _)
    exact Erases.bind (Erases.call _) fun _ => Erases.call _
  | invoke details =>
    refine Erases.bind (erases_findPermission _) fun allowed => ?_
    exact Erases.ite (erases_runInvoke _ _) (Erases.call _)

/-! ## The nodes that a request comes to -/

def namedValue : Node → Bool
  | .value (some _) _ => true
  | _ => false

/-- A user, group or program rule that the peer fails. -/
def failsRule (peer : Peer) : Node → Bool
  | .value (some tag) text => (ruleIdentity peer tag).any fun identity =>
      ! isItemInList identity text
  | _ => false

/-- The items up to the first rule that the peer fails. -/
def visitedRules (peer : Peer) : List Node → List Node
  | [] => []
  | node :: rules => node :: if failsRule peer node then [] else visitedRules peer rules

def firstNamed (p : Str → Bool) (config : List Node) : Option Node :=
  config.find? fun node => node.tag.any p

def before (p : Str → Bool) (config : List Node) : List Node :=
  config.takeWhile fun node => ! node.tag.any p

/-- The section that decides a command, and what stands in front of it. -/
structure Judgeable (env : Env) (command : Str) : Prop where
  named : ∀ node ∈ before (relates env command) env.config, node.tag.isSome = true
  rules : ∀ node, firstNamed (relates env command) env.config = some node →
    ∃ items, node.items? = some items ∧ ∀ item ∈ visitedRules env.peer items, namedValue item = true

/-- The section that is run for a command, and what stands in front of it. -/
structure Runnable (env : Env) (command : Str) : Prop where
  named : ∀ node ∈ before (· = command) env.config, node.tag.isSome = true
  items : ∀ node, firstNamed (· = command) env.config = some node →
    ∃ items, node.items? = some items ∧ ∀ item ∈ items, item.isValue = true → item.tag.isSome = true

def KindsKept (env : Env) : CheckedRequest → Prop
  | .exec details => Judgeable env (CheckedRequest.exec details).command
  | .invoke details =>
    Judgeable env (CheckedRequest.invoke details).command ∧
      ((firstNamed (relates env (CheckedRequest.invoke details).command) env.config).isSome = true →
        Runnable env (CheckedRequest.invoke details).command)

section Sections

variable {α : Type} (p : Str → Bool) (found : Node → Kinded α) (missing : Kinded α)

theorem firstSection_eq (config : List Node) : firstSection p found missing config =
    if (before p config).all fun node => node.tag.isSome then
      match firstNamed p config with
      | some node => found node
      | none => missing
    else misuse .noName := by
  induction config with
  | nil => rfl
  | cons node config ih =>
    unfold before firstNamed at ih ⊢
    rw [firstSection, name, List.takeWhile_cons, List.find?_cons]
    cases htag : node.tag with
    | none => simp [htag]; rfl
    | some tag =>
      cases hp : p tag with
      | true => simp [hp]
      | false => simpa [hp, htag] using ih

end Sections

/-! ## Runs without a misuse -/

def Misused {α : Type} (m : Kinded α) (s : ServerState) : Prop :=
  ∃ kind s', exec m s = (.error (.misuse kind), s')

def Kept {α : Type} (m : Kinded α) : Prop := ∀ s, ¬ Misused m s

section Kept

variable {α β : Type} {m : Kinded α} {f : α → Kinded β}

theorem Kept.pure (a : α) : Kept (Pure.pure a) := by
  rintro s ⟨kind, s', h⟩
  cases h

theorem Kept.call (m : Server α) : Kept (call m) := by
  rintro s ⟨kind, s', h⟩
  rw [exec_call] at h
  cases hm : exec m s with
  | mk r t =>
    rw [hm] at h
    cases r with
    | ok a => cases h
    | error e => cases h

theorem misused_bind {s : ServerState} : Misused (m >>= f) s ↔
    Misused m s ∨ ∃ a s', exec m s = (.ok a, s') ∧ Misused (f a) s' := by
  unfold Misused
  rw [exec_bind]
  cases exec m s with
  | mk r t =>
    cases r with
    | ok a => simp
    | error e => simp

theorem Kept.bind (hm : Kept m) (hf : ∀ a, Kept (f a)) : Kept (m >>= f) := by
  intro s h
  rcases misused_bind.mp h with h | ⟨a, s', _, h⟩
  · exact hm s h
  · exact hf a s' h

theorem Kept.ite {c : Prop} [Decidable c] {m m' : Kinded α} (h : Kept m) (h' : Kept m') :
    Kept (if c then m else m') := by
  split
  · exact h
  · exact h'

theorem misused_misuse (kind : Misuse) (s : ServerState) : Misused (misuse kind : Kinded α) s :=
  ⟨kind, s, rfl⟩

end Kept

section Requests

variable {env : Env} {calls : Callees}

theorem kept_checkRules {rules : List Node}
    (h : ∀ item ∈ visitedRules env.peer rules, namedValue item = true) (result : Bool) :
    Kept (checkRules env calls rules result) := by
  induction rules generalizing result with
  | nil => exact Kept.pure result
  | cons node rules ih =>
    rw [visitedRules] at h
    obtain ⟨hnode, hrest⟩ := List.forall_mem_cons.mp h
    obtain ⟨tag, logged, rfl⟩ : ∃ tag logged, node = .value (some tag) logged := by
      cases node with
      | block tag items => cases hnode
      | value tag logged =>
        cases tag with
        | none => cases hnode
        | some tag => exact ⟨tag, logged, rfl⟩
    have htext : text (.value (some tag) logged) = pure logged := rfl
    have hname : name (.value (some tag) logged) = pure tag := rfl
    rw [checkRules, htext, hname, pure_bind, pure_bind]
    cases hidentity : ruleIdentity env.peer tag with
    | some identity =>
      dsimp only
      cases hmember : isItemInList identity logged with
      | false => exact Kept.pure false
      | true =>
        have hpass : failsRule env.peer (.value (some tag) logged) = false := by
          simp [failsRule, hidentity, hmember]
        rw [hpass] at hrest
        exact ih hrest true
    | none =>
      have hpass : failsRule env.peer (.value (some tag) logged) = false := by
        simp [failsRule, hidentity]
      rw [hpass] at hrest
      refine Kept.ite ?_ (ih hrest result)
      refine Kept.bind (Kept.call _) fun passed => ?_
      exact Kept.ite (ih hrest true) (Kept.pure false)

theorem kept_checkPermission {node : Node} {items : List Node} (hnode : node.items? = some items)
    (h : ∀ item ∈ visitedRules env.peer items, namedValue item = true) (command : Str) :
    Kept (checkPermission env calls command node) := by
  have hlist : list node = pure items := by rw [list, hnode]
  rw [checkPermission, hlist]
  refine Kept.bind (Kept.call _) fun granted => ?_
  exact Kept.ite (Kept.pure true) (kept_checkRules h false)

theorem kept_runItems (items : List Node) {rest : List Node}
    (h : ∀ item ∈ rest, item.isValue = true → item.tag.isSome = true) (vars : Vars) :
    Kept (runItems calls items rest vars) := by
  induction rest generalizing vars with
  | nil => exact Kept.pure _
  | cons item rest ih =>
    obtain ⟨hitem, hrest⟩ := List.forall_mem_cons.mp h
    cases item with
    | block tag sub => exact ih hrest vars
    | value tag text =>
      obtain ⟨name, hname⟩ := Option.isSome_iff_exists.mp (hitem rfl)
      obtain rfl : tag = some name := hname
      refine Kept.bind (Kept.pure name) fun _ => ?_
      refine Kept.bind (Kept.call _) fun vars? => ?_
      cases vars? with
      | some vars => exact ih hrest vars
      | none => exact Kept.pure _

theorem kept_runInvoke {command : Str} (h : Runnable env command) (vars : Vars) :
    Kept (runInvoke env calls command vars) := by
  rw [runInvoke, firstSection_eq, if_pos (List.all_eq_true.mpr h.named)]
  cases hfirst : firstNamed (· = command) env.config with
  | none => exact Kept.pure _
  | some node =>
    obtain ⟨items, hnode, hitems⟩ := h.items node hfirst
    have hlist : list node = pure items := by rw [list, hnode]
    dsimp only
    rw [runInvokeCommand, hlist, pure_bind]
    exact Kept.bind (Kept.call _) fun _ => kept_runItems items hitems vars

theorem kept_findPermission {command : Str} (h : Judgeable env command) :
    Kept (findPermission env calls command) := by
  rw [findPermission, firstSection_eq, if_pos (List.all_eq_true.mpr h.named)]
  refine Kept.bind ?_ fun allowed => Kept.bind (Kept.call _) fun _ => Kept.pure allowed
  cases hfirst : firstNamed (relates env command) env.config with
  | none => exact Kept.pure false
  | some node =>
    obtain ⟨items, hnode, hitems⟩ := h.rules node hfirst
    exact kept_checkPermission hnode hitems command

theorem findPermission_missing {command : Str} (h : Judgeable env command)
    (hfirst : firstNamed (relates env command) env.config = none) :
    findPermission env calls command =
      call (emit (.verdict command false)) >>= fun _ => pure false := by
  rw [findPermission, firstSection_eq, if_pos (List.all_eq_true.mpr h.named), hfirst, pure_bind]

theorem kept_handle {request : CheckedRequest} (h : KindsKept env request) :
    Kept (handle env calls request) := by
  cases request with
  | exec details =>
    refine Kept.bind (kept_findPermission h) fun allowed => ?_
    exact Kept.ite (Kept.bind (Kept.call _) fun _ => Kept.call _) (Kept.call _)
  | invoke details =>
    obtain ⟨hjudge, hrun⟩ := h
    cases hfirst : firstNamed (relates env (CheckedRequest.invoke details).command) env.config with
    | none =>
      rw [handle, findPermission_missing hjudge hfirst, bind_assoc]
      refine Kept.bind (Kept.call _) fun _ => ?_
      rw [pure_bind, if_neg Bool.false_ne_true]
      exact Kept.call _
    | some node =>
      rw [hfirst] at hrun
      refine Kept.bind (kept_findPermission hjudge) fun allowed => ?_
      exact Kept.ite (kept_runInvoke (hrun rfl) _) (Kept.call _)

/-- Callees that let everything pass, behind a grant or without one. -/
def passing (granted : Bool) : Callees where
  appDBCheck := fun _ => pure granted
  checkAuth := fun _ => pure true
  runItem := fun _ _ vars => pure (some vars)
  runCommand := fun _ => pure ⟨⟩

theorem misused_checkRules {rules : List Node} {bad : Node}
    (hbad : bad ∈ visitedRules env.peer rules)
    (hkind : namedValue bad = false) (granted result : Bool) (s : ServerState) :
    Misused (checkRules env (passing granted) rules result) s := by
  induction rules generalizing result with
  | nil => cases hbad
  | cons node rules ih =>
    cases node with
    | block tag items => exact misused_bind.mpr (Or.inl (misused_misuse .blockAsText s))
    | value tag logged =>
      cases tag with
      | none =>
        have htext : text (.value none logged) = pure logged := rfl
        rw [checkRules, htext, pure_bind]
        exact misused_bind.mpr (Or.inl (misused_misuse .noName s))
      | some tag =>
        have hrest : failsRule env.peer (.value (some tag) logged) = false ∧
            bad ∈ visitedRules env.peer rules := by
          rw [visitedRules, List.mem_cons] at hbad
          rcases hbad with rfl | hbad
          · cases hkind
          · cases hfails : failsRule env.peer (.value (some tag) logged) with
            | true =>
              rw [hfails] at hbad
              cases hbad
            | false =>
              rw [hfails] at hbad
              exact ⟨rfl, hbad⟩
        obtain ⟨hpass, hlater⟩ := hrest
        have htext : text (.value (some tag) logged) = pure logged := rfl
        have hname : name (.value (some tag) logged) = pure tag := rfl
        rw [checkRules, htext, hname, pure_bind, pure_bind]
        cases hidentity : ruleIdentity env.peer tag with
        | some identity =>
          have hmember : isItemInList identity logged = true := by
            simpa [failsRule, hidentity] using hpass
          dsimp only
          rw [if_pos hmember]
          exact ih hlater true
        | none =>
          dsimp only
          split
          · exact ih hlater true
          · exact ih hlater result

theorem misused_runItems {items rest : List Node} {bad : Node} (hbad : bad ∈ rest)
    (hvalue : bad.isValue = true) (hname : bad.tag = none) (granted : Bool) (vars : Vars)
    (s : ServerState) : Misused (runItems (passing granted) items rest vars) s := by
  induction rest with
  | nil => cases hbad
  | cons item rest ih =>
    cases item with
    | block tag sub =>
      rcases List.mem_cons.mp hbad with rfl | hbad
      · cases hvalue
      · exact ih hbad
    | value tag text =>
      cases tag with
      | none => exact misused_bind.mpr (Or.inl (misused_misuse .noName s))
      | some tag =>
        rcases List.mem_cons.mp hbad with rfl | hbad
        · cases hname
        · exact ih hbad

theorem misused_of_unnamed {p : Str → Bool} {config : List Node}
    (h : ¬ ∀ node ∈ before p config, node.tag.isSome = true) {α : Type} (found : Node → Kinded α)
    (missing : Kinded α) (s : ServerState) : Misused (firstSection p found missing config) s := by
  rw [firstSection_eq, if_neg fun hall => h (List.all_eq_true.mp hall)]
  exact misused_misuse .noName s

theorem judgeable_of_kept {command : Str} {s : ServerState}
    (h : ¬ Misused (findPermission env (passing false) command) s) : Judgeable env command := by
  have hnamed : ∀ node ∈ before (relates env command) env.config, node.tag.isSome = true := by
    by_contra hno
    exact h (misused_bind.mpr (Or.inl (misused_of_unnamed hno _ _ s)))
  refine ⟨hnamed, ?_⟩
  intro node hfirst
  have hkept : ¬ Misused (checkPermission env (passing false) command node) s := by
    intro hbad
    apply h
    rw [findPermission, firstSection_eq, if_pos (List.all_eq_true.mpr hnamed), hfirst]
    exact misused_bind.mpr (Or.inl hbad)
  cases hitems : node.items? with
  | none =>
    have hlist : list node = misuse .valueAsList := by rw [list, hitems]
    rw [checkPermission, hlist] at hkept
    exact absurd (misused_misuse .valueAsList s) hkept
  | some items =>
    have hlist : list node = pure items := by rw [list, hitems]
    rw [checkPermission, hlist] at hkept
    refine ⟨items, rfl, ?_⟩
    intro item hitem
    by_contra hkind
    rw [Bool.not_eq_true] at hkind
    exact hkept (misused_checkRules hitem hkind false false s)

theorem runnable_of_kept {command : Str} {vars : Vars} {s : ServerState}
    (h : ¬ Misused (runInvoke env (passing true) command vars) s) : Runnable env command := by
  have hnamed : ∀ node ∈ before (· = command) env.config, node.tag.isSome = true := by
    by_contra hno
    exact h (misused_of_unnamed hno _ _ s)
  refine ⟨hnamed, ?_⟩
  intro node hfirst
  rw [runInvoke, firstSection_eq, if_pos (List.all_eq_true.mpr hnamed), hfirst] at h
  cases hitems : node.items? with
  | none =>
    have hlist : list node = misuse .valueAsList := by rw [list, hitems]
    dsimp only at h
    rw [runInvokeCommand, hlist] at h
    exact absurd (misused_misuse .valueAsList s) h
  | some items =>
    have hlist : list node = pure items := by rw [list, hitems]
    dsimp only at h
    rw [runInvokeCommand, hlist] at h
    refine ⟨items, rfl, ?_⟩
    intro item hitem hvalue
    by_contra hno
    rw [Bool.not_eq_true, Option.isSome_eq_false_iff, Option.isNone_iff_eq_none] at hno
    exact h (misused_runItems hitem hvalue hno true vars _)

theorem findPermission_granted {command : Str} (h : Judgeable env command)
    (hfirst : (firstNamed (relates env command) env.config).isSome = true) :
    findPermission env (passing true) command =
      call (emit (.verdict command true)) >>= fun _ => pure true := by
  obtain ⟨node, hnode⟩ := Option.isSome_iff_exists.mp hfirst
  rw [findPermission, firstSection_eq, if_pos (List.all_eq_true.mpr h.named), hnode]
  rfl

theorem kindsKept_of_kept {request : CheckedRequest}
    (h : ∀ granted s, ¬ Misused (handle env (passing granted) request) s) :
    KindsKept env request := by
  have hjudge : Judgeable env request.command := by
    apply judgeable_of_kept (s := { input := [] })
    intro hbad
    apply h false { input := [] }
    cases request with
    | exec details => exact misused_bind.mpr (Or.inl hbad)
    | invoke details => exact misused_bind.mpr (Or.inl hbad)
  cases request with
  | exec details => exact hjudge
  | invoke details =>
    refine ⟨hjudge, fun hfirst => ?_⟩
    have hkept := h true { input := [] }
    rw [handle, findPermission_granted hjudge hfirst, bind_assoc] at hkept
    exact runnable_of_kept hkept

end Requests

def load (env : Env) (doc : Str) : Env := { env with config := loadConfig env.config (some doc) }

def Flat (config : List Node) : Prop :=
  ∀ node ∈ config, ∃ tag items, node = .block (some tag) items ∧
  ∀ item ∈ items, namedValue item = true

theorem visitedRules_subset (peer : Peer) (rules : List Node) :
    ∀ item ∈ visitedRules peer rules, item ∈ rules := by
  induction rules with
  | nil => exact fun _ h => h
  | cons node rules ih =>
    intro item h
    rw [visitedRules] at h
    rcases List.mem_cons.mp h with rfl | h
    · exact List.mem_cons_self
    · split at h
      · cases h
      · exact List.mem_cons_of_mem _ (ih item h)

theorem Flat.kindsKept {env : Env} (h : Flat env.config) (request : CheckedRequest) :
    KindsKept env request := by
  have hnamed (p : Str → Bool) : ∀ node ∈ before p env.config, node.tag.isSome = true := by
    intro node hnode
    obtain ⟨tag, items, rfl, _⟩ := h node (List.takeWhile_subset _ hnode)
    rfl
  have hjudge (command : Str) : Judgeable env command := by
    refine ⟨hnamed _, ?_⟩
    intro node hnode
    obtain ⟨tag, items, rfl, hitems⟩ := h node (List.mem_of_find?_eq_some hnode)
    exact ⟨items, rfl,
      fun item hitem => hitems item (visitedRules_subset env.peer items item hitem)⟩
  cases request with
  | exec details => exact hjudge _
  | invoke details =>
    refine ⟨hjudge _, fun _ => ⟨hnamed _, ?_⟩⟩
    intro node hnode
    obtain ⟨tag, items, rfl, hitems⟩ := h node (List.mem_of_find?_eq_some hnode)
    refine ⟨items, rfl, ?_⟩
    intro item hitem _
    have hvalue := hitems item hitem
    cases item with
    | block tag sub => cases hvalue
    | value tag text =>
      cases tag with
      | none => cases hvalue
      | some tag => rfl

def FlatLayout {α : Type} : Layout α → Prop
  | .nil => True
  | .rule _ _ _ _ => False
  | .block _ _ _ items _ rest => (∀ node ∈ items.nodes, node.isValue = true) ∧ FlatLayout rest

theorem flat_nodes {α : Type} {L : Layout α} (h : FlatLayout L) : L.Sections ∧ Flat L.nodes := by
  have hnamed {α : Type} (items : Layout α) {item : Node} (hitem : item ∈ items.nodes)
      (hvalue : item.isValue = true) : namedValue item = true := by
    induction items with
    | nil => cases hitem
    | rule key value eol rest ih =>
      rcases List.mem_cons.mp hitem with rfl | hitem
      · rfl
      · exact ih hitem
    | block name eol inside sub behind rest _ ih =>
      rcases List.mem_cons.mp hitem with rfl | hitem
      · cases hvalue
      · exact ih hitem
  induction L with
  | nil => exact ⟨trivial, nofun⟩
  | rule key value eol rest _ => exact h.elim
  | block name eol inside items behind rest _ ih =>
    obtain ⟨hsections, hflat⟩ := ih h.2
    refine ⟨hsections, ?_⟩
    intro node hnode
    rcases List.mem_cons.mp hnode with rfl | hnode
    · exact ⟨name, items.nodes, rfl, fun item hitem => hnamed items hitem (h.1 item hitem)⟩
    · exact hflat node hnode

/-- Sections as the documentation shows them, without nested blocks, are safe for every request. -/
theorem kindsKept_documented (env : Env) {L : Layout Unit} (hflat : FlatLayout L)
    (hdocumented : L.Documented) (request : CheckedRequest) :
    KindsKept (load env (L.text fun _ => "\n".toList)) request := by
  obtain ⟨hsections, hnodes⟩ := flat_nodes hflat
  apply Flat.kindsKept
  have hload : (load env (L.text fun _ => "\n".toList)).config = L.nodes :=
    parserParseDocument_plain hdocumented.written hsections
  rw [hload]
  exact hnodes

end Kinded

/-- No node is misused, whatever the functions that are called answer, if and only if the request
comes to nodes of the right kinds. -/
theorem handle_kinds_iff (env : Env) (doc : Str) (request : CheckedRequest) :
    (∀ calls s, ¬ Kinded.Misused (Kinded.handle (Kinded.load env doc) calls request) s) ↔
      Kinded.KindsKept (Kinded.load env doc) request := by
  constructor
  · intro h
    exact Kinded.kindsKept_of_kept fun granted s => h (Kinded.passing granted) s
  · intro h calls
    exact Kinded.kept_handle h

/-- A blank behind a brace, a block in a section and a value without a section. -/
theorem nodes_misused :
    let run (doc : String) (request : CheckedRequest) :=
      (exec (Kinded.handle (Kinded.load quietEnv doc.toList)
        ((Kinded.load quietEnv doc.toList).callees fun _ => pure false) request) { input := [] }).1
    run "cryptmount\n\x7b \nuser alice\nrun x\n\x7d\n" (.invoke "cryptmount".toList) =
      .error (.misuse .noName) ∧
    run "cryptmount\n\x7b\nuser alice\nrun x\nConvo\n\x7b\nend y\n\x7d\n\x7d\n"
      (.invoke "cryptmount".toList) =
      .error (.misuse .blockAsText) ∧
    run "mount x\n" (.exec "mount".toList) = .error (.misuse .valueAsList) := by
  refine ⟨?_, ?_, ?_⟩
  · rfl
  · rfl
  · rfl

end Invocation
