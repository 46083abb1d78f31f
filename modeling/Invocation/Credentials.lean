import Invocation.SectionLoop
import Invocation.ServerSafety

/-!
# The variables about the peer

The server stores what it knows about the peer behind everything the client
assigned, and a section only ever adds limits: the six names keep their values.
-/

namespace Invocation

set_option autoImplicit false

open Process Server

def itemLimit : Node → Option Str
  | .value (some tag) text =>
    if tag = "require".toList ∧ requirementType text = .arglen then some (requirementArg text)
    else none
  | _ => none

theorem requirementType_arglen (details : Str) : requirementType details = .arglen ↔
    ¬ strCaseEq (getToken details spaceSeparator .none).1 "absent".toList = true ∧
      strCaseEq (getToken details spaceSeparator .none).1 "arglen".toList = true := by
  unfold requirementType
  dsimp only
  by_cases h1 : strCaseEq (getToken details spaceSeparator .none).1 "absent".toList = true
  · rw [if_pos h1]
    exact ⟨nofun, fun h => absurd h1 h.1⟩
  · rw [if_neg h1]
    by_cases h2 : strCaseEq (getToken details spaceSeparator .none).1 "arglen".toList = true
    · rw [if_pos h2]
      exact ⟨fun _ => ⟨h1, h2⟩, fun _ => rfl⟩
    · rw [if_neg h2]
      refine ⟨?_, fun h => absurd h.2 h2⟩
      split_ifs <;> exact nofun

theorem checkRequirement_vars (env : Env) (details : Str) (vars : Vars) (s : ServerState) :
    ∃ met s', exec (checkRequirement env details vars) s = (.ok (met,
      limitArgs vars (if requirementType details = .arglen then [requirementArg details] else [])),
      s') := by
  simp only [requirementType_arglen]
  unfold checkRequirement
  dsimp only
  by_cases h1 : strCaseEq (getToken details spaceSeparator .none).1 "absent".toList = true
  · rw [if_pos h1, if_neg fun h => h.1 h1]
    exact ⟨_, _, rfl⟩
  · rw [if_neg h1]
    by_cases h2 : strCaseEq (getToken details spaceSeparator .none).1 "arglen".toList = true
    · rw [if_pos h2, if_pos ⟨h1, h2⟩]
      exact ⟨_, _, rfl⟩
    · have hother :
        ¬ (¬ strCaseEq (getToken details spaceSeparator .none).1 "absent".toList = true ∧
          strCaseEq (getToken details spaceSeparator .none).1 "arglen".toList = true) :=
        fun h => h2 h.2
      rw [if_neg hother, if_neg h2]
      split_ifs
      all_goals exact ⟨_, _, rfl⟩

theorem runItem_vars (env : Env) (items : List Node) (item : Node) (vars : Vars) :
    Triple (fun _ => True) (runItem env items item vars)
      (fun r _ => ∀ vars', r = some vars' → vars' = limitArgs vars (itemLimit item).toList)
      (fun _ _ => True) := by
  have hstop {α : Type} (m : Server α) : Triple (fun _ => True) m (fun _ _ => True) fun _ _ =>
      True := by
    intro s _
    cases exec m s with
    | mk r s' => cases r <;> trivial
  cases item with
  | block tag sub =>
    refine Triple.pure fun s _ vars' h => ?_
    exact (Option.some.inj h).symm
  | value tag text =>
    cases tag with
    | none => exact fun s _ => trivial
    | some tag =>
      show Triple _ (if tag = "require".toList then _ else _) _ _
      refine Triple.ite (fun hrequire => ?_) fun hother => ?_
      · intro s _
        obtain ⟨met, s', hcheck⟩ := checkRequirement_vars env text vars s
        rw [exec_bind, hcheck]
        have hlimit : (itemLimit (.value (some tag) text)).toList =
            if requirementType text = .arglen then [requirementArg text] else [] := by
          simp only [itemLimit, hrequire, true_and]
          split <;> rfl
        rw [hlimit]
        cases met with
        | true => exact fun vars' h => (Option.some.inj h).symm
        | false => exact nofun
      · have hlimit : itemLimit (.value (some tag) text) = none := if_neg fun h => hother h.1
        have hsame : ∀ s : ServerState, True → ∀ vars', some vars = some vars' →
            vars' = limitArgs vars (itemLimit (.value (some tag) text)).toList := by
          intro s _ vars' h
          rw [hlimit]
          exact (Option.some.inj h).symm
        have hkeep {α : Type} (m : Server α) : Triple (fun _ => True)
            (m >>= fun _ => pure (some vars))
            (fun r _ => ∀ vars', r = some vars' →
              vars' = limitArgs vars (itemLimit (.value (some tag) text)).toList)
            fun _ _ => True := Triple.bind (hstop m) fun _ => Triple.pure hsame
        refine Triple.ite (fun _ => ?_) fun _ => ?_
        · exact Triple.bind (hstop _) fun _ => hkeep _
        · refine Triple.ite (fun _ => ?_) fun _ => ?_
          · exact Triple.bind (hstop _) fun _ => hkeep _
          · refine Triple.ite (fun _ => hkeep _) fun _ => ?_
            refine Triple.ite (fun _ => hkeep _) fun _ => ?_
            refine Triple.ite (fun _ => hkeep _) fun _ => ?_
            exact Triple.ite (fun _ => hkeep _) fun _ => Triple.pure hsame

theorem limitArgs_append (vars : Vars) (limits more : List Str) :
    limitArgs (limitArgs vars limits) more = limitArgs vars (limits ++ more) := by
  unfold limitArgs
  rw [List.foldl_append]

def visitedLimits (visits : List Visit) : List Str :=
  (visits.filterMap fun visit => itemLimit visit.item).reverse

/-- Wherever the loop stands, it uses the variables of the request and the limits so far. -/
theorem Reaches.limits {env : Env} {items : List Node} {vars : Vars} {s : ServerState}
    {visits : List Visit} {rest : List Node} {v : Vars} {t : ServerState}
    (h : Reaches env items vars s visits rest v t) : v = limitArgs vars (visitedLimits visits) := by
  induction h with
  | start => rfl
  | @next visits item rest v v' t t' _ hexec ih =>
    have hround := runItem_vars env items item v t trivial
    rw [hexec] at hround
    have hlimits : visitedLimits (⟨item, t.history⟩ :: visits) =
        visitedLimits visits ++ (itemLimit item).toList := by
      unfold visitedLimits
      cases hlimit : itemLimit item with
      | none => simp [hlimit]
      | some arg => simp [hlimit]
    rw [hround v' rfl, ih, limitArgs_append, hlimits]

theorem limitArgs_setVars (assignments : List (Str × Str)) (limits : List Str) :
    limitArgs (setVars assignments) limits =
      setVars (assignments ++ limits.map fun arg => ("InvokeMaxArgLen".toList, arg)) := by
  induction limits generalizing assignments with
  | nil => simp [limitArgs]
  | cons arg limits ih =>
    have hfirst : limitArgs (setVars assignments) (arg :: limits) =
        limitArgs (setVars (assignments ++ [("InvokeMaxArgLen".toList, arg)])) limits := by
      rw [setVars, setVars, KeyedList.ofPairs_append]
      rfl
    rw [hfirst, ih, List.map_cons, List.append_assoc, List.singleton_append]

section Lookup

variable {name : Str} {peer : Peer}

theorem peerAssignments_find {p : Str × Str} (hp : p ∈ peerAssignments peer)
    (hname : strCaseEq name p.1 = true) :
    (peerAssignments peer).reverse.find? (sameTag ·.1 name) = some p ∧
      sameTag "InvokeMaxArgLen".toList name = false := by
  have hlower : strlwr name = strlwr p.1 := (strCaseEq_iff _ _).mp hname
  have hne : name ≠ [] := by
    rintro rfl
    simp only [peerAssignments, List.mem_cons, List.not_mem_nil, or_false] at hp
    rcases hp with rfl | rfl | rfl | rfl | rfl | rfl <;> simp [strlwr] at hlower
  have hsame : ∀ tag, sameTag tag name = sameTag tag p.1 := by
    intro tag
    have hp1 : p.1 ≠ [] := by
      intro hnil
      rw [hnil] at hlower
      exact hne (List.map_eq_nil_iff.mp hlower)
    simp [sameTag, hne, hp1, strCaseEq, hlower]
  simp only [hsame]
  simp only [peerAssignments, List.mem_cons, List.not_mem_nil, or_false] at hp
  rcases hp with rfl | rfl | rfl | rfl | rfl | rfl <;> exact ⟨rfl, rfl⟩

end Lookup

theorem getVar_limitArgs (env : Env) (details : Str) (limits : List Str) {p : Str × Str}
    (hp : p ∈ peerAssignments env.peer) {name : Str} (hname : strCaseEq name p.1 = true) :
    getVar (limitArgs (invokeVars env details) limits) name = p.2 := by
  obtain ⟨hfind, hlimit⟩ := peerAssignments_find hp hname
  have hnone : (limits.map fun arg => ("InvokeMaxArgLen".toList, arg)).reverse.find?
      (sameTag ·.1 name) = none := by
    rw [List.find?_eq_none]
    intro q hq
    obtain ⟨arg, _, rfl⟩ := List.mem_map.mp (List.mem_reverse.mp hq)
    rw [hlimit]
    simp
  rw [invokeVars, limitArgs_setVars, getVar_setVars, List.reverse_append, List.reverse_append,
    List.find?_append, hnone, Option.none_or, List.find?_append, hfind]
  rfl

/-- Whatever the request assigns, wherever its section stands, and however a template writes the
name, a variable about the peer has the server's value; so requests that differ in their
assignments see the same six values. -/
theorem peer_variables_asserted (env : Env) (details : Str) (items : List Node) (s : ServerState)
    {visits : List Visit} {rest : List Node} {v : Vars} {t : ServerState}
    (h : Reaches env items (invokeVars env details) s visits rest v t) {p : Str × Str}
    (hp : p ∈ peerAssignments env.peer) {name : Str} (hname : strCaseEq name p.1 = true) :
    getVar v name = p.2 ∧
      (∀ shellSafe, varValue v shellSafe name =
        if shellSafe then makeShellSafeString p.2 else p.2) ∧
      ∀ (details' : Str) (items' : List Node) (s' : ServerState) (visits' : List Visit)
        (rest' : List Node) (v' : Vars) (t' : ServerState),
        Reaches env items' (invokeVars env details') s' visits' rest' v' t' →
          getVar v' name = getVar v name := by
  have hvalue {details : Str} {items : List Node} {s : ServerState} {visits : List Visit}
      {rest : List Node} {v : Vars} {t : ServerState}
      (h : Reaches env items (invokeVars env details) s visits rest v t) {name : Str}
      (hname : strCaseEq name p.1 = true) : getVar v name = p.2 := by
    rw [h.limits]
    exact getVar_limitArgs env details _ hp hname
  have hlower : strCaseEq (strlwr name) p.1 = true := by
    rw [strCaseEq_iff] at hname ⊢
    rw [strlwr_strlwr, hname]
  refine ⟨hvalue h hname, ?_, ?_⟩
  · intro shellSafe
    rw [varValue, hvalue h hlower]
  · intro details' items' s' visits' rest' v' t' h'
    rw [hvalue h' hname, hvalue h hname]

/-- A request that claims to be root's, behind a limit of the section. -/
theorem peer_variables_asserted_forging :
    getVar (setVar (invokeVars quietEnv " mount invoke:user=root INVOKE:User=root =root".toList)
        "InvokeMaxArgLen".toList "20".toList) "Invoke:USER".toList = "alice".toList := by
  have hround : Reaches quietEnv [requireItem "arglen 20".toList]
      (invokeVars quietEnv " mount invoke:user=root INVOKE:User=root =root".toList) { input := [] }
      [⟨requireItem "arglen 20".toList, []⟩] []
      (setVar (invokeVars quietEnv " mount invoke:user=root INVOKE:User=root =root".toList)
        "InvokeMaxArgLen".toList "20".toList) { input := [] } :=
    .next .start rfl
  exact (peer_variables_asserted quietEnv _ _ _ hround
    (p := ("invoke:user".toList, "alice".toList)) List.mem_cons_self (by decide)).1

end Invocation
