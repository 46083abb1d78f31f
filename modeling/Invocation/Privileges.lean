import Invocation.RunOptions
import Invocation.SectionLoop

/-!
# Whose identity a command gets

`chuser` and `chgrp` switch the server itself, the options `user` and `group`
the child that is about to execute a command. The account database and the
verdicts of the kernel are oracles; a failed switch ends the process, an
unknown name does not.
-/

namespace Invocation

set_option autoImplicit false

open Process Server

/-- `uid_t` and `gid_t`. -/
abbrev Id := BitVec 32

structure Creds where
  uid : Id
  gid : Id
deriving DecidableEq

structure Accounts where
  getpwnam : Str → Option Id
  getgrnam : Str → Option Id
  setresuid : Creds → Id → Bool
  setgid : Creds → Id → Bool

/-- `LookupUID` and `LookupGID`: an `int`, -1 without an account. -/
def lookupId (db : Str → Option Id) (name : Str) : Int :=
  if name = [] then -1
  else
    match db name with
    | some id => id.toInt
    | none => -1

namespace Accounts

variable (acc : Accounts)

def lookupUID (name : Str) : Int := lookupId acc.getpwnam name

def lookupGID (name : Str) : Int := lookupId acc.getgrnam name

/-- `SwitchUID`: none when the process ends. -/
def switchUID (c : Creds) (uid : Int) : Option Creds :=
  if uid = -1 ∨ acc.setresuid c (BitVec.ofInt 32 uid) = false then none
  else some { c with uid := BitVec.ofInt 32 uid }

def switchGID (c : Creds) (gid : Int) : Option Creds :=
  if gid = -1 ∨ acc.setgid c (BitVec.ofInt 32 gid) = false then none
  else some { c with gid := BitVec.ofInt 32 gid }

/-- What `SwitchUser` and `SwitchGroup` do with the number they have looked up. -/
def switchLooked (c : Creds) (id : Int) (switched : Option Creds) : SwitchResult × Creds :=
  if id = -1 then (.unknown, c)
  else
    match switched with
    | some c' => (.switched, c')
    | none => (.refused, c)

def switchUser (c : Creds) (name : Str) : SwitchResult × Creds :=
  switchLooked c (acc.lookupUID name) (acc.switchUID c (acc.lookupUID name))

def switchGroup (c : Creds) (name : Str) : SwitchResult × Creds :=
  switchLooked c (acc.lookupGID name) (acc.switchGID c (acc.lookupGID name))

def after (c : Creds) : Event → Creds
  | .switchUser name => (acc.switchUser c name).2
  | .switchGroup name => (acc.switchGroup c name).2
  | _ => c

/-- The server's credentials behind a history; it was started with `start`. -/
def serverCreds (start : Creds) : List Event → Creds
  | [] => start
  | e :: past => acc.after (serverCreds start past) e

/-! ## The child -/

/-- One option in the second loop of `ProcessApplyConfig`: uid and gid. -/
def applyOption (ids : Int × Int) (p : Str × Str) : Int × Int :=
  if strCaseEq p.1 "User".toList then (acc.lookupUID p.2, ids.2)
  else if strCaseEq p.1 "Group".toList then (ids.1, acc.lookupGID p.2)
  else if strCaseEq p.1 "UID".toList then (atoi p.2, ids.2)
  else if strCaseEq p.1 "GID".toList then (ids.1, atoi p.2)
  else ids

/-- `ProcessApplyConfig`: the credentials the command is executed with, none when it is not. What
the other options do (change the root, take locks, enter a container) succeeds or keeps the
command from being executed. -/
def processApplyConfig (setup : Str → Bool) (c : Creds) (config : Str) : Option Creds :=
  if setup config then
    let ids := (configPairs config).foldl acc.applyOption (0, 0)
    (if 0 < ids.2 then acc.switchGID c ids.2 else some c).bind fun c =>
      if 0 < ids.1 then acc.switchUID c ids.1 else some c
  else none

end Accounts

/-- A server whose switches are answered from the accounts. -/
def Env.withAccounts (env : Env) (acc : Accounts) (start : Creds) : Env :=
  { env with
    switchUser := fun h name => (acc.switchUser (acc.serverCreds start h) name).1
    switchGroup := fun h name => (acc.switchGroup (acc.serverCreds start h) name).1 }

/-! ## Names of accounts -/

/-- The account of a name; (uid_t) -1 is nobody's. -/
def accountOf (db : Str → Option Id) (name : Str) : Option Id :=
  if name = [] then none else (db name).filter (· ≠ -1)

theorem accountOf_eq_none_iff (db : Str → Option Id) (name : Str) :
    accountOf db name = none ↔ lookupId db name = -1 := by
  unfold accountOf lookupId
  by_cases hname : name = []
  · rw [if_pos hname, if_pos hname]
    exact ⟨fun _ => rfl, fun _ => rfl⟩
  · rw [if_neg hname, if_neg hname]
    cases db name with
    | none => exact ⟨fun _ => rfl, fun _ => rfl⟩
    | some id =>
      have hminus : id.toInt = -1 ↔ id = -1 := by
        rw [← BitVec.toInt_inj]
        exact Iff.rfl
      simp [hminus]

theorem accountOf_eq_some {db : Str → Option Id} {name : Str} {id : Id}
    (h : accountOf db name = some id) : lookupId db name = id.toInt := by
  unfold accountOf at h
  unfold lookupId
  by_cases hname : name = []
  · rw [if_pos hname] at h
    cases h
  · rw [if_neg hname] at h ⊢
    cases hdb : db name with
    | none =>
      rw [hdb] at h
      cases h
    | some id' =>
      rw [hdb, Option.filter_some] at h
      split at h
      · cases h
        rfl
      · cases h

theorem accountOf_ofInt {db : Str → Option Id} {name : Str} {id : Id}
    (h : accountOf db name = some id) : BitVec.ofInt 32 (lookupId db name) = id := by
  rw [accountOf_eq_some h, BitVec.ofInt_toInt]

/-! ## The server on its way through a section -/

/-- The text of an item with a tag. -/
def Node.named? (tag : Str) : Node → Option Str
  | .value (some t) text => if t = tag then some text else none
  | _ => none

/-- The names in the executed items with a tag, newest first. -/
def namesOf (tag : Str) (visits : List Visit) : List Str :=
  (visits.map Visit.item).filterMap (Node.named? tag)

@[simp] theorem named?_value (tag t text : Str) :
    (Node.value (some t) text).named? tag = if t = tag then some text else none := rfl

/-- The account that the newest resolved name has switched to. -/
def switchedTo (db : Str → Option Id) (names : List Str) (start : Id) : Id :=
  ((names.filterMap (accountOf db)).head?).getD start

theorem switchedTo_namesOf_cons (db : Str → Option Id) (tag : Str) (v : Visit) (visits : List Visit)
    (start : Id) : switchedTo db (namesOf tag (v :: visits)) start =
      ((v.item.named? tag).bind (accountOf db)).getD
      (switchedTo db (namesOf tag visits) start) := by
  unfold switchedTo namesOf
  rw [List.map_cons]
  cases hname : v.item.named? tag with
  | none =>
    rw [List.filterMap_cons_none hname]
    rfl
  | some name =>
    rw [List.filterMap_cons_some hname, Option.bind_some]
    cases hid : accountOf db name with
    | none =>
      rw [List.filterMap_cons_none hid]
      rfl
    | some id =>
      rw [List.filterMap_cons_some hid]
      rfl

section Server

variable {env : Env} {acc : Accounts} {start : Creds} {items : List Node}

/-- A number that comes from an account is switched to or refused. -/
theorem switchLooked_account {db : Str → Option Id} {name : Str} {id : Id}
    (h : accountOf db name = some id) (c : Creds) (switched : Option Creds) :
    Accounts.switchLooked c (lookupId db name) switched =
      match switched with
      | some c' => (.switched, c')
      | none => (.refused, c) := by
  have hne : lookupId db name ≠ -1 := by
    intro hminus
    rw [(accountOf_eq_none_iff db name).mpr hminus] at h
    cases h
  unfold Accounts.switchLooked
  rw [if_neg hne]

theorem switchLooked_unknown {db : Str → Option Id} {name : Str} (h : accountOf db name = none)
    (c : Creds) (switched : Option Creds) :
    Accounts.switchLooked c (lookupId db name) switched = (.unknown, c) := by
  unfold Accounts.switchLooked
  rw [if_pos ((accountOf_eq_none_iff db name).mp h)]

/-- A switch goes on without an account, or switches to it, or ends the process. -/
theorem switchLooked_cases (db : Str → Option Id) (name : Str) (c : Creds) (set : Id → Creds)
    {switched : Option Creds}
    (h : switched = none ∨ switched = some (set (BitVec.ofInt 32 (lookupId db name)))) :
    (Accounts.switchLooked c (lookupId db name) switched).1 = .refused ∨
      ((Accounts.switchLooked c (lookupId db name) switched).2 =
          ((accountOf db name).map set).getD c ∧
        ((Accounts.switchLooked c (lookupId db name) switched).1 = .unknown →
          accountOf db name = none)) := by
  cases hid : accountOf db name with
  | none =>
    rw [switchLooked_unknown hid]
    exact Or.inr ⟨rfl, fun _ => rfl⟩
  | some id =>
    rw [switchLooked_account hid]
    rw [accountOf_ofInt hid] at h
    rcases h with hrefused | hswitched
    · rw [hrefused]
      exact Or.inl rfl
    · rw [hswitched]
      exact Or.inr ⟨rfl, fun hunknown => nomatch hunknown⟩

theorem switchUser_cases (acc : Accounts) (c : Creds) (name : Str) :
    (acc.switchUser c name).1 = .refused ∨
      ((acc.switchUser c name).2 = { c with uid := (accountOf acc.getpwnam name).getD c.uid } ∧
        ((acc.switchUser c name).1 = .unknown → accountOf acc.getpwnam name = none)) := by
  have hset : { c with uid := (accountOf acc.getpwnam name).getD c.uid } =
      ((accountOf acc.getpwnam name).map fun id => { c with uid := id }).getD c := by
    cases accountOf acc.getpwnam name with
    | none => rfl
    | some id => rfl
  rw [hset]
  exact switchLooked_cases acc.getpwnam name c (fun id => { c with uid := id }) (ite_eq_or_eq _ _ _)

theorem switchGroup_cases (acc : Accounts) (c : Creds) (name : Str) :
    (acc.switchGroup c name).1 = .refused ∨
      ((acc.switchGroup c name).2 = { c with gid := (accountOf acc.getgrnam name).getD c.gid } ∧
        ((acc.switchGroup c name).1 = .unknown → accountOf acc.getgrnam name = none)) := by
  have hset : { c with gid := (accountOf acc.getgrnam name).getD c.gid } =
      ((accountOf acc.getgrnam name).map fun id => { c with gid := id }).getD c := by
    cases accountOf acc.getgrnam name with
    | none => rfl
    | some id => rfl
  rw [hset]
  exact switchLooked_cases acc.getgrnam name c (fun id => { c with gid := id }) (ite_eq_or_eq _ _ _)

theorem after_quiet {e : Event} (h : Quiet e) (acc : Accounts) (c : Creds) : acc.after c e = c := by
  cases e <;> first | rfl | exact h.elim

def HasCreds (acc : Accounts) (start c : Creds) (s : ServerState) : Prop :=
  acc.serverCreds start s.history = c

theorem hasCreds_stable (acc : Accounts) (start c : Creds) : Stable (HasCreds acc start c) where
  emit := by
    intro s e he hs
    unfold HasCreds at hs ⊢
    rw [Accounts.serverCreds, hs, after_quiet he]
  input := fun _ _ _ hs => hs

def itemCreds (acc : Accounts) (c : Creds) (item : Node) : Creds :=
  { uid := ((item.named? "chuser".toList).bind (accountOf acc.getpwnam)).getD c.uid
    gid := ((item.named? "chgrp".toList).bind (accountOf acc.getgrnam)).getD c.gid }

theorem itemCreds_other {c : Creds} {t text : Str} (h1 : t ≠ "chuser".toList)
    (h2 : t ≠ "chgrp".toList) : itemCreds acc c (.value (some t) text) = c := by
  unfold itemCreds
  rw [named?_value, named?_value, if_neg h1, if_neg h2]
  rfl

theorem itemCreds_chuser (c : Creds) (text : Str) :
    itemCreds acc c (.value (some "chuser".toList) text) =
      { c with uid := (accountOf acc.getpwnam text).getD c.uid } := by
  have hne : "chuser".toList ≠ "chgrp".toList := by decide
  unfold itemCreds
  rw [named?_value, named?_value, if_pos rfl, if_neg hne]
  rfl

theorem itemCreds_chgrp (c : Creds) (text : Str) :
    itemCreds acc c (.value (some "chgrp".toList) text) =
      { c with gid := (accountOf acc.getgrnam text).getD c.gid } := by
  have hne : "chgrp".toList ≠ "chuser".toList := by decide
  unfold itemCreds
  rw [named?_value, named?_value, if_pos rfl, if_neg hne]
  rfl

theorem switch_creds {c c' : Creds} {e : Event} {answer : Creds → SwitchResult × Creds}
    {vars : Vars}
    (hafter : acc.after c e = (answer c).2)
    (hcases : (answer c).1 = .refused ∨
      ((answer c).2 = c' ∧ ((answer c).1 = .unknown → c = c'))) :
    Triple (HasCreds acc start c)
      (do
        let result ← observe fun h => (answer (acc.serverCreds start h)).1
        switchTo result e
        pure (some vars))
      (fun _ => HasCreds acc start c') (fun _ _ => True) := by
  have hread : Triple (HasCreds acc start c) (observe fun h => (answer (acc.serverCreds start h)).1)
      (fun result s => HasCreds acc start c s ∧ result = (answer c).1) (fun _ _ => True) := by
    intro s hs
    exact ⟨hs, congrArg (fun c => (answer c).1) hs⟩
  apply Triple.bind hread
  intro result s hs
  obtain ⟨hcreds, rfl⟩ := hs
  unfold HasCreds at hcreds
  rw [exec_bind]
  rcases hcases with hrefused | ⟨hswitched, hunknown⟩
  · rw [hrefused]
    trivial
  · cases hresult : (answer c).1 with
    | unknown => exact hcreds.trans (hunknown hresult)
    | switched =>
      have hnew : acc.after (acc.serverCreds start s.history) e = c' := by
        rw [hcreds, hafter, hswitched]
      exact hnew
    | refused => trivial

theorem runItem_creds (c : Creds) (item : Node) (vars : Vars) :
    Triple (HasCreds acc start c) (runItem (env.withAccounts acc start) items item vars)
      (fun _ => HasCreds acc start (itemCreds acc c item)) (fun _ _ => True) := by
  have hstable := hasCreds_stable acc start c
  cases item with
  | block tag sub => exact fun s hs => hs
  | value tag text =>
    cases tag with
    | none => exact fun s hs => trivial
    | some t =>
      rw [runItem, need, pure_bind]
      by_cases hchuser : t = "chuser".toList
      · subst hchuser
        have hrequire : "chuser".toList ≠ "require".toList := by decide
        rw [itemCreds_chuser, if_neg hrequire, if_pos rfl]
        refine @switch_creds acc start c _ (.switchUser text) (fun c => acc.switchUser c text) vars
          rfl ?_
        exact (switchUser_cases acc c text).imp id fun h => ⟨h.1, fun hunknown => by
          rw [h.2 hunknown]
          rfl⟩
      · by_cases hchgrp : t = "chgrp".toList
        · subst hchgrp
          have hrequire : "chgrp".toList ≠ "require".toList := by decide
          rw [itemCreds_chgrp, if_neg hrequire, if_neg hchuser, if_pos rfl]
          refine @switch_creds acc start c _ (.switchGroup text) (fun c => acc.switchGroup c text)
            vars rfl ?_
          exact (switchGroup_cases acc c text).imp id fun h => ⟨h.1, fun hunknown => by
            rw [h.2 hunknown]
            rfl⟩
        · rw [itemCreds_other hchuser hchgrp, if_neg hchuser, if_neg hchgrp]
          have hquiet {α : Type} {m : Server α} (hm : Quietly m) (v : Option Vars) :
              Triple (HasCreds acc start c) (m >>= fun _ => pure v)
                (fun _ => HasCreds acc start c) (fun _ _ => True) := by
            have hbind : Quietly (m >>= fun _ => pure v) := Quietly.bind hm fun _ => Quietly.pure v
            exact Triple.mono (hbind _ hstable) (fun _ hs => hs) (fun _ _ hs => hs)
              fun _ _ _ => trivial
          refine Triple.ite (fun _ => ?_) fun _ => ?_
          · have hcheck := checkRequirement_limits (env.withAccounts acc start) hstable text vars
            refine Triple.bind (Triple.mono hcheck (fun _ hs => hs) (fun _ _ hs => hs.2)
              fun _ _ _ => trivial) fun p => ?_
            exact fun _ hs => hs
          · have hkeeps {m : Server PUnit} (hm : Triple (HasCreds acc start c) m
                (fun _ => HasCreds acc start c)
                (fun e s => e ≠ .outOfFuel ∧ HasCreds acc start c s)) :
                Triple (HasCreds acc start c) (m >>= fun _ => pure (some vars))
                  (fun _ => HasCreds acc start c) (fun _ _ => True) :=
              Triple.bind (hm.mono (fun _ hs => hs) (fun _ _ hs => hs) fun _ _ _ => trivial)
                fun _ _ hs => hs
            refine Triple.ite (fun _ => hkeeps (bookout_keeps _ hstable fun _ _ hs _ => hs))
              fun _ => ?_
            refine Triple.ite (fun _ => hkeeps (bookin_keeps _ hstable fun _ _ hs _ => hs))
              fun _ => ?_
            have hclientrun : Quietly (emit (.send ("clientrun ".toList ++ text ++ "\n".toList))) :=
              Quietly.emit trivial
            refine Triple.ite (fun _ => hquiet hclientrun _) fun _ => ?_
            refine Triple.ite (fun _ => ?_) fun _ => fun s hs => hs
            have hspawn : ∀ s r, HasCreds acc start c s → spawnRequest text vars = some r →
                HasCreds acc start c
                  { s with history := .spawn r.cmd r.capabilities :: s.history } :=
                    fun _ _ hs _ => hs
            exact hkeeps (runCommand_keeps hstable hspawn (some items))

/-- Every executed switch has taken place, those without an account apart. -/
theorem Reaches.creds {vars v : Vars} {s t : ServerState} {visits : List Visit} {rest : List Node}
    (h : Reaches (env.withAccounts acc start) items vars s visits rest v t) :
    HasCreds acc start
      { uid := switchedTo acc.getpwnam (namesOf "chuser".toList visits)
          (acc.serverCreds start s.history).uid
        gid := switchedTo acc.getgrnam (namesOf "chgrp".toList visits)
          (acc.serverCreds start s.history).gid } t := by
  induction h with
  | start => rfl
  | @next visits item rest v v' t t' _ hitem ih =>
    have hround := @runItem_creds env acc start items _ item v t ih
    rw [hitem] at hround
    rw [switchedTo_namesOf_cons, switchedTo_namesOf_cons]
    exact hround

/-- Whatever is spawned from now on is spawned with these credentials and the options of `text`. -/
def SpawnedFrom (acc : Accounts) (start c : Creds) (before : List Event) (text : Str)
    (s : ServerState) : Prop :=
  HasCreds acc start c s ∧
    ∀ later cmd config past, s.history = later ++ .spawn cmd config :: past → before <:+ past →
      acc.serverCreds start past = c ∧ config = ownConfig text

theorem spawnedFrom_stable (acc : Accounts) (start c : Creds) (before : List Event) (text : Str) :
    Stable (SpawnedFrom acc start c before text) where
  emit := by
    intro s e he hs
    refine ⟨(hasCreds_stable acc start c).emit s e he hs.1, ?_⟩
    intro later cmd config past heq hpast
    cases later with
    | nil =>
      obtain ⟨rfl, _⟩ := List.cons.inj heq
      exact he.elim
    | cons e' later =>
      obtain ⟨_, hrest⟩ := List.cons.inj heq
      exact hs.2 later cmd config past hrest hpast
  input := fun _ _ _ hs => hs

theorem runCommand_spawns {text : Str} {vars : Vars} {section? : Option (List Node)}
    {t t' : ServerState} (h : (exec (runCommand env text vars section?) t).2 = t')
    {later past : List Event} {cmd config : Str}
    (hspawn : t'.history = later ++ .spawn cmd config :: past) (hpast : t.history <:+ past) :
    acc.serverCreds start past = acc.serverCreds start t.history ∧ config = ownConfig text := by
  have hstable := spawnedFrom_stable acc start (acc.serverCreds start t.history) t.history text
  have hspawned : ∀ s r, SpawnedFrom acc start (acc.serverCreds start t.history) t.history text s →
      spawnRequest text vars = some r →
      SpawnedFrom acc start (acc.serverCreds start t.history) t.history text
        { s with history := .spawn r.cmd r.capabilities :: s.history } := by
    intro s r hs hr
    refine ⟨hs.1, ?_⟩
    intro later cmd config past heq hpast
    cases later with
    | nil =>
      cases heq
      obtain ⟨_, _, _, hconfig⟩ := spawnRequest_builtFrom hr
      exact ⟨hs.1, hconfig⟩
    | cons e later =>
      obtain ⟨_, hrest⟩ := List.cons.inj heq
      exact hs.2 later cmd config past hrest hpast
  have hstart : SpawnedFrom acc start (acc.serverCreds start t.history) t.history text t := by
    refine ⟨rfl, ?_⟩
    intro later cmd config past heq hpast
    have hlength := hpast.length_le
    rw [heq, List.length_append, List.length_cons] at hlength
    omega
  have hrun := @runCommand_keeps env _ hstable _ _ hspawned section? t hstart
  have hend : SpawnedFrom acc start (acc.serverCreds start t.history) t.history text t' := by
    cases hexec : exec (runCommand env text vars section?) t with
    | mk r s =>
      rw [hexec] at h hrun
      cases h
      cases r with
      | ok a => exact hrun
      | error e => exact hrun.2
  exact hend.2 later cmd config past hspawn hpast

end Server

/-! ## The child -/

def idOption (db : Str → Option Id) (name number : Str) (p : Str × Str) : Option Int :=
  if strCaseEq p.1 name then some (lookupId db p.2)
  else if strCaseEq p.1 number then some (atoi p.2)
  else none

def idChosen (db : Str → Option Id) (name number : Str) (options : List (Str × Str)) : Int :=
  ((options.filterMap (idOption db name number)).getLast?).getD 0

theorem idChosen_concat (db : Str → Option Id) (name number : Str) (options : List (Str × Str))
    (p : Str × Str) : idChosen db name number (options ++ [p]) =
      (idOption db name number p).getD (idChosen db name number options) := by
  unfold idChosen
  rw [List.filterMap_append]
  cases h : idOption db name number p with
  | none => rw [List.filterMap_cons_none h, List.filterMap_nil, List.append_nil, Option.getD_none]
  | some id => rw [List.filterMap_cons_some h, List.filterMap_nil, List.getLast?_concat]; rfl

theorem foldl_applyOption (acc : Accounts) (options : List (Str × Str)) :
    options.foldl acc.applyOption (0, 0) =
      (idChosen acc.getpwnam "User".toList "UID".toList options,
        idChosen acc.getgrnam "Group".toList "GID".toList options) := by
  induction options using List.reverseRecOn with
  | nil => rfl
  | append_singleton options p ih =>
    rw [List.foldl_concat, ih, idChosen_concat, idChosen_concat]
    have hnames : ∀ a b : Str, strlwr a ≠ strlwr b → strCaseEq p.1 a = true →
        ¬ strCaseEq p.1 b = true := by
      intro a b hab ha hb
      rw [strCaseEq_iff] at ha hb
      exact hab (ha.symm.trans hb)
    unfold Accounts.applyOption idOption
    by_cases h1 : strCaseEq p.1 "User".toList = true
    · have h2 := hnames _ "Group".toList (by decide) h1
      have h4 := hnames _ "GID".toList (by decide) h1
      simp only [if_pos h1, if_neg h2, if_neg h4, Option.getD_some, Option.getD_none]
      rfl
    · by_cases h2 : strCaseEq p.1 "Group".toList = true
      · have h3 := hnames _ "UID".toList (by decide) h2
        simp only [if_neg h1, if_pos h2, if_neg h3, Option.getD_some, Option.getD_none]
        rfl
      · by_cases h3 : strCaseEq p.1 "UID".toList = true
        · have h4 := hnames _ "GID".toList (by decide) h3
          simp only [if_neg h1, if_neg h2, if_pos h3, if_neg h4, Option.getD_some, Option.getD_none]
        · by_cases h4 : strCaseEq p.1 "GID".toList = true
          · simp only [if_neg h1, if_neg h2, if_neg h3, if_pos h4, Option.getD_some,
              Option.getD_none]
          · simp only [if_neg h1, if_neg h2, if_neg h3, if_neg h4, Option.getD_none]

/-- An executed command has the numbers its options give, where they are positive. -/
theorem processApplyConfig_ids {acc : Accounts} {setup : Str → Bool} {c c' : Creds} {config : Str}
    (h : acc.processApplyConfig setup c config = some c') :
    (c'.uid = let uid := idChosen acc.getpwnam "User".toList "UID".toList (configPairs config)
      if 0 < uid then BitVec.ofInt 32 uid else c.uid) ∧
    (c'.gid = let gid := idChosen acc.getgrnam "Group".toList "GID".toList (configPairs config)
      if 0 < gid then BitVec.ofInt 32 gid else c.gid) := by
  have hgid : ∀ {c c' : Creds} {gid : Int}, acc.switchGID c gid = some c' →
      c' = { c with gid := BitVec.ofInt 32 gid } := by
    intro c c' gid h
    unfold Accounts.switchGID at h
    split at h
    · cases h
    · exact (Option.some.inj h).symm
  have huid : ∀ {c c' : Creds} {uid : Int}, acc.switchUID c uid = some c' →
      c' = { c with uid := BitVec.ofInt 32 uid } := by
    intro c c' uid h
    unfold Accounts.switchUID at h
    split at h
    · cases h
    · exact (Option.some.inj h).symm
  unfold Accounts.processApplyConfig at h
  rw [foldl_applyOption] at h
  dsimp only at h ⊢
  generalize idChosen acc.getpwnam "User".toList "UID".toList (configPairs config) = uid at h ⊢
  generalize idChosen acc.getgrnam "Group".toList "GID".toList (configPairs config) = gid at h ⊢
  split at h
  · obtain ⟨c1, hgroup, huser⟩ := Option.bind_eq_some_iff.mp h
    have hc1 : c1 = { c with gid := if 0 < gid then BitVec.ofInt 32 gid else c.gid } := by
      by_cases hpos : 0 < gid
      · rw [if_pos hpos] at hgroup ⊢
        exact hgid hgroup
      · rw [if_neg hpos] at hgroup ⊢
        exact (Option.some.inj hgroup).symm
    have hc' : c' = { c1 with uid := if 0 < uid then BitVec.ofInt 32 uid else c1.uid } := by
      by_cases hpos : 0 < uid
      · rw [if_pos hpos] at huser ⊢
        exact huid huser
      · rw [if_neg hpos] at huser ⊢
        exact (Option.some.inj huser).symm
    rw [hc', hc1]
    exact ⟨rfl, rfl⟩
  · cases h

/-! ## Dropped or not executed -/

/-- The account that a command is to be executed with: that of its last option, or of the newest
item in front of it. -/
def asked (server inside : Str → Option Id) (names options : List Str) : Option Id :=
  match options.getLast? with
  | some name => accountOf inside name
  | none => names.head?.bind (accountOf server)

/-- Every name is somebody's, and the command has the account asked for. -/
structure Obeyed (server inside : Str → Option Id) (names options : List Str) (id : Id) : Prop where
  names_known : ∀ name ∈ names, accountOf server name ≠ none
  options_known : ∀ name ∈ options, accountOf inside name ≠ none
  executed : ∀ id', asked server inside names options = some id' → id = id'

/-- Every name is somebody's; the number that the options give is that of the account asked for;
where it is not positive, an account asked for by an option is the server's own. -/
structure Settled (server inside : Str → Option Id) (names options : List Str) (chosen : Int)
    (current : Id) : Prop where
  names_known : ∀ name ∈ names, accountOf server name ≠ none
  options_known : ∀ name ∈ options, accountOf inside name ≠ none
  switched : 0 < chosen → ∀ id', asked server inside names options = some id' →
    BitVec.ofInt 32 chosen = id'
  kept : chosen ≤ 0 → options ≠ [] → ∀ id', asked server inside names options = some id' →
    current = id'

/-- Without an option the account asked for is the one the server has switched to. -/
theorem switchedTo_asked {server inside : Str → Option Id} {names : List Str} {start id : Id}
    (h : asked server inside names [] = some id) : switchedTo server names start = id := by
  cases names with
  | nil => cases h
  | cons name names =>
    have hid : accountOf server name = some id := h
    unfold switchedTo
    rw [List.filterMap_cons_some hid]
    rfl

theorem obeyed_iff {server inside : Str → Option Id} {names options : List Str} {chosen : Int}
    {current start id : Id} (hcurrent : current = switchedTo server names start)
    (hid : id = if 0 < chosen then BitVec.ofInt 32 chosen else current) :
    Obeyed server inside names options id ↔
      Settled server inside names options chosen current := by
  constructor
  · intro h
    refine ⟨h.names_known, h.options_known, ?_, ?_⟩
    · intro hpos id' hasked
      rw [← h.executed id' hasked, hid, if_pos hpos]
    · intro hneg _ id' hasked
      rw [← h.executed id' hasked, hid, if_neg (by omega)]
  · intro h
    refine ⟨h.names_known, h.options_known, ?_⟩
    intro id' hasked
    rw [hid]
    by_cases hpos : 0 < chosen
    · rw [if_pos hpos, h.switched hpos id' hasked]
    · rw [if_neg hpos]
      by_cases hoptions : options = []
      · subst hoptions
        rw [hcurrent, switchedTo_asked hasked]
      · exact h.kept (by omega) hoptions id' hasked

/-- The options that are to reach the child. -/
def writtenPairs (options : List (Str × RunOption)) : List (Str × Str) :=
  (options.map (·.2)).filterMap RunOption.pair?

/-- The values of the options with a name. -/
def optionNames (name : Str) (options : List (Str × Str)) : List Str :=
  options.filterMap fun p => if strCaseEq p.1 name then some p.2 else none

/-- Every command that a run entry without a `capabilities` option executes has the uid and gid it
is to have if and only if every name in front of it and in its options is somebody's, no uid or gid
option overrides the account asked for, and where the number given is not positive the server has
that account already. -/
theorem privileges_dropped_iff {env : Env} {acc inside : Accounts} {start c : Creds}
    {setup : Str → Bool} {items rest : List Node} {vars v : Vars} {s t t' : ServerState}
    {visits : List Visit} {command cmd config : Str} {options : List (Str × RunOption)}
    {r : Except Halt (Option Vars)} {later past : List Event}
    (hreach : Reaches (env.withAccounts acc start) items vars s visits
      (.value (some "run".toList) (entryText command options) :: rest) v t)
    (hcommand : wordFrom (sepChar .space) none command = true) (hwritten : WrittenOptions options)
    (hcap : ∀ o ∈ options, ¬ o.2.IsCapabilities)
    (hrun : exec (runItem (env.withAccounts acc start) items
      (.value (some "run".toList) (entryText command options)) v) t = (r, t'))
    (hspawn : t'.history = later ++ .spawn cmd config :: past) (hpast : t.history <:+ past)
    (hchild : inside.processApplyConfig setup (acc.serverCreds start past) config = some c) :
    (Obeyed acc.getpwnam inside.getpwnam (namesOf "chuser".toList visits)
        (optionNames "User".toList (writtenPairs options)) c.uid ∧
      Obeyed acc.getgrnam inside.getgrnam (namesOf "chgrp".toList visits)
        (optionNames "Group".toList (writtenPairs options)) c.gid) ↔
    (Settled acc.getpwnam inside.getpwnam (namesOf "chuser".toList visits)
        (optionNames "User".toList (writtenPairs options))
        (idChosen inside.getpwnam "User".toList "UID".toList (writtenPairs options))
        (acc.serverCreds start t.history).uid ∧
      Settled acc.getgrnam inside.getgrnam (namesOf "chgrp".toList visits)
        (optionNames "Group".toList (writtenPairs options))
        (idChosen inside.getgrnam "Group".toList "GID".toList (writtenPairs options))
        (acc.serverCreds start t.history).gid) := by
  have hcommandRun : (exec (runCommand (env.withAccounts acc start) (entryText command options) v
      (some items)) t).2 = t' := by
    rw [← runItem_run, hrun]
  obtain ⟨hpastCreds, hconfig⟩ := @runCommand_spawns _ acc start _ _ _ _ _ hcommandRun _ _ _ _
    hspawn hpast
  have hcreds := hreach.creds
  unfold HasCreds at hcreds
  obtain ⟨huid, hgid⟩ := processApplyConfig_ids hchild
  have hpairs : configPairs config = writtenPairs options := by
    rw [hconfig]
    exact (configPairs_ownConfig hcommand hwritten hcap).1
  rw [hpairs, hpastCreds] at huid hgid
  rw [obeyed_iff (congrArg Creds.uid hcreds) huid, obeyed_iff (congrArg Creds.gid hcreds) hgid]

def nobodyAccounts : Accounts where
  getpwnam name := if name = "nobody".toList then some 65534 else none
  getgrnam _ := none
  setresuid _ _ := true
  setgid _ _ := true

def rootCreds : Creds := { uid := 0, gid := 0 }

def spawningEnv : Env := { quietEnv with spawn := fun _ _ _ => some [] }

def mountItems : List Node :=
  [.value (some "chuser".toList) "nobody".toList,
    .value (some "run".toList) (entryText "/bin/mount".toList mountOptions)]

def mountConfig : Str := "user='nobody' dir='/mnt/usb stick' ".toList

def ranQuietly (cmd config : Str) (past : List Event) : List Event :=
  [.send [], .send "OKAY: Command output follows\n".toList] ++ .spawn cmd config :: past

theorem privileges_dropped_iff_mount :
    Obeyed nobodyAccounts.getpwnam nobodyAccounts.getpwnam ["nobody".toList] ["nobody".toList]
        65534 ∧
      Obeyed nobodyAccounts.getgrnam nobodyAccounts.getgrnam [] [] 0 := by
  have hreach : Reaches (spawningEnv.withAccounts nobodyAccounts rootCreds) mountItems []
      { input := [] } [⟨.value (some "chuser".toList) "nobody".toList, []⟩]
      [.value (some "run".toList) (entryText "/bin/mount".toList mountOptions)] []
      { input := [], history := [.switchUser "nobody".toList] } := by
    refine @Reaches.next _ _ _ _ _ _ _ [] [] _ _ .start ?_
    decide +kernel
  have hrun : exec (runItem (spawningEnv.withAccounts nobodyAccounts rootCreds) mountItems
      (.value (some "run".toList) (entryText "/bin/mount".toList mountOptions)) [])
        { input := [], history := [.switchUser "nobody".toList] } =
      (.ok (some []), ServerState.mk []
        (ranQuietly "/bin/mount".toList mountConfig [.switchUser "nobody".toList]) false) := by
    decide +kernel
  have hchild : nobodyAccounts.processApplyConfig (fun _ => true)
      (nobodyAccounts.serverCreds rootCreds [.switchUser "nobody".toList]) mountConfig =
      some ⟨65534, 0⟩ := by
    decide +kernel
  refine (privileges_dropped_iff hreach (by decide +kernel) (by decide +kernel) (by decide +kernel)
    hrun rfl (List.suffix_refl _) hchild).mpr ?_
  constructor
  · refine ⟨by decide +kernel, by decide +kernel, ?_, ?_⟩
    · intro _ id' hasked
      have hid : asked nobodyAccounts.getpwnam nobodyAccounts.getpwnam ["nobody".toList]
        ["nobody".toList] = some 65534 := by decide +kernel
      rw [← Option.some.inj (hid.symm.trans hasked)]
      decide +kernel
    · intro hneg
      exact absurd hneg (by decide +kernel)
  · refine ⟨by decide +kernel, by decide +kernel, ?_, ?_⟩
    · intro hpos
      exact absurd hpos (by decide +kernel)
    · intro _ hne
      exact absurd (by decide +kernel) hne

def ghostItems : List Node :=
  [.value (some "chuser".toList) "ghost".toList,
    .value (some "run".toList) (entryText "/bin/id".toList [])]

theorem unknown_user_runs_as_root :
    ¬ ∀ (env : Env) (acc inside : Accounts) (start c : Creds) (setup : Str → Bool)
      (items rest : List Node) (vars v : Vars) (s t t' : ServerState) (visits : List Visit)
      (command cmd config : Str) (options : List (Str × RunOption))
      (r : Except Halt (Option Vars)) (later past : List Event),
      Reaches (env.withAccounts acc start) items vars s visits
        (.value (some "run".toList) (entryText command options) :: rest) v t →
      wordFrom (sepChar .space) none command = true → WrittenOptions options →
      exec (runItem (env.withAccounts acc start) items
        (.value (some "run".toList) (entryText command options)) v) t = (r, t') →
      t'.history = later ++ .spawn cmd config :: past → t.history <:+ past →
      inside.processApplyConfig setup (acc.serverCreds start past) config = some c →
      Obeyed acc.getpwnam inside.getpwnam (namesOf "chuser".toList visits)
          (optionNames "User".toList (writtenPairs options)) c.uid ∧
        Obeyed acc.getgrnam inside.getgrnam (namesOf "chgrp".toList visits)
          (optionNames "Group".toList (writtenPairs options)) c.gid := by
  intro h
  have hreach : Reaches (spawningEnv.withAccounts nobodyAccounts rootCreds) ghostItems []
      { input := [] } [⟨.value (some "chuser".toList) "ghost".toList, []⟩]
      [.value (some "run".toList) (entryText "/bin/id".toList [])] [] { input := [] } := by
    refine @Reaches.next _ _ _ _ _ _ _ [] [] _ _ .start ?_
    decide +kernel
  have hrun : exec (runItem (spawningEnv.withAccounts nobodyAccounts rootCreds) ghostItems
      (.value (some "run".toList) (entryText "/bin/id".toList [])) []) { input := [] } =
      (.ok (some []), { input := [], history := ranQuietly "/bin/id".toList [] [] }) := by
    decide +kernel
  have hobeyed := h _ nobodyAccounts nobodyAccounts rootCreds rootCreds (fun _ => true) _ _ _ _ _ _
    _ _ _ _ _ _ _ _ _ hreach (by decide +kernel) (by decide +kernel) hrun rfl (List.suffix_refl _)
    (by decide +kernel)
  exact hobeyed.1.names_known "ghost".toList (by decide +kernel) (by decide +kernel)

end Invocation
