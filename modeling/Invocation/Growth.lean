import Invocation.SectionLoop
import Invocation.ServerSafety

/-!
# Histories only grow

Nothing the server does takes an event back, however its requests nest.
-/

namespace Invocation

set_option autoImplicit false

open Process Server

/-- The history ends in these events. -/
def Behind (past : List Event) (s : ServerState) : Prop := past <:+ s.history

/-- The process adds events to the history and takes none away, also where it stops. -/
def Grows {α : Type} (m : Server α) : Prop :=
  ∀ past, Triple (Behind past) m (fun _ => Behind past) (fun _ => Behind past)

theorem stable_behind (past : List Event) : Stable (Behind past) where
  emit := fun _ e _ hs => hs.trans (List.suffix_cons e _)
  input := fun _ _ _ hs => hs

theorem Grows.suffix {α : Type} {m : Server α} (h : Grows m) (s : ServerState) :
    s.history <:+ (exec m s).2.history := by
  have hm := h s.history s (List.suffix_refl _)
  cases hres : exec m s with
  | mk r s' =>
    rw [hres] at hm
    cases r with
    | ok a => exact hm
    | error e => exact hm

namespace Grows

variable {α β : Type}

theorem of_keeps {m : Server α}
    (h : ∀ past, Triple (Behind past) m (fun _ => Behind past)
      (fun e s => e ≠ .outOfFuel ∧ Behind past s)) : Grows m :=
  fun past => (h past).mono (fun _ hs => hs) (fun _ _ hs => hs) fun _ _ hs => hs.2

theorem of_quietly {m : Server α} (h : Quietly m) : Grows m :=
  of_keeps fun past => h _ (stable_behind past)

theorem bind {x : Server α} {f : α → Server β} (hx : Grows x) (hf : ∀ a, Grows (f a)) :
    Grows (x >>= f) := fun past => Triple.bind (hx past) fun a => hf a past

/-- Where a process stops or goes on, what it has added stays. -/
theorem suffix_bind {x : Server α} {f : α → Server β} (hf : ∀ a, Grows (f a)) (s : ServerState) :
    (exec x s).2.history <:+ (exec (x >>= f) s).2.history := by
  rw [exec_bind]
  cases exec x s with
  | mk r s' =>
    cases r with
    | ok a => exact (hf a).suffix s'
    | error e => exact List.suffix_refl _

theorem pure (a : α) : Grows (Pure.pure a : Server α) := fun _ _ hs => hs

theorem stop (e : Halt) : Grows (Process.stop e : Server α) := fun _ _ hs => hs

theorem observe (f : List Event → α) : Grows (Server.observe f) := fun _ _ hs => hs

theorem need (o : Option α) : Grows (Server.need o) := of_quietly (Quietly.need o)

theorem emit (e : Event) : Grows (Server.emit e) := fun _ _ hs => hs.trans (List.suffix_cons e _)

theorem ite {c : Prop} [Decidable c] {x y : Server α} (hx : Grows x) (hy : Grows y) :
    Grows (if c then x else y) := fun past => Triple.ite (fun _ => hx past) fun _ => hy past

end Grows

section Sections

variable {env : Env}

theorem runCommand_grows (text : Str) (vars : Vars) (section? : Option (List Node)) :
    Grows (runCommand env text vars section?) :=
  Grows.of_keeps fun past => runCommand_keeps (stable_behind past)
    (fun _ _ hs _ => hs.trans (List.suffix_cons _ _)) section?

theorem runItem_grows (items : List Node) (item : Node) (vars : Vars) :
    Grows (runItem env items item vars) := by
  have hon {m : Server PUnit} (hm : Grows m) : Grows (m >>= fun _ => pure (some vars)) :=
    hm.bind fun _ => .pure _
  have hswitch (e : Event) (f : List Event → SwitchResult) :
      Grows (observe f >>= fun result => switchTo result e >>= fun _ => pure (some vars)) :=
    (Grows.observe f).bind fun result => hon (Grows.of_keeps fun past =>
      switchTo_keeps (fun _ hs => hs.trans (List.suffix_cons e _)) result)
  cases item with
  | block tag sub => exact .pure _
  | value tag text =>
    apply (Grows.need tag).bind
    intro tag
    refine .ite ?_ (.ite (hswitch _ _) (.ite (hswitch _ _) (.ite (hon ?_) (.ite (hon ?_)
      (.ite (hon (.emit _)) (.ite (hon (runCommand_grows _ _ _)) (.pure _)))))))
    · apply Grows.bind
      · intro past
        exact (checkRequirement_limits env (stable_behind past) text vars).mono (fun _ hs => hs)
          (fun _ _ hs => hs.2) fun _ _ hs => hs.2
      · exact fun p => .pure _
    · exact Grows.of_keeps fun past => bookout_keeps env (stable_behind past)
        fun _ _ hs _ => hs.trans (List.suffix_cons _ _)
    · exact Grows.of_keeps fun past => bookin_keeps env (stable_behind past)
        fun _ _ hs _ => hs.trans (List.suffix_cons _ _)

theorem runItems_grows (items rest : List Node) (vars : Vars) :
    Grows (runItems env items rest vars) := by
  induction rest generalizing vars with
  | nil => exact .pure _
  | cons item rest ih =>
    rw [runItems_cons]
    apply (runItem_grows items item vars).bind
    intro result
    cases result with
    | none => exact .pure _
    | some vars => exact ih vars

theorem runInvokeIn_grows (command : Str) (vars : Vars) (sections : List Node) :
    Grows (runInvokeIn env command vars sections) := by
  induction sections with
  | nil => exact .pure _
  | cons node sections ih =>
    apply (Grows.need node.tag).bind
    intro tag
    refine .ite ?_ ih
    apply (Grows.need node.items?).bind
    intro items
    exact (Grows.emit _).bind fun _ => runItems_grows items items vars

end Sections

section Requests

variable {env : Env} {checkAuth : Str → Server Bool}

theorem checkRules_grows (hauth : ∀ types, Grows (checkAuth types)) (peer : Peer)
    (rules : List Node) (result : Bool) : Grows (checkRules peer checkAuth rules result) := by
  induction rules generalizing result with
  | nil => exact .pure _
  | cons node rules ih =>
    apply (Grows.need node.tag).bind
    intro tag
    cases ruleIdentity peer tag with
    | some identity =>
      apply (Grows.need node.text?).bind
      intro text
      exact .ite (ih true) (.pure _)
    | none =>
      refine .ite ?_ (ih result)
      apply (Grows.need node.text?).bind
      intro text
      apply (hauth text).bind
      intro passed
      exact .ite (ih true) (.pure _)

theorem grantCheck_grows (env : Env) (command : Str) : Grows (grantCheck env command) :=
  (Grows.observe _).bind fun result => (Grows.need result).bind fun _ =>
    (Grows.emit _).bind fun _ => .pure _

theorem checkPermission_grows (hauth : ∀ types, Grows (checkAuth types)) (command : Str)
    (rules : Option (List Node)) : Grows (checkPermission env checkAuth command rules) := by
  apply (grantCheck_grows env command).bind
  intro granted
  refine .ite (.pure _) ?_
  apply (Grows.need rules).bind
  intro rules
  exact checkRules_grows hauth env.peer rules false

theorem findPermission_grows (hauth : ∀ types, Grows (checkAuth types)) (command : Str) :
    Grows (findPermission env checkAuth command) := by
  have hsections (sections : List Node) :
      Grows (findPermissionIn env checkAuth command sections) := by
    induction sections with
    | nil => exact .pure _
    | cons node sections ih =>
      apply (Grows.need node.tag).bind
      intro tag
      exact .ite (checkPermission_grows hauth command node.items?) ih
  apply (hsections env.config).bind
  intro allowed
  exact (Grows.emit _).bind fun _ => .pure _

theorem handleClientAuth_grows (details types : Str) :
    Grows (handleClientAuth env details types) := by
  have hset : Grows (Process.update fun s => { s with authenticated := true }) :=
    fun _ _ hs => hs
  apply (Grows.observe _).bind
  intro result
  apply (Grows.emit _).bind
  intro _
  exact .ite (hset.bind fun _ => .emit _) (.emit _)

theorem handleRequestWith_grows (hauth : ∀ types, Grows (checkAuth types)) (types : Str) :
    Grows (handleRequestWith env checkAuth types) := by
  have hmore {m : Server PUnit} (hm : Grows m) : Grows (m >>= fun _ => pure true) :=
    hm.bind fun _ => .pure _
  apply (Grows.of_quietly Quietly.readClientLine).bind
  intro read
  refine .ite (.pure _) ?_
  apply (Grows.emit _).bind
  intro _
  refine .ite (hmore (handleClientAuth_grows _ types)) (.ite (hmore ?_) (.ite (hmore ?_) (.pure _)))
  · apply (findPermission_grows hauth _).bind
    intro allowed
    exact .ite ((Grows.emit _).bind fun _ => runCommand_grows _ _ _) (.emit _)
  · apply (findPermission_grows hauth _).bind
    intro allowed
    exact .ite (runInvokeIn_grows _ _ _) (.emit _)

theorem requestLoop_grows {handle : Server Bool} (hhandle : Grows handle) (fuel : Nat) :
    Grows (requestLoop handle fuel) := by
  induction fuel with
  | zero => exact .stop _
  | succ fuel ih => exact hhandle.bind fun more => .ite ih (.pure _)

theorem isAuthenticated_grows : Grows isAuthenticated := fun _ _ hs => hs

theorem checkAuthWith_grows {handle : Str → Server Bool} (hhandle : ∀ types, Grows (handle types))
    (fuel : Nat) (types : Str) : Grows (checkAuthWith handle fuel types) := by
  apply isAuthenticated_grows.bind
  intro already
  refine .ite (.pure _) ?_
  apply (Grows.emit _).bind
  intro _
  apply (Grows.emit _).bind
  intro _
  exact (requestLoop_grows (hhandle types) fuel).bind fun _ => isAuthenticated_grows

/-- `HandleClientRequest` only adds to the history, with however little fuel. -/
theorem handleClientRequest_grows (env : Env) (fuel : Nat) (types : Str) :
    Grows (handleClientRequest env fuel types) := by
  induction fuel generalizing types with
  | zero => exact .stop _
  | succ fuel ih => exact handleRequestWith_grows (checkAuthWith_grows ih _) types

end Requests

end Invocation
