import Invocation.Lib.Rewrite
import Invocation.Upload

/-!
# Book-in on the disk

The file-system calls behind the events of `BookinFileFromClient`, and what
they leave at the path: the previous file, or the announced bytes.
-/

namespace Invocation

set_option autoImplicit false

open Process Server

structure Attrs where
  mode : Nat
  uid : Nat
  gid : Nat
deriving DecidableEq

/-- What a new file gets, what the `Stat` of a call holds until it is filled, and what `chmod` and
`chown` make of the attributes of a file. -/
structure Kernel where
  created : Attrs
  unfilled : Attrs
  chmod : Attrs → Nat → Attrs
  chown : Attrs → Nat → Nat → Attrs

abbrev Disk := Files.Volume Str Char Attrs

abbrev FileCall := Files.Call Str Char Attrs

def Kernel.defaults (kernel : Kernel) : Files.Defaults Char Attrs :=
  { created := kernel.created, hole := '\x00' }

/-- How a stream passes on what is written to it: at once, or when it is closed. -/
structure Flushing where
  now : Str → List Str
  atClose : Str → List Str
  all : ∀ s, (now s).flatten ++ (atClose s).flatten = s

def Kernel.chmodCall (kernel : Kernel) (path : Str) : FileCall :=
  .change path fun found attrs => kernel.chmod attrs (found.getD kernel.unfilled).mode

def Kernel.chownCall (kernel : Kernel) (path : Str) : FileCall :=
  .change path fun found attrs =>
    kernel.chown attrs (found.getD kernel.unfilled).uid (found.getD kernel.unfilled).gid

section Calls

variable (kernel : Kernel) (flushing : Flushing)

def Event.calls : Event → List FileCall
  | .openWrite path => [.openWrite path, .truncate]
  | .writeFile _ content => (flushing.now content).map .write
  | .rename source target => [.stat target, .rename source target]
  | .restoreOwner path => [kernel.chmodCall path, kernel.chownCall path]
  | .unlink path => [.unlink path]
  | _ => []

/-- `STREAMClose` -/
def Event.closeCalls : Event → List FileCall
  | .writeFile _ content => (flushing.atClose content).map .write
  | _ => []

/-- The calls of a handler that opens one file and closes it at its end. -/
def fileCalls (events : List Event) : List FileCall :=
  events.flatMap (Event.calls kernel flushing) ++ events.flatMap (Event.closeCalls flushing)

end Calls

def eventsSince (past history : List Event) : List Event :=
  (history.take (history.length - past.length)).reverse

theorem eventsSince_append (new past : List Event) :
    eventsSince past (new ++ past) = new.reverse := by
  unfold eventsSince
  rw [List.length_append, Nat.add_sub_cancel, List.take_left]

/-- One call of `BookinFileFromClient`, with everything that the client will send. -/
structure Bookin where
  env : Env
  template : Str
  vars : Vars
  state : ServerState
  flushing : Flushing

namespace Bookin

variable (kernel : Kernel) (b : Bookin)

def reply : Str := (bookinAnswer b.state.input).1

def payload : Str := (bookinAnswer b.state.input).2

def Targets (path : Str) : Prop := substituteVarsInString b.vars false b.template = some path

def Opens (path : Str) : Prop := b.env.openWrite b.state.history (path ++ "+".toList) = true

def finalState : ServerState := (exec (bookinFileFromClient b.env b.template b.vars) b.state).2

def calls : List FileCall :=
  fileCalls kernel b.flushing (eventsSince b.state.history b.finalState.history)

/-- What the server takes for an upload of `size` bytes. -/
def taken (size : Nat) : Str := b.payload.take (sendLimit size)

variable {b} {path : Str}

theorem calls_closed (hpath : b.Targets path) (hopens : ¬ b.Opens path) : b.calls kernel = [] := by
  have hopens : b.env.openWrite b.state.history (path ++ "+".toList) = false := by
    simpa [Opens] using hopens
  unfold calls finalState
  rw [exec_bookin_closed hpath hopens]
  have hsince : eventsSince b.state.history b.state.history = [] := eventsSince_append [] _
  rw [hsince]
  rfl

theorem calls_opened (hpath : b.Targets path) (hopens : b.Opens path) :
    b.calls kernel = match announced b.reply with
      | none => [.openWrite (path ++ "+".toList), .truncate, .unlink (path ++ "+".toList)]
      | some size =>
        .openWrite (path ++ "+".toList) :: .truncate ::
          ((b.flushing.now (b.taken size)).map .write ++
            [.stat path, .rename (path ++ "+".toList) path, kernel.chmodCall path,
              kernel.chownCall path] ++
            (b.flushing.atClose (b.taken size)).map .write) := by
  have hanswer : bookinAnswer b.state.input = (b.reply, b.payload) := rfl
  unfold calls finalState
  rw [exec_bookin hpath hopens hanswer]
  cases announced b.reply with
  | none =>
    have hsince : eventsSince b.state.history
        (answeredBookin path none b.payload (askedBookin path b.state.history)) =
        [.openWrite (path ++ "+".toList),
          .send ("bookin ".toList ++ getBasename path ++ "\n".toList),
          .unlink (path ++ "+".toList)] :=
      eventsSince_append [_, _, _] _
    simp only [hsince]
    rfl
  | some size =>
    have hsince : eventsSince b.state.history
        (answeredBookin path (some size) b.payload (askedBookin path b.state.history)) =
        [.openWrite (path ++ "+".toList),
          .send ("bookin ".toList ++ getBasename path ++ "\n".toList),
          .writeFile (path ++ "+".toList) (b.taken size), .rename (path ++ "+".toList) path,
          .restoreOwner path] :=
      eventsSince_append [_, _, _, _, _] _
    simp only [hsince, fileCalls, List.flatMap_cons, List.flatMap_nil, Event.calls,
      Event.closeCalls, List.append_nil, List.nil_append, List.append_assoc, List.cons_append]

def finish (b : Bookin) (disk : Disk) : Disk :=
  (Files.Task.alone kernel.defaults (b.calls kernel).length disk { calls := b.calls kernel }).1

end Bookin

/-- What `chmod` and `chown` make of a file's attributes after a `stat` of the previous one. -/
def Kernel.restored (kernel : Kernel) (attrs : Attrs) (previous : Option Attrs) : Attrs :=
  kernel.chown (kernel.chmod attrs (previous.getD kernel.unfilled).mode)
    (previous.getD kernel.unfilled).uid (previous.getD kernel.unfilled).gid

/-- The attributes that the temporary file has when it is opened. -/
def Kernel.temporaryAttrs (kernel : Kernel) (disk : Disk) (path : Str) : Attrs :=
  ((disk.file (path ++ "+".toList)).map Files.Inode.attrs).getD kernel.created

section Disk

variable (kernel : Kernel) {disk : Disk} {path temporary : Str} {k : Nat}

open Files (Task Volume)

/-- Opening finds the file that was there or a new one; no other name is touched. -/
theorem open_temporary (hk : (disk.openWrite kernel.defaults temporary).2 = k)
    (hne : path ≠ temporary) :
    (disk.openWrite kernel.defaults temporary).1.names temporary = some k ∧
      ((disk.openWrite kernel.defaults temporary).1.inodes k).attrs =
        ((disk.file temporary).map Files.Inode.attrs).getD kernel.created ∧
      (disk.openWrite kernel.defaults temporary).1.names path = disk.names path ∧
      (disk.openWrite kernel.defaults temporary).1.file path = disk.file path ∧
      (disk.names path = some k → disk.names temporary = some k) := by
  have hother := @Volume.openWrite_other _ _ _ _ kernel.defaults _ _ hne disk
  cases hname : disk.names temporary with
  | some i =>
    unfold Volume.file
    rw [Volume.openWrite_some hname] at hk ⊢
    cases hk
    rw [hname]
    exact ⟨rfl, rfl, rfl, rfl, fun _ => rfl⟩
  | none =>
    obtain ⟨hnext, hnames, hinodes, _⟩ := Volume.openWrite_none kernel.defaults hname
    have hfresh : disk.file temporary = none := by
      unfold Volume.file
      rw [hname]
      rfl
    rw [hnext] at hk
    subst hk
    rw [hother, hfresh, hnames, hinodes, Function.update_of_ne hne, Function.update_self,
      Function.update_self]
    refine ⟨rfl, rfl, rfl, rfl, ?_⟩
    intro hpath
    exact absurd (disk.allocated path _ hpath) (Nat.lt_irrefl _)

/-- Renaming puts the file under its new name, also when it had that name before. -/
theorem rename_file (hk : disk.names temporary = some k) (hne : path ≠ temporary) :
    (disk.rename temporary path).names path = some k ∧
      (disk.rename temporary path).inodes = disk.inodes := by
  by_cases hsame : disk.names path = some k
  · rw [Volume.rename_same hk hsame]
    exact ⟨hsame, rfl⟩
  · obtain ⟨hnames, hinodes, _⟩ := Volume.rename_some hk hsame
    rw [hnames, Function.update_of_ne hne, Function.update_self]
    exact ⟨rfl, hinodes⟩

theorem finish_rename (hk : disk.names temporary = some k) (hne : path ≠ temporary)
    (late : List Str) :
    (Task.alone kernel.defaults (4 + (late.length + 0)) disk
        ⟨[.stat path, .rename temporary path, kernel.chmodCall path, kernel.chownCall path] ++
          (late.map .write ++ []), some ⟨k, (disk.inodes k).content.length⟩, none⟩).1.file path =
      some ⟨(disk.inodes k).content ++ late.flatten,
        kernel.restored (disk.inodes k).attrs ((disk.file path).map Files.Inode.attrs)⟩ := by
  have hstat : ∀ t : Task Str Char Attrs, t.found = none →
      (Files.Call.stat path).run kernel.defaults disk t =
        (disk, { t with found := (disk.file path).map Files.Inode.attrs }) := by
    intro t ht
    cases hfile : disk.file path with
    | none =>
      simp only [Files.Call.run, hfile]
      rw [Option.map_none, ← ht]
    | some file => simp only [Files.Call.run, hfile, Option.map_some]
  have hlength : 4 + (late.length + 0) = late.length + 0 + 1 + 1 + 1 + 1 := by omega
  obtain ⟨hname, hinodes⟩ := rename_file hk hne
  generalize (disk.file path).map Files.Inode.attrs = previous at *
  rw [hlength]
  simp only [List.cons_append, List.nil_append]
  rw [Task.alone_cons, hstat _ rfl, Task.alone_cons]
  simp only [Files.Call.run]
  generalize disk.rename temporary path = renamed at *
  rw [← hinodes]
  -- chmod and chown reach the file that the path names now
  rw [Task.alone_cons, Kernel.chmodCall]
  simp only [Files.Call.run]
  rw [Volume.change_some hname, Task.alone_cons, Kernel.chownCall]
  simp only [Files.Call.run]
  have hname' : (renamed.modify k fun file =>
      { file with attrs := kernel.chmod file.attrs (previous.getD kernel.unfilled).mode }).names
        path = some k := hname
  have hrestored : (renamed.modify k fun file =>
      { file with attrs := kernel.restored file.attrs previous }).inodes k =
      ⟨(renamed.inodes k).content, kernel.restored (renamed.inodes k).attrs previous⟩ :=
    Volume.modify_self ..
  have hrun := Task.alone_writes kernel.defaults late 0 (renamed.modify k fun file =>
      { file with attrs := kernel.restored file.attrs previous }) [] k previous
  rw [hrestored] at hrun
  rw [Volume.change_some hname', Volume.modify_modify]
  refine (congrArg (fun p => Volume.file p.1 path) hrun).trans ?_
  rw [Task.alone]
  unfold Volume.file
  rw [Volume.setContent_names, Volume.modify_names, hname, Option.map_some, Volume.setContent_self,
    hrestored]

end Disk

theorem path_ne_temporary (path : Str) : path ≠ path ++ "+".toList := by
  intro h
  have := congrArg List.length h
  simp at this

namespace Bookin

variable {kernel : Kernel} {b : Bookin} {disk : Disk} {path : Str}

open Files (Task Volume)

theorem finish_closed (hpath : b.Targets path) (hopens : ¬ b.Opens path) :
    b.finish kernel disk = disk := by
  unfold finish
  rw [calls_closed kernel hpath hopens]
  rfl

/-- A refusal unlinks the temporary name; a file with both names is empty then. -/
theorem finish_refused (hpath : b.Targets path) (hopens : b.Opens path)
    (hnone : announced b.reply = none) :
    (b.finish kernel disk).file path =
      if disk.names (path ++ "+".toList) = disk.names path then
        (disk.file path).map fun file => { file with content := [] }
      else disk.file path := by
  have hne := path_ne_temporary path
  unfold finish
  rw [calls_opened kernel hpath hopens, hnone]
  simp only [List.length_cons, List.length_nil]
  rw [Task.alone_open, Task.alone_cons, Task.alone]
  generalize hk : (disk.openWrite kernel.defaults (path ++ "+".toList)).2 = k
  obtain ⟨hname, _, hpathname, hfile, halias⟩ := open_temporary kernel hk hne
  generalize hopened : (disk.openWrite kernel.defaults (path ++ "+".toList)).1 = opened at *
  have hunlink : ∀ vol : Disk, (vol.unlink (path ++ "+".toList)).file path = vol.file path := by
    intro vol
    unfold Volume.file Volume.unlink
    simp only
    rw [Function.update_of_ne hne]
  simp only [Files.Call.run]
  rw [hunlink, ← hfile]
  unfold Volume.file
  rw [Volume.setContent_names, hpathname]
  cases hdisk : disk.names path with
  | none =>
    simp only [Option.map_none, ite_self]
  | some i =>
    by_cases hsame : i = k
    · subst hsame
      rw [if_pos (halias hdisk)]
      simp only [Option.map_some, Volume.setContent_self]
    · have hother : disk.names (path ++ "+".toList) ≠ some i := by
        intro htemporary
        rw [Volume.openWrite_some htemporary] at hk
        exact hsame hk
      rw [if_neg hother]
      unfold Volume.setContent
      rw [Option.map_some, Option.map_some, Volume.modify_other _ hsame]

/-- An upload puts what was taken, with attributes restored as far as they were known. -/
theorem finish_accepted (hpath : b.Targets path) (hopens : b.Opens path) {size : Nat}
    (hsize : announced b.reply = some size) :
    (b.finish kernel disk).file path =
      some ⟨b.taken size, kernel.restored (kernel.temporaryAttrs disk path)
        ((disk.file path).map Files.Inode.attrs)⟩ := by
  have hne := path_ne_temporary path
  have hcontent := b.flushing.all (b.taken size)
  have hcalls := calls_opened kernel hpath hopens
  rw [hsize] at hcalls
  simp only at hcalls
  unfold finish
  rw [hcalls]
  clear hcalls
  generalize b.flushing.now (b.taken size) = early at *
  generalize b.flushing.atClose (b.taken size) = late at *
  have hlength : (Files.Call.openWrite (path ++ "+".toList) :: Files.Call.truncate ::
          (early.map Files.Call.write ++
            [.stat path, .rename (path ++ "+".toList) path, kernel.chmodCall path,
              kernel.chownCall path] ++ late.map Files.Call.write)).length =
      early.length + (4 + (late.length + 0)) + 1 + 1 := by
    simp only [List.length_cons, List.length_append, List.length_map, List.length_nil]
    omega
  rw [hlength, Task.alone_open]
  generalize hk : (disk.openWrite kernel.defaults (path ++ "+".toList)).2 = k
  obtain ⟨hname, hattrs, _, hfile, _⟩ := open_temporary kernel hk hne
  generalize (disk.openWrite kernel.defaults (path ++ "+".toList)).1 = opened at *
  have hrun := Task.alone_writes kernel.defaults early (4 + (late.length + 0))
    (opened.setContent k []) ([.stat path, .rename (path ++ "+".toList) path,
      kernel.chmodCall path, kernel.chownCall path] ++ (late.map Files.Call.write ++ [])) k none
  rw [Volume.setContent_self, Volume.setContent_setContent] at hrun
  have hrename := @finish_rename kernel (opened.setContent k ([] ++ early.flatten)) path
    (path ++ "+".toList) k hname hne late
  rw [Volume.setContent_self, Volume.setContent_attrs, hfile, hattrs] at hrename
  have hlist : early.map Files.Call.write ++
        [.stat path, .rename (path ++ "+".toList) path, kernel.chmodCall path,
          kernel.chownCall path] ++ late.map Files.Call.write =
      early.map Files.Call.write ++
        ([.stat path, .rename (path ++ "+".toList) path, kernel.chmodCall path,
          kernel.chownCall path] ++ (late.map Files.Call.write ++ [])) := by
    rw [List.append_nil, List.append_assoc]
  rw [← hcontent, hlist]
  exact (congrArg (fun p => Volume.file p.1 path) hrun).trans hrename

end Bookin

/-! ## All or nothing -/

/-- A reply `bookin <size> <name>`, as one line. -/
def WellFormed (reply : Str) (n : Nat) : Prop :=
  ∃ digits name, digits ≠ [] ∧ (∀ c ∈ digits, c.isDigit = true) ∧
    Nat.ofDigitChars 10 digits 0 = n ∧ name ≠ [] ∧ '\n' ∉ name ∧
    reply = "bookin ".toList ++ (digits ++ ' ' :: (name ++ "\n".toList))

theorem WellFormed.announced {reply : Str} {n : Nat} (h : WellFormed reply n) :
    announced reply = some (min n (2 ^ 63 - 1)) := by
  obtain ⟨digits, name, hne, hdigits, hn, _, _, rfl⟩ := h
  rw [announced_message, sizeValue, strtoll_digits hne hdigits (noDigit_cons (by decide) _), hn]
  congr 1
  omega

theorem WellFormed.unique {reply : Str} {n m : Nat} (hn : WellFormed reply n)
    (hm : WellFormed reply m) : n = m := by
  have hread : ∀ {k}, WellFormed reply k → k = leadingNat (reply.drop "bookin ".toList.length) := by
    rintro k ⟨digits, name, _, hdigits, hk, _, _, rfl⟩
    rw [List.drop_left, leadingNat_append hdigits (noDigit_cons (by decide) _), hk]
  rw [hread hn, hread hm]

namespace Bookin

open Files (Inode)

/-- The file at the path is as before, or it is the announced upload with the attributes of the
previous file. -/
def AllOrNothing (b : Bookin) (before after : Option (Inode Char Attrs)) : Prop :=
  after = before ∨ ∃ old n, before = some old ∧ WellFormed b.reply n ∧ n ≤ b.payload.length ∧
    after = some ⟨b.payload.take n, old.attrs⟩

/-- The upload is refused, or a previous file gets its attributes back and is replaced by a whole
upload (or by what it already held). -/
def Settled (kernel : Kernel) (b : Bookin) (disk : Disk) (path : Str) : Prop :=
  match announced b.reply with
  | none => disk.names (path ++ "+".toList) = disk.names path →
    ∀ old, disk.file path = some old → old.content = []
  | some size => ∃ old, disk.file path = some old ∧
    kernel.restored (kernel.temporaryAttrs disk path) (some old.attrs) = old.attrs ∧
      (b.taken size = old.content ∨
        ∃ n, WellFormed b.reply n ∧ n < 2 ^ 63 ∧ n ≤ b.payload.length)

variable {kernel : Kernel} {b : Bookin} {disk : Disk} {path : Str}

theorem taken_wellFormed {n : Nat} (h : WellFormed b.reply n) (hn : n < 2 ^ 63) :
    Invocation.announced b.reply = some n ∧ b.taken n = b.payload.take n := by
  rw [h.announced]
  unfold taken sendLimit
  rw [if_pos hn]
  exact ⟨congrArg some (by omega), rfl⟩

theorem all_or_nothing_refused (hpath : b.Targets path) (hopens : b.Opens path)
    (hnone : announced b.reply = none) :
    b.AllOrNothing (disk.file path) ((b.finish kernel disk).file path) ↔
      b.Settled kernel disk path := by
  have hreply : ∀ n, ¬ WellFormed b.reply n := by
    intro n hn
    rw [hn.announced] at hnone
    cases hnone
  have hafter : b.AllOrNothing (disk.file path) ((b.finish kernel disk).file path) ↔
      (b.finish kernel disk).file path = disk.file path := by
    constructor
    · rintro (h | ⟨_, n, _, hn, _⟩)
      · exact h
      · exact absurd hn (hreply n)
    · exact Or.inl
  rw [hafter, finish_refused hpath hopens hnone, Settled, hnone]
  by_cases hsame : disk.names (path ++ "+".toList) = disk.names path
  · rw [if_pos hsame]
    simp only [hsame, forall_true_left]
    cases disk.file path with
    | none => simp
    | some file =>
      cases file with
      | mk content attrs => simp [eq_comm]
  · rw [if_neg hsame]
    exact iff_of_true rfl fun h => absurd h hsame

theorem all_or_nothing_accepted (hpath : b.Targets path) (hopens : b.Opens path) {size : Nat}
    (hsize : announced b.reply = some size) :
    b.AllOrNothing (disk.file path) ((b.finish kernel disk).file path) ↔
      b.Settled kernel disk path := by
  rw [AllOrNothing, finish_accepted hpath hopens hsize, Settled, hsize]
  constructor
  · rintro (h | ⟨old, n, hold, hn, hlength, hafter⟩)
    · cases hold : disk.file path with
      | none =>
        rw [hold] at h
        cases h
      | some old =>
        rw [hold, Option.map_some, Option.some.injEq] at h
        exact ⟨old, rfl, congrArg Inode.attrs h, Or.inl (congrArg Inode.content h)⟩
    · rw [hold, Option.map_some, Option.some.injEq, Inode.mk.injEq] at hafter
      obtain ⟨htaken, hattrs⟩ := hafter
      refine ⟨old, hold, hattrs, Or.inr ⟨n, hn, ?_, hlength⟩⟩
      rw [hn.announced] at hsize
      cases hsize
      have hcount := congrArg List.length htaken
      unfold taken sendLimit at hcount
      rw [if_pos (by omega), List.length_take, List.length_take] at hcount
      omega
  · rintro ⟨old, hold, hattrs, htaken | ⟨n, hn, hlt, hlength⟩⟩
    · left
      rw [hold, Option.map_some, hattrs, htaken]
    · right
      obtain ⟨hannounced, htaken⟩ := taken_wellFormed hn hlt
      rw [hsize] at hannounced
      cases hannounced
      exact ⟨old, size, hold, hn, hlength, by rw [hold, Option.map_some, hattrs, htaken]⟩

end Bookin

/-- A book-in is all or nothing exactly when the temporary file cannot be opened, the upload is
refused, or the reply is well formed, all of the upload arrives, and a previous file gets its
attributes back. -/
theorem bookin_all_or_nothing_iff (kernel : Kernel) (b : Bookin) (disk : Disk) {path : Str}
    (hpath : b.Targets path) :
    b.AllOrNothing (disk.file path) ((b.finish kernel disk).file path) ↔
      ¬ b.Opens path ∨ b.Settled kernel disk path := by
  by_cases hopens : b.Opens path
  · rw [or_iff_right (not_not.mpr hopens)]
    cases hannounced : announced b.reply with
    | none => exact b.all_or_nothing_refused hpath hopens hannounced
    | some size => exact b.all_or_nothing_accepted hpath hopens hannounced
  · rw [Bookin.finish_closed hpath hopens]
    exact iff_of_true (Or.inl rfl) (Or.inl hopens)

def rootKernel : Kernel where
  created := { mode := 0o600, uid := 0, gid := 0 }
  unfilled := { mode := 0, uid := 0, gid := 0 }
  chmod attrs mode := { attrs with mode := mode }
  chown attrs uid gid := { attrs with uid := uid, gid := gid }

def diskWith (path content : Str) (attrs : Attrs) : Disk where
  names := fun name => if name = path then some 0 else none
  inodes := fun _ => ⟨content, attrs⟩
  next := 1
  allocated := by
    intro name i hi
    by_cases hname : name = path
    · rw [if_pos hname] at hi
      cases hi
      exact Nat.zero_lt_one
    · rw [if_neg hname] at hi
      cases hi

def flushAtOnce : Flushing where
  now := fun s => [s]
  atClose := fun _ => []
  all := fun s => by rw [List.flatten_singleton, List.flatten_nil, List.append_nil]

def motdBookin (input : Str) : Bookin where
  env := openingEnv
  template := "/etc/motd".toList
  vars := []
  state := { input := input }
  flushing := flushAtOnce

def motdDisk : Disk :=
  diskWith "/etc/motd".toList "old".toList { mode := 0o644, uid := 0, gid := 0 }

theorem bookin_all_or_nothing_iff_whole :
    (motdBookin "bookin 5 motd\nhello".toList).AllOrNothing (motdDisk.file "/etc/motd".toList)
      (((motdBookin "bookin 5 motd\nhello".toList).finish rootKernel motdDisk).file
        "/etc/motd".toList) := by
  have hpath : (motdBookin "bookin 5 motd\nhello".toList).Targets "/etc/motd".toList := by
    unfold Bookin.Targets
    decide +kernel
  have hannounced : announced (motdBookin "bookin 5 motd\nhello".toList).reply = some 5 := by
    decide +kernel
  have hform : WellFormed (motdBookin "bookin 5 motd\nhello".toList).reply 5 :=
    ⟨"5".toList, "motd".toList, by decide, by decide, by decide, by decide, by decide,
      by decide +kernel⟩
  apply (bookin_all_or_nothing_iff rootKernel _ motdDisk hpath).mpr
  right
  unfold Bookin.Settled
  rw [hannounced]
  exact ⟨⟨"old".toList, { mode := 0o644, uid := 0, gid := 0 }⟩, by decide +kernel,
    by decide +kernel, Or.inr ⟨5, hform, by decide, by decide +kernel⟩⟩

/-- An upload that breaks off replaces the file with what has arrived. -/
theorem bookin_truncates :
    ¬ ∀ (b : Bookin) (path : Str), b.Targets path →
      b.AllOrNothing (motdDisk.file path) ((b.finish rootKernel motdDisk).file path) := by
  intro h
  have hpath : (motdBookin "bookin 5 motd\nhe".toList).Targets "/etc/motd".toList := by
    unfold Bookin.Targets
    decide +kernel
  have hlength : (motdBookin "bookin 5 motd\nhe".toList).payload.length = 2 := by decide +kernel
  rcases h _ _ hpath with hkept | ⟨_, n, _, hn, hle, _⟩
  · exact absurd hkept (by decide +kernel)
  · have hannounced : announced (motdBookin "bookin 5 motd\nhe".toList).reply = some 5 := by
      decide +kernel
    rw [hn.announced] at hannounced
    have hmin := Option.some.inj hannounced
    omega

end Invocation
