import Invocation.FailedAdd
import Invocation.Lib.Readers

/-!
# Checks during grants

`invoked` looks up a permission while `grant` rewrites the database. It opens
the file once and reads it in pieces, so its verdict is the one on the version
that was in place when it opened it.
-/

namespace Invocation

set_option autoImplicit false

open Files (Plan System Task Exclusive Reader Shared Move)

/-! ## Versions of the database -/

/-- The databases that some of the calls make of the first one, each on what another has left. -/
inductive Version {ι : Type} (calls : ι → AddCall) (before : Option Str) : Option Str → Prop
  | first : Version calls before before
  | added (i : ι) {db : Option Str} : Version calls before db →
      Version calls before ((calls i).run db)

/-- Every task has not read the file yet, or rewrites a version that it has read. -/
structure Rewriting {ι : Type} (flushing : ι → Flushing) (calls : ι → AddCall) (before : Option Str)
    (plan : ι → Option (Plan Str Char Attrs)) (phase : ι → Files.Phase)
    (s : System ι Str Char Attrs) : Prop where
  exclusive : Exclusive (appDBPath ++ "+".toList) appDBPath before plan phase s
  unread : ∀ i, plan i = none → (s.tasks i).calls = (calls i).calls (flushing i)
  rewrites : ∀ i p, plan i = some p → ∃ db, Version calls before db ∧
    ((calls i).files.stat (calls i).appPath).isSome ∧ p = (calls i).afterRead (flushing i) db

section Step

variable {ι : Type} {kernel : Kernel} {flushing : ι → Flushing} {calls : ι → AddCall}
  {before : Option Str} {plan : ι → Option (Plan Str Char Attrs)} {phase : ι → Files.Phase}
  {s : System ι Str Char Attrs} {i : ι}

theorem Rewriting.silent (h : Rewriting flushing calls before plan phase s)
    {p : Plan Str Char Attrs} (hplan : plan i = some p) : p.late = [] := by
  obtain ⟨db, -, -, rfl⟩ := h.rewrites i p hplan
  rfl

/-- What is in place is always a version. -/
theorem Rewriting.version (h : Rewriting flushing calls before plan phase s) :
    Version calls before (s.volume.content appDBPath) := by
  rcases h.exclusive.named.outcome with ⟨j, p, k, hplan, -, hphase, hname⟩ | ⟨-, hkept, -⟩
  · obtain ⟨db, hversion, hstat, hp⟩ := h.rewrites j p hplan
    have hlate := h.silent hplan
    have hstage := h.exclusive.separate.stage j p hplan
    rw [hphase] at hstage
    cases hstage with
    | @released _ past rest hsplit _ _ hcontent =>
      have hpast : past = [] := by
        rw [hlate] at hsplit
        exact (List.append_eq_nil_iff.mp hsplit.symm).1
      have hwhole : p.whole = (s.volume.inodes k).content := by
        rw [hcontent, hpast, Plan.whole, hlate]
      have hafter : s.volume.content appDBPath = (calls j).run db := by
        rw [← AddCall.whole_afterRead (flushing j) hstat db, ← hp, hwhole]
        unfold Files.Volume.content Files.Volume.file
        rw [hname]
        rfl
      rw [hafter]
      exact .added j hversion
  · rw [hkept]
    exact .first

theorem Rewriting.start {disk : Disk}
    (hstale : ∀ k, disk.names (appDBPath ++ "+".toList) = some k → disk.names appDBPath ≠ some k)
    (flushing : ι → Flushing) (calls : ι → AddCall) :
    ∃ plan phase, Rewriting flushing calls (disk.content appDBPath) plan phase
      (adds disk flushing calls) := by
  refine ⟨fun _ => none, fun _ => .ready, ?_, fun _ _ => rfl, nofun⟩
  exact Exclusive.start hstale nofun fun _ _ => rfl

variable [DecidableEq ι]

/-- The file is read. -/
theorem Rewriting.read (h : Rewriting flushing calls before plan phase s) (hplan : plan i = none)
    (hstat : ((calls i).files.stat (calls i).appPath).isSome) :
    (s.step kernel.defaults i).volume = s.volume ∧
      ∃ plan, Rewriting flushing calls before plan phase (s.step kernel.defaults i) := by
  have hcalls := (h.unread i hplan).trans (calls_stattable (flushing i) hstat)
  generalize hp : (calls i).afterRead (flushing i) (s.volume.content appDBPath) = p at *
  obtain ⟨t, ht, hstep⟩ : ∃ t : Task Str Char Attrs,
      t.calls = p.calls (appDBPath ++ "+".toList) appDBPath ∧
        s.step kernel.defaults i = { s with tasks := Function.update s.tasks i t } := by
    refine ⟨⟨p.calls (appDBPath ++ "+".toList) appDBPath, (s.tasks i).descriptor,
      (s.tasks i).found⟩, rfl, ?_⟩
    rw [Files.step_cons hcalls]
    simp only [Files.Call.run, List.append_nil, hp]
  rw [hstep]
  refine ⟨rfl, Function.update plan i (some p), h.exclusive.assign hplan ht, ?_, ?_⟩
  · intro j hj
    have hji : j ≠ i := by
      rintro rfl
      rw [Function.update_self] at hj
      cases hj
    rw [Function.update_of_ne hji] at hj
    show (Function.update s.tasks i t j).calls = _
    rw [Function.update_of_ne hji]
    exact h.unread j hj
  · intro j q hj
    by_cases hji : j = i
    · subst hji
      rw [Function.update_self] at hj
      cases hj
      exact ⟨_, h.version, hstat, hp.symm⟩
    · rw [Function.update_of_ne hji] at hj
      exact h.rewrites j q hj

theorem Rewriting.step (h : Rewriting flushing calls before plan phase s)
    (hturn : Files.Turn (appDBPath ++ "+".toList) s i) :
    (∃ plan phase, Rewriting flushing calls before plan phase (s.step kernel.defaults i)) ∧
      Files.Undisturbed (appDBPath ++ "+".toList) True s.volume
        (s.step kernel.defaults i).volume := by
  cases hplan : plan i with
  | none =>
    by_cases hstat : ((calls i).files.stat (calls i).appPath).isSome
    · obtain ⟨hvolume, plan, hnext⟩ := @Rewriting.read _ kernel _ _ _ _ _ _ _ _ h hplan hstat
      refine ⟨⟨plan, phase, hnext⟩, ?_⟩
      rw [hvolume]
      exact .refl s.volume
    · have hnone : (calls i).files.stat (calls i).appPath = none :=
        Option.not_isSome_iff_eq_none.mp hstat
      have hcalls : (s.tasks i).calls = [] := by
        rw [h.unread i hplan, AddCall.calls, hnone]
      rw [Files.step_nil hcalls]
      exact ⟨⟨plan, phase, h⟩, .refl s.volume⟩
  | some p =>
    have hidle : plan i = none → (s.tasks i).calls = [] := by
      rw [hplan]
      exact nofun
    obtain ⟨phase', hexclusive⟩ : ∃ phase', Exclusive (appDBPath ++ "+".toList) appDBPath before
        plan phase' (s.step kernel.defaults i) :=
      h.exclusive.step (Ne.symm (path_ne_temporary appDBPath)) hturn hidle
    refine ⟨⟨plan, phase', hexclusive, ?_, h.rewrites⟩, ?_⟩
    · intro j hj
      have hji : j ≠ i := by
        rintro rfl
        rw [hplan] at hj
        cases hj
      rw [Files.step_other hji]
      exact h.unread j hj
    · apply h.exclusive.undisturbed hplan
      intro _
      rw [h.silent hplan]
      rfl

end Step

/-! ## Checks -/

/-- What `AppDBCheck` is asked, and what it finds outside of the database. -/
structure CheckCall where
  files : FileView
  grant : Str
  appPath : Str

def CheckCall.run (check : CheckCall) (db : Option Str) : Option Bool :=
  appDBCheck check.files db check.grant check.appPath

/-- `AppDBCheck` goes through the lines as they come and stops at the first one that decides. -/
def CheckCall.outcome (check : CheckCall) : Reader Char → Option (Option Bool)
  | .waiting => none
  | .absent => some (check.run none)
  | .reading _ got =>
    let found := check.run (some (got.rdropWhile (· ≠ '\n')))
    if found = some false then none else some found
  | .done got => some (check.run (some got))

theorem readLines_append (s rest : Str) :
    readLines (s ++ '\n' :: rest) = readLines (s ++ ['\n']) ++ readLines rest := by
  induction hn : s.length using Nat.strongRecOn generalizing s with
  | ind n ih =>
    by_cases hmem : '\n' ∈ s
    · obtain ⟨line, more, rfl, hline⟩ := List.eq_append_cons_of_mem hmem
      have hshorter := ih more.length (by simp at hn; omega) more rfl
      have hfirst := fun text => readLine_line hline text
      rw [List.append_assoc, List.cons_append, List.append_assoc, List.cons_append, readLines,
        readLines, Scan.unfold_some readLine_shrinks (hfirst (more ++ '\n' :: rest)),
        Scan.unfold_some readLine_shrinks (hfirst (more ++ ['\n'])), List.cons_append]
      exact congrArg _ hshorter
    · have hfirst := fun text => readLine_line hmem text
      have hnil : readLine [] = none := rfl
      rw [readLines, readLines, Scan.unfold_some readLine_shrinks (hfirst rest),
        Scan.unfold_some readLine_shrinks (hfirst []), Scan.unfold_none hnil]
      rfl

theorem appDBCheckLines_stops {grant appPath : Str} {stat : FileStat} {hash : Option Digest}
    {lines : List Str} (h : appDBCheckLines grant appPath stat hash lines ≠ some false)
    (more : List Str) : appDBCheckLines grant appPath stat hash (lines ++ more) =
      appDBCheckLines grant appPath stat hash lines := by
  induction lines with
  | nil => exact absurd rfl h
  | cons line lines ih =>
    rw [List.cons_append]
    unfold appDBCheckLines at h ⊢
    cases hentry : appDBParseEntry (stripLeadingWhitespace (stripTrailingWhitespace line)) with
    | none => rfl
    | some entry =>
      simp only [hentry] at h ⊢
      cases hcheck : appDBCheckEntry entry grant appPath stat hash with
      | none => rfl
      | some found =>
        cases found with
        | true => rfl
        | false =>
          simp only [hcheck] at h ⊢
          exact ih h

/-- The lines that have come decide in the same way when more of them have come. -/
theorem CheckCall.run_early (check : CheckCall) {got content : Str} (hgot : got <+: content)
    (h : check.run (some (got.rdropWhile (· ≠ '\n'))) ≠ some false) :
    check.run (some (got.rdropWhile (· ≠ '\n'))) = check.run (some content) := by
  have hprefix := (List.rdropWhile_prefix (fun c => decide (c ≠ '\n')) got).trans hgot
  generalize hlines : got.rdropWhile (· ≠ '\n') = lines at *
  unfold CheckCall.run appDBCheck at h ⊢
  cases hstat : check.files.stat check.appPath with
  | none => rfl
  | some stat =>
    rw [hstat] at h
    obtain ⟨rest, rfl⟩ := hprefix
    by_cases hnil : lines = []
    · rw [hnil] at h
      exact absurd rfl h
    · have hlast : lines.getLast hnil = '\n' := by
        subst hlines
        have hdrop := List.rdropWhile_last_not (fun c => decide (c ≠ '\n')) got hnil
        simpa using hdrop
      obtain ⟨s, hs⟩ : ∃ s, lines = s ++ ['\n'] := by
        refine ⟨lines.dropLast, ?_⟩
        rw [← hlast]
        exact (List.dropLast_append_getLast hnil).symm
      rw [hs] at h ⊢
      simp only at h ⊢
      rw [List.append_assoc, List.singleton_append, readLines_append s rest]
      exact (appDBCheckLines_stops h _).symm

/-- A verdict is one on what the check has seen. -/
theorem CheckCall.outcome_seen (check : CheckCall) {temporary : Str} {vol : Disk}
    {db : Option Str} {r : Reader Char} (h : r.Sees temporary True vol db) {found : Option Bool}
    (hfound : found ∈ check.outcome r) : found = check.run db := by
  cases db with
  | none =>
    cases r with
    | absent =>
      cases hfound
      rfl
    | waiting => exact h.elim
    | reading k got => exact h.elim
    | done got => exact h.elim
  | some content =>
    cases r with
    | absent => exact h.elim
    | waiting => exact h.elim
    | done got =>
      obtain ⟨added, hgot, hnone⟩ := h
      rw [hnone trivial, List.append_nil] at hgot
      subst hgot
      cases hfound
      rfl
    | reading k got =>
      obtain ⟨-, -, added, -, hnone, hgot⟩ := h
      rw [hnone trivial, List.append_nil] at hgot
      unfold CheckCall.outcome at hfound
      by_cases hfalse : check.run (some (got.rdropWhile (· ≠ '\n'))) = some false
      · simp only [if_pos hfalse] at hfound
        cases hfound
      · simp only [if_neg hfalse] at hfound
        cases hfound
        exact check.run_early hgot hfalse

section Checks

variable {ι κ : Type} [DecidableEq ι] [DecidableEq κ]

/-- Grants and checks, side by side. -/
def grantsAndChecks (κ : Type) (disk : Disk) (flushing : ι → Flushing) (calls : ι → AddCall) :
    Shared ι κ Str Char Attrs where
  system := adds disk flushing calls
  readers := fun _ => .waiting

def runShared (kernel : Kernel) (disk : Disk) (flushing : ι → Flushing) (calls : ι → AddCall)
    (moves : List (Move ι κ)) : Shared ι κ Str Char Attrs :=
  Runs.run (Shared.step kernel.defaults appDBPath) (grantsAndChecks κ disk flushing calls) moves

/-- A check that runs while grants are made gives the verdict on the database that was in place when
it opened it, whatever happens behind that; and what is in place is always a version. -/
theorem check_sees_version (kernel : Kernel) (disk : Disk) (flushing : ι → Flushing)
    (calls : ι → AddCall)
    (hstale : ∀ k, disk.names (appDBPath ++ "+".toList) = some k → disk.names appDBPath ≠ some k)
    (before after : List (Move ι κ)) (j : κ) (n : Nat)
    (hturns : Runs.Guarded (Shared.step kernel.defaults appDBPath)
      (Move.Ok (Files.Turn (appDBPath ++ "+".toList))) (grantsAndChecks κ disk flushing calls)
      (before ++ .reader j n :: after))
    (hwaiting : (runShared kernel disk flushing calls before).readers j = .waiting)
    (check : CheckCall) :
    Version calls (disk.content appDBPath)
        ((runShared kernel disk flushing calls before).system.volume.content appDBPath) ∧
      ∀ found ∈ check.outcome
          ((runShared kernel disk flushing calls (before ++ .reader j n :: after)).readers j),
        found = check.run
          ((runShared kernel disk flushing calls before).system.volume.content appDBPath) := by
  have hstep : ∀ (s : System ι Str Char Attrs) i,
      (∃ plan phase, Rewriting flushing calls (disk.content appDBPath) plan phase s) →
      Files.Turn (appDBPath ++ "+".toList) s i →
      (∃ plan phase, Rewriting flushing calls (disk.content appDBPath) plan phase
          (s.step kernel.defaults i)) ∧
        Files.Undisturbed (appDBPath ++ "+".toList) True s.volume
          (s.step kernel.defaults i).volume := by
    rintro s i ⟨plan, phase, h⟩ hturn
    exact h.step hturn
  have hapart : ∀ (s : System ι Str Char Attrs),
      (∃ plan phase, Rewriting flushing calls (disk.content appDBPath) plan phase s) →
      ∀ k, s.volume.names appDBPath = some k →
        s.volume.names (appDBPath ++ "+".toList) ≠ some k := by
    rintro s ⟨plan, phase, h⟩ k hk
    exact h.exclusive.apart hk
  have hopened : ∃ plan phase, Rewriting flushing calls (disk.content appDBPath) plan phase
      (runShared kernel disk flushing calls before).system :=
    Shared.system_inv (fun s i h hturn => (hstep s i h hturn).1)
      (Rewriting.start hstale flushing calls) hturns.left
  have hsees := Shared.reads_opened hstep hapart hopened hwaiting n hturns.right
  unfold runShared at *
  rw [Runs.run_append]
  obtain ⟨plan, phase, hversion⟩ := hopened
  refine ⟨hversion.version, ?_⟩
  intro found hfound
  generalize (Runs.run (Shared.step kernel.defaults appDBPath)
    (grantsAndChecks κ disk flushing calls) before).system.volume.content appDBPath = db at *
  generalize (Runs.run (Shared.step kernel.defaults appDBPath)
    (Runs.run (Shared.step kernel.defaults appDBPath)
      (grantsAndChecks κ disk flushing calls) before)
    (.reader j n :: after)) = s at *
  exact check.outcome_seen hsees hfound

end Checks

/-- A grant of `umount`, and a check of `mount` that opens the old database and reads it to its end
when the new one is in place. -/
def grantTurns : List (Move Unit Unit) := List.replicate 3 (.task ())

def lateReads : List (Move Unit Unit) :=
  [.reader () 9] ++ List.replicate 2 (.task ()) ++ List.replicate 6 (.reader () 9)

def mountCheck : CheckCall where
  files := equalFiles
  grant := "mount".toList
  appPath := "/bin/a".toList

theorem check_sees_version_overlapping :
    mountCheck.outcome ((runShared rootKernel grantedDisk (fun _ => flushAtOnce)
        (fun _ => plainCall "umount," "/bin/a")
        (grantTurns ++ .reader () 0 :: lateReads)).readers ()) =
      some (some true) ∧
    ∀ found ∈ mountCheck.outcome ((runShared rootKernel grantedDisk (fun _ => flushAtOnce)
        (fun _ => plainCall "umount," "/bin/a")
        (grantTurns ++ .reader () 0 :: lateReads)).readers ()),
      found = mountCheck.run
        ((@runShared Unit Unit _ _ rootKernel grantedDisk (fun _ => flushAtOnce)
        (fun _ => plainCall "umount," "/bin/a") grantTurns).system.volume.content appDBPath) := by
  have hstale : ∀ k, grantedDisk.names (appDBPath ++ "+".toList) = some k →
      grantedDisk.names appDBPath ≠ some k := by
    have hnone : grantedDisk.names (appDBPath ++ "+".toList) = none := by decide +kernel
    intro k hk
    rw [hnone] at hk
    cases hk
  exact ⟨by decide +kernel, (check_sees_version rootKernel grantedDisk (fun _ => flushAtOnce)
    (fun _ => plainCall "umount," "/bin/a") hstale grantTurns lateReads () 0 (by decide +kernel)
    rfl mountCheck).2⟩

end Invocation
