import Invocation.AppDBRoundTrip
import Invocation.Bookin

/-!
# Concurrent grants

Two runs of `grant` interleave at the calls of `AppDBAdd`: each reads the whole
file, writes a new one under a temporary name and renames it into place.
-/

namespace Invocation

set_option autoImplicit false

open Files (Plan System Task Exclusive)

def appDBPath : Str := "/var/db/invocation/clients.db".toList

namespace AddCall

/-- Writing a text to the temporary file, closing it and renaming it. -/
def rewrite (flushing : Flushing) (text : Str) : Plan Str Char Attrs where
  early := (flushing.now text ++ flushing.atClose text).map .write
  commits := true
  late := []
  quiet_early := Files.quiet_writes _
  quiet_late := by simp

/-- What follows the reading of the file. -/
def afterRead (flushing : Flushing) (call : AddCall) (db : Option Str) : Plan Str Char Attrs :=
  rewrite flushing ((call.run db).getD [])

/-- The calls of `AppDBAdd`. -/
def calls (flushing : Flushing) (call : AddCall) : List FileCall :=
  match call.files.stat call.appPath with
  | none => []
  | some _ => [.read appDBPath fun db =>
      (call.afterRead flushing db).calls (appDBPath ++ "+".toList) appDBPath]

theorem whole_rewrite (flushing : Flushing) (text : Str) :
    (rewrite flushing text).whole = text := by
  unfold Plan.whole rewrite
  rw [List.append_nil, Files.bytes_writes, List.flatten_append, flushing.all]

theorem whole_afterRead (flushing : Flushing) {call : AddCall}
    (hstat : (call.files.stat call.appPath).isSome) (db : Option Str) :
    some (call.afterRead flushing db).whole = call.run db := by
  obtain ⟨stat, hstat⟩ := Option.isSome_iff_exists.mp hstat
  unfold afterRead
  rw [whole_rewrite]
  simp only [run, appDBAdd, hstat, Option.getD_some]

end AddCall

/-- Every line is the last one under its first word, and that word is not the granted path. -/
def KeepsAll (db : Option Str) (appPath : Str) : Prop :=
  ∀ line ∈ fileLines db, Survives db appPath line

instance (db : Option Str) (appPath : Str) : Decidable (KeepsAll db appPath) :=
  inferInstanceAs (Decidable (∀ line ∈ fileLines db, lastUnder _ _ = some line ∧ _ = false))

section Adds

variable {ι : Type} [DecidableEq ι]

def adds (disk : Disk) (flushing : ι → Flushing) (calls : ι → AddCall) :
    System ι Str Char Attrs where
  volume := disk
  tasks := fun i => { calls := (calls i).calls (flushing i) }

def runAddsOn (kernel : Kernel) (disk : Disk) (flushing : ι → Flushing) (calls : ι → AddCall)
    (schedule : List ι) : System ι Str Char Attrs :=
  Runs.run (System.step kernel.defaults) (adds disk flushing calls) schedule

def Unread (t : Task Str Char Attrs) : Prop := ∃ c ∈ t.calls.head?, c.Reads

instance (t : Task Str Char Attrs) : Decidable (Unread t) :=
  inferInstanceAs (Decidable (∃ c ∈ t.calls.head?, c.Reads))

/-- A call reads the file only when no other one is between its read and its rename, and when it
finds nothing that it would drop. -/
def AddTurn (calls : ι → AddCall) (s : System ι Str Char Attrs) (i : ι) : Prop :=
  Unread (s.tasks i) →
    (∀ j ≠ i, (s.tasks j).calls = [] ∨ Unread (s.tasks j)) ∧
      KeepsAll (s.volume.content appDBPath) (calls i).appPath

instance [Fintype ι] (calls : ι → AddCall) (s : System ι Str Char Attrs) (i : ι) :
    Decidable (AddTurn calls s i) :=
  have (j : ι) : Decidable ((s.tasks j).calls = []) := decidable_of_iff _ List.isEmpty_iff
  inferInstanceAs (Decidable (Unread (s.tasks i) → _ ∧ _))

/-- Between the steps: at most one call has read the file and not renamed, what it has read is
still there, and the file holds the old lines and those of the calls that are done. -/
structure Granting (flushing : ι → Flushing) (calls : ι → AddCall) (before : Option Str)
    (plan : ι → Option (Plan Str Char Attrs)) (phase : ι → Files.Phase)
    (s : System ι Str Char Attrs) : Prop where
  exclusive : Exclusive (appDBPath ++ "+".toList) appDBPath before plan phase s
  unread : ∀ i, plan i = none → (s.tasks i).calls = (calls i).calls (flushing i)
  rewrites : ∀ i p, plan i = some p → ∃ db, p = (calls i).afterRead (flushing i) db
  single : ∀ i j, plan i ≠ none → plan j ≠ none → (s.tasks i).calls ≠ [] →
    (s.tasks j).calls ≠ [] → i = j
  current : ∀ i p, plan i = some p → (s.tasks i).calls ≠ [] →
    p = (calls i).afterRead (flushing i) (s.volume.content appDBPath) ∧
      KeepsAll (s.volume.content appDBPath) (calls i).appPath
  clean : Clean (s.volume.content appDBPath)
  kept : ∀ l ∈ fileLines before, l ∈ fileLines (s.volume.content appDBPath)
  added : ∀ i p stat, plan i = some p → (s.tasks i).calls = [] →
    (calls i).files.stat (calls i).appPath = some stat →
    (calls i).line stat ∈ fileLines (s.volume.content appDBPath)

section Step

variable {kernel : Kernel} {flushing : ι → Flushing} {calls : ι → AddCall} {before : Option Str}
  {plan : ι → Option (Plan Str Char Attrs)} {phase : ι → Files.Phase}
  {s : System ι Str Char Attrs} {i : ι}

theorem calls_stattable (flushing : Flushing) {call : AddCall}
    (hstat : (call.files.stat call.appPath).isSome) :
    call.calls flushing = [.read appDBPath fun db =>
      (call.afterRead flushing db).calls (appDBPath ++ "+".toList) appDBPath] := by
  obtain ⟨stat, hstat⟩ := Option.isSome_iff_exists.mp hstat
  unfold AddCall.calls
  rw [hstat]

theorem Granting.read (h : Granting flushing calls before plan phase s)
    (hstat : ((calls i).files.stat (calls i).appPath).isSome) (hplan : plan i = none)
    (hothers : ∀ j ≠ i, (s.tasks j).calls = [] ∨ Unread (s.tasks j))
    (hkeeps : KeepsAll (s.volume.content appDBPath) (calls i).appPath)
    (hunread : ∀ j p, plan j = some p → ¬ Unread (s.tasks j)) :
    ∃ plan phase, Granting flushing calls before plan phase (s.step kernel.defaults i) := by
  have hcalls := (h.unread i hplan).trans (calls_stattable (flushing i) hstat)
  have hrun : (s.tasks i).step kernel.defaults s.volume = (s.volume,
      ⟨((calls i).afterRead (flushing i) (s.volume.content appDBPath)).calls
        (appDBPath ++ "+".toList) appDBPath, (s.tasks i).descriptor, (s.tasks i).found⟩) := by
    unfold Task.step
    rw [hcalls]
    simp only [Files.Call.run, List.append_nil]
  have hidle : ∀ j p, plan j = some p → (s.tasks j).calls = [] := by
    intro j p hp
    have hji : j ≠ i := by
      rintro rfl
      rw [hplan] at hp
      cases hp
    exact (hothers j hji).resolve_right (hunread j p hp)
  have hother : ∀ j p, Function.update plan i (some p) j ≠ none → j ≠ i →
      (s.tasks j).calls = [] := by
    intro j p hj hji
    rw [Function.update_of_ne hji] at hj
    obtain ⟨q, hq⟩ := Option.ne_none_iff_exists'.mp hj
    exact hidle j q hq
  generalize hp : (calls i).afterRead (flushing i) (s.volume.content appDBPath) = p at *
  have hexclusive : Exclusive (appDBPath ++ "+".toList) appDBPath before
      (Function.update plan i (some p)) phase (s.step kernel.defaults i) := by
    unfold System.step
    rw [hrun]
    exact h.exclusive.assign hplan rfl
  have hself : ((s.step kernel.defaults i).tasks i).calls =
      p.calls (appDBPath ++ "+".toList) appDBPath := by
    unfold System.step
    rw [hrun]
    simp only [Function.update_self]
  have htasks : ∀ j ≠ i, (s.step kernel.defaults i).tasks j = s.tasks j :=
    fun j hj => Files.step_other hj
  have hvolume : (s.step kernel.defaults i).volume = s.volume := by
    unfold System.step
    rw [hrun]
  generalize s.step kernel.defaults i = next at *
  refine ⟨Function.update plan i (some p), phase, hexclusive, ?_, ?_, ?_, ?_, by
    rw [hvolume]; exact h.clean, by rw [hvolume]; exact h.kept, ?_⟩
  · intro j hj
    have hji : j ≠ i := by
      rintro rfl
      rw [Function.update_self] at hj
      cases hj
    rw [Function.update_of_ne hji] at hj
    rw [htasks j hji]
    exact h.unread j hj
  · intro j q hj
    by_cases hji : j = i
    · subst hji
      rw [Function.update_self] at hj
      cases hj
      exact ⟨_, hp.symm⟩
    · rw [Function.update_of_ne hji] at hj
      exact h.rewrites j q hj
  · have honly : ∀ j, Function.update plan i (some p) j ≠ none → (next.tasks j).calls ≠ [] →
        j = i := by
      intro j hj hcalls
      by_contra hji
      rw [htasks j hji] at hcalls
      exact hcalls (hother j p hj hji)
    intro j l hj hl hjcalls hlcalls
    rw [honly j hj hjcalls, honly l hl hlcalls]
  · intro j q hj hjcalls
    by_cases hji : j = i
    · subst hji
      rw [Function.update_self] at hj
      cases hj
      rw [hvolume]
      exact ⟨hp.symm, hkeeps⟩
    · rw [Function.update_of_ne hji] at hj
      rw [htasks j hji] at hjcalls
      exact absurd (hidle j q hj) hjcalls
  · intro j q stat hj hjcalls hjstat
    by_cases hji : j = i
    · subst hji
      rw [hself] at hjcalls
      cases hjcalls
    · rw [Function.update_of_ne hji] at hj
      rw [htasks j hji] at hjcalls
      rw [hvolume]
      exact h.added j q stat hj hjcalls hjstat

theorem Granting.write (hrec : (calls i).Recordable)
    (hstat : ((calls i).files.stat (calls i).appPath).isSome)
    (h : Granting flushing calls before plan phase s) {p : Plan Str Char Attrs}
    (hplan : plan i = some p) :
    ∃ plan phase, Granting flushing calls before plan phase (s.step kernel.defaults i) := by
  have hne := Ne.symm (path_ne_temporary appDBPath)
  by_cases hcalls : (s.tasks i).calls = []
  · rw [Files.step_nil hcalls]
    exact ⟨plan, phase, h⟩
  have hothers : ∀ j ≠ i, plan j ≠ none → (s.tasks j).calls = [] := by
    intro j hji hj
    by_contra hjcalls
    exact hji (h.single j i hj (by rw [hplan]; simp) hjcalls hcalls)
  have hturn : Files.Turn (appDBPath ++ "+".toList) s i := by
    rintro - j hji ⟨hdesc, c, hc, _⟩
    cases hj : plan j with
    | none => exact hdesc (h.exclusive.separate.idle j hj).2
    | some q =>
      rw [hothers j hji (by rw [hj]; simp)] at hc
      cases hc
  have hnotidle : plan i = none → (s.tasks i).calls = [] := by
    intro hnone
    rw [hplan] at hnone
    cases hnone
  obtain ⟨phase', hexclusive⟩ : ∃ phase', Exclusive (appDBPath ++ "+".toList) appDBPath before plan
      phase' (s.step kernel.defaults i) := h.exclusive.step hne hturn hnotidle
  obtain ⟨db, hp⟩ := h.rewrites i p hplan
  have hstep : (s.tasks i).calls = [] ∨
      (((s.step kernel.defaults i).tasks i).calls ≠ [] ∧
        (s.step kernel.defaults i).volume.content appDBPath = s.volume.content appDBPath) ∨
      (((s.step kernel.defaults i).tasks i).calls = [] ∧
        (s.step kernel.defaults i).volume.content appDBPath = some p.whole) :=
    h.exclusive.target_step hne hplan (by rw [hp]; rfl) (by rw [hp]; rfl)
  obtain ⟨hcurrent, hkeeps⟩ := h.current i p hplan hcalls
  have htasks : ∀ j ≠ i, (s.step kernel.defaults i).tasks j = s.tasks j :=
    fun j hj => Files.step_other hj
  have hplanned : ∀ j, plan j = none → j ≠ i := by
    rintro j hj rfl
    rw [hplan] at hj
    cases hj
  generalize s.step kernel.defaults i = next at *
  have hlonely : ∀ j, plan j ≠ none → (next.tasks j).calls ≠ [] → j = i := by
    intro j hj hjcalls
    by_contra hji
    rw [htasks j hji] at hjcalls
    exact hjcalls (hothers j hji hj)
  have hwaiting : ∀ j, plan j = none → (next.tasks j).calls = (calls j).calls (flushing j) := by
    intro j hj
    rw [htasks j (hplanned j hj)]
    exact h.unread j hj
  have hsingle : ∀ j l, plan j ≠ none → plan l ≠ none → (next.tasks j).calls ≠ [] →
      (next.tasks l).calls ≠ [] → j = l := by
    intro j l hj hl hjcalls hlcalls
    rw [hlonely j hj hjcalls, hlonely l hl hlcalls]
  rcases hstep with hnil | ⟨hbusy, hcontent⟩ | ⟨hdone, hcontent⟩
  · exact absurd hnil hcalls
  · -- the file is as it was
    refine ⟨plan, phase', hexclusive, hwaiting, h.rewrites, hsingle, ?_, by
      rw [hcontent]; exact h.clean, by rw [hcontent]; exact h.kept, ?_⟩
    · intro j q hj hjcalls
      have hji := hlonely j (by rw [hj]; simp) hjcalls
      subst hji
      rw [hplan] at hj
      cases hj
      rw [hcontent]
      exact ⟨hcurrent, hkeeps⟩
    · intro j q stat hj hjcalls hjstat
      have hji : j ≠ i := by
        rintro rfl
        exact hbusy hjcalls
      rw [htasks j hji] at hjcalls
      rw [hcontent]
      exact h.added j q stat hj hjcalls hjstat
  · -- the rename: the lines of the file and the new one
    obtain ⟨stat, hstat'⟩ := Option.isSome_iff_exists.mp hstat
    have hlines := mem_fileLines_run hrec hstat' h.clean
    rw [hcurrent, AddCall.whole_afterRead (flushing i) hstat] at hcontent
    have hold : ∀ l ∈ fileLines (s.volume.content appDBPath),
        l ∈ fileLines ((calls i).run (s.volume.content appDBPath)) := by
      intro l hl
      exact (hlines l).mpr (Or.inr ⟨hl, hkeeps l hl⟩)
    refine ⟨plan, phase', hexclusive, hwaiting, h.rewrites, hsingle, ?_, ?_, ?_, ?_⟩
    · intro j q hj hjcalls
      have hji := hlonely j (by rw [hj]; simp) hjcalls
      subst hji
      exact absurd hdone hjcalls
    · rw [hcontent]
      exact clean_run hrec hstat' h.clean
    · intro l hl
      rw [hcontent]
      exact hold l (h.kept l hl)
    · intro j q stat' hj hjcalls hjstat
      rw [hcontent]
      by_cases hji : j = i
      · subst hji
        rw [hstat'] at hjstat
        cases hjstat
        exact (hlines _).mpr (Or.inl rfl)
      · rw [htasks j hji] at hjcalls
        exact hold _ (h.added j q stat' hj hjcalls hjstat)

theorem Granting.step (hrec : ∀ i, (calls i).Recordable)
    (hstat : ∀ i, ((calls i).files.stat (calls i).appPath).isSome)
    (h : Granting flushing calls before plan phase s) (hturn : AddTurn calls s i) :
    ∃ plan phase, Granting flushing calls before plan phase (s.step kernel.defaults i) := by
  cases hplan : plan i with
  | none =>
    have hunread : Unread (s.tasks i) := by
      rw [Unread, h.unread i hplan, calls_stattable (flushing i) (hstat i)]
      exact ⟨_, rfl, trivial⟩
    obtain ⟨hothers, hkeeps⟩ := hturn hunread
    refine h.read (hstat i) hplan hothers hkeeps ?_
    rintro j p hp ⟨c, hc, hreads⟩
    exact (h.exclusive.separate.stage j p hp).not_reads c hc hreads
  | some p => exact h.write (hrec i) (hstat i) hplan

end Step

/-- Grants that take turns are all in the file, which never lacks an entry that was there before. -/
theorem adds_keep_grants (kernel : Kernel) (disk : Disk) (flushing : ι → Flushing)
    (calls : ι → AddCall) (hclean : Clean (disk.content appDBPath))
    (hrec : ∀ i, (calls i).Recordable)
    (hstat : ∀ i, ((calls i).files.stat (calls i).appPath).isSome)
    (hstale : ∀ k, disk.names (appDBPath ++ "+".toList) = some k → disk.names appDBPath ≠ some k)
    (schedule : List ι)
    (hturns : Runs.Guarded (System.step kernel.defaults) (AddTurn calls)
      (adds disk flushing calls) schedule) :
    (∀ e ∈ entries (disk.content appDBPath),
      e ∈ entries ((runAddsOn kernel disk flushing calls schedule).volume.content appDBPath)) ∧
    ((∀ i, ((runAddsOn kernel disk flushing calls schedule).tasks i).calls = []) →
      ∀ i stat, (calls i).files.stat (calls i).appPath = some stat →
        (calls i).record stat ∈
          entries ((runAddsOn kernel disk flushing calls schedule).volume.content appDBPath)) := by
  have hstart : ∃ plan phase, Granting flushing calls (disk.content appDBPath) plan phase
      (adds disk flushing calls) := by
    refine ⟨fun _ => none, fun _ => .ready, ?_, fun _ _ => rfl, ?_, ?_, ?_, hclean,
      fun _ hl => hl, ?_⟩
    · apply Exclusive.start hstale
      · intro i p hp
        cases hp
      · exact fun _ _ => rfl
    · intro i p hp
      cases hp
    · intro i j hi
      exact absurd rfl hi
    · intro i p hp
      cases hp
    · intro i p stat hp
      cases hp
  have hstep :
    ∀ s i, (∃ plan phase, Granting flushing calls (disk.content appDBPath) plan phase s) →
      AddTurn calls s i → ∃ plan phase, Granting flushing calls (disk.content appDBPath) plan phase
        (s.step kernel.defaults i) := by
    rintro s i ⟨plan, phase, hs⟩ hturn
    exact hs.step hrec hstat hturn
  obtain ⟨plan, phase, h⟩ := Runs.invariant hstep hstart hturns
  have hentry : ∀ line e, line ∈ fileLines
        ((runAddsOn kernel disk flushing calls schedule).volume.content appDBPath) →
      lineEntry line = some e →
      e ∈ entries ((runAddsOn kernel disk flushing calls schedule).volume.content appDBPath) :=
    fun line e hline he => mem_entries.mpr ⟨line, hline, he⟩
  constructor
  · intro e he
    obtain ⟨line, hline, hline'⟩ := mem_entries.mp he
    exact hentry line e (h.kept line hline) hline'
  · intro hdone i stat hi
    cases hplan : plan i with
    | none =>
      have hcalls := (h.unread i hplan).symm.trans (hdone i)
      rw [calls_stattable (flushing i) (hstat i)] at hcalls
      cases hcalls
    | some p =>
      exact hentry _ _ (h.added i p stat hplan (hdone i) hi) (AddCall.lineEntry_line (hrec i) stat)

end Adds

def twoGrants : Bool → AddCall
  | true => plainCall "mount," "/bin/a"
  | false => plainCall "umount," "/bin/b"

def emptyDisk : Disk where
  names := fun _ => none
  inodes := fun _ => ⟨[], { mode := 0o600, uid := 0, gid := 0 }⟩
  next := 0
  allocated := by
    intro name i hi
    cases hi

def grantsInTurn : List Bool := List.replicate 5 true ++ List.replicate 5 false

/-- Both read the file before one of them has renamed. -/
def grantsOverlapping : List Bool :=
  [true, false] ++ List.replicate 4 true ++ List.replicate 4 false

theorem twoGrants_recordable (i : Bool) : (twoGrants i).Recordable := by
  unfold AddCall.Recordable
  cases i with
  | true => decide +kernel
  | false => decide +kernel

theorem adds_keep_grants_inTurn :
    (twoGrants true).record fiveBytes ∈ entries ((runAddsOn rootKernel emptyDisk
        (fun _ => flushAtOnce) twoGrants grantsInTurn).volume.content appDBPath) ∧
      (twoGrants false).record fiveBytes ∈ entries ((runAddsOn rootKernel emptyDisk
        (fun _ => flushAtOnce) twoGrants grantsInTurn).volume.content appDBPath) := by
  have hclean : Clean (emptyDisk.content appDBPath) := by
    intro l hl
    cases hl
  have hstat : ∀ i, ((twoGrants i).files.stat (twoGrants i).appPath).isSome := by decide
  have hdone : ∀ i, ((runAddsOn rootKernel emptyDisk (fun _ => flushAtOnce) twoGrants
      grantsInTurn).tasks i).calls = [] := by
    intro i
    apply List.isEmpty_iff.mp
    cases i with
    | true => decide +kernel
    | false => decide +kernel
  have hadded := (adds_keep_grants rootKernel emptyDisk (fun _ => flushAtOnce) twoGrants hclean
    twoGrants_recordable hstat (fun k hk => by cases hk) grantsInTurn (by decide +kernel)).2 hdone
  exact ⟨hadded true fiveBytes rfl, hadded false fiveBytes rfl⟩

/-- The second rename undoes the first. -/
theorem adds_lose_grant :
    ¬ ∀ (calls : Bool → AddCall) (schedule : List Bool), (∀ i, (calls i).Recordable) →
      (calls true).appPath ≠ (calls false).appPath → (calls true).grant ≠ (calls false).grant →
      (∀ i, ((runAddsOn rootKernel emptyDisk (fun _ => flushAtOnce) calls schedule).tasks
        i).calls.isEmpty) →
      ∀ i stat, (calls i).files.stat (calls i).appPath = some stat →
        (calls i).record stat ∈ entries ((runAddsOn rootKernel emptyDisk (fun _ => flushAtOnce)
          calls schedule).volume.content appDBPath) := by
  intro h
  have hmem := h twoGrants grantsOverlapping twoGrants_recordable (by decide) (by decide)
    (by decide +kernel) true fiveBytes rfl
  revert hmem
  decide +kernel

end Invocation
