import Invocation.Bookin

/-!
# Concurrent book-ins

Every client is served by its own process, so book-ins of one path interleave
at their file-system calls. They all write to the same temporary name.
-/

namespace Invocation

set_option autoImplicit false

open Files (Plan System Task)

namespace Bookin

variable {kernel : Kernel} {b : Bookin} {path : Str}

/-- What an accepted upload does between the opening of the temporary file and its close. -/
def acceptedPlan (kernel : Kernel) (b : Bookin) (path : Str) (size : Nat) :
    Plan Str Char Attrs where
  early := (b.flushing.now (b.taken size)).map .write ++ [.stat path]
  commits := true
  late := [kernel.chmodCall path, kernel.chownCall path] ++
    (b.flushing.atClose (b.taken size)).map .write
  quiet_early := by
    intro c hc
    rcases List.mem_append.mp hc with hc | hc
    · exact Files.quiet_writes _ c hc
    · rw [List.mem_singleton.mp hc]
      exact .stat path
  quiet_late := by
    intro c hc
    rcases List.mem_append.mp hc with hc | hc
    · rcases List.mem_cons.mp hc with rfl | hc
      · exact .change path _
      · rw [List.mem_singleton.mp hc]
        exact .change path _
    · exact Files.quiet_writes _ c hc

theorem quiet_nil : ∀ c ∈ ([] : List (Files.Call Str Char Attrs)), c.Quiet :=
  fun _ hc => absurd hc List.not_mem_nil

def refusedPlan : Plan Str Char Attrs where
  early := []
  commits := false
  late := []
  quiet_early := quiet_nil
  quiet_late := quiet_nil

open Classical in
/-- The plan of a book-in that can open its temporary file. -/
noncomputable def plan (kernel : Kernel) (b : Bookin) (path : Str) : Option (Plan Str Char Attrs) :=
  if b.Opens path then
    match announced b.reply with
    | none => some refusedPlan
    | some size => some (b.acceptedPlan kernel path size)
  else none

theorem calls_of_plan_none (hpath : b.Targets path) (h : b.plan kernel path = none) :
    b.calls kernel = [] := by
  apply calls_closed kernel hpath
  intro hopens
  unfold plan at h
  rw [if_pos hopens] at h
  cases hannounced : announced b.reply with
  | none =>
    rw [hannounced] at h
    cases h
  | some size =>
    rw [hannounced] at h
    cases h

theorem calls_of_plan (hpath : b.Targets path) {p : Plan Str Char Attrs}
    (h : b.plan kernel path = some p) : b.calls kernel = p.calls (path ++ "+".toList) path := by
  unfold plan at h
  by_cases hopens : b.Opens path
  · rw [if_pos hopens] at h
    rw [calls_opened kernel hpath hopens]
    cases hannounced : announced b.reply with
    | none =>
      rw [hannounced] at h
      cases h
      rfl
    | some size =>
      rw [hannounced] at h
      cases h
      simp only [Plan.calls, Plan.release, acceptedPlan, if_true, List.append_assoc,
        List.cons_append, List.nil_append]
  · rw [if_neg hopens] at h
    cases h

theorem whole_acceptedPlan (size : Nat) :
    (b.acceptedPlan kernel path size).whole = b.taken size := by
  have hall := b.flushing.all (b.taken size)
  have hquiet : ([Files.Call.stat path] ++ ([kernel.chmodCall path, kernel.chownCall path] ++
      (b.flushing.atClose (b.taken size)).map Files.Call.write)).flatMap Files.Call.bytes =
      (b.flushing.atClose (b.taken size)).flatten := by
    rw [← Files.bytes_writes]
    rfl
  unfold Plan.whole acceptedPlan
  rw [List.append_assoc, List.flatMap_append, Files.bytes_writes, hquiet, hall]

def Receives (b : Bookin) (content : Str) : Prop :=
  ∃ n, WellFormed b.reply n ∧ n ≤ b.payload.length ∧ content = b.payload.take n

def Accepted (b : Bookin) (path : Str) : Prop := b.Opens path ∧ announced b.reply ≠ none

def Complete (b : Bookin) (path : Str) : Prop :=
  b.Accepted path → ∃ n, WellFormed b.reply n ∧ n < 2 ^ 63 ∧ n ≤ b.payload.length

theorem plan_commits {p : Plan Str Char Attrs} (hplan : b.plan kernel path = some p)
    (hcommits : p.commits = true) (hcomplete : b.Complete path) :
    b.Accepted path ∧ b.Receives p.whole := by
  unfold plan at hplan
  by_cases hopens : b.Opens path
  · rw [if_pos hopens] at hplan
    cases hannounced : announced b.reply with
    | none =>
      rw [hannounced] at hplan
      cases hplan
      cases hcommits
    | some size =>
      rw [hannounced] at hplan
      cases hplan
      have haccepted : b.Accepted path := ⟨hopens, by rw [hannounced]; simp⟩
      obtain ⟨n, hn, hlt, hlength⟩ := hcomplete haccepted
      obtain ⟨hsize, htaken⟩ := taken_wellFormed hn hlt
      rw [hannounced] at hsize
      cases hsize
      exact ⟨haccepted, size, hn, hlength, by rw [whole_acceptedPlan, htaken]⟩
  · rw [if_neg hopens] at hplan
    cases hplan

theorem plan_accepted (kernel : Kernel) (h : b.Accepted path) :
    ∃ p, b.plan kernel path = some p ∧ p.commits = true := by
  obtain ⟨hopens, hannounced⟩ := h
  unfold plan
  rw [if_pos hopens]
  cases hsize : announced b.reply with
  | none => exact absurd hsize hannounced
  | some size => exact ⟨_, rfl, rfl⟩

theorem Receives.unique {content content' : Str} (h : b.Receives content)
    (h' : b.Receives content') : content = content' := by
  obtain ⟨n, hn, hlength, rfl⟩ := h
  obtain ⟨m, hm, hlength', rfl⟩ := h'
  rw [hn.unique hm]

end Bookin

section Interleavings

variable {ι : Type} [DecidableEq ι]

def bookins (kernel : Kernel) (disk : Disk) (uploads : ι → Bookin) : System ι Str Char Attrs where
  volume := disk
  tasks := fun i => { calls := (uploads i).calls kernel }

def runBookins (kernel : Kernel) (disk : Disk) (uploads : ι → Bookin) (schedule : List ι) :
    System ι Str Char Attrs :=
  Runs.run (System.step kernel.defaults) (bookins kernel disk uploads) schedule

/-- The file holds what it held or one whole upload, and the only upload that was accepted, if it
came completely, is not lost. -/
structure Unmixed (uploads : ι → Bookin) (path : Str) (before after : Option Str) : Prop where
  whole : after = before ∨ ∃ i content, (uploads i).Accepted path ∧ (uploads i).Receives content ∧
    after = some content
  kept : ∀ i content, (uploads i).Accepted path → (uploads i).Receives content →
    (∀ j ≠ i, ¬ (uploads j).Accepted path) → after = some content

/-- Book-ins that take turns with the temporary file do not mix. -/
theorem bookins_unmixed (kernel : Kernel) (disk : Disk) (uploads : ι → Bookin) {path : Str}
    (hpath : ∀ i, (uploads i).Targets path)
    (hcomplete : ∀ i, (uploads i).Complete path)
    (hstale : ∀ k, disk.names (path ++ "+".toList) = some k → disk.names path ≠ some k)
    (schedule : List ι)
    (hturns : Runs.Guarded (System.step kernel.defaults) (Files.Turn (path ++ "+".toList))
      (bookins kernel disk uploads) schedule)
    (hdone : ∀ i, ((runBookins kernel disk uploads schedule).tasks i).calls = []) :
    Unmixed uploads path (disk.content path)
      ((runBookins kernel disk uploads schedule).volume.content path) := by
  have hstart : Files.Exclusive (path ++ "+".toList) path (disk.content path)
      (fun i => (uploads i).plan kernel path) (fun _ => .ready) (bookins kernel disk uploads) :=
    Files.Exclusive.start hstale
      (fun i p hp => Bookin.calls_of_plan (hpath i) hp) fun _ _ => rfl
  obtain ⟨phase, hrun⟩ := hstart.run (Ne.symm (path_ne_temporary path))
    (fun i hi => Bookin.calls_of_plan_none (hpath i) hi) hturns
  rcases hrun.outcome hdone with ⟨i, p, hplan, hcommits, hafter⟩ | ⟨hnone, hafter⟩
  · obtain ⟨haccepted, hreceives⟩ := Bookin.plan_commits hplan hcommits (hcomplete i)
    constructor
    · right
      exact ⟨i, p.whole, haccepted, hreceives, hafter⟩
    · intro j content hj hcontent honly
      have hji : j = i := by
        by_contra hne
        exact honly i (Ne.symm hne) haccepted
      subst hji
      rw [hcontent.unique hreceives]
      exact hafter
  · constructor
    · exact Or.inl hafter
    · intro j content hj _ _
      obtain ⟨p, hplan, hcommits⟩ := Bookin.plan_accepted kernel hj
      rw [hnone j p hplan] at hcommits
      cases hcommits

end Interleavings

def twoUploads : Bool → Bookin
  | true => motdBookin "bookin 3 motd\naaa".toList
  | false => motdBookin "bookin 2 motd\nbb".toList

theorem twoUploads_targets (i : Bool) : (twoUploads i).Targets "/etc/motd".toList := by
  unfold Bookin.Targets
  cases i with
  | true => decide +kernel
  | false => decide +kernel

theorem twoUploads_wellFormed :
    WellFormed (twoUploads true).reply 3 ∧ WellFormed (twoUploads false).reply 2 :=
  ⟨⟨"3".toList, "motd".toList, by decide, by decide, by decide, by decide, by decide,
      by decide +kernel⟩,
    ⟨"2".toList, "motd".toList, by decide, by decide, by decide, by decide, by decide,
      by decide +kernel⟩⟩

theorem twoUploads_complete (i : Bool) : (twoUploads i).Complete "/etc/motd".toList := by
  intro _
  cases i with
  | true => exact ⟨3, twoUploads_wellFormed.1, by decide, by decide +kernel⟩
  | false => exact ⟨2, twoUploads_wellFormed.2, by decide, by decide +kernel⟩

def inTurn : List Bool := List.replicate 7 true ++ List.replicate 7 false

def overlapping : List Bool :=
  [true, true, false, false, true, false] ++ List.replicate 5 true ++ List.replicate 5 false

theorem bookins_unmixed_inTurn :
    Unmixed twoUploads "/etc/motd".toList (motdDisk.content "/etc/motd".toList)
      ((runBookins rootKernel motdDisk twoUploads inTurn).volume.content "/etc/motd".toList) := by
  have hstale : ∀ k, motdDisk.names ("/etc/motd".toList ++ "+".toList) = some k →
      motdDisk.names "/etc/motd".toList ≠ some k := by
    have hnone : motdDisk.names ("/etc/motd".toList ++ "+".toList) = none := by decide +kernel
    intro k hk
    rw [hnone] at hk
    cases hk
  have hdone : ∀ i, ((runBookins rootKernel motdDisk twoUploads inTurn).tasks i).calls = [] := by
    intro i
    apply List.isEmpty_iff.mp
    cases i with
    | true => decide +kernel
    | false => decide +kernel
  exact bookins_unmixed rootKernel motdDisk twoUploads twoUploads_targets twoUploads_complete
    hstale inTurn
    (by decide +kernel) hdone

/-- Both uploads are complete, and the file holds neither of them. -/
theorem bookins_mix :
    ¬ ∀ (uploads : Bool → Bookin) (schedule : List Bool),
      (∀ i, (uploads i).Targets "/etc/motd".toList) →
      (∀ i, (uploads i).Complete "/etc/motd".toList) →
      (∀ i, ((runBookins rootKernel motdDisk uploads schedule).tasks i).calls.isEmpty) →
      Unmixed uploads "/etc/motd".toList (motdDisk.content "/etc/motd".toList)
        ((runBookins rootKernel motdDisk uploads schedule).volume.content "/etc/motd".toList) := by
  intro h
  have hmixed : (runBookins rootKernel motdDisk twoUploads overlapping).volume.content
      "/etc/motd".toList = some "bba".toList := by decide +kernel
  have hunmixed :=
    h twoUploads overlapping twoUploads_targets twoUploads_complete (by decide +kernel)
  rcases hunmixed.whole with hkept | ⟨i, content, _, hreceives, hafter⟩
  · exact absurd hkept (by decide +kernel)
  · rw [hmixed] at hafter
    cases hafter
    cases i with
    | true =>
      have hall : (twoUploads true).Receives "aaa".toList :=
        ⟨3, twoUploads_wellFormed.1, by decide +kernel, by decide +kernel⟩
      exact absurd (hreceives.unique hall) (by decide)
    | false =>
      have hall : (twoUploads false).Receives "bb".toList :=
        ⟨2, twoUploads_wellFormed.2, by decide +kernel, by decide +kernel⟩
      exact absurd (hreceives.unique hall) (by decide)

end Invocation
