import Invocation.Lib.Files
import Invocation.Lib.Runs
import Mathlib.Data.Fintype.Basic

/-!
# Rewriting a file through a temporary one

A plan opens the temporary name, writes, and either renames it to the target
or unlinks it; the stream may bring its last bytes behind the rename. As long
as nobody opens the temporary name while another plan is between its open and
its rename or unlink, the target holds what it held, or the bytes of one plan.
-/

namespace Files

set_option autoImplicit false

variable {ν β μ : Type}

/-- Calls that leave every name alone. -/
inductive Call.Quiet : Call ν β μ → Prop
  | write (bytes : List β) : Quiet (.write bytes)
  | stat (name : ν) : Quiet (.stat name)
  | change (name : ν) (f : Option μ → μ → μ) : Quiet (.change name f)

def Call.bytes : Call ν β μ → List β
  | .write bytes => bytes
  | _ => []

theorem quiet_writes (chunks : List (List β)) :
    ∀ c ∈ chunks.map (Call.write : List β → Call ν β μ), c.Quiet := by
  intro c hc
  obtain ⟨bytes, _, rfl⟩ := List.mem_map.mp hc
  exact .write bytes

theorem bytes_writes (chunks : List (List β)) :
    (chunks.map (Call.write : List β → Call ν β μ)).flatMap Call.bytes = chunks.flatten := by
  induction chunks with
  | nil => rfl
  | cons bytes chunks ih =>
    rw [List.map_cons, List.flatMap_cons, ih, List.flatten_cons]
    rfl

structure Plan (ν β μ : Type) where
  early : List (Call ν β μ)
  commits : Bool
  late : List (Call ν β μ)
  quiet_early : ∀ c ∈ early, c.Quiet
  quiet_late : ∀ c ∈ late, c.Quiet

namespace Plan

variable (temporary target : ν) (p : Plan ν β μ)

def release : Call ν β μ :=
  if p.commits then .rename temporary target else .unlink temporary

def calls : List (Call ν β μ) :=
  .openWrite temporary :: .truncate :: (p.early ++ p.release temporary target :: p.late)

def whole : List β := (p.early ++ p.late).flatMap Call.bytes

end Plan

def Call.Opens (temporary : ν) : Call ν β μ → Prop
  | .openWrite name => name = temporary
  | _ => False

def Call.Releases (temporary : ν) : Call ν β μ → Prop
  | .rename source _ => source = temporary
  | .unlink name => name = temporary
  | _ => False

instance [DecidableEq ν] (temporary : ν) :
    DecidablePred (Call.Opens temporary : Call ν β μ → Prop)
  | .openWrite name => inferInstanceAs (Decidable (name = temporary))
  | .truncate => inferInstanceAs (Decidable False)
  | .write _ => inferInstanceAs (Decidable False)
  | .stat _ => inferInstanceAs (Decidable False)
  | .change _ _ => inferInstanceAs (Decidable False)
  | .rename _ _ => inferInstanceAs (Decidable False)
  | .unlink _ => inferInstanceAs (Decidable False)
  | .read _ _ => inferInstanceAs (Decidable False)

instance [DecidableEq ν] (temporary : ν) :
    DecidablePred (Call.Releases temporary : Call ν β μ → Prop)
  | .openWrite _ => inferInstanceAs (Decidable False)
  | .truncate => inferInstanceAs (Decidable False)
  | .write _ => inferInstanceAs (Decidable False)
  | .stat _ => inferInstanceAs (Decidable False)
  | .change _ _ => inferInstanceAs (Decidable False)
  | .rename source _ => inferInstanceAs (Decidable (source = temporary))
  | .unlink name => inferInstanceAs (Decidable (name = temporary))
  | .read _ _ => inferInstanceAs (Decidable False)

theorem Plan.release_releases (p : Plan ν β μ) (temporary target : ν) :
    (p.release temporary target).Releases temporary := by
  unfold Plan.release
  split <;> rfl

/-- How far a plan has come, and the inode that it writes to. -/
inductive Phase
  | ready
  | opened (i : Nat)
  | inside (i : Nat)
  | released (i : Nat)
deriving DecidableEq

def Phase.inode : Phase → Option Nat
  | .ready => none
  | .opened i => some i
  | .inside i => some i
  | .released i => some i

def Phase.Holds : Phase → Prop
  | .opened _ => True
  | .inside _ => True
  | _ => False

/-- A task with a plan, in a phase of it. -/
inductive Stage (temporary target : ν) (p : Plan ν β μ) (vol : Volume ν β μ) (t : Task ν β μ) :
    Phase → Prop
  | ready : t.calls = p.calls temporary target → Stage temporary target p vol t .ready
  | opened {i : Nat} :
    t.calls = .truncate :: (p.early ++ p.release temporary target :: p.late) →
    t.descriptor = some ⟨i, 0⟩ → Stage temporary target p vol t (.opened i)
  | inside {i : Nat} (past : List (Call ν β μ)) {rest : List (Call ν β μ)} :
      p.early = past ++ rest →
    t.calls = rest ++ p.release temporary target :: p.late →
    t.descriptor = some ⟨i, (past.flatMap Call.bytes).length⟩ →
    (vol.inodes i).content = past.flatMap Call.bytes → Stage temporary target p vol t (.inside i)
  | released {i : Nat} (past : List (Call ν β μ)) {rest : List (Call ν β μ)} :
      p.late = past ++ rest → t.calls = rest →
    t.descriptor = some ⟨i, ((p.early ++ past).flatMap Call.bytes).length⟩ →
    (vol.inodes i).content = (p.early ++ past).flatMap Call.bytes →
    Stage temporary target p vol t (.released i)

section Stages

variable {temporary target : ν} {p : Plan ν β μ} {vol vol' : Volume ν β μ} {t : Task ν β μ}
  {phase : Phase}

theorem Stage.frame (h : Stage temporary target p vol t phase)
    (hsame : ∀ i, phase.inode = some i → (vol'.inodes i).content = (vol.inodes i).content) :
    Stage temporary target p vol' t phase := by
  cases h with
  | ready hcalls => exact .ready hcalls
  | opened hcalls hdesc => exact .opened hcalls hdesc
  | inside past hearly hcalls hdesc hcontent =>
    exact .inside past hearly hcalls hdesc ((hsame _ rfl).trans hcontent)
  | released past hlate hcalls hdesc hcontent =>
    exact .released past hlate hcalls hdesc ((hsame _ rfl).trans hcontent)

theorem Call.Quiet.not_reads {c : Call ν β μ} (h : c.Quiet) : ¬ c.Reads := by
  cases h <;> exact id

theorem Stage.not_reads (h : Stage temporary target p vol t phase) :
    ∀ c ∈ t.calls.head?, ¬ c.Reads := by
  have hrelease : ¬ (p.release temporary target).Reads := by
    unfold Plan.release
    split <;> exact id
  intro c hc
  cases h with
  | ready hcalls =>
    rw [hcalls] at hc
    cases hc
    exact id
  | opened hcalls _ =>
    rw [hcalls] at hc
    cases hc
    exact id
  | @inside _ past rest hearly hcalls _ _ =>
    rw [hcalls] at hc
    cases rest with
    | nil =>
      cases hc
      exact hrelease
    | cons d rest =>
      cases hc
      exact (p.quiet_early c (by rw [hearly]; simp)).not_reads
  | @released _ past rest hlate hcalls _ _ =>
    rw [hcalls] at hc
    have hmem : c ∈ p.late := by
      rw [hlate]
      exact List.mem_append_right _ (List.mem_of_mem_head? hc)
    exact (p.quiet_late c hmem).not_reads

/-- A released plan without calls left has written everything. -/
theorem Stage.whole (h : Stage temporary target p vol t phase) (hdone : t.calls = []) :
    ∃ i, phase = .released i ∧ (vol.inodes i).content = p.whole := by
  cases h with
  | ready hcalls =>
    rw [hdone] at hcalls
    cases hcalls
  | opened hcalls _ =>
    rw [hdone] at hcalls
    cases hcalls
  | inside _ _ hcalls _ _ =>
    rw [hdone] at hcalls
    exact absurd hcalls.symm (by simp)
  | @released i past rest hlate hcalls _ hcontent =>
    have hpast : p.late = past := by
      rw [hlate, ← hcalls, hdone, List.append_nil]
    exact ⟨i, rfl, by rw [hcontent, Plan.whole, hpast]⟩

end Stages

section Quiet

variable [DecidableEq ν] (defaults : Defaults β μ) {vol : Volume ν β μ} {t : Task ν β μ}

/-- What a quiet call does: it may write at the end of its own file. -/
theorem Call.Quiet.run {c : Call ν β μ} (h : c.Quiet) {i : Nat}
    (hdesc : t.descriptor = some ⟨i, (vol.inodes i).content.length⟩) :
    (c.run defaults vol t).1.names = vol.names ∧ (c.run defaults vol t).1.next = vol.next ∧
      ((c.run defaults vol t).1.inodes i).content = (vol.inodes i).content ++ c.bytes ∧
      (∀ j ≠ i, ((c.run defaults vol t).1.inodes j).content = (vol.inodes j).content) ∧
      (c.run defaults vol t).2.calls = t.calls ∧
      (c.run defaults vol t).2.descriptor =
        some ⟨i, ((vol.inodes i).content ++ c.bytes).length⟩ := by
  cases h with
  | write bytes =>
    simp only [Call.run, hdesc, Volume.setContent, overwrite_end, Call.bytes]
    refine ⟨rfl, rfl, by simp, ?_, trivial, by simp⟩
    intro j hj
    rw [Volume.modify_other _ hj]
  | stat name =>
    simp only [Call.run, Call.bytes, List.append_nil]
    cases vol.file name with
    | none => exact ⟨rfl, rfl, rfl, fun _ _ => rfl, rfl, hdesc⟩
    | some file => exact ⟨rfl, rfl, rfl, fun _ _ => rfl, rfl, hdesc⟩
  | change name f =>
    simp only [Call.run, Call.bytes, List.append_nil]
    cases hname : vol.names name with
    | none =>
      rw [Volume.change_none hname]
      exact ⟨rfl, rfl, rfl, fun _ _ => rfl, trivial, hdesc⟩
    | some k =>
      rw [Volume.change_some hname]
      have hsame : ∀ j, ((vol.modify k fun file =>
          { file with attrs := f t.found file.attrs }).inodes j).content =
          (vol.inodes j).content := by
        intro j
        by_cases hj : j = k
        · rw [hj, Volume.modify_self]
        · rw [Volume.modify_other _ hj]
      exact ⟨rfl, rfl, hsame i, fun j _ => hsame j, trivial, hdesc⟩

end Quiet

/-! ## Several plans -/

section Plans

variable {ι : Type}

/-- Each task with a plan is in a phase of it and writes to an inode of its own; a task without a
plan has no descriptor. -/
structure Separate (temporary target : ν) (plan : ι → Option (Plan ν β μ)) (phase : ι → Phase)
    (s : System ι ν β μ) : Prop where
  idle : ∀ i, plan i = none → phase i = .ready ∧ (s.tasks i).descriptor = none
  stage : ∀ i p, plan i = some p → Stage temporary target p s.volume (s.tasks i) (phase i)
  allocated : ∀ i k, (phase i).inode = some k → k < s.volume.next
  own : ∀ i j k, (phase i).inode = some k → (phase j).inode = some k → i = j

/-- The temporary name belongs to the plan in between, and the target to the last one that was
renamed to it. -/
structure Named (temporary target : ν) (before : Option (List β))
    (plan : ι → Option (Plan ν β μ)) (phase : ι → Phase) (vol : Volume ν β μ) : Prop where
  holder : ∀ i k, (phase i).Holds → (phase i).inode = some k → vol.names temporary = some k
  stale : (∀ i, ¬ (phase i).Holds) → ∀ k, vol.names temporary = some k →
    vol.names target ≠ some k ∧ ∀ i, (phase i).inode ≠ some k
  outcome : (∃ i p k, plan i = some p ∧ p.commits = true ∧ phase i = .released k ∧
      vol.names target = some k) ∨
    ((∀ i p k, plan i = some p → phase i = .released k → p.commits = false) ∧
      vol.content target = before ∧
      ∀ i k, (phase i).inode = some k → vol.names target ≠ some k)

/-- The state of a system in which every task either has a plan or does nothing. -/
structure Exclusive (temporary target : ν) (before : Option (List β))
    (plan : ι → Option (Plan ν β μ)) (phase : ι → Phase) (s : System ι ν β μ) : Prop where
  separate : Separate temporary target plan phase s
  named : Named temporary target before plan phase s.volume

variable {temporary target : ν} {before : Option (List β)} {plan : ι → Option (Plan ν β μ)}
  {phase : ι → Phase} {s : System ι ν β μ} {i : ι} {p : Plan ν β μ}

theorem Exclusive.start {vol : Volume ν β μ} {tasks : ι → Task ν β μ}
    (hstale : ∀ k, vol.names temporary = some k → vol.names target ≠ some k)
    (hplan : ∀ i p, plan i = some p → (tasks i).calls = p.calls temporary target)
    (hidle : ∀ i, plan i = none → (tasks i).descriptor = none) :
    Exclusive temporary target (vol.content target) plan (fun _ => .ready)
      { volume := vol, tasks := tasks } := by
  refine ⟨⟨?_, ?_, ?_, ?_⟩, ⟨?_, ?_, ?_⟩⟩
  · exact fun i hi => ⟨rfl, hidle i hi⟩
  · exact fun i p hp => .ready (hplan i p hp)
  · intro i k hk
    cases hk
  · intro i j k hk
    cases hk
  · exact fun i k hi => hi.elim
  · intro _ k hk
    exact ⟨hstale k hk, fun i => by simp [Phase.inode]⟩
  · right
    refine ⟨?_, rfl, ?_⟩
    · intro i p k _ hk
      cases hk
    · intro i k hk
      cases hk

/-- When every task has come to its end, the target holds what one plan wrote, or nobody has
committed and it is as before. -/
theorem Exclusive.outcome (h : Exclusive temporary target before plan phase s)
    (hdone : ∀ i, (s.tasks i).calls = []) :
    (∃ i p, plan i = some p ∧ p.commits = true ∧ s.volume.content target = some p.whole) ∨
      ((∀ i p, plan i = some p → p.commits = false) ∧ s.volume.content target = before) := by
  have hwhole : ∀ i p, plan i = some p →
      ∃ k, phase i = .released k ∧ (s.volume.inodes k).content = p.whole :=
    fun i p hp => (h.separate.stage i p hp).whole (hdone i)
  rcases h.named.outcome with ⟨i, p, k, hp, hcommits, hphase, hk⟩ | ⟨hnone, hkept, _⟩
  · left
    obtain ⟨m, hm, hcontent⟩ := hwhole i p hp
    rw [hphase] at hm
    cases hm
    refine ⟨i, p, hp, hcommits, ?_⟩
    unfold Volume.content Volume.file
    rw [hk, Option.map_some, Option.map_some, hcontent]
  · right
    refine ⟨?_, hkept⟩
    intro i p hp
    obtain ⟨k, hk, _⟩ := hwhole i p hp
    exact hnone i p k hp hk

def Task.Busy (temporary : ν) (t : Task ν β μ) : Prop :=
  t.descriptor ≠ none ∧ ∃ c ∈ t.calls, c.Releases temporary

instance [DecidableEq ν] (temporary : ν) (t : Task ν β μ) : Decidable (t.Busy temporary) :=
  inferInstanceAs (Decidable (_ ∧ _))

/-- Nobody opens the temporary name while another task is busy with it. -/
def Turn (temporary : ν) (s : System ι ν β μ) (i : ι) : Prop :=
  (∃ c ∈ (s.tasks i).calls.head?, c.Opens temporary) → ∀ j ≠ i, ¬ (s.tasks j).Busy temporary

theorem Stage.busy {vol : Volume ν β μ} {t : Task ν β μ} {after : Phase}
    (h : Stage temporary target p vol t after) (hholds : after.Holds) : t.Busy temporary := by
  have hrelease := p.release_releases temporary target
  cases h with
  | ready _ => exact hholds.elim
  | opened hcalls hdesc =>
    refine ⟨by rw [hdesc]; simp, p.release temporary target, ?_, hrelease⟩
    rw [hcalls]
    simp
  | inside _ _ hcalls hdesc _ =>
    refine ⟨by rw [hdesc]; simp, p.release temporary target, ?_, hrelease⟩
    rw [hcalls]
    simp
  | released _ _ _ _ _ => exact hholds.elim

variable [DecidableEq ι]

theorem Separate.step (h : Separate temporary target plan phase s) (hplan : plan i = some p)
    {vol : Volume ν β μ} {t : Task ν β μ} {after : Phase} {k : Nat}
    (hstage : Stage temporary target p vol t after) (hafter : after.inode = some k)
    (hfresh : ∀ j ≠ i, (phase j).inode ≠ some k) (hk : k < vol.next)
    (hnext : s.volume.next ≤ vol.next)
    (hcontent : ∀ j ≠ k, (vol.inodes j).content = (s.volume.inodes j).content) :
    Separate temporary target plan (Function.update phase i after)
      { volume := vol, tasks := Function.update s.tasks i t } := by
  constructor
  · intro j hj
    have hne : j ≠ i := by
      rintro rfl
      rw [hplan] at hj
      cases hj
    rw [Function.update_of_ne hne]
    show _ ∧ (Function.update s.tasks i t j).descriptor = none
    rw [Function.update_of_ne hne]
    exact h.idle j hj
  · intro j q hj
    by_cases hne : j = i
    · subst hne
      rw [hplan] at hj
      cases hj
      rw [Function.update_self]
      show Stage temporary target p vol (Function.update s.tasks j t j) after
      rw [Function.update_self]
      exact hstage
    · rw [Function.update_of_ne hne]
      show Stage temporary target q vol (Function.update s.tasks i t j) (phase j)
      rw [Function.update_of_ne hne]
      apply (h.stage j q hj).frame
      intro m hm
      apply hcontent
      rintro rfl
      exact hfresh j hne hm
  · intro j m hm
    by_cases hne : j = i
    · subst hne
      rw [Function.update_self, hafter] at hm
      cases hm
      exact hk
    · rw [Function.update_of_ne hne] at hm
      exact Nat.lt_of_lt_of_le (h.allocated j m hm) hnext
  · intro j l m hj hl
    by_cases hji : j = i
    · by_cases hli : l = i
      · rw [hji, hli]
      · rw [hji, Function.update_self, hafter] at hj
        cases hj
        rw [Function.update_of_ne hli] at hl
        exact absurd hl (hfresh l hli)
    · rw [Function.update_of_ne hji] at hj
      by_cases hli : l = i
      · rw [hli, Function.update_self, hafter] at hl
        cases hl
        exact absurd hj (hfresh j hji)
      · rw [Function.update_of_ne hli] at hl
        exact h.own j l m hj hl

omit [DecidableEq ι] in
/-- The file in the making is not the target yet. -/
theorem Named.distinct (h : Named temporary target before plan phase s.volume)
    (hsep : Separate temporary target plan phase s) {k : Nat} (hinode : (phase i).inode = some k)
    (hholds : (phase i).Holds) : s.volume.names target ≠ some k := by
  rcases h.outcome with ⟨j, q, m, hj, hq, hphase, hm⟩ | ⟨_, _, hothers⟩
  · intro hk
    rw [hm] at hk
    cases hk
    have hji := hsep.own j i k (by rw [hphase]; rfl) hinode
    rw [← hji, hphase] at hholds
    exact hholds
  · exact hothers i k hinode

theorem Named.keep (h : Named temporary target before plan phase s.volume) {vol : Volume ν β μ}
    {k : Nat} {after : Phase} (hbefore : (phase i).inode = some k) (hafter : after.inode = some k)
    (hholds : after.Holds ↔ (phase i).Holds)
    (hnames : vol.names = s.volume.names)
    (hcontent : ∀ j ≠ k, (vol.inodes j).content = (s.volume.inodes j).content) :
    Named temporary target before plan (Function.update phase i after) vol := by
  have hinode : ∀ j, (Function.update phase i after j).inode = (phase j).inode := by
    intro j
    by_cases hj : j = i
    · rw [hj, Function.update_self, hafter, hbefore]
    · rw [Function.update_of_ne hj]
  have hsame : ∀ j, (Function.update phase i after j).Holds ↔ (phase j).Holds := by
    intro j
    by_cases hj : j = i
    · rw [hj, Function.update_self, hholds]
    · rw [Function.update_of_ne hj]
  have hreleased : ∀ j m, Function.update phase i after j = .released m ↔ phase j =
      .released m := by
    intro j m
    by_cases hj : j = i
    · subst hj
      rw [Function.update_self]
      cases hphase : phase j <;> cases after <;>
        simp_all [Phase.inode, Phase.Holds]
    · rw [Function.update_of_ne hj]
  constructor
  · intro j m hj hm
    rw [hnames]
    exact h.holder j m ((hsame j).mp hj) ((hinode j).symm.trans hm)
  · intro hfree m hm
    rw [hnames] at hm ⊢
    obtain ⟨htarget, hothers⟩ := h.stale (fun j hj => hfree j ((hsame j).mpr hj)) m hm
    refine ⟨htarget, ?_⟩
    intro j
    rw [hinode]
    exact hothers j
  · rcases h.outcome with ⟨j, q, m, hj, hq, hphase, hm⟩ | ⟨hnone, hkept, hothers⟩
    · left
      exact ⟨j, q, m, hj, hq, (hreleased j m).mpr hphase, by rw [hnames, hm]⟩
    · right
      refine ⟨fun j q m hj hm => hnone j q m hj ((hreleased j m).mp hm), ?_, ?_⟩
      · rw [← hkept]
        apply Volume.content_congr (by rw [hnames])
        intro m hname
        apply hcontent
        rintro rfl
        exact hothers i m hbefore hname
      · intro j m hm
        rw [hnames]
        exact hothers j m ((hinode j).symm.trans hm)

instance [DecidableEq ν] [Fintype ι] (temporary : ν) (s : System ι ν β μ) (i : ι) :
    Decidable (Turn temporary s i) :=
  inferInstanceAs (Decidable (_ → _))

theorem Exclusive.free (h : Exclusive temporary target before plan phase s)
    (hready : phase i = .ready) (hturn : ∀ j ≠ i, ¬ (s.tasks j).Busy temporary) (j : ι) :
    ¬ (phase j).Holds := by
  intro hj
  by_cases hji : j = i
  · rw [hji, hready] at hj
    exact hj
  · cases hplan : plan j with
    | none =>
      rw [(h.separate.idle j hplan).1] at hj
      exact hj
    | some q => exact hturn j hji ((h.separate.stage j q hplan).busy hj)

theorem Exclusive.assign (h : Exclusive temporary target before plan phase s)
    (hplan : plan i = none) {t : Task ν β μ} (hcalls : t.calls = p.calls temporary target) :
    Exclusive temporary target before (Function.update plan i (some p)) phase
      { s with tasks := Function.update s.tasks i t } := by
  obtain ⟨hready, _⟩ := h.separate.idle i hplan
  have hother : ∀ j q, Function.update plan i (some p) j = some q → phase j ≠ .ready →
      plan j = some q := by
    intro j q hj hphase
    have hji : j ≠ i := by
      rintro rfl
      exact hphase hready
    rw [Function.update_of_ne hji] at hj
    exact hj
  refine ⟨⟨?_, ?_, h.separate.allocated, h.separate.own⟩, ⟨h.named.holder, h.named.stale, ?_⟩⟩
  · intro j hj
    have hji : j ≠ i := by
      rintro rfl
      rw [Function.update_self] at hj
      cases hj
    rw [Function.update_of_ne hji] at hj
    show _ ∧ (Function.update s.tasks i t j).descriptor = none
    rw [Function.update_of_ne hji]
    exact h.separate.idle j hj
  · intro j q hj
    show Stage temporary target q s.volume (Function.update s.tasks i t j) (phase j)
    by_cases hji : j = i
    · subst hji
      rw [Function.update_self] at hj
      cases hj
      rw [Function.update_self, hready]
      exact .ready hcalls
    · rw [Function.update_of_ne hji] at hj ⊢
      exact h.separate.stage j q hj
  · rcases h.named.outcome with ⟨j, q, k, hj, hq, hphase, hk⟩ | ⟨hnone, hkept, hothers⟩
    · have hji : j ≠ i := by
        rintro rfl
        rw [hready] at hphase
        cases hphase
      left
      exact ⟨j, q, k, by rw [Function.update_of_ne hji, hj], hq, hphase, hk⟩
    · right
      refine ⟨?_, hkept, hothers⟩
      intro j q k hj hphase
      exact hnone j q k (hother j q hj (by rw [hphase]; simp)) hphase

section Turns

variable [DecidableEq ν] {defaults : Defaults β μ}

theorem Named.open (hne : temporary ≠ target)
    (hsep : Separate temporary target plan phase s)
    (h : Named temporary target before plan phase s.volume)
    (hready : phase i = .ready) (hfree : ∀ j, ¬ (phase j).Holds) {vol : Volume ν β μ} {k : Nat}
    (hopen : s.volume.openWrite defaults temporary = (vol, k)) :
    Named temporary target before plan (Function.update phase i (.opened k)) vol ∧
      (∀ j, (phase j).inode ≠ some k) ∧ k < vol.next ∧ s.volume.next ≤ vol.next ∧
      ∀ j ≠ k, (vol.inodes j).content = (s.volume.inodes j).content := by
  have hheld : ∀ j, (Function.update phase i (.opened k) j).Holds → j = i := by
    intro j hj
    by_contra hji
    rw [Function.update_of_ne hji] at hj
    exact hfree j hj
  have hname : vol.names temporary = some k ∧ vol.names target = s.volume.names target ∧
      s.volume.names target ≠ some k ∧ (∀ j, (phase j).inode ≠ some k) ∧ k < vol.next ∧
      s.volume.next ≤ vol.next ∧
      ∀ j ≠ k, (vol.inodes j).content = (s.volume.inodes j).content := by
    cases hnames : s.volume.names temporary with
    | some m =>
      rw [Volume.openWrite_some hnames] at hopen
      cases hopen
      obtain ⟨htarget, hothers⟩ := h.stale hfree _ hnames
      exact ⟨hnames, rfl, htarget, hothers, s.volume.allocated _ _ hnames, Nat.le_refl _,
        fun _ _ => rfl⟩
    | none =>
      obtain ⟨hk, hnew, hinodes, hnext⟩ := Volume.openWrite_none defaults hnames
      rw [hopen] at hk hnew hinodes hnext
      simp only at hk hnew hinodes hnext
      subst hk
      refine ⟨?_, ?_, ?_, ?_, by omega, by omega, ?_⟩
      · rw [hnew, Function.update_self]
      · rw [hnew, Function.update_of_ne (Ne.symm hne)]
      · intro htarget
        exact Nat.lt_irrefl _ (s.volume.allocated _ _ htarget)
      · intro j hj
        exact Nat.lt_irrefl _ (hsep.allocated j _ hj)
      · intro j hj
        rw [hinodes, Function.update_of_ne hj]
  obtain ⟨htemporary, htarget, hdistinct, hothers, hk, hnext, hcontent⟩ := hname
  refine ⟨⟨?_, ?_, ?_⟩, hothers, hk, hnext, hcontent⟩
  · intro j m hj hm
    have hji := hheld j hj
    subst hji
    rw [Function.update_self] at hm
    cases hm
    exact htemporary
  · intro hnobody
    exact absurd trivial (by simpa [Phase.Holds] using hnobody i)
  · rcases h.outcome with ⟨j, q, m, hj, hq, hphase, hm⟩ | ⟨hnone, hkept, hinode⟩
    · have hji : j ≠ i := by
        rintro rfl
        rw [hready] at hphase
        cases hphase
      left
      exact ⟨j, q, m, hj, hq, by rw [Function.update_of_ne hji, hphase], by rw [htarget, hm]⟩
    · right
      refine ⟨?_, ?_, ?_⟩
      · intro j q m hj hm
        have hji : j ≠ i := by
          rintro rfl
          rw [Function.update_self] at hm
          cases hm
        rw [Function.update_of_ne hji] at hm
        exact hnone j q m hj hm
      · rw [← hkept]
        apply Volume.content_congr htarget
        intro m hname
        apply hcontent
        rintro rfl
        exact hdistinct hname
      · intro j m hm
        rw [htarget]
        by_cases hji : j = i
        · rw [hji, Function.update_self] at hm
          cases hm
          exact hdistinct
        · rw [Function.update_of_ne hji] at hm
          exact hinode j m hm

theorem Named.release (defaults : Defaults β μ) (hne : temporary ≠ target)
    (hsep : Separate temporary target plan phase s)
    (h : Named temporary target before plan phase s.volume) (hplan : plan i = some p) {k : Nat}
    (hinside : phase i = .inside k) (t : Task ν β μ) :
    ∃ vol, (p.release temporary target).run defaults s.volume t = (vol, t) ∧
      Named temporary target before plan (Function.update phase i (.released k)) vol ∧
      vol.next = s.volume.next ∧ vol.inodes = s.volume.inodes := by
  have hinode : (phase i).inode = some k := by rw [hinside]; rfl
  have htemporary : s.volume.names temporary = some k :=
    h.holder i k (by rw [hinside]; trivial) hinode
  have hdistinct := h.distinct hsep hinode (by rw [hinside]; trivial)
  have hfree : ∀ j, ¬ (Function.update phase i (.released k) j).Holds := by
    intro j hj
    by_cases hji : j = i
    · rw [hji, Function.update_self] at hj
      exact hj
    · rw [Function.update_of_ne hji] at hj
      have hheld : ∃ m, (phase j).inode = some m := by
        cases hphase : phase j with
        | opened m => exact ⟨m, rfl⟩
        | inside m => exact ⟨m, rfl⟩
        | ready =>
          rw [hphase] at hj
          exact hj.elim
        | released m => exact ⟨m, rfl⟩
      obtain ⟨m, hm⟩ := hheld
      have hsame := h.holder j m hj hm
      rw [htemporary] at hsame
      cases hsame
      exact hji (hsep.own j i k hm hinode)
  by_cases hcommits : p.commits = true
  · have hcall : p.release temporary target = .rename temporary target := if_pos hcommits
    obtain ⟨hnames, hinodes, hnext⟩ := Volume.rename_some htemporary hdistinct
    refine ⟨s.volume.rename temporary target, by rw [hcall]; rfl, ⟨?_, ?_, ?_⟩, hnext, hinodes⟩
    · exact fun j _ hj => absurd hj (hfree j)
    · intro _ m hm
      rw [hnames, Function.update_self] at hm
      cases hm
    · left
      refine ⟨i, p, k, hplan, hcommits, Function.update_self .., ?_⟩
      rw [hnames, Function.update_of_ne (Ne.symm hne), Function.update_self]
  · have hcall : p.release temporary target = .unlink temporary := if_neg hcommits
    have hnames : (s.volume.unlink temporary).names =
        Function.update s.volume.names temporary none := rfl
    have htarget : (s.volume.unlink temporary).names target = s.volume.names target := by
      rw [hnames, Function.update_of_ne (Ne.symm hne)]
    refine ⟨s.volume.unlink temporary, by rw [hcall]; rfl, ⟨?_, ?_, ?_⟩, rfl, rfl⟩
    · exact fun j _ hj => absurd hj (hfree j)
    · intro _ m hm
      rw [hnames, Function.update_self] at hm
      cases hm
    · rcases h.outcome with ⟨j, q, m, hj, hq, hphase, hm⟩ | ⟨hnone, hkept, hothers⟩
      · have hji : j ≠ i := by
          rintro rfl
          rw [hinside] at hphase
          cases hphase
        left
        exact ⟨j, q, m, hj, hq, by rw [Function.update_of_ne hji, hphase], by rw [htarget, hm]⟩
      · right
        refine ⟨?_, ?_, ?_⟩
        · intro j q m hj hm
          by_cases hji : j = i
          · subst hji
            rw [hplan] at hj
            cases hj
            simpa using hcommits
          · rw [Function.update_of_ne hji] at hm
            exact hnone j q m hj hm
        · rw [← hkept]
          exact Volume.content_congr htarget fun _ _ => rfl
        · intro j m hm
          rw [htarget]
          by_cases hji : j = i
          · subst hji
            rw [Function.update_self] at hm
            cases hm
            exact hdistinct
          · rw [Function.update_of_ne hji] at hm
            exact hothers j m hm

theorem step_cons {c : Call ν β μ} {rest : List (Call ν β μ)}
    (hcalls : (s.tasks i).calls = c :: rest) :
    s.step defaults i =
      { volume := (c.run defaults s.volume { s.tasks i with calls := rest }).1
        tasks := Function.update s.tasks i
          (c.run defaults s.volume { s.tasks i with calls := rest }).2 } := by
  unfold System.step Task.step
  rw [hcalls]

theorem step_other {j : ι} (hj : j ≠ i) : (s.step defaults i).tasks j = s.tasks j :=
  Function.update_of_ne hj ..

theorem step_nil (hcalls : (s.tasks i).calls = []) : s.step defaults i = s := by
  unfold System.step Task.step
  rw [hcalls]
  simp only [Function.update_eq_self]

theorem Exclusive.quiet (h : Exclusive temporary target before plan phase s)
    (hplan : plan i = some p) {c : Call ν β μ} {rest : List (Call ν β μ)}
    (hcalls : (s.tasks i).calls = c :: rest) (hc : c.Quiet) {k : Nat}
    (hinode : (phase i).inode = some k)
    (hdesc : (s.tasks i).descriptor = some ⟨k, (s.volume.inodes k).content.length⟩)
    (hstage : ∀ vol t, t.calls = rest →
      (vol.inodes k).content = (s.volume.inodes k).content ++ c.bytes →
      t.descriptor = some ⟨k, ((s.volume.inodes k).content ++ c.bytes).length⟩ →
      Stage temporary target p vol t (phase i)) :
    Exclusive temporary target before plan phase (s.step defaults i) := by
  have hdesc' : ({ s.tasks i with calls := rest } : Task ν β μ).descriptor =
      some ⟨k, (s.volume.inodes k).content.length⟩ := hdesc
  obtain ⟨hnames, hnext, hself, hother, hrest, hend⟩ := hc.run defaults hdesc'
  have hphase : Function.update phase i (phase i) = phase := Function.update_eq_self ..
  rw [step_cons hcalls]
  have hfresh : ∀ j ≠ i, (phase j).inode ≠ some k := by
    intro j hji hj
    exact hji (h.separate.own j i k hj hinode)
  constructor
  · rw [← hphase]
    apply h.separate.step hplan (hstage _ _ hrest hself hend) hinode hfresh
    · rw [hnext]
      exact h.separate.allocated i k hinode
    · exact Nat.le_of_eq hnext.symm
    · exact hother
  · rw [← hphase]
    exact h.named.keep hinode hinode Iff.rfl hnames hother

theorem Exclusive.step (hne : temporary ≠ target)
    (h : Exclusive temporary target before plan phase s) (hturn : Turn temporary s i)
    (hidle : plan i = none → (s.tasks i).calls = []) :
    ∃ phase, Exclusive temporary target before plan phase (s.step defaults i) := by
  cases hplan : plan i with
  | none =>
    rw [step_nil (hidle hplan)]
    exact ⟨phase, h⟩
  | some p =>
    have hstage := h.separate.stage i p hplan
    cases hphase : phase i with
    | ready =>
      rw [hphase] at hstage
      cases hstage with
      | ready hcalls =>
        have hfree := h.free hphase (hturn ⟨.openWrite temporary, by rw [hcalls]; rfl, rfl⟩)
        cases hopen : s.volume.openWrite defaults temporary with
        | mk vol k =>
          obtain ⟨hnamed, hfresh, hk, hnext, hcontent⟩ :=
            h.named.open hne h.separate hphase hfree hopen
          have hrun : ∀ t, (Call.openWrite temporary).run defaults s.volume t =
              (vol, { t with descriptor := some ⟨k, 0⟩ }) := by
            intro t
            simp only [Call.run, hopen]
          rw [step_cons hcalls, hrun]
          refine ⟨Function.update phase i (.opened k), ?_, hnamed⟩
          exact h.separate.step hplan (.opened rfl rfl) rfl (fun j _ => hfresh j) hk hnext hcontent
    | opened k =>
      rw [hphase] at hstage
      cases hstage with
      | opened hcalls hdesc =>
        have hinode : (phase i).inode = some k := by rw [hphase]; rfl
        have hrun : Call.truncate.run defaults s.volume
            { s.tasks i with calls := p.early ++ p.release temporary target :: p.late } =
            (s.volume.setContent k [],
              { s.tasks i with calls := p.early ++ p.release temporary target :: p.late }) := by
          simp only [Call.run, hdesc]
        have hcontent : ∀ j ≠ k, ((s.volume.setContent k []).inodes j).content =
            (s.volume.inodes j).content := by
          intro j hj
          rw [Volume.setContent, Volume.modify_other _ hj]
        rw [step_cons hcalls, hrun]
        refine ⟨Function.update phase i (.inside k), ?_, ?_⟩
        · apply h.separate.step hplan (k := k)
          · refine .inside [] rfl rfl hdesc ?_
            rw [Volume.setContent, Volume.modify_self]
            rfl
          · rfl
          · intro j hji hj
            exact hji (h.separate.own j i k hj hinode)
          · exact h.separate.allocated i k hinode
          · exact Nat.le_refl _
          · exact hcontent
        · refine h.named.keep hinode rfl ?_ rfl hcontent
          rw [hphase]
          exact Iff.rfl
    | inside k =>
      rw [hphase] at hstage
      have hinode : (phase i).inode = some k := by rw [hphase]; rfl
      cases hstage with
      | @inside _ past rest hearly hcalls hdesc hcontent =>
        cases rest with
        | nil =>
          obtain ⟨vol, hrun, hnamed, hnext, hinodes⟩ :=
            h.named.release defaults hne h.separate hplan hphase
              { s.tasks i with calls := p.late }
          have hpast : p.early = past := by rw [hearly, List.append_nil]
          rw [step_cons hcalls, hrun]
          refine ⟨Function.update phase i (.released k), ?_, hnamed⟩
          apply h.separate.step hplan (k := k)
          · refine .released [] rfl rfl ?_ ?_
            · rw [List.append_nil, hpast]
              exact hdesc
            · rw [hinodes, List.append_nil, hpast, hcontent]
          · rfl
          · intro j hji hj
            exact hji (h.separate.own j i k hj hinode)
          · rw [hnext]
            exact h.separate.allocated i k hinode
          · exact Nat.le_of_eq hnext.symm
          · intro j _
            rw [hinodes]
        | cons c rest =>
          have hc : c.Quiet := p.quiet_early c (by rw [hearly]; simp)
          refine ⟨phase, h.quiet hplan hcalls hc hinode (by rw [hcontent]; exact hdesc) ?_⟩
          intro vol t ht hvol hend
          rw [hphase]
          refine .inside (past ++ [c]) (by rw [hearly]; simp) ht ?_ ?_
          · rw [hend, hcontent]
            simp
          · rw [hvol, hcontent]
            simp
    | released k =>
      rw [hphase] at hstage
      have hinode : (phase i).inode = some k := by rw [hphase]; rfl
      cases hstage with
      | @released _ past rest hlate hcalls hdesc hcontent =>
        cases rest with
        | nil =>
          rw [step_nil hcalls]
          exact ⟨phase, h⟩
        | cons c rest =>
          have hc : c.Quiet := p.quiet_late c (by rw [hlate]; simp)
          refine ⟨phase, h.quiet hplan hcalls hc hinode (by rw [hcontent]; exact hdesc) ?_⟩
          intro vol t ht hvol hend
          rw [hphase]
          refine .released (past ++ [c]) (by rw [hlate]; simp) ht ?_ ?_
          · rw [hend, hcontent]
            simp
          · rw [hvol, hcontent]
            simp

/-- What a step does to the target when the plan writes nothing behind its rename. -/
theorem Exclusive.target_step (hne : temporary ≠ target)
    (h : Exclusive temporary target before plan phase s) (hplan : plan i = some p)
    (hcommits : p.commits = true) (hlate : p.late = []) :
    (s.tasks i).calls = [] ∨
      (((s.step defaults i).tasks i).calls ≠ [] ∧
        (s.step defaults i).volume.content target = s.volume.content target) ∨
      (((s.step defaults i).tasks i).calls = [] ∧
        (s.step defaults i).volume.content target = some p.whole) := by
  have htask : ∀ (c : Call ν β μ) rest, (s.tasks i).calls = c :: rest →
      ((s.step defaults i).tasks i) =
        (c.run defaults s.volume { s.tasks i with calls := rest }).2 := by
    intro c rest hcalls
    rw [step_cons hcalls]
    exact Function.update_self ..
  have hvolume : ∀ (c : Call ν β μ) rest, (s.tasks i).calls = c :: rest →
      (s.step defaults i).volume =
        (c.run defaults s.volume { s.tasks i with calls := rest }).1 := by
    intro c rest hcalls
    rw [step_cons hcalls]
  have hstage := h.separate.stage i p hplan
  cases hphase : phase i with
  | ready =>
    rw [hphase] at hstage
    cases hstage with
    | ready hcalls =>
      right
      left
      rw [htask _ _ hcalls, hvolume _ _ hcalls]
      refine ⟨by simp [Call.run], ?_⟩
      unfold Volume.content
      exact congrArg _ (Volume.openWrite_other (Ne.symm hne) s.volume)
  | opened k =>
    have hdistinct := h.named.distinct h.separate (k := k) (by rw [hphase]; rfl)
      (by rw [hphase]; trivial)
    rw [hphase] at hstage
    cases hstage with
    | opened hcalls hdesc =>
      right
      left
      rw [htask _ _ hcalls, hvolume _ _ hcalls]
      simp only [Call.run, hdesc]
      refine ⟨by simp, Volume.content_congr rfl ?_⟩
      intro m hm
      unfold Volume.setContent
      rw [Volume.modify_other]
      rintro rfl
      exact hdistinct hm
  | inside k =>
    have hinode : (phase i).inode = some k := by rw [hphase]; rfl
    have hdistinct := h.named.distinct h.separate hinode (by rw [hphase]; trivial)
    have htemporary := h.named.holder i k (by rw [hphase]; trivial) hinode
    rw [hphase] at hstage
    cases hstage with
    | @inside _ past rest hearly hcalls hdesc hcontent =>
      cases rest with
      | nil =>
        right
        right
        have hrelease : p.release temporary target = .rename temporary target := if_pos hcommits
        rw [hlate] at hcalls
        rw [htask _ _ hcalls, hvolume _ _ hcalls, hrelease]
        refine ⟨rfl, ?_⟩
        obtain ⟨hnames, hinodes, _⟩ := Volume.rename_some htemporary hdistinct
        simp only [Call.run]
        unfold Volume.content Volume.file
        rw [hnames, hinodes, Function.update_of_ne (Ne.symm hne), Function.update_self,
          Option.map_some, Option.map_some, hcontent, Plan.whole, hlate, hearly]
        simp only [List.append_nil]
      | cons c rest =>
        have hc : c.Quiet := p.quiet_early c (by rw [hearly]; simp)
        rw [← hcontent] at hdesc
        rw [List.cons_append] at hcalls
        obtain ⟨hnames, _, _, hother, hrest, _⟩ :=
          hc.run defaults (t := { s.tasks i with
            calls := rest ++ p.release temporary target :: p.late }) hdesc
        right
        left
        rw [htask _ _ hcalls, hvolume _ _ hcalls]
        refine ⟨by rw [hrest]; simp, Volume.content_congr (by rw [hnames]) ?_⟩
        intro m hm
        apply hother
        rintro rfl
        exact hdistinct hm
  | released k =>
    rw [hphase] at hstage
    cases hstage with
    | @released _ past rest hsplit hcalls _ _ =>
      left
      rw [hlate] at hsplit
      rw [hcalls]
      exact (List.append_eq_nil_iff.mp hsplit.symm).2

/-- Wherever turns are respected, every task is in a phase of its plan. -/
theorem Exclusive.run (hne : temporary ≠ target)
    (h : Exclusive temporary target before plan phase s)
    (hidle : ∀ i, plan i = none → (s.tasks i).calls = []) {schedule : List ι}
    (hturns : Runs.Guarded (System.step defaults) (Turn temporary) s schedule) :
    ∃ phase, Exclusive temporary target before plan phase
      (Runs.run (System.step defaults) s schedule) := by
  have hkeep : ∀ s i, ((∃ phase, Exclusive temporary target before plan phase s) ∧
        ∀ i, plan i = none → (s.tasks i).calls = []) → Turn temporary s i →
      ((∃ phase, Exclusive temporary target before plan phase (s.step defaults i)) ∧
        ∀ j, plan j = none → ((s.step defaults i).tasks j).calls = []) := by
    rintro s i ⟨⟨phase, hphase⟩, hnone⟩ hturn
    refine ⟨hphase.step hne hturn (hnone i), ?_⟩
    intro j hj
    by_cases hji : j = i
    · subst hji
      rw [step_nil (hnone j hj)]
      exact hnone j hj
    · rw [step_other hji]
      exact hnone j hj
  exact (Runs.invariant hkeep ⟨⟨phase, h⟩, hidle⟩ hturns).1

end Turns

end Plans

end Files
