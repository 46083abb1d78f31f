import Invocation.Lib.Rewrite

/-!
# Readers of a file that is rewritten

A reader opens the target once and reads it in pieces, between the steps of
the tasks that rewrite it. It stays with the file that it has opened, which
behind its rename can only grow; and it does not even do that when no plan
brings bytes late.
-/

namespace Files

set_option autoImplicit false

variable {ι κ ν β μ : Type}

inductive Reader (β : Type)
  | waiting
  | absent
  | reading (inode : Nat) (got : List β)
  | done (got : List β)

/-- The next piece, of at most `n + 1` bytes; none is the end of the file. -/
def Reader.step (vol : Volume ν β μ) (target : ν) (n : Nat) : Reader β → Reader β
  | .waiting =>
    match vol.names target with
    | none => .absent
    | some k => .reading k []
  | .reading k got =>
    match ((vol.inodes k).content.drop got.length).take (n + 1) with
    | [] => .done got
    | b :: bytes => .reading k (got ++ b :: bytes)
  | .absent => .absent
  | .done got => .done got

structure Shared (ι κ ν β μ : Type) where
  system : System ι ν β μ
  readers : κ → Reader β

inductive Move (ι κ : Type)
  | task (i : ι)
  | reader (j : κ) (n : Nat)

/-- The condition on the tasks' steps. -/
def Move.Ok (ok : System ι ν β μ → ι → Prop) (s : Shared ι κ ν β μ) : Move ι κ → Prop
  | .task i => ok s.system i
  | .reader _ _ => True

instance decidableMoveOk (ok : System ι ν β μ → ι → Prop) [∀ s i, Decidable (ok s i)]
    (s : Shared ι κ ν β μ) : ∀ m : Move ι κ, Decidable (m.Ok ok s)
  | .task i => inferInstanceAs (Decidable (ok s.system i))
  | .reader _ _ => inferInstanceAs (Decidable True)

def Shared.step [DecidableEq ν] [DecidableEq ι] [DecidableEq κ] (defaults : Defaults β μ)
    (target : ν) (s : Shared ι κ ν β μ) : Move ι κ → Shared ι κ ν β μ
  | .task i => { s with system := s.system.step defaults i }
  | .reader j n =>
    { s with readers := Function.update s.readers j ((s.readers j).step s.system.volume target n) }

/-! ## Files that are left alone -/

/-- A file that does not have the temporary name keeps its bytes; new ones may come behind them,
unless everything is silent. -/
structure Undisturbed (temporary : ν) (silent : Prop) (vol vol' : Volume ν β μ) : Prop where
  next : vol.next ≤ vol'.next
  names : ∀ k < vol.next, vol.names temporary ≠ some k → vol'.names temporary ≠ some k
  content : ∀ k < vol.next, vol.names temporary ≠ some k →
    ∃ added, (vol'.inodes k).content = (vol.inodes k).content ++ added ∧ (silent → added = [])

variable {temporary target : ν} {silent : Prop}

theorem Undisturbed.refl (vol : Volume ν β μ) : Undisturbed temporary silent vol vol where
  next := Nat.le_refl _
  names := fun _ _ h => h
  content := fun _ _ _ => ⟨[], (List.append_nil _).symm, fun _ => rfl⟩

/-- What happens to one file, and that is not this one. -/
theorem Undisturbed.of_other {vol vol' : Volume ν β μ} {m : Nat} (hnext : vol.next ≤ vol'.next)
    (hnames : ∀ k < vol.next, vol.names temporary ≠ some k → vol'.names temporary ≠ some k)
    (hcontent : ∀ k ≠ m, (vol'.inodes k).content = (vol.inodes k).content)
    (hm : ∀ k < vol.next, vol.names temporary ≠ some k → k ≠ m) :
    Undisturbed temporary silent vol vol' := by
  refine ⟨hnext, hnames, ?_⟩
  intro k hk htemporary
  refine ⟨[], ?_, fun _ => rfl⟩
  rw [List.append_nil]
  exact hcontent k (hm k hk htemporary)

section Exclusive

variable [DecidableEq ν] [DecidableEq ι] {defaults : Defaults β μ} {before : Option (List β)}
  {plan : ι → Option (Plan ν β μ)} {phase : ι → Phase} {s : System ι ν β μ} {i : ι} {p : Plan ν β μ}

omit [DecidableEq ν] [DecidableEq ι] in
/-- The target is never the file in the making. -/
theorem Exclusive.apart (h : Exclusive temporary target before plan phase s) {k : Nat}
    (htarget : s.volume.names target = some k) : s.volume.names temporary ≠ some k := by
  intro htemporary
  by_cases hheld : ∃ i, (phase i).Holds
  · obtain ⟨i, hi⟩ := hheld
    obtain ⟨m, hm⟩ : ∃ m, (phase i).inode = some m := by
      cases hphase : phase i with
      | ready =>
        rw [hphase] at hi
        exact hi.elim
      | opened m => exact ⟨m, rfl⟩
      | inside m => exact ⟨m, rfl⟩
      | released m => exact ⟨m, rfl⟩
    have hname := h.named.holder i m hi hm
    rw [htemporary] at hname
    cases hname
    exact h.named.distinct h.separate hm hi htarget
  · have hfree : ∀ i, ¬ (phase i).Holds := fun i hi => hheld ⟨i, hi⟩
    exact (h.named.stale hfree k htemporary).1 htarget

theorem undisturbed_open (vol : Volume ν β μ) :
    Undisturbed temporary silent vol (vol.openWrite defaults temporary).1 := by
  cases hname : vol.names temporary with
  | some m =>
    rw [Volume.openWrite_some hname]
    exact .refl vol
  | none =>
    obtain ⟨-, hnames, hinodes, hnext⟩ := Volume.openWrite_none defaults hname
    refine .of_other (m := vol.next) (by omega) ?_ ?_ ?_
    · intro k hk _
      rw [hnames, Function.update_self, Ne, Option.some.injEq]
      omega
    · intro k hk
      rw [hinodes, Function.update_of_ne hk]
    · intro k hk _
      omega

theorem undisturbed_release (vol : Volume ν β μ) (t : Task ν β μ) :
    Undisturbed temporary silent vol ((p.release temporary target).run defaults vol t).1 := by
  have hgone : ∀ vol' : Volume ν β μ, vol'.inodes = vol.inodes → vol'.next = vol.next →
      vol'.names temporary = none → Undisturbed temporary silent vol vol' := by
    intro vol' hinodes hnext hnames
    refine ⟨by omega, ?_, ?_⟩
    · intro k _ _
      rw [hnames]
      exact nofun
    · intro k _ _
      refine ⟨[], ?_, fun _ => rfl⟩
      rw [hinodes, List.append_nil]
  unfold Plan.release
  by_cases hcommits : p.commits = true
  · rw [if_pos hcommits]
    show Undisturbed temporary silent vol (vol.rename temporary target)
    cases htemporary : vol.names temporary with
    | none =>
      rw [Volume.rename_none target htemporary]
      exact .refl vol
    | some k =>
      by_cases hsame : vol.names target = some k
      · rw [Volume.rename_same htemporary hsame]
        exact .refl vol
      · obtain ⟨hnames, hinodes, hnext⟩ := Volume.rename_some htemporary hsame
        exact hgone _ hinodes hnext (by rw [hnames, Function.update_self])
  · rw [if_neg hcommits]
    exact hgone (vol.unlink temporary) rfl rfl (Function.update_self ..)

/-- A step of a plan leaves every file alone that does not have the temporary name. -/
theorem Exclusive.undisturbed (h : Exclusive temporary target before plan phase s)
    (hplan : plan i = some p)
    (hsilent : silent → p.late.flatMap Call.bytes = []) :
    Undisturbed temporary silent s.volume (s.step defaults i).volume := by
  have hvolume : ∀ (c : Call ν β μ) rest, (s.tasks i).calls = c :: rest →
      (s.step defaults i).volume =
        (c.run defaults s.volume { s.tasks i with calls := rest }).1 := by
    intro c rest hcalls
    rw [step_cons hcalls]
  have hstage := h.separate.stage i p hplan
  cases hphase : phase i with
  | ready =>
    rw [hphase] at hstage
    cases hstage with
    | ready hcalls =>
      rw [hvolume _ _ hcalls]
      exact undisturbed_open s.volume
  | opened m =>
    have htemporary := h.named.holder i m (by rw [hphase]; trivial) (by rw [hphase]; rfl)
    rw [hphase] at hstage
    cases hstage with
    | opened hcalls hdesc =>
      rw [hvolume _ _ hcalls]
      simp only [Call.run, hdesc]
      refine .of_other (m := m) (Nat.le_refl _) (fun _ _ hk => hk) ?_ ?_
      · intro k hk
        rw [Volume.setContent, Volume.modify_other _ hk]
      · rintro k _ hk rfl
        exact hk htemporary
  | inside m =>
    have htemporary := h.named.holder i m (by rw [hphase]; trivial) (by rw [hphase]; rfl)
    rw [hphase] at hstage
    cases hstage with
    | @inside _ past rest hearly hcalls hdesc hcontent =>
      cases rest with
      | nil =>
        rw [hvolume _ _ hcalls]
        exact undisturbed_release s.volume _
      | cons c rest =>
        have hc : c.Quiet := p.quiet_early c (by rw [hearly]; simp)
        rw [← hcontent] at hdesc
        rw [List.cons_append] at hcalls
        obtain ⟨hnames, hnext, -, hother, -, -⟩ := hc.run defaults (t := { s.tasks i with
          calls := rest ++ p.release temporary target :: p.late }) hdesc
        rw [hvolume _ _ hcalls]
        refine .of_other (m := m) (by omega) ?_ hother ?_
        · intro k _ hk
          rw [hnames]
          exact hk
        · rintro k _ hk rfl
          exact hk htemporary
  | released m =>
    rw [hphase] at hstage
    cases hstage with
    | @released _ past rest hlate hcalls hdesc hcontent =>
      cases rest with
      | nil =>
        rw [step_nil hcalls]
        exact .refl s.volume
      | cons c rest =>
        have hc : c.Quiet := p.quiet_late c (by rw [hlate]; simp)
        rw [← hcontent] at hdesc
        obtain ⟨hnames, hnext, hself, hother, -, -⟩ := hc.run defaults
          (t := { s.tasks i with calls := rest }) hdesc
        rw [hvolume _ _ hcalls]
        refine ⟨by omega, ?_, ?_⟩
        · intro k _ hk
          rw [hnames]
          exact hk
        · intro k _ _
          by_cases hk : k = m
          · subst hk
            refine ⟨c.bytes, hself, fun hall => ?_⟩
            have hbytes := hsilent hall
            rw [hlate, List.flatMap_append, List.flatMap_cons] at hbytes
            exact (List.append_eq_nil_iff.mp (List.append_eq_nil_iff.mp hbytes).2).1
          · refine ⟨[], ?_, fun _ => rfl⟩
            rw [hother k hk, List.append_nil]

end Exclusive

/-! ## What a reader sees -/

/-- What a reader has made of a file that held `content?` when it was opened. -/
def Reader.Sees (temporary : ν) (silent : Prop) (vol : Volume ν β μ) :
    Option (List β) → Reader β → Prop
  | none, .absent => True
  | some content, .reading k got => k < vol.next ∧ vol.names temporary ≠ some k ∧
    ∃ added, (vol.inodes k).content = content ++ added ∧ (silent → added = []) ∧
      got <+: content ++ added
  | some content, .done got => ∃ added, got = content ++ added ∧ (silent → added = [])
  | _, _ => False

theorem Reader.Sees.undisturbed {vol vol' : Volume ν β μ} {content? : Option (List β)}
    {r : Reader β}
    (h : r.Sees temporary silent vol content?) (hvol : Undisturbed temporary silent vol vol') :
    r.Sees temporary silent vol' content? := by
  cases content? with
  | none =>
    cases r with
    | absent => trivial
    | waiting => exact h.elim
    | reading k got => exact h.elim
    | done got => exact h.elim
  | some content =>
    cases r with
    | absent => exact h.elim
    | waiting => exact h.elim
    | done got => exact h
    | reading k got =>
      obtain ⟨hk, hname, added, hcontent, hnone, hgot⟩ := h
      obtain ⟨more, hmore, hsilent⟩ := hvol.content k hk hname
      refine ⟨Nat.lt_of_lt_of_le hk hvol.next, hvol.names k hk hname, added ++ more, ?_, ?_, ?_⟩
      · rw [hmore, hcontent, List.append_assoc]
      · intro hall
        rw [hnone hall, hsilent hall]
        rfl
      · rw [← List.append_assoc]
        exact hgot.trans (List.prefix_append _ _)

theorem Reader.Sees.step {vol : Volume ν β μ} {content? : Option (List β)} {r : Reader β}
    (h : r.Sees temporary silent vol content?) (n : Nat) :
    (r.step vol target n).Sees temporary silent vol content? := by
  cases content? with
  | none =>
    cases r with
    | absent => trivial
    | waiting => exact h.elim
    | reading k got => exact h.elim
    | done got => exact h.elim
  | some content =>
    cases r with
    | absent => exact h.elim
    | waiting => exact h.elim
    | done got => exact h
    | reading k got =>
      obtain ⟨hk, hname, added, hcontent, hnone, rest, hrest⟩ := h
      have hdrop : (vol.inodes k).content.drop got.length = rest := by
        rw [hcontent, ← hrest, List.drop_left]
      simp only [Reader.step, hdrop]
      cases rest with
      | nil =>
        rw [List.append_nil] at hrest
        exact ⟨added, hrest, hnone⟩
      | cons b rest =>
        refine ⟨hk, hname, added, hcontent, hnone, rest.drop n, ?_⟩
        rw [← hrest, List.append_assoc, List.cons_append, List.take_append_drop]

theorem Reader.sees_opened {vol : Volume ν β μ} (n : Nat)
    (hapart : ∀ k, vol.names target = some k → vol.names temporary ≠ some k) :
    (Reader.waiting.step vol target n).Sees temporary silent vol (vol.content target) := by
  unfold Volume.content Volume.file Reader.step
  cases hname : vol.names target with
  | none => trivial
  | some k =>
    refine ⟨vol.allocated target k hname, hapart k hname, [], ?_, fun _ => rfl, List.nil_prefix⟩
    exact (List.append_nil _).symm

section Run

variable [DecidableEq ν] [DecidableEq ι] [DecidableEq κ] {defaults : Defaults β μ}
  {Inv : System ι ν β μ → Prop} {ok : System ι ν β μ → ι → Prop}

theorem Shared.system_inv (hstep : ∀ s i, Inv s → ok s i → Inv (s.step defaults i))
    {s : Shared ι κ ν β μ} (hs : Inv s.system) {moves : List (Move ι κ)}
    (hok : Runs.Guarded (Shared.step defaults target) (Move.Ok ok) s moves) :
    Inv (Runs.run (Shared.step defaults target) s moves).system := by
  have hkeep : ∀ (t : Shared ι κ ν β μ) (m : Move ι κ), Inv t.system → m.Ok ok t →
      Inv (t.step defaults target m).system := by
    intro t m hinv hm
    cases m with
    | task i => exact hstep t.system i hinv hm
    | reader j n => exact hinv
  exact Runs.invariant hkeep hs hok

/-- As long as no step disturbs a file, a reader reads what the target held when it was opened,
and what has been added to that. -/
theorem Shared.reads_opened
    (hstep : ∀ s i, Inv s → ok s i → Inv (s.step defaults i) ∧
      Undisturbed temporary silent s.volume (s.step defaults i).volume)
    (hapart : ∀ s, Inv s → ∀ k, s.volume.names target = some k → s.volume.names temporary ≠ some k)
    {s : Shared ι κ ν β μ} (hs : Inv s.system) {j : κ} (hwaiting : s.readers j = .waiting) (n : Nat)
    {moves : List (Move ι κ)}
    (hok : Runs.Guarded (Shared.step defaults target) (Move.Ok ok) s (.reader j n :: moves)) :
    ((Runs.run (Shared.step defaults target) s (.reader j n :: moves)).readers j).Sees temporary
      silent (Runs.run (Shared.step defaults target) s (.reader j n :: moves)).system.volume
      (s.system.volume.content target) := by
  have hkeep : ∀ (t : Shared ι κ ν β μ) (m : Move ι κ),
      (Inv t.system ∧ (t.readers j).Sees temporary silent t.system.volume
        (s.system.volume.content target)) → m.Ok ok t →
      (Inv (t.step defaults target m).system ∧
        ((t.step defaults target m).readers j).Sees temporary silent
          (t.step defaults target m).system.volume (s.system.volume.content target)) := by
    rintro t m ⟨hinv, hsees⟩ hm
    cases m with
    | task i =>
      obtain ⟨hnext, hvol⟩ := hstep t.system i hinv hm
      exact ⟨hnext, hsees.undisturbed hvol⟩
    | reader l n =>
      refine ⟨hinv, ?_⟩
      show (Function.update t.readers l _ j).Sees temporary silent t.system.volume _
      by_cases hl : j = l
      · subst hl
        rw [Function.update_self]
        exact hsees.step n
      · rw [Function.update_of_ne hl]
        exact hsees
  have hfirst : ((s.step defaults target (.reader j n)).readers j).Sees temporary silent
      s.system.volume (s.system.volume.content target) := by
    show (Function.update s.readers j _ j).Sees temporary silent s.system.volume _
    rw [Function.update_self, hwaiting]
    exact Reader.sees_opened n (hapart s.system hs)
  exact (Runs.invariant hkeep (s := s.step defaults target (.reader j n)) ⟨hs, hfirst⟩ hok.2).2

end Run

end Files
