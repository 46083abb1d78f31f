import Invocation.AppDBHistory
import Invocation.Server

/-!
# Who may do what

When an authentication request sets the flag, and what a grant alone is worth.
-/

namespace Invocation

set_option autoImplicit false

open Process

/-! ## Configurations -/

def sectionNodes (sections : List (Str × List Node)) : List Node :=
  sections.map fun s => .block (some s.1) s.2

def Env.withSections (env : Env) (sections : List (Str × List Node)) : Env :=
  { env with config := sectionNodes sections }

/-- A peer that owns no grant, on a system that answers nothing. -/
def quietEnv : Env where
  config := []
  peer := { userName := "alice".toList, groupName := "users".toList,
            exePath := "/bin/tool".toList, uid := 1000, gid := 100, pid := 4242 }
  files := fun _ => equalFiles
  clientsDB := fun _ => none
  access := fun _ _ => false
  createLockFile := fun _ _ => -1
  switchUser := fun _ _ => .unknown
  switchGroup := fun _ _ => .unknown
  readFile := fun _ _ => none
  openWrite := fun _ _ => false
  authPAM := fun _ _ _ _ => 0
  spawn := fun _ _ _ => none

/-! ## The authentication flag -/

def Env.withPam (env : Env) (pam : Pam) : Env :=
  { env with authPAM := fun _ => Invocation.authPAM pam }

theorem handleClientAuth_authenticated (env : Env) (details types : Str) (s : ServerState) :
    (exec (handleClientAuth env details types) s).2.authenticated =
      (s.authenticated || decide (env.authPAM s.history (requestedTypes types) env.peer.userName
        (authPassword details) ≠ 0)) := by
  by_cases h : env.authPAM s.history (requestedTypes types) env.peer.userName
      (authPassword details) = 0
  · simp [handleClientAuth, Server.observe, Server.emit, exec_bind, h]
  · simp [handleClientAuth, Server.observe, Server.emit, exec_bind, h]

/-- The authentication request sets the flag exactly on an accepted password if and only if the
flag was set already, no listed service starts, or one that starts accepts the password. -/
theorem handleClientAuth_authenticates_iff (env : Env) (pam : Pam) (details types : Str)
    (s : ServerState) :
    ((exec (handleClientAuth (env.withPam pam) details types) s).2.authenticated = true ↔
        s.authenticated = true ∨
          Accepts pam types env.peer.userName (authPassword details)) ↔
      s.authenticated = true ∨
        (∀ service ∈ authTypes (requestedTypes types),
          pam.start service env.peer.userName = false) ∨
        Accepts pam types env.peer.userName (authPassword details) := by
  have hflag : (exec (handleClientAuth (env.withPam pam) details types) s).2.authenticated = true ↔
      s.authenticated = true ∨ ∃ service ∈ authTypes (requestedTypes types),
        pam.start service env.peer.userName = true := by
    rw [handleClientAuth_authenticated, Bool.or_eq_true, decide_eq_true_iff]
    exact or_congr_right (authPAM_ne_zero pam _ _ _)
  have hstarts (h : Accepts pam types env.peer.userName (authPassword details)) :
      ∃ service ∈ authTypes (requestedTypes types),
        pam.start service env.peer.userName = true := by
    obtain ⟨service, hmem, hstart, _⟩ := h
    exact ⟨service, hmem, hstart⟩
  rw [hflag]
  constructor
  · intro h
    by_cases hstart : ∃ service ∈ authTypes (requestedTypes types),
        pam.start service env.peer.userName = true
    · rcases h.mp (Or.inr hstart) with hbefore | haccept
      · exact Or.inl hbefore
      · exact Or.inr (Or.inr haccept)
    · refine Or.inr (Or.inl fun service hmem => ?_)
      rw [← Bool.not_eq_true]
      intro hs
      exact hstart ⟨service, hmem, hs⟩
  · intro h
    constructor
    · intro hset
      rcases h with hbefore | hnone | haccept
      · exact Or.inl hbefore
      · rcases hset with hbefore | hstart
        · exact Or.inl hbefore
        · obtain ⟨service, hmem, hs⟩ := hstart
          rw [hnone service hmem] at hs
          cases hs
      · exact Or.inr haccept
    · intro hset
      rcases hset with hbefore | haccept
      · exact Or.inl hbefore
      · exact Or.inr (hstarts haccept)

/-- One service that starts for everybody and knows one password. -/
def onePassword : Pam where
  start := fun _ _ => true
  authenticate := fun _ _ password => decide (password = some "secret".toList)

/-- A wrong password authenticates. -/
theorem handleClientAuth_accepts_wrong_password :
    ¬ ∀ (env : Env) (pam : Pam) (details types : Str) (s : ServerState),
      ((exec (handleClientAuth (env.withPam pam) details types) s).2.authenticated = true ↔
        s.authenticated = true ∨
          Accepts pam types env.peer.userName (authPassword details)) := by
  intro h
  have hset := (h quietEnv onePassword "password=wrong".toList [] { input := [] }).mp
    (by decide +kernel)
  rcases hset with hbefore | haccept
  · cases hbefore
  · obtain ⟨service, _, _, hpass⟩ := haccept
    have hwrong : authPassword "password=wrong".toList = some "wrong".toList := by decide +kernel
    rw [hwrong] at hpass
    have hreject : onePassword.authenticate service quietEnv.peer.userName (some "wrong".toList) =
        false := by
      show decide (some "wrong".toList = some "secret".toList) = false
      decide
    rw [hreject] at hpass
    cases hpass

/-! ## What a grant alone is worth -/

def Fits (files : FileView) (command program : Str) (e : TGrant) : Prop :=
  ∃ stat, files.stat program = some stat ∧
    appDBCheckEntry e command program stat (files.hashFile program) = some true

/-- The entry carries no list that leaves the peer out. -/
def NamesPeer (peer : Peer) (e : TGrant) : Prop :=
  (e.user ≠ [] → isItemInList peer.userName e.user = true) ∧
    (e.group ≠ [] → isItemInList peer.groupName e.group = true)

/-- The first line that fits: the lines before it are judged, and do not fit. -/
def FirstFit (files : FileView) (command program : Str) (lines before : List Str) (line : Str)
    (after : List Str) (e : TGrant) : Prop :=
  lines = before ++ line :: after ∧
    (∀ l ∈ before, ∃ e, lineEntry l = some e ∧ ∃ stat, files.stat program = some stat ∧
      appDBCheckEntry e command program stat (files.hashFile program) = some false) ∧
    lineEntry line = some e ∧ Fits files command program e

theorem appDBCheckLines_true_iff (grant appPath : Str) (stat : FileStat) (hash : Option Digest)
    (lines : List Str) :
    appDBCheckLines grant appPath stat hash lines = some true ↔
      ∃ before line after e, lines = before ++ line :: after ∧
        (∀ l ∈ before, ∃ e, lineEntry l = some e ∧
          appDBCheckEntry e grant appPath stat hash = some false) ∧
        lineEntry line = some e ∧ appDBCheckEntry e grant appPath stat hash = some true := by
  rw [appDBCheckLines_first, Verdict.first_true_iff]
  constructor
  · intro h
    obtain ⟨before, line, after, hsplit, hbefore, hline⟩ := h
    obtain ⟨e, he, hv⟩ := Option.bind_eq_some_iff.mp hline
    exact ⟨before, line, after, e, hsplit,
      fun l hl => Option.bind_eq_some_iff.mp (hbefore l hl), he, hv⟩
  · intro h
    obtain ⟨before, line, after, e, hsplit, hbefore, he, hv⟩ := h
    exact ⟨before, line, after, hsplit,
      fun l hl => Option.bind_eq_some_iff.mpr (hbefore l hl),
      Option.bind_eq_some_iff.mpr ⟨e, he, hv⟩⟩

theorem appDBCheck_true_iff (files : FileView) (db : Option Str) (command program : Str) :
    appDBCheck files db command program = some true ↔
      ∃ before line after e, FirstFit files command program (fileLines db) before line after e := by
  rw [appDBCheck_fileLines]
  unfold FirstFit Fits
  cases files.stat program with
  | none => simp
  | some stat => simp [appDBCheckLines_true_iff]

theorem FirstFit.not_fits {files : FileView} {command program : Str} {lines before : List Str}
    {line : Str} {after : List Str} {e : TGrant}
    (h : FirstFit files command program lines before line after e) {l : Str} (hl : l ∈ before)
    {e' : TGrant} (he' : lineEntry l = some e') : ¬ Fits files command program e' := by
  intro hfits
  obtain ⟨stat, hstat, hv⟩ := hfits
  obtain ⟨e'', he'', stat', hstat', hv'⟩ := h.2.1 l hl
  rw [he'] at he''
  rw [hstat] at hstat'
  cases he''
  cases hstat'
  rw [hv] at hv'
  cases hv'

theorem checkPermission_noRules (env : Env) (checkAuth : Str → Server Bool) (command : Str)
    (s : ServerState) :
    (exec (checkPermission env checkAuth command (some [])) s).1 = .ok true ↔
      appDBCheck (env.files s.history) (env.clientsDB s.history) command env.peer.exePath =
        some true := by
  simp only [checkPermission, grantCheck, Server.observe, Server.emit, exec_bind, exec_read]
  cases appDBCheck (env.files s.history) (env.clientsDB s.history) command env.peer.exePath with
  | none => simp [Server.need, Server.undefined]
  | some granted => cases granted <;> simp [Server.need, checkRules]

/-- A grant alone keeps to its user and group lists exactly when, wherever the first line that
fits leaves the peer out, a later line fits and does not. -/
theorem grant_restricted_iff (env : Env) (checkAuth : Str → Server Bool) (command : Str)
    (s : ServerState) :
    ((exec (checkPermission env checkAuth command (some [])) s).1 = .ok true →
      ∃ e ∈ entries (env.clientsDB s.history),
        Fits (env.files s.history) command env.peer.exePath e ∧ NamesPeer env.peer e) ↔
      ∀ before line after e,
        FirstFit (env.files s.history) command env.peer.exePath
          (fileLines (env.clientsDB s.history)) before line after e →
        ¬ NamesPeer env.peer e →
        ∃ l ∈ after, ∃ e', lineEntry l = some e' ∧
          Fits (env.files s.history) command env.peer.exePath e' ∧ NamesPeer env.peer e' := by
  rw [checkPermission_noRules, appDBCheck_true_iff]
  constructor
  · intro h before line after e hfirst hleft
    obtain ⟨e', hmem, hfits, hnames⟩ := h ⟨before, line, after, e, hfirst⟩
    obtain ⟨l, hl, he'⟩ := mem_entries.mp hmem
    rw [hfirst.1, List.mem_append, List.mem_cons] at hl
    rcases hl with hl | rfl | hl
    · exact absurd hfits (hfirst.not_fits hl he')
    · rw [hfirst.2.2.1] at he'
      cases he'
      exact absurd hnames hleft
    · exact ⟨l, hl, e', he', hfits, hnames⟩
  · intro h hcheck
    obtain ⟨before, line, after, e, hfirst⟩ := hcheck
    obtain ⟨hlines, _, he, hfits⟩ := id hfirst
    by_cases hnames : NamesPeer env.peer e
    · exact ⟨e, mem_entries.mpr ⟨line, by rw [hlines]; simp, he⟩, hfits, hnames⟩
    · obtain ⟨l, hl, e', he', hfits', hnames'⟩ := h before line after e hfirst hnames
      exact ⟨e', mem_entries.mpr ⟨l, by rw [hlines]; simp [hl], he'⟩, hfits', hnames'⟩

def bobsGrant : AddCall where
  files := equalFiles
  grant := "mount,".toList
  user := "bob,".toList
  group := []
  appPath := "/bin/tool".toList

/-- A grant restricted to one user serves another. -/
theorem grant_ignores_user_list :
    ¬ ∀ (env : Env) (checkAuth : Str → Server Bool) (command : Str) (s : ServerState),
      (exec (checkPermission env checkAuth command (some [])) s).1 = .ok true →
        ∃ e ∈ entries (env.clientsDB s.history),
          Fits (env.files s.history) command env.peer.exePath e ∧ NamesPeer env.peer e := by
  intro h
  obtain ⟨e, hmem, _, hnames⟩ := h
    { quietEnv with clientsDB := fun _ => runAdds [bobsGrant] } (fun _ => pure false)
    "mount".toList { input := [] }
    ((checkPermission_noRules _ _ _ _).mpr (by decide +kernel))
  have hentries : entries (runAdds [bobsGrant]) =
      [{ type := "mount,".toList, user := "bob,".toList, program := "/bin/tool".toList,
         hash := some "aGFzaA==".toList, size := 5 }] := by decide +kernel
  have hmem' : e ∈ entries (runAdds [bobsGrant]) := hmem
  rw [hentries, List.mem_singleton] at hmem'
  rw [hmem'] at hnames
  have halice := hnames.1 (by decide)
  revert halice
  decide +kernel

end Invocation
