import Invocation.ConcurrentAdd
import Invocation.Lib.Device

/-!
# Grants that fail

`AppDBAdd` on a device that refuses the temporary file or runs out of room, and
for programs that cannot be stat-ed or hashed. It looks at none of the results,
and the rename is reached from wherever it got to.
-/

namespace Invocation

set_option autoImplicit false

open Files (Device Volume)

def temporaryPath : Str := appDBPath ++ "+".toList

theorem appDBPath_ne_temporary : appDBPath ≠ temporaryPath := path_ne_temporary appDBPath

namespace AddCall

variable (kernel : Kernel) (flushing : Flushing) (disk : Disk) (call : AddCall) (dev : Device)

def newText : Str := (call.run (disk.content appDBPath)).getD []

def callCount : Nat :=
  1 + ((call.afterRead flushing (disk.content appDBPath)).calls temporaryPath appDBPath).length

def finish : Disk :=
  dev.alone kernel.defaults (call.callCount flushing disk) disk { calls := call.calls flushing }

def databaseAfter : Option Str := (call.finish kernel flushing disk dev).content appDBPath

/-- The program cannot be stat-ed or hashed, the temporary file cannot be opened, or the device has
less room than the text takes. -/
def Fails : Prop :=
  call.files.stat call.appPath = none ∨ call.files.hashFile call.appPath = none ∨
    dev.opens = false ∨ ∃ n, dev.room = some n ∧ n < (call.newText disk).length

variable {kernel flushing disk call dev}

theorem databaseAfter_unstattable (h : call.files.stat call.appPath = none) :
    call.databaseAfter kernel flushing disk dev = disk.content appDBPath := by
  unfold databaseAfter finish
  have hcalls : call.calls flushing = [] := by
    unfold calls
    rw [h]
  rw [hcalls, Device.alone_done]

section Stattable

variable (hstat : (call.files.stat call.appPath).isSome)
include hstat

theorem finish_read {chunks : List Str} (hchunks : flushing.now (call.newText disk) ++
      flushing.atClose (call.newText disk) = chunks) :
    call.finish kernel flushing disk dev =
      dev.alone kernel.defaults (chunks.length + 1 + 1 + 1) disk
        { calls := .openWrite temporaryPath :: .truncate ::
            (chunks.map .write ++ [.rename temporaryPath appDBPath]) } := by
  obtain ⟨stat, hstat⟩ := Option.isSome_iff_exists.mp hstat
  have hcalls : (call.afterRead flushing (disk.content appDBPath)).calls temporaryPath appDBPath =
      .openWrite temporaryPath :: .truncate ::
        (chunks.map .write ++ [.rename temporaryPath appDBPath]) := by
    rw [← hchunks]
    rfl
  have hlength : call.callCount flushing disk = chunks.length + 1 + 1 + 1 + 1 := by
    unfold callCount
    rw [hcalls]
    simp only [List.length_cons, List.length_append, List.length_map, List.length_nil]
    omega
  unfold finish calls
  rw [hstat, hlength]
  dsimp only
  rw [Device.alone_cons]
  simp only [Device.run, Files.Call.run, List.append_nil]
  have htemporary : appDBPath ++ "+".toList = temporaryPath := rfl
  rw [htemporary, hcalls]

theorem databaseAfter_refused (hopens : dev.opens = false) :
    call.databaseAfter kernel flushing disk dev =
      if (disk.content temporaryPath).isSome then disk.content temporaryPath
      else disk.content appDBPath := by
  unfold databaseAfter
  rw [finish_read hstat rfl]
  generalize flushing.now (call.newText disk) ++ flushing.atClose (call.newText disk) = chunks
  rw [Device.alone_cons]
  simp only [Device.run, hopens, Bool.false_eq_true, if_false]
  rw [Device.alone_cons]
  simp only [Device.run, Files.Call.run]
  rw [Device.alone_writes_closed, Device.alone_cons, Device.alone]
  simp only [Device.run, Files.Call.run]
  cases hname : disk.names temporaryPath with
  | none =>
    have hcontent : disk.content temporaryPath = none := by
      unfold Volume.content Volume.file
      rw [hname]
      rfl
    rw [hcontent, Volume.rename_none _ hname]
    rfl
  | some k =>
    obtain ⟨hpath, hinodes⟩ := rename_file hname appDBPath_ne_temporary
    have hcontent : disk.content temporaryPath = some (disk.inodes k).content := by
      unfold Volume.content Volume.file
      rw [hname]
      rfl
    rw [hcontent, Option.isSome_some, if_pos rfl]
    unfold Volume.content Volume.file
    rw [hpath, hinodes]
    rfl

theorem databaseAfter_opened (hopens : dev.opens = true) :
    call.databaseAfter kernel flushing disk dev = some (dev.fits (call.newText disk)) := by
  have hall : (flushing.now (call.newText disk) ++ flushing.atClose (call.newText disk)).flatten =
      call.newText disk := by
    rw [List.flatten_append, flushing.all]
  unfold databaseAfter
  rw [finish_read hstat rfl]
  generalize flushing.now (call.newText disk) ++ flushing.atClose (call.newText disk) = chunks at *
  generalize hk : (disk.openWrite kernel.defaults temporaryPath).2 = k
  obtain ⟨hname, _⟩ := open_temporary kernel hk appDBPath_ne_temporary
  rw [Device.alone_cons]
  simp only [Device.run, hopens, if_true, Files.Call.run, hk]
  generalize (disk.openWrite kernel.defaults temporaryPath).1 = opened at *
  rw [Device.alone_cons]
  simp only [Device.run, Files.Call.run]
  have hempty : (opened.setContent k []).inodes k = ⟨[], (opened.inodes k).attrs⟩ :=
    Volume.setContent_self ..
  have hwrites := @Device.alone_writes _ _ _ _ kernel.defaults chunks 1 dev
    (opened.setContent k []) [.rename temporaryPath appDBPath] k none
  rw [hempty, Volume.setContent_setContent, hall] at hwrites
  refine (congrArg (fun vol : Disk => vol.content appDBPath) hwrites).trans ?_
  rw [List.nil_append, Device.alone_cons, Device.alone]
  simp only [Device.run, Files.Call.run]
  have hnamed : (opened.setContent k (dev.fits (call.newText disk))).names temporaryPath = some k :=
    hname
  obtain ⟨hpath, hinodes⟩ := rename_file hnamed appDBPath_ne_temporary
  unfold Volume.content Volume.file
  rw [hpath, hinodes, Option.map_some, Option.map_some, Volume.setContent_self]

theorem newText_length : 1 < (call.newText disk).length := by
  obtain ⟨stat, hstat⟩ := Option.isSome_iff_exists.mp hstat
  have htext : call.newText disk = writeItems (setVar (readItems (disk.content appDBPath))
      call.appPath (call.line stat)) := by
    unfold newText run appDBAdd
    rw [hstat]
    rfl
  obtain ⟨item, hitem, hline, _⟩ := KeyedList.upsert_mem_new call.appPath (call.line stat)
    (readItems (disk.content appDBPath))
  obtain ⟨before, after, hsplit⟩ := List.append_of_mem hitem
  have hitems : setVar (readItems (disk.content appDBPath)) call.appPath (call.line stat) =
      before ++ item :: after := hsplit
  obtain ⟨rest, hrest⟩ : ∃ rest, item.2 = 'g' :: rest := by
    rw [hline]
    exact grantLine_cons _ _ _ _ _ _
  rw [htext, hitems, writeItems, List.flatMap_append, List.flatMap_cons, hrest]
  simp only [List.length_append, List.length_cons, List.length_nil]
  omega

end Stattable

/-! ## What a failure leaves -/

variable (kernel flushing disk call dev)

/-- A failure leaves the database alone, and nothing but the whole new text replaces it. -/
structure SafeOnFailure : Prop where
  unchanged : call.Fails disk dev →
    call.databaseAfter kernel flushing disk dev = disk.content appDBPath
  whole : call.databaseAfter kernel flushing disk dev = disk.content appDBPath ∨
    call.databaseAfter kernel flushing disk dev = some (call.newText disk)

/-- Nothing is attempted, nothing is there to be renamed, nothing fails, or what arrives is what the
database holds. -/
inductive Harmless : Prop
  | program : call.files.stat call.appPath = none → Harmless
  | noTemporary : dev.opens = false → disk.content temporaryPath = none → Harmless
  | sameTemporary : dev.opens = false →
    disk.content temporaryPath = disk.content appDBPath → Harmless
  | succeeds : dev.opens = true → (call.files.hashFile call.appPath).isSome →
    (∀ n, dev.room = some n → (call.newText disk).length ≤ n) → Harmless
  | sameText : dev.opens = true → disk.content appDBPath = some (dev.fits (call.newText disk)) →
    Harmless

variable {kernel flushing disk call dev}

theorem safe_of_unchanged
    (h : call.databaseAfter kernel flushing disk dev = disk.content appDBPath) :
    call.SafeOnFailure kernel flushing disk dev := ⟨fun _ => h, Or.inl h⟩

theorem SafeOnFailure.harmless (h : call.SafeOnFailure kernel flushing disk dev) :
    call.Harmless disk dev := by
  cases hstat : call.files.stat call.appPath with
  | none => exact .program hstat
  | some stat =>
    have hstat : (call.files.stat call.appPath).isSome := by rw [hstat, Option.isSome_some]
    cases hopens : dev.opens with
    | false =>
      have hafter := h.unchanged (Or.inr (Or.inr (Or.inl hopens)))
      rw [databaseAfter_refused hstat hopens] at hafter
      cases htemporary : disk.content temporaryPath with
      | none => exact .noTemporary hopens htemporary
      | some stale =>
        rw [htemporary, Option.isSome_some, if_pos rfl] at hafter
        exact .sameTemporary hopens (htemporary.trans hafter)
    | true =>
      by_cases hfails : call.Fails disk dev
      · have hafter := h.unchanged hfails
        rw [databaseAfter_opened hstat hopens] at hafter
        exact .sameText hopens hafter.symm
      · unfold Fails at hfails
        simp only [not_or] at hfails
        obtain ⟨_, hhash, _, hroom⟩ := hfails
        refine .succeeds hopens (Option.isSome_iff_ne_none.mpr hhash) fun n hn => ?_
        by_contra hlt
        exact hroom ⟨n, hn, Nat.lt_of_not_le hlt⟩

theorem Harmless.safe (h : call.Harmless disk dev) :
    call.SafeOnFailure kernel flushing disk dev := by
  cases hstat : call.files.stat call.appPath with
  | none => exact safe_of_unchanged (databaseAfter_unstattable hstat)
  | some stat =>
    have hsome : (call.files.stat call.appPath).isSome := by rw [hstat, Option.isSome_some]
    cases h with
    | program hnone =>
      rw [hstat] at hnone
      cases hnone
    | noTemporary hopens hnone =>
      apply safe_of_unchanged
      rw [databaseAfter_refused hsome hopens, hnone]
      rfl
    | sameTemporary hopens hsame =>
      apply safe_of_unchanged
      rw [databaseAfter_refused hsome hopens, hsame, ite_self]
    | succeeds hopens hhash hroom =>
      have hafter : call.databaseAfter kernel flushing disk dev = some (call.newText disk) := by
        rw [databaseAfter_opened hsome hopens, (dev.fits_eq_self_iff _).mpr hroom]
      refine ⟨fun hfails => ?_, Or.inr hafter⟩
      rcases hfails with hnone | hnone | hclosed | ⟨n, hn, hlt⟩
      · rw [hstat] at hnone
        cases hnone
      · rw [hnone] at hhash
        cases hhash
      · rw [hopens] at hclosed
        cases hclosed
      · exact absurd (hroom n hn) (Nat.not_le_of_lt hlt)
    | sameText hopens hsame =>
      apply safe_of_unchanged
      rw [databaseAfter_opened hsome hopens, hsame]

theorem databaseAfter_full (hstat : (call.files.stat call.appPath).isSome) {n : Nat}
    (hn : n < (call.newText disk).length)
    (h : call.SafeOnFailure kernel flushing disk ⟨true, some n⟩) :
    (disk.content appDBPath).map List.length = some n := by
  have hafter := h.unchanged (Or.inr (Or.inr (Or.inr ⟨n, rfl, hn⟩)))
  rw [databaseAfter_opened hstat rfl] at hafter
  rw [← hafter, Option.map_some]
  unfold Device.fits
  rw [List.length_take, Nat.min_eq_left (Nat.le_of_lt hn)]

end AddCall

/-- Every failure leaves the database alone if and only if the program cannot be stat-ed, so that
nothing is attempted; and one failure leaves it alone if and only if it is harmless. -/
theorem failed_add_iff (kernel : Kernel) (flushing : Flushing) (disk : Disk) (call : AddCall) :
    ((∀ dev, call.SafeOnFailure kernel flushing disk dev) ↔
        call.files.stat call.appPath = none) ∧
      ∀ dev, call.SafeOnFailure kernel flushing disk dev ↔ call.Harmless disk dev := by
  have heach : ∀ dev, call.SafeOnFailure kernel flushing disk dev ↔ call.Harmless disk dev :=
    fun dev => ⟨AddCall.SafeOnFailure.harmless, AddCall.Harmless.safe⟩
  refine ⟨⟨?_, fun hnone dev => (heach dev).mpr (.program hnone)⟩, heach⟩
  intro h
  by_contra hnone
  have hstat := Option.isSome_iff_ne_none.mpr hnone
  have hlength : 1 < (call.newText disk).length := AddCall.newText_length hstat
  -- the database cannot be empty and have one byte
  have hempty := AddCall.databaseAfter_full hstat (by omega) (h ⟨true, some 0⟩)
  have hone := AddCall.databaseAfter_full hstat hlength (h ⟨true, some 1⟩)
  rw [hempty, Option.some_inj] at hone
  cases hone

def mountGrant : Str := "grant='mount,' program='/bin/a' size=5 hash=aGFzaA==\n".toList

def grantedDisk : Disk := diskWith appDBPath mountGrant { mode := 0o600, uid := 0, gid := 0 }

/-- On a full disk, a grant for `/bin/b` takes the grant of `/bin/a` away. -/
theorem failed_add_truncates :
    (¬ ∀ (kernel : Kernel) (flushing : Flushing) (disk : Disk) (call : AddCall) (dev : Device),
      call.SafeOnFailure kernel flushing disk dev) ∧
    appDBCheck equalFiles (grantedDisk.content appDBPath) "mount".toList
      "/bin/a".toList = some true ∧
    appDBCheck equalFiles ((plainCall "umount," "/bin/b").databaseAfter rootKernel flushAtOnce
      grantedDisk ⟨true, some 0⟩) "mount".toList "/bin/a".toList = some false := by
  have hstat : ((plainCall "umount," "/bin/b").files.stat
      (plainCall "umount," "/bin/b").appPath).isSome := by decide
  have hafter : (plainCall "umount," "/bin/b").databaseAfter rootKernel flushAtOnce
      grantedDisk ⟨true, some 0⟩ = some [] :=
    AddCall.databaseAfter_opened hstat rfl
  refine ⟨?_, by decide +kernel, ?_⟩
  · intro h
    have hlength := AddCall.databaseAfter_full hstat (Nat.lt_trans Nat.one_pos
      (AddCall.newText_length hstat)) (h rootKernel flushAtOnce grantedDisk _ ⟨true, some 0⟩)
    revert hlength
    decide +kernel
  · rw [hafter]
    decide +kernel

end Invocation
