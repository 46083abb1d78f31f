import Invocation.Base64
import Invocation.Digest
import Invocation.Stream
import Invocation.AppDBHistory

/-!
# Hashing a file

`HashFile` reads a file with `STREAMReadBytes`, 4096 bytes at a time at most, feeds
what it gets to the hash, and encodes the digest. A grant therefore follows the
bytes of the program, in whatever pieces they were read.
-/

namespace Invocation

set_option autoImplicit false

open Sha2 (Byte)

namespace StreamInput

/-- `FDCheckForBytes`: a `select` that does not wait. -/
def checkForBytes (s : StreamInput) : Bool × StreamInput :=
  match s.arrivals with
  | .timeout :: more => (false, s.withBuffer s.buffer rfl more)
  | _ => (true, s)

/-- The loop of `STREAMReadBytes`; none is `STREAM_CLOSED`. -/
def readBytesLoop (n : Nat) : Nat → Str → StreamInput → Option Str × StreamInput
  | 0, total, s => (some total, s)
  | fuel + 1, total, s =>
    if n ≤ total.length then (some total, s)
    else
      let all := total ++ s.buffer.contents.take (n - total.length)
      let s := s.transferBytesOut (n - total.length)
      if s.buffer.contents = [] then
        match s.checkForBytes with
        | (false, s) => (some all, s)
        | (true, s) =>
          match s.readCharsToBuffer with
          | (.ready, s) => readBytesLoop n fuel all s
          | (.timedOut, s) => (some all, s)
          | (.closed, s) => (if all = [] then none else some all, s)
      else readBytesLoop n fuel all s

/-- `STREAMReadBytes`; a time-out reads no bytes. -/
def readBytes (n : Nat) (s : StreamInput) : Option Str × StreamInput :=
  if s.buffer.contents = [] then
    match s.readCharsToBuffer with
    | (result, s) =>
      if s.buffer.contents = [] ∧ result = .closed then (none, s)
      else if s.buffer.contents = [] ∧ result = .timedOut then (some [], s)
      else readBytesLoop n (s.cost + 1) [] s
  else readBytesLoop n (s.cost + 1) [] s

theorem checkForBytes_pending (s : StreamInput) :
    s.checkForBytes.2.pending = s.pending ∧ s.checkForBytes.2.cost ≤ s.cost ∧
      s.checkForBytes.2.buffer = s.buffer := by
  unfold checkForBytes
  rcases hs : s.arrivals with _ | ⟨⟨first, rest⟩ | _, more⟩
  · exact ⟨rfl, Nat.le_refl _, rfl⟩
  · exact ⟨rfl, Nat.le_refl _, rfl⟩
  · refine ⟨?_, ?_, rfl⟩
    · unfold pending
      rw [hs]
      rfl
    · unfold cost
      rw [hs]
      exact Nat.add_le_add_left (Nat.le_succ _) _

/-- The bytes of a read are the next ones of the stream; only at its end there are none. -/
structure Took (total : Str) (s : StreamInput) (r : Option Str × StreamInput) : Prop where
  some : ∀ all, r.1 = some all →
    ∃ piece, all = total ++ piece ∧ piece ++ r.2.pending = s.pending
  none : r.1 = none → total = [] ∧ s.pending = []
  cost : r.2.cost ≤ s.cost

theorem Took.more {total piece : Str} {s t : StreamInput} {r : Option Str × StreamInput}
    (h : Took (total ++ piece) t r) (hpending : piece ++ t.pending = s.pending)
    (hcost : t.cost ≤ s.cost) : Took total s r where
  some := by
    intro all hall
    obtain ⟨rest, rfl, hrest⟩ := h.some all hall
    refine ⟨piece ++ rest, List.append_assoc _ _ _, ?_⟩
    rw [List.append_assoc, hrest, hpending]
  none := by
    intro hnone
    obtain ⟨hnil, hend⟩ := h.none hnone
    obtain ⟨rfl, rfl⟩ := List.append_eq_nil_iff.mp hnil
    rw [← hpending, hend]
    exact ⟨rfl, rfl⟩
  cost := Nat.le_trans h.cost hcost

theorem Took.done {total : Str} {s t : StreamInput} (hpending : t.pending = s.pending)
    (hcost : t.cost ≤ s.cost) : Took total s (Option.some total, t) where
  some := by
    intro all hall
    cases hall
    exact ⟨[], (List.append_nil total).symm, hpending⟩
  none := nofun
  cost := hcost

theorem Took.of_same {total : Str} {s t : StreamInput} {r : Option Str × StreamInput}
    (h : Took total t r) (hpending : t.pending = s.pending) (hcost : t.cost ≤ s.cost) :
    Took total s r := by
  rw [← List.append_nil total] at h
  exact h.more hpending hcost

/-- A stream that is found closed has nothing left. -/
theorem closed_pending {s : StreamInput} (hempty : s.buffer.contents = [])
    (h : s.readCharsToBuffer.1 = .closed) : s.pending = [] := by
  unfold pending
  rcases s.readCharsToBuffer_cases with ⟨_, hs, _, _⟩ | ⟨hc, _⟩ | ⟨hc, _⟩ | ⟨hc, _⟩
  · rw [hempty, hs]
    rfl
  all_goals
    rw [hc] at h
    cases h

/-- One round: it takes what is in the buffer, and looks for more when that is all of it. -/
theorem readBytesLoop_round {n fuel : Nat} {total : Str} {s : StreamInput}
    (ih : ∀ total s, Took total s (readBytesLoop n fuel total s)) (hn : total.length < n) :
    Took (total ++ s.buffer.contents.take (n - total.length))
      (s.transferBytesOut (n - total.length)) (readBytesLoop n (fuel + 1) total s) := by
  rw [readBytesLoop, if_neg (Nat.not_le_of_lt hn)]
  dsimp only
  generalize total ++ s.buffer.contents.take (n - total.length) = all
  generalize s.transferBytesOut (n - total.length) = t
  by_cases hempty : t.buffer.contents = []
  · rw [if_pos hempty]
    obtain ⟨hcheck, hcheckcost, hbuffer⟩ := t.checkForBytes_pending
    rcases hc : t.checkForBytes with ⟨_ | _, u⟩
    · rw [hc] at hcheck hcheckcost
      exact Took.done hcheck hcheckcost
    · rw [hc] at hcheck hcheckcost hbuffer
      dsimp only at hcheck hcheckcost hbuffer ⊢
      have hread := u.readCharsToBuffer_pending
      have hreadcost := u.readCharsToBuffer_cost.1
      have hend := closed_pending (s := u) (by rw [hbuffer, hempty])
      rcases hr : u.readCharsToBuffer with ⟨_ | _ | _, v⟩
      · rw [hr] at hread hreadcost
        exact (ih all v).of_same (hread.trans hcheck) (Nat.le_trans hreadcost hcheckcost)
      · rw [hr] at hread hreadcost
        exact Took.done (hread.trans hcheck) (Nat.le_trans hreadcost hcheckcost)
      · rw [hr] at hread hreadcost hend
        dsimp only
        by_cases hnone : all = []
        · rw [if_pos hnone]
          refine ⟨nofun, fun _ => ⟨hnone, ?_⟩, Nat.le_trans hreadcost hcheckcost⟩
          rw [← hcheck]
          exact hend rfl
        · rw [if_neg hnone]
          exact Took.done (hread.trans hcheck) (Nat.le_trans hreadcost hcheckcost)
  · rw [if_neg hempty]
    exact ih all t

theorem readBytesLoop_took (n fuel : Nat) (total : Str) (s : StreamInput) :
    Took total s (readBytesLoop n fuel total s) := by
  induction fuel generalizing total s with
  | zero => exact Took.done rfl (Nat.le_refl _)
  | succ fuel ih =>
    by_cases hn : total.length < n
    · have hcost := s.transferBytesOut_cost (n - total.length)
      exact (readBytesLoop_round ih hn).more (s.transferBytesOut_pending _) (by omega)
    · rw [readBytesLoop, if_pos (Nat.le_of_not_lt hn)]
      exact Took.done rfl (Nat.le_refl _)

/-- The loop makes progress when the buffer holds something. -/
theorem readBytesLoop_cost {n fuel : Nat} {total : Str} {s : StreamInput}
    (hn : total.length < n) (h : s.buffer.contents ≠ []) :
    (readBytesLoop n (fuel + 1) total s).2.cost < s.cost := by
  have hlen : 0 < s.buffer.contents.length := List.length_pos_of_ne_nil h
  have hcost := s.transferBytesOut_cost (n - total.length)
  have hround := (readBytesLoop_round (readBytesLoop_took n fuel) hn (s := s)).cost
  omega

theorem readBytes_took {n : Nat} (hn : 0 < n) (s : StreamInput) :
    Took [] s (s.readBytes n) ∧ ((s.readBytes n).1 ≠ none → (s.readBytes n).2.cost < s.cost) := by
  unfold readBytes
  by_cases hempty : s.buffer.contents = []
  · have hread := s.readCharsToBuffer_pending
    have hcost := s.readCharsToBuffer_cost
    have hend := closed_pending hempty
    have hcases := s.readCharsToBuffer_cases
    rw [if_pos hempty]
    rcases hr : s.readCharsToBuffer with ⟨result, v⟩
    rw [hr] at hread hcost hend hcases
    dsimp only at hread hcost hend hcases ⊢
    by_cases hclosed : v.buffer.contents = [] ∧ result = .closed
    · rw [if_pos hclosed]
      exact ⟨⟨nofun, fun _ => ⟨rfl, hend hclosed.2⟩, hcost.1⟩, fun h => absurd rfl h⟩
    · have harrivals : s.arrivals ≠ [] := by
        intro hnil
        rcases hcases with ⟨hc, _, _, hv⟩ | ⟨_, hs, _⟩ | ⟨_, hfull, _⟩
          | ⟨_, c, moved, left, more, hs, _⟩
        · exact hclosed ⟨hv.trans hempty, hc⟩
        · rw [hnil] at hs
          cases hs
        · rw [hempty] at hfull
          exact Nat.not_lt_of_le hfull s.size_pos
        · rw [hnil] at hs
          cases hs
      have hlt := hcost.2 (by rw [hempty]; exact s.size_pos) harrivals
      rw [if_neg hclosed]
      by_cases htimed : v.buffer.contents = [] ∧ result = .timedOut
      · rw [if_pos htimed]
        exact ⟨Took.done hread hcost.1, fun _ => hlt⟩
      · have hloop := readBytesLoop_took n (v.cost + 1) [] v
        rw [if_neg htimed]
        exact ⟨hloop.of_same hread hcost.1, fun _ => Nat.lt_of_le_of_lt hloop.cost hlt⟩
  · rw [if_neg hempty]
    exact ⟨readBytesLoop_took _ _ _ _, fun _ => readBytesLoop_cost hn hempty⟩

end StreamInput

/-- A character of a file as the byte it stands for. -/
def fileByte (c : Char) : Byte := BitVec.ofNat 8 c.toNat

/-- The loop of `HashSTREAM`. -/
def hashLoop : Nat → Sha256.Context → StreamInput → Sha256.Context
  | 0, context, _ => context
  | fuel + 1, context, s =>
    match s.readBytes 4096 with
    | (none, _) => context
    | (some bytes, s) => hashLoop fuel (Sha256.update context (bytes.map fileByte)) s

/-- `HashSTREAM` with `sha256`; every round takes bytes or time from the stream. -/
def hashStream (s : StreamInput) : List Byte :=
  Sha256.final (hashLoop (s.cost + 1) Sha256.init s)

/-- `HashFinish` with `ENCODE_BASE64`. -/
def hashFile (s : StreamInput) : Digest where
  text := Base64.to64frombits (hashStream s)
  base64 := Base64.to64frombits_base64 _

theorem hashLoop_represents {fuel : Nat} {context : Sha256.Context} {m : List Byte}
    {s : StreamInput} (hfuel : s.cost < fuel) (h : Sha256.Represents m context) :
    Sha256.Represents (m ++ s.pending.map fileByte) (hashLoop fuel context s) := by
  induction fuel generalizing context m s with
  | zero => exact absurd hfuel (Nat.not_lt_zero _)
  | succ fuel ih =>
    obtain ⟨htook, hcost⟩ := s.readBytes_took (n := 4096) (by decide)
    rw [hashLoop]
    rcases hr : s.readBytes 4096 with ⟨_ | bytes, t⟩
    · rw [hr] at htook
      rw [(htook.none rfl).2, List.map_nil, List.append_nil]
      exact h
    · rw [hr] at htook hcost
      obtain ⟨piece, hpiece, hpending⟩ := htook.some bytes rfl
      rw [List.nil_append] at hpiece
      have hlt : t.cost < s.cost := hcost (Option.some_ne_none bytes)
      dsimp only at hpending ⊢
      rw [hpiece, ← hpending, List.map_append, ← List.append_assoc]
      exact ih (by omega) (Sha256.update_represents h (piece.map fileByte))

/-- However a stream delivers its bytes, the hash is that of all of them. -/
theorem hashStream_eq (s : StreamInput) :
    hashStream s = Sha256.sha256 (s.pending.map fileByte) := by
  have h := hashLoop_represents (Nat.lt_succ_self s.cost) Sha256.init_represents
  rw [List.nil_append] at h
  exact Sha256.final_eq h

/-- The text of the hash tells digests apart. -/
theorem hashFile_text_iff (s t : StreamInput) :
    (hashFile s).text = (hashFile t).text ↔ hashStream s = hashStream t := by
  have hne : ∀ u : StreamInput, hashStream u ≠ [] := by
    intro u hnil
    have hlen := Sha2.length_digest Sha256.constants Sha256.initialHashValue
      (u.pending.map fileByte)
    rw [hashStream_eq, Sha256.sha256] at hnil
    rw [hnil] at hlen
    cases hlen
  constructor
  · intro h
    have hdecoded : some (hashStream s) = some (hashStream t) := by
      rw [← Base64.from64tobits_to64frombits (hne s), ← Base64.from64tobits_to64frombits (hne t)]
      exact congrArg Base64.from64tobits h
    exact Option.some.inj hdecoded
  · intro h
    exact congrArg Base64.to64frombits h

/-- A grant goes with the size and the SHA-256 of the program, however the program was read when
it was granted and is read when it is checked, and whatever is granted in between. -/
theorem grant_follows_bytes (earlier later : List AddCall) (call : AddCall) (names : List Str)
    {stat now : FileStat} {granted checked : StreamInput} {files : FileView} (grant : Str)
    (hearlier : ∀ c ∈ earlier, c.Recordable) (hcall : call.Recordable)
    (hgrant : call.grant = nameList names) (hnames : ∀ n ∈ names, plainName n = true)
    (hstar : grant = ['*'] → grant ∈ names)
    (hstat : call.files.stat call.appPath = some stat)
    (hgranted : call.files.hashFile call.appPath = some (hashFile granted))
    (hnow : files.stat call.appPath = some now)
    (hchecked : files.hashFile call.appPath = some (hashFile checked))
    (hreplaces : Replaces (runAdds earlier) call.appPath)
    (hlater : Runs.Guarded AddCall.run (KeepsProgram call.appPath)
      (runAdds (earlier ++ [call])) later) :
    ∃ sha256, Sha2.IsSha256 sha256 ∧
      appDBCheck files (runAdds (earlier ++ [call] ++ later)) grant call.appPath =
        some (decide (now.size = stat.size ∧
          sha256 (checked.pending.map fileByte) = sha256 (granted.pending.map fileByte) ∧
          grant ∈ names)) := by
  have hstart : Clean (runAdds (earlier ++ [call])) ∧
      recordedFor (runAdds (earlier ++ [call])) call.appPath = [call.record stat] := by
    have hdb := clean_runAdds hearlier
    rw [runAdds_append]
    exact ⟨clean_run hcall hstat hdb, (recordedFor_run_iff hdb hcall hstat).mpr hreplaces⟩
  have hstep : ∀ db c, Clean db ∧ recordedFor db call.appPath = [call.record stat] →
      KeepsProgram call.appPath db c →
      Clean (AddCall.run db c) ∧ recordedFor (AddCall.run db c) call.appPath =
        [call.record stat] := by
    intro db c hinv hkeep
    refine ⟨?_, recordedFor_step hinv.1 hinv.2 hkeep⟩
    cases hs : c.files.stat c.appPath with
    | none =>
      rw [run_unstattable hs]
      exact hinv.1
    | some st => exact clean_run hkeep.1 hs hinv.1
  have hend := Runs.invariant hstep hstart hlater
  rw [← runAdds_run] at hend
  refine ⟨Sha256.sha256, Sha256.sha256_isSha256, ?_⟩
  have hpath := AddCall.appPath_ne_nil hstat
  rw [appDBCheck_only hend.1 hend.2 hnow hchecked]
  simp only [appDBCheckEntry_record hgrant hnames hpath hgranted hstar, hashFile_text_iff,
    hashStream_eq]

/-- Programs of five bytes, which arrive in some way. -/
def helloFiles (arrivals : List Arrival) : FileView where
  stat := equalFiles.stat
  hashFile := fun _ => some (hashFile (smallInput arrivals))
  stat_nil := equalFiles.stat_nil

def helloCall : AddCall where
  files := helloFiles [.bytes 'h' "ello".toList]
  grant := "mount,".toList
  user := []
  group := []
  appPath := "/bin/b".toList

def helloInPieces : List Arrival := [.bytes 'h' "e".toList, .timeout, .bytes 'l' "lo".toList]

theorem grant_follows_bytes_hello :
    ∃ sha256, Sha2.IsSha256 sha256 ∧
      appDBCheck (helloFiles helloInPieces) (runAdds ([] ++ [helloCall] ++ [])) "mount".toList
          helloCall.appPath =
        some (decide (fiveBytes.size = fiveBytes.size ∧
          sha256 ((smallInput helloInPieces).pending.map fileByte) =
            sha256 ((smallInput [.bytes 'h' "ello".toList]).pending.map fileByte) ∧
          "mount".toList ∈ ["mount".toList])) :=
  grant_follows_bytes [] [] helloCall ["mount".toList] "mount".toList
    (fun c hc => absurd hc List.not_mem_nil) (by unfold AddCall.Recordable; decide +kernel) rfl
    (by decide +kernel) (by decide) rfl rfl rfl rfl
    (fun line hline => absurd hline List.not_mem_nil) trivial

end Invocation
