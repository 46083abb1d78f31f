import Invocation.AppDBLine
import Invocation.Lib.Window
import Invocation.Server

/-!
# Streams

The input and the output buffer of a `STREAM`. A descriptor delivers its bytes
in any pieces and may keep `select` waiting; a `write` takes any part of what it
is offered. Reading lines and copying between streams does not depend on the
pieces, and what is written arrives in order.
-/

namespace Invocation

set_option autoImplicit false

open Process Server

/-- What the next `select` and `read` find; behind the last arrival is the end of the stream. -/
inductive Arrival
  | bytes (first : Char) (rest : Str)
  | timeout
deriving DecidableEq

/-- What `STREAMReadCharsToBuffer` returns: 1, `STREAM_TIMEOUT` or `STREAM_CLOSED`. -/
inductive ReadResult
  | ready
  | timedOut
  | closed
deriving DecidableEq

def arriving : List Arrival → Str
  | [] => []
  | .bytes first rest :: more => first :: rest ++ arriving more
  | .timeout :: more => arriving more

/-- What `read` leaves of the bytes that were there. -/
def leave : Str → List Arrival → List Arrival
  | [], more => more
  | first :: rest, more => .bytes first rest :: more

structure StreamInput where
  buffer : Window Char
  arrivals : List Arrival
  size_pos : 0 < buffer.size

namespace StreamInput

/-- Everything that has not been taken from the stream yet. -/
def pending (s : StreamInput) : Str := s.buffer.contents ++ arriving s.arrivals

/-- A buffer that is half empty, or full but for its beginning, gets its room at the end. -/
def makeRoom (w : Window Char) : Window Char :=
  if w.reset.size / 2 < w.reset.start ∨ w.reset.size ≤ w.reset.stop ∧ 0 < w.reset.start then
    w.reset.toFront
  else w.reset

theorem size_makeRoom (w : Window Char) : (makeRoom w).size = w.size := by
  unfold makeRoom
  split
  · rw [Window.size_toFront, Window.size_reset]
  · exact w.size_reset

def withBuffer (s : StreamInput) (w : Window Char) (hw : w.size = s.buffer.size)
    (arrivals : List Arrival) : StreamInput where
  buffer := w
  arrivals := arrivals
  size_pos := hw ▸ s.size_pos

def readCharsToBuffer (s : StreamInput) : ReadResult × StreamInput :=
  let w := makeRoom s.buffer
  have hw : w.size = s.buffer.size := size_makeRoom s.buffer
  if w.size ≤ w.stop then (.ready, s.withBuffer w hw s.arrivals)
  else
    match s.arrivals with
    | [] => (.closed, s.withBuffer w hw [])
    | .timeout :: more => (.timedOut, s.withBuffer w hw more)
    | .bytes first rest :: more =>
      (.ready, s.withBuffer (w.append (first :: rest)) ((w.size_append _).trans hw)
        (leave ((first :: rest).drop w.space) more))

def transferBytesOut (s : StreamInput) (n : Nat) : StreamInput :=
  s.withBuffer (s.buffer.advance n) (s.buffer.size_advance n) s.arrivals

/-- How many buffered bytes `STREAMReadToTerminator` takes; none of them when it has to read. -/
def wanted (term : Char) (isClosed : Bool) (s : StreamInput) : Nat :=
  let avail := s.buffer.contents
  if avail = [] then 0
  else if term ∈ avail then (avail.takeWhile (· ≠ term)).length + 1
  else if isClosed then avail.length
  else if 0 < s.buffer.start then 0
  else if s.buffer.size ≤ s.buffer.stop then avail.length
  else 0

/-- The loop of `STREAMReadToTerminator`, with what it has gathered and whether it has seen the
end of the stream; none is NULL. -/
def readLoop (term : Char) : Nat → Str → Bool → StreamInput → Option Str × StreamInput
  | 0, gathered, _, s => (some gathered, s)
  | fuel + 1, gathered, isClosed, s =>
    let avail := s.buffer.contents
    let len := s.wanted term isClosed
    if avail = [] ∧ isClosed = true then (if gathered = [] then none else some gathered, s)
    else if len = 0 then
      match s.readCharsToBuffer with
      | (.closed, s) => readLoop term fuel gathered true s
      | (.timedOut, s) => (some gathered, s)
      | (.ready, s) => readLoop term fuel gathered isClosed s
    else if term ∈ avail then (some (gathered ++ avail.take len), s.transferBytesOut len)
    else readLoop term fuel (gathered ++ avail.take len) isClosed (s.transferBytesOut len)

/-- Every round of a loop makes it smaller. -/
def cost (s : StreamInput) : Nat :=
  2 * (arriving s.arrivals).length + s.buffer.contents.length + s.arrivals.length

def readToTerminator (term : Char) (s : StreamInput) : Option Str × StreamInput :=
  readLoop term (s.cost + 2) [] false s

def readLine (s : StreamInput) : Option Str × StreamInput := s.readToTerminator '\n'

theorem arriving_leave (bytes : Str) (more : List Arrival) :
    arriving (leave bytes more) = bytes ++ arriving more := by
  cases bytes with
  | nil => rfl
  | cons first rest => rfl

theorem length_leave (bytes : Str) (more : List Arrival) :
    (leave bytes more).length ≤ more.length + 1 := by
  cases bytes with
  | nil => exact Nat.le_succ _
  | cons first rest => exact Nat.le_refl _

theorem contents_makeRoom (w : Window Char) : (makeRoom w).contents = w.contents := by
  unfold makeRoom
  split
  · rw [Window.contents_toFront, Window.contents_reset]
  · exact w.contents_reset

/-- There is room at the end as long as not all of the memory is in use. -/
theorem stop_makeRoom {w : Window Char} (h : w.contents.length < w.size) :
    (makeRoom w).stop < w.size := by
  have hcontents := w.reset.length_contents
  have hsize := w.size_reset
  have hstop := w.reset.stop_le
  rw [w.contents_reset] at hcontents
  unfold makeRoom
  split
  · have hfront : w.reset.toFront.stop = w.reset.stop - w.reset.start := rfl
    omega
  · rename_i hroom
    rw [not_or, not_and_or] at hroom
    unfold Window.size at *
    omega

/-- What a read can do. -/
theorem readCharsToBuffer_cases (s : StreamInput) :
    (s.readCharsToBuffer.1 = .closed ∧ s.arrivals = [] ∧ s.readCharsToBuffer.2.arrivals = [] ∧
      s.readCharsToBuffer.2.buffer.contents = s.buffer.contents) ∨
    (s.readCharsToBuffer.1 = .timedOut ∧ s.arrivals = .timeout :: s.readCharsToBuffer.2.arrivals ∧
      s.readCharsToBuffer.2.buffer.contents = s.buffer.contents) ∨
    (s.readCharsToBuffer.1 = .ready ∧ s.buffer.size ≤ s.buffer.contents.length ∧
      s.readCharsToBuffer.2.arrivals = s.arrivals ∧
      s.readCharsToBuffer.2.buffer.contents = s.buffer.contents) ∨
    (s.readCharsToBuffer.1 = .ready ∧ ∃ c moved left more,
      s.arrivals = .bytes c (moved ++ left) :: more ∧
      s.readCharsToBuffer.2.arrivals = leave left more ∧
      s.readCharsToBuffer.2.buffer.contents = s.buffer.contents ++ c :: moved) := by
  have hsize := size_makeRoom s.buffer
  have hcontents := contents_makeRoom s.buffer
  unfold readCharsToBuffer
  by_cases hfull : (makeRoom s.buffer).size ≤ (makeRoom s.buffer).stop
  · right; right; left
    rw [if_pos hfull]
    refine ⟨rfl, ?_, rfl, hcontents⟩
    by_contra hroom
    have hlt := stop_makeRoom (Nat.lt_of_not_le hroom)
    omega
  · rw [if_neg hfull]
    rcases hs : s.arrivals with _ | ⟨⟨first, rest⟩ | _, more⟩
    · exact .inl ⟨rfl, rfl, rfl, hcontents⟩
    · right; right; right
      have hspace : (makeRoom s.buffer).space = (makeRoom s.buffer).space - 1 + 1 := by
        unfold Window.space
        omega
      refine ⟨rfl, first, rest.take ((makeRoom s.buffer).space - 1),
        rest.drop ((makeRoom s.buffer).space - 1), more, ?_, ?_, ?_⟩
      · rw [List.take_append_drop]
      · show leave ((first :: rest).drop (makeRoom s.buffer).space) more = _
        rw [hspace, List.drop_succ_cons]
        rfl
      · show ((makeRoom s.buffer).append (first :: rest)).contents = _
        rw [Window.contents_append, hcontents, hspace, List.take_succ_cons]
        rfl
    · exact .inr (.inl ⟨rfl, rfl, hcontents⟩)

theorem readCharsToBuffer_pending (s : StreamInput) :
    s.readCharsToBuffer.2.pending = s.pending := by
  unfold pending
  rcases s.readCharsToBuffer_cases with ⟨_, hs, hr, hc⟩ | ⟨_, hs, hc⟩ | ⟨_, _, hr, hc⟩ |
    ⟨_, c, moved, left, more, hs, hr, hc⟩
  · rw [hs, hr, hc]
  · rw [hs, hc]
    rfl
  · rw [hr, hc]
  · rw [hs, hr, hc, arriving_leave, arriving]
    simp

theorem readCharsToBuffer_size (s : StreamInput) :
    s.readCharsToBuffer.2.buffer.size = s.buffer.size := by
  have hsize := size_makeRoom s.buffer
  unfold readCharsToBuffer
  by_cases hfull : (makeRoom s.buffer).size ≤ (makeRoom s.buffer).stop
  · rw [if_pos hfull]
    exact hsize
  · rw [if_neg hfull]
    rcases s.arrivals with _ | ⟨⟨first, rest⟩ | _, more⟩
    · exact hsize
    · exact (Window.size_append _ _).trans hsize
    · exact hsize

theorem readCharsToBuffer_cost (s : StreamInput) :
    s.readCharsToBuffer.2.cost ≤ s.cost ∧
      (s.buffer.contents.length < s.buffer.size → s.arrivals ≠ [] →
        s.readCharsToBuffer.2.cost < s.cost) := by
  unfold cost
  rcases s.readCharsToBuffer_cases with ⟨_, hs, hr, hc⟩ | ⟨_, hs, hc⟩ | ⟨_, hfull, hr, hc⟩ |
    ⟨_, c, moved, left, more, hs, hr, hc⟩
  · rw [hs, hr, hc]
    exact ⟨Nat.le_refl _, fun _ hne => absurd rfl hne⟩
  · rw [hs, hc, arriving, List.length_cons]
    omega
  · rw [hr, hc]
    exact ⟨Nat.le_refl _, fun hroom _ => by omega⟩
  · have hleave := length_leave left more
    rw [hs, hr, hc, arriving_leave, arriving]
    simp only [List.length_append, List.length_cons]
    omega

theorem readCharsToBuffer_timely {s : StreamInput} (h : .timeout ∉ s.arrivals) :
    .timeout ∉ s.readCharsToBuffer.2.arrivals := by
  rcases s.readCharsToBuffer_cases with ⟨_, _, hr, _⟩ | ⟨_, hs, _⟩ | ⟨_, _, hr, _⟩ |
    ⟨_, c, moved, left, more, hs, hr, _⟩
  · rw [hr]
    exact List.not_mem_nil
  · rw [hs] at h
    exact fun hmem => h (List.mem_cons_of_mem _ hmem)
  · rw [hr]
    exact h
  · rw [hs] at h
    rw [hr]
    intro hmem
    cases left with
    | nil => exact h (List.mem_cons_of_mem _ hmem)
    | cons d left =>
      rcases List.mem_cons.mp hmem with heq | hmem
      · cases heq
      · exact h (List.mem_cons_of_mem _ hmem)

theorem transferBytesOut_pending (s : StreamInput) (n : Nat) :
    s.buffer.contents.take n ++ (s.transferBytesOut n).pending = s.pending := by
  have hcontents : (s.transferBytesOut n).buffer.contents = s.buffer.contents.drop n :=
    s.buffer.contents_advance n
  unfold pending
  rw [hcontents, ← List.append_assoc, List.take_append_drop]
  rfl

theorem transferBytesOut_drop (s : StreamInput) {n : Nat} (h : n ≤ s.buffer.contents.length) :
    (s.transferBytesOut n).pending = s.pending.drop n := by
  have hcontents : (s.transferBytesOut n).buffer.contents = s.buffer.contents.drop n :=
    s.buffer.contents_advance n
  unfold pending
  rw [hcontents, List.drop_append_of_le_length h]
  rfl

theorem transferBytesOut_cost (s : StreamInput) (n : Nat) :
    (s.transferBytesOut n).cost + min n s.buffer.contents.length = s.cost := by
  have hcontents : (s.transferBytesOut n).buffer.contents = s.buffer.contents.drop n :=
    s.buffer.contents_advance n
  have harrivals : (s.transferBytesOut n).arrivals = s.arrivals := rfl
  unfold cost
  rw [hcontents, harrivals, List.length_drop]
  omega

end StreamInput

/-- What reading up to a terminator gives when everything has come. -/
def cutAfter (term : Char) (s : Str) : Option Str × Str :=
  if s = [] then (none, [])
  else if term ∈ s then
    (some (s.takeWhile (· ≠ term) ++ [term]), (s.dropWhile (· ≠ term)).tail)
  else (some s, [])

theorem cutAfter_found {term : Char} {before : Str} (h : term ∉ before) (after : Str) :
    cutAfter term (before ++ term :: after) = (some (before ++ [term]), after) := by
  have hne : before ++ term :: after ≠ [] := by simp
  have hmem : term ∈ before ++ term :: after := by simp
  have hpass : ∀ c ∈ before, decide (c ≠ term) = true := by
    intro c hc
    rw [decide_eq_true_eq]
    rintro rfl
    exact h hc
  unfold cutAfter
  rw [if_neg hne, if_pos hmem, List.takeWhile_append_of_pos hpass,
    List.dropWhile_append_of_pos hpass, List.takeWhile_cons_of_neg (by simp),
    List.dropWhile_cons_of_neg (by simp), List.append_nil, List.tail_cons]

theorem cutAfter_missing {term : Char} {s : Str} (hne : s ≠ []) (h : term ∉ s) :
    cutAfter term s = (some s, []) := by
  unfold cutAfter
  rw [if_neg hne, if_neg h]

theorem exists_cutAfter (term : Char) {s : Str} (h : s ≠ []) :
    ∃ l rest, l ≠ [] ∧ cutAfter term s = (some l, rest) := by
  unfold cutAfter
  rw [if_neg h]
  split
  · exact ⟨_, _, by simp, rfl⟩
  · exact ⟨s, [], h, rfl⟩

namespace StreamInput

theorem wanted_cases (term : Char) (isClosed : Bool) (s : StreamInput) :
    (∃ before after, s.buffer.contents = before ++ term :: after ∧ term ∉ before ∧
      s.wanted term isClosed = before.length + 1) ∨
    (term ∉ s.buffer.contents ∧ s.buffer.contents ≠ [] ∧
      s.wanted term isClosed = s.buffer.contents.length ∧
      (isClosed = true ∨ s.buffer.size ≤ s.buffer.contents.length)) ∨
    (term ∉ s.buffer.contents ∧ s.wanted term isClosed = 0 ∧
      s.buffer.contents.length < s.buffer.size ∧ (s.buffer.contents ≠ [] → isClosed = false)) := by
  have hlength := s.buffer.length_contents
  have hstop : s.buffer.stop ≤ s.buffer.size := s.buffer.stop_le
  have hpos := s.size_pos
  unfold wanted
  by_cases hempty : s.buffer.contents = []
  · right; right
    simp [hempty, hpos]
  · simp only [if_neg hempty]
    by_cases hterm : term ∈ s.buffer.contents
    · left
      obtain ⟨before, after, heq, hbefore⟩ := List.eq_append_cons_of_mem hterm
      refine ⟨before, after, heq, hbefore, ?_⟩
      have hpass : ∀ c ∈ before, decide (c ≠ term) = true := by
        intro c hc
        rw [decide_eq_true_eq]
        exact ne_of_mem_of_not_mem hc hbefore
      rw [if_pos hterm, heq, List.takeWhile_append_of_pos hpass,
        List.takeWhile_cons_of_neg (by simp),
        List.append_nil]
    · rw [if_neg hterm]
      have hsome := List.length_pos_of_ne_nil hempty
      by_cases hclosed : isClosed = true
      · exact .inr (.inl ⟨hterm, hempty, if_pos hclosed, .inl hclosed⟩)
      · rw [if_neg hclosed]
        rw [Bool.not_eq_true] at hclosed
        split
        · exact .inr (.inr ⟨hterm, rfl, by omega, fun _ => hclosed⟩)
        · split
          · exact .inr (.inl ⟨hterm, hempty, rfl, .inr (by omega)⟩)
          · exact .inr (.inr ⟨hterm, rfl, by omega, fun _ => hclosed⟩)

/-- A line comes as if everything were there, or a silence cuts it short; what a silence
leaves of it stays in the stream unless the buffer was too small for it. -/
theorem readLoop_cases {term : Char} {fuel : Nat} {gathered : Str} {isClosed : Bool}
    {s : StreamInput} (hterm : term ∉ gathered)
    (hlong : gathered = [] ∨ s.buffer.size ≤ gathered.length ∨ isClosed = true)
    (hclosed : isClosed = true → s.arrivals = [])
    (hfuel : s.cost + (if isClosed then 0 else 1) < fuel) :
    ((readLoop term fuel gathered isClosed s).1,
      (readLoop term fuel gathered isClosed s).2.pending) =
        cutAfter term (gathered ++ s.pending) ∨
      .timeout ∈ s.arrivals ∧ ∃ l, (readLoop term fuel gathered isClosed s).1 = some l ∧
        term ∉ l ∧ (l = [] ∨ s.buffer.size ≤ l.length) ∧
        l ++ (readLoop term fuel gathered isClosed s).2.pending = gathered ++ s.pending := by
  induction fuel generalizing gathered isClosed s with
  | zero => omega
  | succ fuel ih =>
    rw [readLoop]
    by_cases hend : s.buffer.contents = [] ∧ isClosed = true
    · -- the buffer is used up and no more will come
      left
      have hpending : s.pending = [] := by
        unfold pending
        rw [hend.1, hclosed hend.2]
        rfl
      rw [if_pos hend]
      simp only [hpending, List.append_nil]
      by_cases hgathered : gathered = []
      · rw [if_pos hgathered, hgathered]
        rfl
      · rw [if_neg hgathered, cutAfter_missing hgathered hterm]
    · rw [if_neg hend]
      rcases s.wanted_cases term isClosed with ⟨before, after, heq, hbefore, hwanted⟩ |
        ⟨habsent, hne, hwanted, hwhy⟩ | ⟨habsent, hwanted, hroom, hopen⟩
      · -- the terminator is in the buffer
        left
        have hmem : term ∈ s.buffer.contents := by
          rw [heq]
          simp
        have htake : s.buffer.contents.take (before.length + 1) = before ++ [term] := by
          rw [heq, List.append_cons]
          exact List.take_left' (by simp)
        have hrest : (s.transferBytesOut (before.length + 1)).pending =
            after ++ arriving s.arrivals := by
          have h := s.transferBytesOut_pending (before.length + 1)
          have hsplit : s.pending = before ++ [term] ++ (after ++ arriving s.arrivals) := by
            unfold pending
            rw [heq]
            simp
          rw [htake, hsplit] at h
          exact List.append_cancel_left h
        have hall : gathered ++ s.pending =
            (gathered ++ before) ++ term :: (after ++ arriving s.arrivals) := by
          unfold pending
          rw [heq]
          simp
        have hclean : term ∉ gathered ++ before := by
          rw [List.mem_append, not_or]
          exact ⟨hterm, hbefore⟩
        rw [hwanted, if_neg (by omega), if_pos hmem, htake, hrest, hall, cutAfter_found hclean,
          List.append_assoc]
      · -- the buffer is full, or the stream has ended: all of it is taken
        have hpos := List.length_pos_of_ne_nil hne
        have hpending := s.transferBytesOut_pending s.buffer.contents.length
        have hcost := s.transferBytesOut_cost s.buffer.contents.length
        rw [List.take_length] at hpending
        have hgoal := @ih (gathered ++ s.buffer.contents) isClosed
          (s.transferBytesOut s.buffer.contents.length)
          (by rw [List.mem_append, not_or]; exact ⟨hterm, habsent⟩)
          (by
            right
            rw [List.length_append]
            rcases hwhy with h | h
            · exact .inr h
            · have hsize : (s.transferBytesOut s.buffer.contents.length).buffer.size =
                s.buffer.size := rfl
              left
              omega)
          hclosed (by omega)
        rw [List.append_assoc, hpending] at hgoal
        rw [hwanted, if_neg (by omega), if_neg habsent, List.take_length]
        exact hgoal
      · -- more bytes are needed
        have hpending := s.readCharsToBuffer_pending
        have hsize := s.readCharsToBuffer_size
        have hcost := s.readCharsToBuffer_cost
        have hstill : isClosed = false := by
          rw [← Bool.not_eq_true]
          intro htrue
          by_cases hempty : s.buffer.contents = []
          · exact hend ⟨hempty, htrue⟩
          · exact absurd (htrue.symm.trans (hopen hempty)) (by decide)
        subst hstill
        rw [if_neg (by decide)] at hfuel
        rw [hwanted, if_pos rfl]
        rcases hread : s.readCharsToBuffer with ⟨result, s'⟩
        rcases s.readCharsToBuffer_cases with ⟨hresult, hs, hr, hc⟩ | ⟨hresult, hs, hc⟩ |
          ⟨hresult, hfull, _⟩ | ⟨hresult, c, moved, left, more, hs, hr, hc⟩
        · rw [hread] at hresult hr hpending hsize hcost
          simp only at hresult hr hpending hsize hcost
          subst hresult
          have hgoal := @ih gathered true s' hterm
            (.inr (.inr rfl)) (fun _ => hr) (by rw [if_pos rfl]; omega)
          rw [hpending] at hgoal
          rcases hgoal with hgoal | ⟨htimeout, _⟩
          · exact .inl hgoal
          · rw [hr] at htimeout
            exact absurd htimeout List.not_mem_nil
        · rw [hread] at hresult hs hpending
          simp only at hresult hs hpending
          subst hresult
          right
          refine ⟨by rw [hs]; exact List.mem_cons_self, gathered, rfl, hterm, ?_, ?_⟩
          · rcases hlong with h | h | h
            · exact .inl h
            · exact .inr h
            · cases h
          · exact congrArg (gathered ++ ·) hpending
        · omega
        · have hless := hcost.2 hroom (by rw [hs]; exact List.cons_ne_nil _ _)
          have htimeouts : .timeout ∈ s'.arrivals → .timeout ∈ s.arrivals := by
            intro hmem
            by_contra hnone
            have hstays := readCharsToBuffer_timely hnone
            rw [hread] at hstays
            exact hstays hmem
          rw [hread] at hresult hpending hsize hless
          simp only at hresult hpending hsize hless
          subst hresult
          have hgoal := @ih gathered false s' hterm
            (by rw [hsize]; exact hlong) (fun h => by cases h) (by rw [if_neg (by decide)]; omega)
          rw [hpending, hsize] at hgoal
          rcases hgoal with hgoal | ⟨htimeout, hrest⟩
          · exact .inl hgoal
          · exact .inr ⟨htimeouts htimeout, hrest⟩

/-- What a loop over reads keeps of the stream. -/
theorem readLoop_keeps {I : StreamInput → Prop}
    (hread : ∀ s, I s → I s.readCharsToBuffer.2) (htake : ∀ s n, I s → I (s.transferBytesOut n))
    (term : Char) {fuel : Nat} {gathered : Str} {isClosed : Bool} {s : StreamInput} (h : I s) :
    I (readLoop term fuel gathered isClosed s).2 := by
  induction fuel generalizing gathered isClosed s with
  | zero => exact h
  | succ fuel ih =>
    have hnext := hread s h
    rw [readLoop]
    split
    · exact h
    · split
      · rcases hresult : s.readCharsToBuffer with ⟨_ | _ | _, s'⟩
        · rw [hresult] at hnext
          exact ih hnext
        · rw [hresult] at hnext
          exact hnext
        · rw [hresult] at hnext
          exact ih hnext
      · split
        · exact htake s _ h
        · exact ih (htake s _ h)

theorem readLine_cases (s : StreamInput) :
    (s.readLine.1, s.readLine.2.pending) = cutAfter '\n' s.pending ∨
      .timeout ∈ s.arrivals ∧ ∃ l, s.readLine.1 = some l ∧ '\n' ∉ l ∧
        (l = [] ∨ s.buffer.size ≤ l.length) ∧ l ++ s.readLine.2.pending = s.pending :=
  @readLoop_cases '\n' _ [] false s List.not_mem_nil (.inl rfl) (fun h => by cases h)
    (Nat.lt_succ_self _)

theorem readLine_size (s : StreamInput) : s.readLine.2.buffer.size = s.buffer.size :=
  readLoop_keeps (I := fun s' => s'.buffer.size = s.buffer.size)
    (fun s' h => s'.readCharsToBuffer_size.trans h) (fun _ _ h => h) '\n' rfl

theorem readLine_timely {s : StreamInput} (h : .timeout ∉ s.arrivals) :
    .timeout ∉ s.readLine.2.arrivals :=
  readLoop_keeps (I := fun s => .timeout ∉ s.arrivals)
    (fun _ h => readCharsToBuffer_timely h) (fun _ _ h => h) '\n' h

theorem cutAfter_newline (s : Str) : cutAfter '\n' s =
    ((Invocation.readLine s).map Prod.fst, ((Invocation.readLine s).map Prod.snd).getD []) := by
  by_cases hempty : s = []
  · rw [hempty]
    rfl
  · by_cases hmem : '\n' ∈ s
    · obtain ⟨before, after, rfl, hbefore⟩ := List.eq_append_cons_of_mem hmem
      rw [cutAfter_found hbefore, readLine_line hbefore]
      rfl
    · have hread : Invocation.readLine s = some (s, []) := by
        have hpass : ∀ c ∈ s, decide (c ≠ '\n') = true := by
          intro c hc
          rw [decide_eq_true_eq]
          exact ne_of_mem_of_not_mem hc hmem
        have hdrop := List.dropWhile_eq_nil_iff.mpr hpass
        cases s with
        | nil => exact absurd rfl hempty
        | cons c s =>
          unfold Invocation.readLine
          simp only [hdrop]
      rw [cutAfter_missing hempty hmem, hread]
      rfl

/-- `STREAMReadLine` on a connection that is not kept waiting. -/
theorem readLine_eq {s : StreamInput} (h : .timeout ∉ s.arrivals) :
    (s.readLine.1, s.readLine.2.pending) =
      ((Invocation.readLine s.pending).map Prod.fst,
        ((Invocation.readLine s.pending).map Prod.snd).getD []) := by
  rcases s.readLine_cases with heq | ⟨hmem, _⟩
  · rw [← cutAfter_newline]
    exact heq
  · exact absurd hmem h

/-- `STREAMReadLine` called over and over. -/
def lines : Nat → StreamInput → List (Option Str) × StreamInput
  | 0, s => ([], s)
  | n + 1, s => (s.readLine.1 :: (lines n s.readLine.2).1, (lines n s.readLine.2).2)

theorem readLines_cut {s l rest : Str} (h : cutAfter '\n' s = (some l, rest)) :
    readLines s = l :: readLines rest := by
  rw [cutAfter_newline] at h
  cases hread : Invocation.readLine s with
  | none =>
    rw [hread] at h
    cases h
  | some p =>
    rw [hread] at h
    cases h
    exact Scan.unfold_some readLine_shrinks hread

/-- A line that fits the buffer is not torn by a silence. -/
theorem readLine_silence {s : StreamInput}
    (hfit : ∀ l ∈ readLines s.pending, l.length ≤ s.buffer.size) :
    readLines s.pending = s.readLine.1.toList.filter (· ≠ []) ++ readLines s.readLine.2.pending ∧
      (s.readLine.1 = none → s.readLine.2.pending = []) := by
  have hpos := s.size_pos
  rcases s.readLine_cases with hcut | ⟨_, l, hline, hnewline, hlong, hpending⟩
  · generalize s.readLine.1 = result at *
    generalize s.readLine.2.pending = rest at *
    by_cases hempty : s.pending = []
    · rw [hempty] at hcut ⊢
      cases hcut
      exact ⟨rfl, fun _ => rfl⟩
    · obtain ⟨l, after, hne, hl⟩ := exists_cutAfter '\n' hempty
      rw [hl] at hcut
      cases hcut
      rw [readLines_cut hl, Option.toList_some, List.filter_cons_of_pos (by simp [hne])]
      exact ⟨rfl, fun h => by cases h⟩
  · rw [hline]
    refine ⟨?_, fun h => by cases h⟩
    rcases hlong with rfl | hlong
    · rw [← hpending]
      rfl
    · have hne : l ≠ [] := List.ne_nil_of_length_pos (by omega)
      generalize s.readLine.2.pending = rest at *
      rw [← hpending] at hfit ⊢
      -- the line is longer than what has come of it
      have hrest : rest = [] := by
        by_cases hmem : '\n' ∈ rest
        · obtain ⟨before, after, rfl, hbefore⟩ := List.eq_append_cons_of_mem hmem
          have hclean : '\n' ∉ l ++ before := by
            rw [List.mem_append, not_or]
            exact ⟨hnewline, hbefore⟩
          have hcut : cutAfter '\n' (l ++ (before ++ '\n' :: after)) =
              (some (l ++ before ++ ['\n']), after) := by
            rw [← List.append_assoc]
            exact cutAfter_found hclean after
          have hlength := hfit (l ++ before ++ ['\n'])
            (by rw [readLines_cut hcut]; exact List.mem_cons_self)
          rw [List.length_append, List.length_append, List.length_singleton] at hlength
          omega
        · have hcut : cutAfter '\n' (l ++ rest) = (some (l ++ rest), []) :=
            cutAfter_missing (by simp [hne])
              (by rw [List.mem_append, not_or]; exact ⟨hnewline, hmem⟩)
          have hlength := hfit (l ++ rest) (by rw [readLines_cut hcut]; exact List.mem_cons_self)
          rw [List.length_append] at hlength
          exact List.length_eq_zero_iff.mp (by omega)
      subst hrest
      rw [List.append_nil, readLines_cut (cutAfter_missing hne hnewline), Option.toList_some,
        List.filter_cons_of_pos (by simp [hne])]
      rfl

/-- However often the connection falls silent, the lines come one after the other, with empty
strings for the silences, and NULL only comes at the end. -/
theorem lines_silences (n : Nat) {s : StreamInput}
    (hfit : ∀ l ∈ readLines s.pending, l.length ≤ s.buffer.size) :
    readLines s.pending =
        ((s.lines n).1.filterMap id).filter (· ≠ []) ++ readLines (s.lines n).2.pending ∧
      (none ∈ (s.lines n).1 → (s.lines n).2.pending = []) := by
  induction n generalizing s with
  | zero => exact ⟨rfl, fun h => absurd h List.not_mem_nil⟩
  | succ n ih =>
    obtain ⟨hlines, hend⟩ := readLine_silence hfit
    have hrest : ∀ l ∈ readLines s.readLine.2.pending, l.length ≤ s.readLine.2.buffer.size := by
      intro l hl
      rw [readLine_size]
      apply hfit
      rw [hlines]
      exact List.mem_append_right _ hl
    obtain ⟨hlater, hlast⟩ := ih hrest
    rw [lines]
    constructor
    · rw [hlines, hlater]
      cases s.readLine.1 with
      | none => rfl
      | some l =>
        show _ = List.filter _ ([l] ++ (s.readLine.2.lines n).1.filterMap id) ++ _
        rw [List.filter_append, List.append_assoc]
        rfl
    · intro hmem
      rcases List.mem_cons.mp hmem with hnull | hmem
      · rw [hend hnull.symm] at hlater
        by_contra hne
        obtain ⟨l, after, _, hl⟩ := exists_cutAfter '\n' hne
        rw [readLines_cut hl] at hlater
        have hnil : readLines [] = [] := rfl
        rw [hnil] at hlater
        simp at hlater
      · exact hlast hmem

end StreamInput

def smallInput (arrivals : List Arrival) : StreamInput where
  buffer := Window.blank ("........".toList)
  arrivals := arrivals
  size_pos := by decide

def pausedArrivals : List Arrival :=
  [.timeout, .bytes 'o' "ne\nt".toList, .timeout, .bytes 'w' "o\n".toList]

theorem lines_silences_paused :
    readLines "one\ntwo\n".toList =
        (((smallInput pausedArrivals).lines 4).1.filterMap id).filter (· ≠ []) ++
          readLines ((smallInput pausedArrivals).lines 4).2.pending ∧
      (none ∈ ((smallInput pausedArrivals).lines 4).1 →
        ((smallInput pausedArrivals).lines 4).2.pending = []) :=
  StreamInput.lines_silences 4 (s := smallInput pausedArrivals) (by decide)

example : ((smallInput pausedArrivals).lines 5).1 =
  [some [], some "one\n".toList, some [], some "two\n".toList, none] := by decide

end Invocation
