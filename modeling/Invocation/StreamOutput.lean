import Invocation.Replay
import Invocation.Stream

/-!
# Writing and copying

What a `write` takes of the bytes it is offered, whether it is interrupted, and
when it fails is up to the descriptor. A stream never sends bytes twice or out
of order, and loses some only when a write fails while its buffer is full. Over
both halves runs the copy loop of `STREAMSendFile`.
-/

namespace Invocation

set_option autoImplicit false

open Process Server

/-- What `select` and `write` do next: take a byte and up to `more` behind it, have to be tried
again, let the time run out, or fail. -/
inductive WriteOutcome
  | accepts (more : Nat)
  | interrupted
  | timedOut
  | failed
deriving DecidableEq

structure Drained where
  written : Str
  left : Str
  outcomes : List WriteOutcome
  failed : Bool

/-- The loop of `STREAMInternalFinalWriteBytes`. -/
def drain : List WriteOutcome → Str → Drained
  | [], data => ⟨data, [], [], false⟩
  | outcome :: outcomes, data =>
    if data = [] then ⟨[], [], outcome :: outcomes, false⟩
    else
      match outcome with
      | .accepts more =>
        let d := drain outcomes (data.drop (more + 1))
        { d with written := data.take (more + 1) ++ d.written }
      | .interrupted => drain outcomes data
      | .timedOut => ⟨[], data, outcomes, false⟩
      | .failed => ⟨[], data, outcomes, true⟩

/-- No write fails and no time runs out. -/
def Reliable (outcomes : List WriteOutcome) : Prop :=
  .timedOut ∉ outcomes ∧ .failed ∉ outcomes

theorem drain_nil (outcomes : List WriteOutcome) :
    drain outcomes [] = ⟨[], [], outcomes, false⟩ := by
  cases outcomes with
  | nil => rfl
  | cons outcome outcomes => cases outcome <;> rw [drain, if_pos rfl]

theorem drain_cons (outcome : WriteOutcome) (outcomes : List WriteOutcome) {data : Str}
    (h : data ≠ []) : drain (outcome :: outcomes) data =
      match outcome with
      | .accepts more =>
        { drain outcomes (data.drop (more + 1)) with
          written := data.take (more + 1) ++ (drain outcomes (data.drop (more + 1))).written }
      | .interrupted => drain outcomes data
      | .timedOut => ⟨[], data, outcomes, false⟩
      | .failed => ⟨[], data, outcomes, true⟩ := by
  cases outcome <;> rw [drain, if_neg h]

theorem drain_all (outcomes : List WriteOutcome) (data : Str) :
    (drain outcomes data).written ++ (drain outcomes data).left = data := by
  induction outcomes generalizing data with
  | nil => exact List.append_nil data
  | cons outcome outcomes ih =>
    by_cases hempty : data = []
    · rw [hempty, drain_nil]
      rfl
    · rw [drain_cons outcome outcomes hempty]
      cases outcome with
      | accepts more =>
        show data.take (more + 1) ++ _ ++ _ = data
        rw [List.append_assoc, ih, List.take_append_drop]
      | interrupted => exact ih data
      | timedOut => rfl
      | failed => rfl

theorem Reliable.tail {outcome : WriteOutcome} {outcomes : List WriteOutcome}
    (h : Reliable (outcome :: outcomes)) : Reliable outcomes :=
  ⟨fun hmem => h.1 (List.mem_cons_of_mem _ hmem), fun hmem => h.2 (List.mem_cons_of_mem _ hmem)⟩

theorem drain_reliable {outcomes : List WriteOutcome} (h : Reliable outcomes) (data : Str) :
    (drain outcomes data).left = [] ∧ (drain outcomes data).failed = false ∧
      Reliable (drain outcomes data).outcomes := by
  induction outcomes generalizing data with
  | nil => exact ⟨rfl, rfl, h⟩
  | cons outcome outcomes ih =>
    by_cases hempty : data = []
    · rw [hempty, drain_nil]
      exact ⟨rfl, rfl, h⟩
    · rw [drain_cons outcome outcomes hempty]
      cases outcome with
      | accepts more => exact ih h.tail _
      | interrupted => exact ih h.tail data
      | timedOut => exact absurd List.mem_cons_self h.1
      | failed => exact absurd List.mem_cons_self h.2

structure StreamOutput where
  queued : Str
  size : Nat
  flushAlways : Bool
  outcomes : List WriteOutcome
  delivered : Str
  queued_le : queued.length ≤ size
  size_pos : 0 < size

namespace StreamOutput

/-- Everything the stream has taken and not lost. -/
def all (out : StreamOutput) : Str := out.delivered ++ out.queued

def space (out : StreamOutput) : Nat := out.size - out.queued.length

/-- `memcpy` of as many bytes as there is room for. -/
def enqueue (out : StreamOutput) (bytes : Str) : StreamOutput :=
  { out with
    queued := out.queued ++ bytes.take out.space
    queued_le := by
      have hle := out.queued_le
      rw [List.length_append, List.length_take, space]
      omega }

/-- `STREAMInternalFinalWriteBytes` on all that is queued; -1 is `STREAM_CLOSED`. -/
def finalWriteBytes (out : StreamOutput) : Int × StreamOutput :=
  let d := drain out.outcomes out.queued
  (if d.failed then -1 else d.written.length,
    { out with
      queued := d.left
      outcomes := d.outcomes
      delivered := out.delivered ++ d.written
      queued_le := by
        have hall := congrArg List.length (drain_all out.outcomes out.queued)
        have hle := out.queued_le
        rw [List.length_append] at hall
        show (drain out.outcomes out.queued).left.length ≤ out.size
        omega })

def flush (out : StreamOutput) : StreamOutput := out.finalWriteBytes.2

/-- The loop of `STREAMInternalQueueBytes`; true when the stream is closed. -/
def queueLoop : Nat → Str → StreamOutput → Bool × StreamOutput
  | 0, _, out => (false, out)
  | fuel + 1, bytes, out =>
    let bytes' := bytes.drop out.space
    let out := out.enqueue bytes
    if out.queued ≠ [] ∧ (out.size ≤ out.queued.length ∨ out.flushAlways = true) then
      if out.finalWriteBytes.1 < 1 then (decide (out.finalWriteBytes.1 < 0), out.finalWriteBytes.2)
      else if bytes' = [] then (false, out.finalWriteBytes.2)
      else queueLoop fuel bytes' out.finalWriteBytes.2
    else if bytes' = [] then (false, out)
    else queueLoop fuel bytes' out

/-- `STREAMWriteBytes`, which always claims to have taken everything unless the stream is closed. -/
def writeBytes (out : StreamOutput) (bytes : Str) : Bool × StreamOutput :=
  if bytes ≠ [] then queueLoop (bytes.length + 2) bytes out
  else if out.queued ≠ [] then (decide (out.finalWriteBytes.1 < 0), out.finalWriteBytes.2)
  else (false, out)

/-- `STREAMWriteLine` without `FLUSH_LINE`. -/
def writeLine (out : StreamOutput) (text : Str) : StreamOutput :=
  if text = [] then out else (out.writeBytes text).2

theorem finalWriteBytes_all (out : StreamOutput) : out.finalWriteBytes.2.all = out.all := by
  have hall := drain_all out.outcomes out.queued
  show out.delivered ++ (drain out.outcomes out.queued).written ++
    (drain out.outcomes out.queued).left = out.delivered ++ out.queued
  rw [List.append_assoc, hall]

theorem finalWriteBytes_reliable {out : StreamOutput} (h : Reliable out.outcomes) :
    out.finalWriteBytes.1 = out.queued.length ∧ out.finalWriteBytes.2.queued = [] ∧
      Reliable out.finalWriteBytes.2.outcomes := by
  obtain ⟨hleft, hfailed, hrest⟩ := drain_reliable h out.queued
  have hall := drain_all out.outcomes out.queued
  rw [hleft, List.append_nil] at hall
  refine ⟨?_, hleft, hrest⟩
  show (if (drain out.outcomes out.queued).failed = true then (-1 : Int)
    else (drain out.outcomes out.queued).written.length) = _
  rw [hfailed, hall]
  rfl

theorem enqueue_all (out : StreamOutput) (bytes : Str) :
    (out.enqueue bytes).all ++ bytes.drop out.space = out.all ++ bytes := by
  show out.delivered ++ (out.queued ++ bytes.take out.space) ++ bytes.drop out.space = _
  rw [← List.append_assoc, List.append_assoc, List.take_append_drop]
  rfl

/-- Nothing is sent twice or out of order. -/
theorem queueLoop_sublist (fuel : Nat) (bytes : Str) (out : StreamOutput) :
    (queueLoop fuel bytes out).2.all.Sublist (out.all ++ bytes) := by
  induction fuel generalizing bytes out with
  | zero => exact List.sublist_append_left _ _
  | succ fuel ih =>
    rw [queueLoop, ← enqueue_all]
    have hfront := List.sublist_append_left (out.enqueue bytes).all (bytes.drop out.space)
    have hwritten := (out.enqueue bytes).finalWriteBytes_all
    split
    · rw [← hwritten] at hfront ⊢
      split
      · exact hfront
      · split
        · exact hfront
        · exact ih _ _
    · split
      · exact hfront
      · exact ih _ _

/-- While no write fails, every round empties the buffer or is the last one. -/
theorem queueLoop_reliable {fuel : Nat} {bytes : Str} {out : StreamOutput}
    (h : Reliable out.outcomes)
    (hfuel : bytes.length + (if out.space = 0 then 1 else 0) < fuel) :
    (queueLoop fuel bytes out).1 = false ∧ (queueLoop fuel bytes out).2.all = out.all ++ bytes ∧
      Reliable (queueLoop fuel bytes out).2.outcomes ∧
      (out.flushAlways = true → (queueLoop fuel bytes out).2.queued = []) := by
  induction fuel generalizing bytes out with
  | zero => omega
  | succ fuel ih =>
    have hle := out.queued_le
    have hpos := out.size_pos
    have hrel : Reliable (out.enqueue bytes).outcomes := h
    obtain ⟨hcount, hempty, hrest⟩ := finalWriteBytes_reliable hrel
    have hdrop := bytes.length_drop (i := out.space)
    have hqueued : (out.enqueue bytes).queued.length =
        out.queued.length + min out.space bytes.length := by
      rw [← List.length_take, ← List.length_append]
      rfl
    rw [queueLoop, ← enqueue_all]
    split
    · rename_i hwrites
      have hsome := List.length_pos_of_ne_nil hwrites.1
      rw [if_neg (by omega), ← (out.enqueue bytes).finalWriteBytes_all]
      split
      · rename_i hlast
        rw [hlast, List.append_nil]
        exact ⟨rfl, rfl, hrest, fun _ => hempty⟩
      · rename_i hmore
        have hleft := List.length_pos_of_ne_nil hmore
        have hspace : (out.enqueue bytes).finalWriteBytes.2.space ≠ 0 := by
          have hsize : (out.enqueue bytes).finalWriteBytes.2.size = out.size := rfl
          unfold space
          rw [hempty, hsize, List.length_nil]
          omega
        refine ih hrest ?_
        rw [if_neg hspace]
        split at hfuel <;> omega
    · rename_i hquiet
      have hlast : bytes.drop out.space = [] := by
        rw [← List.length_eq_zero_iff, hdrop]
        have hsize : (out.enqueue bytes).size = out.size := rfl
        unfold space at *
        by_cases hnone : (out.enqueue bytes).queued = []
        · rw [hnone, List.length_nil] at hqueued
          omega
        · have hroom : ¬ (out.enqueue bytes).size ≤ (out.enqueue bytes).queued.length :=
            fun hfull => hquiet ⟨hnone, .inl hfull⟩
          omega
      rw [if_pos hlast, hlast, List.append_nil]
      refine ⟨rfl, rfl, hrel, fun hflush => ?_⟩
      by_contra hnone
      exact hquiet ⟨hnone, .inr hflush⟩

theorem writeBytes_sublist (out : StreamOutput) (bytes : Str) :
    (out.writeBytes bytes).2.all.Sublist (out.all ++ bytes) := by
  unfold writeBytes
  by_cases hbytes : bytes = []
  · rw [if_neg (fun h => h hbytes), hbytes, List.append_nil]
    split
    · rw [finalWriteBytes_all]
    · exact List.Sublist.refl _
  · rw [if_pos hbytes]
    exact queueLoop_sublist _ bytes out

theorem writeBytes_reliable {out : StreamOutput} (h : Reliable out.outcomes) (bytes : Str) :
    (out.writeBytes bytes).1 = false ∧ (out.writeBytes bytes).2.all = out.all ++ bytes ∧
      Reliable (out.writeBytes bytes).2.outcomes ∧
      (out.flushAlways = true → (out.writeBytes bytes).2.queued = []) := by
  unfold writeBytes
  by_cases hbytes : bytes = []
  · rw [if_neg (fun h => h hbytes), hbytes, List.append_nil]
    obtain ⟨hcount, hempty, hrest⟩ := finalWriteBytes_reliable h
    split
    · refine ⟨?_, out.finalWriteBytes_all, hrest, fun _ => hempty⟩
      rw [decide_eq_false_iff_not]
      omega
    · rename_i hnone
      exact ⟨rfl, rfl, h, fun _ => not_not.mp hnone⟩
  · rw [if_pos hbytes]
    refine queueLoop_reliable h ?_
    split <;> omega

theorem queueLoop_flushAlways (fuel : Nat) (bytes : Str) (out : StreamOutput) :
    (queueLoop fuel bytes out).2.flushAlways = out.flushAlways := by
  induction fuel generalizing bytes out with
  | zero => rfl
  | succ fuel ih =>
    rw [queueLoop]
    split
    · split
      · rfl
      · split
        · rfl
        · exact ih _ _
    · split
      · rfl
      · exact ih _ _

theorem writeLine_flushAlways (out : StreamOutput) (text : Str) :
    (out.writeLine text).flushAlways = out.flushAlways := by
  unfold writeLine writeBytes
  split
  · rfl
  · exact queueLoop_flushAlways _ _ _

/-- What the connection makes of the texts that the server sends, oldest first. -/
def sends (out : StreamOutput) (texts : List Str) : StreamOutput := texts.foldl writeLine out

theorem sends_sublist (texts : List Str) (out : StreamOutput) :
    (out.sends texts).all.Sublist (out.all ++ texts.flatten) := by
  induction texts generalizing out with
  | nil => exact List.sublist_append_left _ _
  | cons text texts ih =>
    have hline : (out.writeLine text).all.Sublist (out.all ++ text) := by
      unfold writeLine
      split
      · exact List.sublist_append_left _ _
      · exact out.writeBytes_sublist text
    rw [List.flatten_cons, ← List.append_assoc]
    exact (ih (out.writeLine text)).trans (hline.append (List.Sublist.refl _))

theorem sends_reliable (texts : List Str) {out : StreamOutput} (h : Reliable out.outcomes) :
    (out.sends texts).all = out.all ++ texts.flatten ∧
      (out.flushAlways = true → out.queued = [] → (out.sends texts).queued = []) := by
  induction texts generalizing out with
  | nil => exact ⟨(List.append_nil _).symm, fun _ hempty => hempty⟩
  | cons text texts ih =>
    obtain ⟨_, hall, hrest, hflush⟩ := writeBytes_reliable h text
    have hline : (out.writeLine text).all = out.all ++ text ∧
        Reliable (out.writeLine text).outcomes ∧
        (out.flushAlways = true → out.queued = [] → (out.writeLine text).queued = []) := by
      unfold writeLine
      split
      · rename_i hnone
        rw [hnone, List.append_nil]
        exact ⟨rfl, h, fun _ hempty => hempty⟩
      · exact ⟨hall, hrest, fun halways _ => hflush halways⟩
    obtain ⟨hmore, hempty⟩ := ih hline.2.1
    rw [List.flatten_cons, ← List.append_assoc, ← hline.1]
    refine ⟨hmore, fun halways hnone => ?_⟩
    exact hempty ((out.writeLine_flushAlways text).trans halways) (hline.2.2 halways hnone)

end StreamOutput

/-- The texts that a history has sent, oldest first. -/
def sentTexts (history : List Event) : List Str := (history.map Event.sent).reverse

theorem flatten_sentTexts (history : List Event) :
    (sentTexts history).flatten = sentBytes history := by
  induction history with
  | nil => rfl
  | cons e past ih =>
    have hsplit : sentTexts (e :: past) = sentTexts past ++ [e.sent] := List.reverse_cons
    rw [hsplit, List.flatten_append, ih]
    exact congrArg (sentBytes past ++ ·) (List.append_nil _)

/-- The client gets what the server sends, in order and nothing twice; all of it, at once, unless
a write fails. -/
theorem sent_in_order (history : List Event) (out : StreamOutput) (hnew : out.delivered = [])
    (hempty : out.queued = []) :
    (out.sends (sentTexts history)).all.Sublist (sentBytes history) ∧
      (Reliable out.outcomes → (out.sends (sentTexts history)).all = sentBytes history ∧
        (out.flushAlways = true → (out.sends (sentTexts history)).delivered =
          sentBytes history)) := by
  have hall : out.all = [] := by
    unfold StreamOutput.all
    rw [hnew, hempty]
    rfl
  have hsub := out.sends_sublist (sentTexts history)
  rw [hall, List.nil_append, flatten_sentTexts] at hsub
  refine ⟨hsub, fun h => ?_⟩
  obtain ⟨heq, hflushed⟩ := StreamOutput.sends_reliable (sentTexts history) h
  rw [hall, List.nil_append, flatten_sentTexts] at heq
  refine ⟨heq, fun halways => ?_⟩
  have hdelivered := heq
  unfold StreamOutput.all at hdelivered
  rwa [hflushed halways hempty, List.append_nil] at hdelivered

def smallFile (outcomes : List WriteOutcome) : StreamOutput where
  queued := []
  size := 4
  flushAlways := false
  outcomes := outcomes
  delivered := []
  queued_le := by decide
  size_pos := by decide

theorem sent_in_order_small : (StreamOutput.sends (smallFile [.accepts 1, .timedOut])
      (sentTexts [.send "world".toList, .send "hello ".toList])).all.Sublist "hello world".toList ∧
    (Reliable [.accepts 1, .timedOut] → (StreamOutput.sends (smallFile [.accepts 1, .timedOut])
        (sentTexts [.send "world".toList, .send "hello ".toList])).all = "hello world".toList ∧
      (false = true → (StreamOutput.sends (smallFile [.accepts 1, .timedOut])
        (sentTexts [.send "world".toList, .send "hello ".toList])).delivered =
          "hello world".toList)) :=
  sent_in_order [.send "world".toList, .send "hello ".toList]
    (smallFile [.accepts 1, .timedOut]) rfl
    rfl

/-! ## STREAMSendFile -/

def bufsiz : Nat := 8192

/-- `(long) (Max - bytes_transferred)`, or `BUFSIZ` without a limit. -/
def roundLength (max transferred : Nat) : Int :=
  if max = 0 then bufsiz else Int.bmod ((max : Int) - transferred) (2 ^ 64)

theorem roundLength_limit {max transferred : Nat} (hpos : 0 < max) (hmax : max < 2 ^ 63)
    (h : transferred ≤ max) : roundLength max transferred = max - transferred := by
  unfold roundLength
  rw [if_neg (by omega)]
  apply Int.bmod_eq_of_le <;> omega

theorem roundLength_huge {max : Nat} (hmax : 2 ^ 63 ≤ max) (hlt : max < 2 ^ 64) :
    roundLength max 0 ≤ 0 := by
  unfold roundLength
  rw [if_neg (by omega)]
  have hself : ((max : Int) - (0 : Nat)) % ((2 ^ 64 : Nat) : Int) = max := by omega
  rw [Int.bmod_neg _ _ (by omega), hself]
  omega

/-- The reading half of a round: nothing is read while enough is buffered. -/
def StreamInput.refill (len : Int) (input : StreamInput) : ReadResult × StreamInput :=
  if input.buffer.contents.length < len then input.readCharsToBuffer else (.ready, input)

/-- A full buffer is flushed before more is copied into it. -/
def StreamOutput.makeSpace (out : StreamOutput) : StreamOutput :=
  if out.space = 0 then out.flush else out

/-- The loop of `STREAMSendFile`, with what it has transferred. -/
def sendLoop (max : Nat) (flushes : Bool) :
    Nat → Nat → StreamInput → StreamOutput → Nat × StreamInput × StreamOutput
  | 0, transferred, input, out => (transferred, input, out)
  | fuel + 1, transferred, input, out =>
    let len := roundLength max transferred
    if 0 < len then
      let result := (input.refill len).1
      let input := (input.refill len).2
      let avail := input.buffer.contents
      if result = .closed ∧ avail = [] then (transferred, input, out.flush)
      else
        let out := out.makeSpace
        let n := min (min avail.length len.toNat) out.space
        if (out.writeBytes (avail.take n)).1 then
          (transferred, input, (out.writeBytes (avail.take n)).2)
        else
          sendLoop max flushes fuel (transferred + n) (input.transferBytesOut n)
            (if flushes then (out.writeBytes (avail.take n)).2.flush
              else (out.writeBytes (avail.take n)).2)
    else (transferred, input, out)

def sendFile (max : Nat) (flushes : Bool) (input : StreamInput) (out : StreamOutput) :
    Nat × StreamInput × StreamOutput :=
  sendLoop max flushes (input.cost + out.outcomes.length + 1) 0 input out

namespace StreamInput

theorem refill_pending (len : Int) (s : StreamInput) : (s.refill len).2.pending = s.pending := by
  unfold refill
  split
  · exact s.readCharsToBuffer_pending
  · rfl

theorem refill_timely (len : Int) {s : StreamInput} (h : .timeout ∉ s.arrivals) :
    .timeout ∉ (s.refill len).2.arrivals := by
  unfold refill
  split
  · exact readCharsToBuffer_timely h
  · exact h

/-- With nothing to copy the stream has ended, or the round has taken an arrival. -/
theorem refill_cost {len : Int} (hlen : 0 < len) (s : StreamInput) :
    (s.refill len).2.cost ≤ s.cost ∧
      ((s.refill len).1 = .closed → (s.refill len).2.buffer.contents = [] → s.pending = []) ∧
      ((s.refill len).1 ≠ .closed → (s.refill len).2.buffer.contents = [] →
        (s.refill len).2.cost < s.cost) := by
  have hpos := s.size_pos
  have hpending := s.readCharsToBuffer_pending
  obtain ⟨hle, hless⟩ := s.readCharsToBuffer_cost
  unfold refill
  split
  · refine ⟨hle, fun hclosed hnone => ?_, fun hopen hnone => ?_⟩
    · rcases s.readCharsToBuffer_cases with ⟨_, hs, _, hc⟩ | ⟨hresult, _⟩ | ⟨hresult, _⟩ |
        ⟨hresult, _⟩
      · rw [hc] at hnone
        unfold pending
        rw [hnone, hs]
        rfl
      · rw [hresult] at hclosed
        cases hclosed
      · rw [hresult] at hclosed
        cases hclosed
      · rw [hresult] at hclosed
        cases hclosed
    · rcases s.readCharsToBuffer_cases with ⟨hresult, _⟩ | ⟨_, hs, hc⟩ | ⟨_, hfull, _, hc⟩ |
        ⟨_, c, moved, left, more, _, _, hc⟩
      · exact absurd hresult hopen
      · rw [hc] at hnone
        apply hless
        · rw [hnone, List.length_nil]
          exact hpos
        · rw [hs]
          exact List.cons_ne_nil _ _
      · rw [hc] at hnone
        rw [hnone, List.length_nil] at hfull
        omega
      · rw [hc] at hnone
        simp at hnone
  · rename_i henough
    refine ⟨Nat.le_refl _, (fun h _ => by cases h), fun _ hnone => ?_⟩
    have hnone : s.buffer.contents = [] := hnone
    rw [hnone, List.length_nil] at henough
    omega

end StreamInput

theorem makeSpace_reliable {out : StreamOutput} (h : Reliable out.outcomes) :
    Reliable out.makeSpace.outcomes ∧ out.makeSpace.all = out.all ∧ out.makeSpace.space ≠ 0 := by
  obtain ⟨_, hempty, hrest⟩ := StreamOutput.finalWriteBytes_reliable h
  have hpos := out.size_pos
  unfold StreamOutput.makeSpace
  split
  · refine ⟨hrest, out.finalWriteBytes_all, ?_⟩
    have hsize : out.flush.size = out.size := rfl
    have hnone : out.flush.queued = [] := hempty
    rw [StreamOutput.space, hnone, hsize, List.length_nil]
    omega
  · rename_i hspace
    exact ⟨h, rfl, hspace⟩

/-- What may still be copied within the limit. -/
def copyAllowance (max transferred : Nat) (pending : Str) : Nat :=
  if max = 0 then pending.length else max - transferred

/-- The loop copies what its limit allows off the front of what is pending, however the bytes come
in and go out, and however often the input falls silent. -/
theorem sendLoop_eq {max : Nat} (hmax : max < 2 ^ 63) (flushes : Bool) {fuel transferred : Nat}
    {input : StreamInput} {out : StreamOutput} (hrel : Reliable out.outcomes)
    (hsent : max = 0 ∨ transferred ≤ max) (hfuel : input.cost < fuel) :
    (sendLoop max flushes fuel transferred input out).2.1.pending =
        input.pending.drop (copyAllowance max transferred input.pending) ∧
      (sendLoop max flushes fuel transferred input out).2.2.all =
        out.all ++ input.pending.take (copyAllowance max transferred input.pending) ∧
      (sendLoop max flushes fuel transferred input out).1 =
        transferred + min (copyAllowance max transferred input.pending) input.pending.length ∧
      (.timeout ∉ input.arrivals →
        .timeout ∉ (sendLoop max flushes fuel transferred input out).2.1.arrivals) := by
  induction fuel generalizing transferred input out with
  | zero => omega
  | succ fuel ih =>
    have hstop : copyAllowance max transferred input.pending = 0 →
        input.pending = input.pending.drop (copyAllowance max transferred input.pending) ∧
        out.all = out.all ++ input.pending.take (copyAllowance max transferred input.pending) ∧
        transferred = transferred +
          min (copyAllowance max transferred input.pending) input.pending.length := by
      intro hzero
      rw [hzero]
      simp
    rw [sendLoop]
    by_cases hlen : 0 < roundLength max transferred
    · rw [if_pos hlen]
      have hpending := input.refill_pending (roundLength max transferred)
      have htimely := fun h => input.refill_timely (roundLength max transferred) h
      obtain ⟨hcost, hclosed, hopen⟩ := input.refill_cost hlen
      obtain ⟨hrel', hall', hspace⟩ := makeSpace_reliable hrel
      generalize (input.refill (roundLength max transferred)).1 = result at *
      generalize (input.refill (roundLength max transferred)).2 = input' at *
      generalize out.makeSpace = out' at *
      by_cases hend : result = .closed ∧ input'.buffer.contents = []
      · have hnone := hclosed hend.1 hend.2
        rw [if_pos hend]
        show input'.pending = _ ∧ out.flush.all = _ ∧ transferred = _ ∧ _
        rw [hpending, hnone]
        refine ⟨List.drop_nil.symm, ?_, ?_, htimely⟩
        · rw [List.take_nil, List.append_nil]
          exact out.finalWriteBytes_all
        · rw [List.length_nil, Nat.min_zero]
          rfl
      · rw [if_neg hend]
        simp only
        have hcontents : input'.buffer.contents.length ≤ input'.pending.length := by
          unfold StreamInput.pending
          rw [List.length_append]
          omega
        have hmoved : input'.buffer.contents = [] ∨ 0 < min (min input'.buffer.contents.length
            (roundLength max transferred).toNat) out'.space := by
          by_cases hnone : input'.buffer.contents = []
          · exact .inl hnone
          · have := List.length_pos_of_ne_nil hnone
            omega
        have hn : min (min input'.buffer.contents.length (roundLength max transferred).toNat)
            out'.space ≤ input'.buffer.contents.length := by omega
        have hlimit : min (min input'.buffer.contents.length
            (roundLength max transferred).toNat) out'.space ≤
            copyAllowance max transferred input.pending ∧ (max = 0 ∨ transferred + min (min
            input'.buffer.contents.length (roundLength max transferred).toNat) out'.space ≤
            max) := by
          rw [← hpending]
          unfold copyAllowance
          by_cases hzero : max = 0
          · rw [if_pos hzero]
            exact ⟨by omega, .inl hzero⟩
          · rw [if_neg hzero]
            have hround := roundLength_limit (by omega) hmax (hsent.resolve_left hzero)
            omega
        generalize min (min input'.buffer.contents.length
          (roundLength max transferred).toNat) out'.space = n at *
        obtain ⟨hopenOut, hall, hrest, _⟩ := StreamOutput.writeBytes_reliable hrel'
          (input'.buffer.contents.take n)
        rw [hopenOut, if_neg (by decide)]
        generalize (out'.writeBytes (input'.buffer.contents.take n)).2 = written at *
        have hlater : Reliable (if flushes = true then written.flush else written).outcomes ∧
            (if flushes = true then written.flush else written).all = written.all := by
          split
          · exact ⟨(StreamOutput.finalWriteBytes_reliable hrest).2.2, written.finalWriteBytes_all⟩
          · exact ⟨hrest, rfl⟩
        have hless : (input'.transferBytesOut n).cost < fuel := by
          have hspent := input'.transferBytesOut_cost n
          rcases hmoved with hnone | hpos
          · have := hopen (fun h => hend ⟨h, hnone⟩) hnone
            omega
          · omega
        obtain ⟨hp, ha, ht, hq⟩ := @ih (transferred + n)
          (input'.transferBytesOut n) _ hlater.1 hlimit.2 hless
        have htake : input'.buffer.contents.take n = input.pending.take n := by
          rw [← hpending, StreamInput.pending, List.take_append_of_le_length hn]
        have hallow : copyAllowance max (transferred + n) (input.pending.drop n) =
            copyAllowance max transferred input.pending - n := by
          unfold copyAllowance
          rw [List.length_drop]
          split <;> omega
        have hsplit : copyAllowance max transferred input.pending =
            n + (copyAllowance max transferred input.pending - n) := by omega
        rw [input'.transferBytesOut_drop hn, hpending, hallow] at hp ha ht
        rw [hp, ha, ht, hlater.2, hall, hall', htake, List.drop_drop, ← hsplit]
        refine ⟨rfl, ?_, ?_, fun h => hq (htimely h)⟩
        · conv_rhs => rw [hsplit, List.take_add, ← List.append_assoc]
        · rw [hpending] at hcontents
          rw [List.length_drop]
          omega
    · rw [if_neg hlen]
      have hzero : max ≠ 0 := by
        rintro rfl
        apply hlen
        unfold roundLength
        rw [if_pos rfl]
        decide
      have hround := roundLength_limit (by omega) hmax (hsent.resolve_left hzero)
      have hallow : copyAllowance max transferred input.pending = 0 := by
        unfold copyAllowance
        rw [if_neg hzero]
        omega
      obtain ⟨hp, ha, ht⟩ := hstop hallow
      exact ⟨hp, ha, ht, fun h => h⟩

theorem sendFile_eq {max : Nat} (hmax : max < 2 ^ 64) (flushes : Bool) (input : StreamInput)
    {out : StreamOutput} (hrel : Reliable out.outcomes) (hpos : 0 < max) :
    (sendFile max flushes input out).2.1.pending = input.pending.drop (sendLimit max) ∧
      (sendFile max flushes input out).2.2.all = out.all ++ input.pending.take (sendLimit max) ∧
      (.timeout ∉ input.arrivals → .timeout ∉ (sendFile max flushes input out).2.1.arrivals) := by
  by_cases hlarge : max < 2 ^ 63
  · obtain ⟨hp, ha, _, hq⟩ := @sendLoop_eq max hlarge flushes
      (input.cost + out.outcomes.length + 1) 0 input out hrel (.inr (Nat.zero_le _)) (by omega)
    have hallow : copyAllowance max 0 input.pending = sendLimit max := by
      unfold copyAllowance sendLimit
      rw [if_neg (by omega), if_pos hlarge]
      rfl
    rw [hallow] at hp ha
    exact ⟨hp, ha, hq⟩
  · have hround := roundLength_huge (by omega) hmax
    unfold sendFile
    rw [sendLoop, if_neg (by omega), sendLimit, if_neg hlarge]
    refine ⟨rfl, ?_, fun h => h⟩
    rw [List.take_zero, List.append_nil]

/-! ## The server's reads -/

/-- What the server takes from its connection: a line, or the bytes of an upload, which it writes
to a file. -/
inductive ReadOp
  | line
  | upload (size : Nat) (file : StreamOutput)

/-- On the stream; an upload gives what has been written to its file. -/
def ReadOp.run (input : StreamInput) : ReadOp → Option Str × StreamInput
  | .line => input.readLine
  | .upload size file =>
    if 0 < size then
      let r := sendFile size false input file
      (some r.2.2.all, r.2.1)
    else (some file.all, input)

/-- In the server's own terms. -/
def ReadOp.read : ReadOp → Server (Option Str)
  | .line => readClientLine
  | .upload size file => do
    let content ← readClientBytes (sendLimit size)
    pure (some (file.all ++ content))

def runReads : List ReadOp → StreamInput → List (Option Str) × StreamInput
  | [], input => ([], input)
  | op :: ops, input =>
    ((op.run input).1 :: (runReads ops (op.run input).2).1, (runReads ops (op.run input).2).2)

/-- The sizes are those a `size_t` holds, and the files can be written. -/
def ReadOp.Sound : ReadOp → Prop
  | .line => True
  | .upload size file => size < 2 ^ 64 ∧ Reliable file.outcomes

theorem ReadOp.read_run (op : ReadOp) (hop : op.Sound) {input : StreamInput}
    (htimely : .timeout ∉ input.arrivals) (st : ServerState) :
    exec op.read { st with input := input.pending } =
        (.ok (op.run input).1, { st with input := (op.run input).2.pending }) ∧
      .timeout ∉ (op.run input).2.arrivals := by
  cases op with
  | line =>
    refine ⟨?_, StreamInput.readLine_timely htimely⟩
    have hread := StreamInput.readLine_eq htimely
    have hline : (ReadOp.line.run input) = input.readLine := rfl
    rw [Prod.mk.injEq] at hread
    rw [hline, hread.1, hread.2, ReadOp.read, exec_readClientLine]
    cases hnext : readLine input.pending with
    | none =>
      have hempty : input.pending = [] := by
        by_contra hne
        obtain ⟨l, rest, _, hcut⟩ := exists_cutAfter '\n' hne
        rw [StreamInput.cutAfter_newline, hnext] at hcut
        cases hcut
      rw [hempty]
      rfl
    | some p => rfl
  | upload size file =>
    rw [ReadOp.read, exec_bind, exec_readClientBytes]
    by_cases hpos : 0 < size
    · obtain ⟨hp, ha, hq⟩ := sendFile_eq hop.1 false input hop.2 hpos
      rw [ReadOp.run, if_pos hpos]
      refine ⟨?_, hq htimely⟩
      simp only [hp, ha]
      rfl
    · have hzero : sendLimit size = 0 := by
        unfold sendLimit
        split <;> omega
      rw [ReadOp.run, if_neg hpos, hzero]
      refine ⟨?_, htimely⟩
      show (Except.ok (some (file.all ++ [])), _) = _
      rw [List.append_nil]
      rfl

/-- Whatever pieces a connection delivers and however its reads are mixed, the server reads what it
would read from all of the bytes at once. -/
theorem reads_refine {ops : List ReadOp} (hops : ∀ op ∈ ops, op.Sound) {input : StreamInput}
    (htimely : .timeout ∉ input.arrivals) (st : ServerState) :
    exec (ops.mapM ReadOp.read) { st with input := input.pending } =
      (.ok (runReads ops input).1, { st with input := (runReads ops input).2.pending }) := by
  induction ops generalizing input with
  | nil => rfl
  | cons op ops ih =>
    obtain ⟨hread, hnext⟩ := op.read_run (hops op List.mem_cons_self) htimely st
    rw [List.mapM_cons, exec_bind, hread]
    simp only
    rw [exec_bind, ih (fun op hop => hops op (List.mem_cons_of_mem _ hop)) hnext]
    rfl

def tornArrivals : List Arrival :=
  [.bytes 'b' "ookin ".toList, .bytes '6' "\nda".toList, .bytes 'y' " 1\nINVOKE x".toList,
    .bytes '\n' []]

def tornReads : List ReadOp :=
  [.line, .upload 6 (smallFile [.accepts 0, .interrupted]), .line, .line]

theorem reads_refine_torn :
    exec (tornReads.mapM ReadOp.read) { input := (smallInput tornArrivals).pending } =
      (.ok (runReads tornReads (smallInput tornArrivals)).1,
        { input := (runReads tornReads (smallInput tornArrivals)).2.pending }) := by
  refine reads_refine ?_ (by decide) { input := [] }
  intro op hop
  simp only [tornReads, List.mem_cons, List.not_mem_nil, or_false] at hop
  rcases hop with rfl | rfl | rfl | rfl
  · trivial
  · exact ⟨by decide, by decide, by decide⟩
  · trivial
  · trivial

example : (runReads tornReads (smallInput tornArrivals)).1 =
  [some "bookin 6\n".toList, some "day 1\n".toList, some "INVOKE x\n".toList, none] := by decide

end Invocation
