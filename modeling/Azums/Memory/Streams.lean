import Azums.Memory.State
import Mathlib.Data.List.Induction

/-!
# `Memory.Streams` — event streams of `MemoryBackend`

`publish`, `ack`, `read_events` and `prune_events` of `impl StreamBackend for MemoryBackend`, and the numbering
of events over whole call sequences.

`publish` numbers an event by the length of the retained log plus one, and `prune_events` shortens that log. So
the numbers on a stream grow for as long as nothing was removed from it, and the first `publish` after a removal
repeats a number. `sequence_law_iff` states this as an equivalence over all call sequences.
-/

namespace Azums.Memory

open Function (update)

/-! ## The operations -/

/-- The retained log of a stream. -/
def logOf (s : InnerState) (stream : String) : List Event := (s.streams stream).getD []

/-- `publish`. -/
def publish (s : InnerState) (now : DateTime) (stream : String) (event : NewEvent) :
    Outcome Int × InnerState :=
  let log := logOf s stream
  let sequenceNo : Int := (log.length + 1 : Nat)
  let eventEntity : Event :=
    { sequenceNo := sequenceNo
      streamName := stream
      eventType := event.eventType
      payloadJson := event.payloadJson
      createdAt := now }
  (.ok sequenceNo, { s with streams := update s.streams stream (some (log ++ [eventEntity])) })

/-- `ack`: an offset moves forward only. -/
def ack (s : InnerState) (now : DateTime) (stream consumerGroup : String) (seq : Int) :
    Outcome Unit × InnerState :=
  let key := (stream, consumerGroup)
  let entry := (s.streamOffsets key).getD
    { consumerGroup := consumerGroup, streamName := stream, lastAckedSeq := 0, updatedAt := now }
  let entry := if seq > entry.lastAckedSeq then { entry with lastAckedSeq := seq, updatedAt := now } else entry
  (.ok (), { s with streamOffsets := update s.streamOffsets key (some entry) })

/-- `read_events`; `limit.clamp(1, 1000)`. -/
def readEvents (s : InnerState) (stream : String) (afterSeq limit : Int) : Outcome (List Event) :=
  .ok (((logOf s stream).filter (fun e => decide (e.sequenceNo > afterSeq))).take
    (max 1 (min limit 1000)).toNat)

/-- The last number `prune_events` may remove: no group on the stream has yet to read up to it. -/
def pruneCutoff (s : InnerState) (order : List (String × String)) (stream : String) (throughSeq : Int) : Int :=
  let minOffset := (((order.filterMap s.streamOffsets).filter
    (fun status => status.streamName == stream)).map (·.lastAckedSeq)).min?
  min throughSeq (minOffset.getD throughSeq)

/-- `prune_events`. -/
def pruneEvents (s : InnerState) (order : List (String × String)) (stream : String) (throughSeq : Int) :
    Outcome Nat × InnerState :=
  let cutoff := pruneCutoff s order stream throughSeq
  match s.streams stream with
  | none => (.ok 0, s)
  | some log =>
      let kept := log.filter (fun event => decide (event.sequenceNo > cutoff))
      (.ok (log.length - kept.length), { s with streams := update s.streams stream (some kept) })

/-! ## Call sequences -/

/-- One call that changes the streams. -/
inductive StreamOp where
  | publish (now : DateTime) (stream : String) (event : NewEvent)
  | ack (now : DateTime) (stream consumerGroup : String) (seq : Int)
  | prune (order : List (String × String)) (stream : String) (throughSeq : Int)

namespace StreamOp

/-- The state after a call. -/
def apply (s : InnerState) : StreamOp → InnerState
  | publish now stream event => (Memory.publish s now stream event).2
  | ack now stream consumerGroup seq => (Memory.ack s now stream consumerGroup seq).2
  | prune order stream throughSeq => (pruneEvents s order stream throughSeq).2

/-- The number a call on this stream returns, if it is a `publish`. -/
def number (s : InnerState) (stream : String) : StreamOp → Option Int
  | publish now stream' event =>
      if stream' = stream then
        match (Memory.publish s now stream' event).1 with
        | .ok n => some n
        | _ => none
      else none
  | ack .. | prune .. => none

/-- The call is a `publish` on this stream. -/
def PublishesOn (stream : String) : StreamOp → Prop
  | publish _ stream' _ => stream' = stream
  | ack .. | prune .. => False

/-- The call is a `prune_events` that removes an event of this stream's log. -/
def Removes (s : InnerState) (stream : String) : StreamOp → Prop
  | prune order stream' throughSeq =>
      stream' = stream ∧ ∃ e ∈ logOf s stream, e.sequenceNo ≤ pruneCutoff s order stream throughSeq
  | publish .. | ack .. => False

end StreamOp

/-- The state after a sequence of calls. -/
def runStreams (ops : List StreamOp) (s : InnerState) : InnerState := ops.foldl StreamOp.apply s

/-- The numbers a sequence of calls hands out on a stream. -/
def numbersOn (stream : String) : List StreamOp → InnerState → List Int
  | [], _ => []
  | op :: rest, s => (op.number s stream).toList ++ numbersOn stream rest (op.apply s)

/-- The sequence numbers a stream retains. -/
def retained (s : InnerState) (stream : String) : List Int := (logOf s stream).map (·.sequenceNo)

/-- What a stream's numbers should satisfy over a call sequence from the empty store: each `publish` returns
    more than the one before it, and the retained log ascends after every call. -/
def SequenceLaw (ops : List StreamOp) : Prop :=
  (∀ stream, (numbersOn stream ops InnerState.init).Pairwise (· < ·)) ∧
  ∀ called rest, ops = called ++ rest →
    ∀ stream, (retained (runStreams called InnerState.init) stream).Pairwise (· < ·)

/-- No `publish` on a stream comes after a `prune_events` that removed an event from it. -/
def NoPublishAfterRemoval (ops : List StreamOp) : Prop :=
  ∀ before op between later after stream, ops = before ++ op :: between ++ later :: after →
    op.Removes (runStreams before InnerState.init) stream → ¬later.PublishesOn stream

/-! ## One call -/

section Step

variable {s : InnerState} {stream : String}

theorem retained_length : (retained s stream).length = (logOf s stream).length := List.length_map ..

/-- `publish` on the stream appends the number it returns. -/
theorem retained_publish {op : StreamOp} (hop : op.PublishesOn stream) :
    op.number s stream = some (((logOf s stream).length + 1 : Nat) : Int) ∧
      retained (op.apply s) stream = retained s stream ++ [(((logOf s stream).length + 1 : Nat) : Int)] := by
  cases op with
  | publish now stream' event =>
      cases hop
      exact ⟨if_pos rfl, by simp [StreamOp.apply, publish, retained, logOf]⟩
  | ack now stream' consumerGroup seq => exact absurd hop id
  | prune order stream' throughSeq => exact absurd hop id

/-- A call that does not publish on the stream returns no number, and keeps a part of its log. -/
theorem retained_other {op : StreamOp} (hop : ¬op.PublishesOn stream) :
    op.number s stream = none ∧ (retained (op.apply s) stream).Sublist (retained s stream) := by
  cases op with
  | publish now stream' event =>
      refine ⟨if_neg hop, ?_⟩
      have hne : stream ≠ stream' := fun h => hop h.symm
      simp [StreamOp.apply, publish, retained, logOf, hne]
  | ack now stream' consumerGroup seq => exact ⟨rfl, List.Sublist.refl _⟩
  | prune order stream' throughSeq =>
      refine ⟨rfl, ?_⟩
      simp only [StreamOp.apply, pruneEvents]
      cases hlog : s.streams stream' with
      | none => exact List.Sublist.refl _
      | some log =>
          by_cases hs : stream = stream'
          · subst hs
            simp only [retained, logOf, Function.update_self, hlog, Option.getD_some]
            exact List.filter_sublist.map _
          · simp [retained, logOf, hs]

/-- A `prune_events` on the stream keeps the numbers above its cutoff. -/
theorem logOf_prune (order : List (String × String)) (throughSeq : Int) :
    logOf ((StreamOp.prune order stream throughSeq).apply s) stream =
      (logOf s stream).filter (fun e => decide (e.sequenceNo > pruneCutoff s order stream throughSeq)) := by
  simp only [StreamOp.apply, pruneEvents, logOf]
  cases hlog : s.streams stream with
  | none => simp [hlog]
  | some log => simp

/-- A call that removes nothing from the stream and does not publish on it leaves its log alone. -/
theorem retained_keep {op : StreamOp} (hpub : ¬op.PublishesOn stream) (hrem : ¬op.Removes s stream) :
    retained (op.apply s) stream = retained s stream := by
  cases op with
  | publish now stream' event =>
      have hne : stream ≠ stream' := fun h => hpub h.symm
      simp [StreamOp.apply, publish, retained, logOf, hne]
  | ack now stream' consumerGroup seq => rfl
  | prune order stream' throughSeq =>
      by_cases hs : stream' = stream
      · subst hs
        rw [retained, logOf_prune, List.filter_eq_self.mpr, retained]
        intro e he
        rw [decide_eq_true_eq, gt_iff_lt, ← not_le]
        exact fun hle => hrem ⟨rfl, e, he, hle⟩
      · have hne : stream ≠ stream' := fun h => hs h.symm
        simp only [StreamOp.apply, pruneEvents]
        cases s.streams stream' with
        | none => rfl
        | some log => simp [retained, logOf, hne]

/-- A removal makes the log strictly shorter. -/
theorem length_removes {op : StreamOp} (hrem : op.Removes s stream) :
    (logOf (op.apply s) stream).length < (logOf s stream).length := by
  cases op with
  | publish now stream' event => exact absurd hrem id
  | ack now stream' consumerGroup seq => exact absurd hrem id
  | prune order stream' throughSeq =>
      obtain ⟨rfl, e, he, hle⟩ := hrem
      rw [logOf_prune]
      refine List.length_filter_lt_length_iff_exists.mpr ⟨e, he, ?_⟩
      rw [decide_eq_true_eq]
      exact not_lt.mpr hle

end Step

/-! ## Whole sequences

Both directions follow one call sequence from the front, by induction on its last call. `firstNumbers n` is
what an untouched stream has handed out. -/

/-- The numbers `1, …, n`. -/
def firstNumbers (n : Nat) : List Int := (List.range n).map (fun (i : Nat) => (i + 1 : Int))

theorem firstNumbers_succ (n : Nat) : firstNumbers (n + 1) = firstNumbers n ++ [((n + 1 : Nat) : Int)] := by
  simp [firstNumbers, List.range_succ]

theorem mem_firstNumbers {n : Nat} {k : Int} : k ∈ firstNumbers n ↔ 1 ≤ k ∧ k ≤ n := by
  simp only [firstNumbers, List.mem_map, List.mem_range]
  constructor
  · rintro ⟨i, hi, rfl⟩
    omega
  · rintro ⟨h1, hn⟩
    exact ⟨(k - 1).toNat, by omega, by omega⟩

theorem firstNumbers_ascending (n : Nat) : (firstNumbers n).Pairwise (· < ·) := by
  rw [firstNumbers, List.pairwise_map]
  refine List.pairwise_lt_range.imp ?_
  intro i j hij
  omega

theorem numbersOn_append (stream : String) (ops ops' : List StreamOp) :
    ∀ s, numbersOn stream (ops ++ ops') s =
      numbersOn stream ops s ++ numbersOn stream ops' (runStreams ops s) := by
  induction ops with
  | nil => intro s; rfl
  | cons op rest ih =>
      intro s
      simp only [List.cons_append, numbersOn, ih, List.append_assoc]
      rfl

theorem numbersOn_concat (stream : String) (ops : List StreamOp) (op : StreamOp) (s : InnerState) :
    numbersOn stream (ops ++ [op]) s =
      numbersOn stream ops s ++ (op.number (runStreams ops s) stream).toList := by
  rw [numbersOn_append, numbersOn, numbersOn, List.append_nil]

theorem runStreams_concat (ops : List StreamOp) (op : StreamOp) (s : InnerState) :
    runStreams (ops ++ [op]) s = op.apply (runStreams ops s) := by
  simp [runStreams]

/-- Some call of the sequence removed an event of the stream. -/
def Removed (stream : String) (ops : List StreamOp) : Prop :=
  ∃ before op between, ops = before ++ op :: between ∧
    op.Removes (runStreams before InnerState.init) stream

theorem removed_concat {stream : String} {ops : List StreamOp} {op : StreamOp} :
    Removed stream (ops ++ [op]) ↔ Removed stream ops ∨ op.Removes (runStreams ops InnerState.init) stream := by
  constructor
  · rintro ⟨before, op', between, heq, hrem⟩
    rcases List.eq_nil_or_concat between with rfl | ⟨between, last, rfl⟩
    · obtain ⟨rfl, hlast⟩ := List.append_inj' heq rfl
      cases hlast
      exact Or.inr hrem
    · rw [List.concat_eq_append, ← List.cons_append, ← List.append_assoc] at heq
      obtain ⟨rfl, _⟩ := List.append_inj' heq rfl
      exact Or.inl ⟨before, op', between, rfl, hrem⟩
  · rintro (⟨before, op', between, rfl, hrem⟩ | hrem)
    · exact ⟨before, op', between ++ [op], by simp, hrem⟩
    · exact ⟨ops, op, [], rfl, hrem⟩

/-- While nothing was removed, a stream retains all it handed out: `1, …, n`. -/
theorem retained_of_not_removed (stream : String) (ops : List StreamOp) (h : ¬Removed stream ops) :
    retained (runStreams ops InnerState.init) stream =
        firstNumbers (logOf (runStreams ops InnerState.init) stream).length ∧
      numbersOn stream ops InnerState.init =
        firstNumbers (logOf (runStreams ops InnerState.init) stream).length := by
  induction ops using List.reverseRecOn with
  | nil => exact ⟨rfl, rfl⟩
  | append_singleton ops op ih =>
      rw [removed_concat, not_or] at h
      obtain ⟨hkeep, hnow⟩ := h
      obtain ⟨hret, hnum⟩ := ih hkeep
      rw [runStreams_concat, numbersOn_concat]
      by_cases hpub : op.PublishesOn stream
      · obtain ⟨hn, hr⟩ := retained_publish (s := runStreams ops InnerState.init) hpub
        have hlen := congrArg List.length hr
        rw [retained_length, List.length_append, retained_length, List.length_singleton] at hlen
        rw [hlen, hn, hr, hret, hnum, firstNumbers_succ]
        exact ⟨rfl, rfl⟩
      · have hr := retained_keep hpub hnow
        have hlen := congrArg List.length hr
        rw [retained_length, retained_length] at hlen
        rw [hlen, hr, (retained_other hpub).1, hret, hnum]
        exact ⟨rfl, List.append_nil _⟩

/-- Without a `publish` after a removal, the numbers handed out are `1, …, n` and the log is a part of them. -/
theorem retained_sublist (ops : List StreamOp) (stream : String) (h : NoPublishAfterRemoval ops) :
    ∃ n, numbersOn stream ops InnerState.init = firstNumbers n ∧
      (retained (runStreams ops InnerState.init) stream).Sublist (firstNumbers n) := by
  induction ops using List.reverseRecOn with
  | nil => exact ⟨0, rfl, List.nil_sublist _⟩
  | append_singleton ops op ih =>
      have hprefix : NoPublishAfterRemoval ops := by
        rintro before op' between later after stream rfl hrem
        exact h before op' between later (after ++ [op]) stream (by simp) hrem
      obtain ⟨n, hnum, hsub⟩ := ih hprefix
      rw [runStreams_concat, numbersOn_concat]
      by_cases hpub : op.PublishesOn stream
      · have hnot : ¬Removed stream ops := by
          rintro ⟨before, op', between, rfl, hrem⟩
          exact h before op' between op [] stream (by simp) hrem hpub
        obtain ⟨hret, hnum⟩ := retained_of_not_removed stream ops hnot
        obtain ⟨hn, hr⟩ := retained_publish (s := runStreams ops InnerState.init) hpub
        refine ⟨(logOf (runStreams ops InnerState.init) stream).length + 1, ?_, ?_⟩
        · rw [hn, hnum, firstNumbers_succ]; rfl
        · rw [hr, hret, firstNumbers_succ]
      · obtain ⟨hn, hr⟩ := retained_other (s := runStreams ops InnerState.init) hpub
        refine ⟨n, ?_, hr.trans hsub⟩
        rw [hn, hnum]; exact List.append_nil _

/-- After a removal, numbers that still ascend are `1, …, n` with a log shorter than `n`: no call has
    published since. -/
theorem length_lt_of_removed (ops : List StreamOp) (stream : String) (hrem : Removed stream ops)
    (hasc : (numbersOn stream ops InnerState.init).Pairwise (· < ·)) :
    ∃ n, numbersOn stream ops InnerState.init = firstNumbers n ∧
      (logOf (runStreams ops InnerState.init) stream).length < n := by
  induction ops using List.reverseRecOn with
  | nil =>
      obtain ⟨before, op, between, heq, _⟩ := hrem
      exact absurd heq.symm (by simp)
  | append_singleton ops op ih =>
      rw [numbersOn_concat] at hasc
      rw [numbersOn_concat, runStreams_concat]
      have hasc' := (List.pairwise_append.mp hasc).1
      by_cases hpub : op.PublishesOn stream
      · exfalso
        have hbefore : Removed stream ops := by
          rcases removed_concat.mp hrem with hbefore | hnow
          · exact hbefore
          · cases op with
            | publish now stream' event => exact absurd hnow id
            | ack now stream' consumerGroup seq => exact absurd hnow id
            | prune order stream' throughSeq => exact absurd hpub id
        obtain ⟨n, hnum, hlt⟩ := ih hbefore hasc'
        -- the last number handed out is `n`, and the new one is at most that
        rw [(retained_publish hpub).1, hnum] at hasc
        have hmem : (n : Int) ∈ firstNumbers n := mem_firstNumbers.mpr ⟨by omega, le_refl _⟩
        have hbad := (List.pairwise_append.mp hasc).2.2 n hmem _ (List.mem_singleton.mpr rfl)
        omega
      · obtain ⟨hn, hr⟩ := retained_other (s := runStreams ops InnerState.init) hpub
        rw [hn]
        simp only [Option.toList_none, List.append_nil]
        have hle := hr.length_le
        rw [retained_length, retained_length] at hle
        by_cases hbefore : Removed stream ops
        · obtain ⟨n, hnum, hlt⟩ := ih hbefore hasc'
          exact ⟨n, hnum, by omega⟩
        · have hnow := (removed_concat.mp hrem).resolve_left hbefore
          obtain ⟨_, hnum⟩ := retained_of_not_removed stream ops hbefore
          exact ⟨_, hnum, length_removes hnow⟩

/-- **When stream numbers ascend.** Over every sequence of `publish`, `ack` and `prune_events` calls from the
    empty store, the numbers of each stream strictly increase and every log ascends if and only if no event is
    published on a stream from which `prune_events` has removed one before. -/
theorem sequence_law_iff (ops : List StreamOp) : SequenceLaw ops ↔ NoPublishAfterRemoval ops := by
  constructor
  · rintro ⟨hnum, _⟩ before op between later after stream rfl hrem hpub
    have hall := hnum stream
    rw [show before ++ op :: between ++ later :: after = (before ++ op :: between ++ [later]) ++ after by simp,
      numbersOn_append] at hall
    have hlater := (List.pairwise_append.mp hall).1
    have hremoved : Removed stream (before ++ op :: between ++ [later]) :=
      ⟨before, op, between ++ [later], by simp, hrem⟩
    obtain ⟨n, hn, hlt⟩ := length_lt_of_removed _ stream hremoved hlater
    -- `later` has just handed out the length of the log, which is a number below `n`
    rw [numbersOn_concat, (retained_publish hpub).1] at hn
    have hr := congrArg List.length (retained_publish (s := runStreams (before ++ op :: between)
      InnerState.init) hpub).2
    rw [retained_length, List.length_append, retained_length, List.length_singleton] at hr
    rw [runStreams_concat, hr] at hlt
    obtain ⟨m, rfl⟩ : ∃ m, n = m + 1 := ⟨n - 1, by omega⟩
    rw [firstNumbers_succ] at hn
    have hlast := List.append_inj_right' hn rfl
    simp only [Option.toList_some, List.cons.injEq, and_true] at hlast
    omega
  · intro h
    constructor
    · intro stream
      obtain ⟨n, hn, _⟩ := retained_sublist ops stream h
      rw [hn]
      exact firstNumbers_ascending n
    · rintro called rest rfl stream
      have hprefix : NoPublishAfterRemoval called := by
        rintro before op between later after stream rfl hrem
        exact h before op between later (after ++ rest) stream (by simp) hrem
      obtain ⟨n, _, hsub⟩ := retained_sublist called stream hprefix
      exact (firstNumbers_ascending n).sublist hsub

/-- Publish, prune what was published, publish again: the number 1 is handed out twice. No group has acked, so
    the offsets are empty when `prune_events` looks at them. -/
theorem sequence_law_fails :
    Enumerates (runStreams [.publish 0 "orders" ⟨"created", "{}"⟩] InnerState.init).streamOffsets [] ∧
    numbersOn "orders" [.publish 0 "orders" ⟨"created", "{}"⟩, .prune [] "orders" 1,
      .publish 1 "orders" ⟨"paid", "{}"⟩] InnerState.init = [1, 1] ∧
    ¬SequenceLaw [.publish 0 "orders" ⟨"created", "{}"⟩, .prune [] "orders" 1,
      .publish 1 "orders" ⟨"paid", "{}"⟩] := by
  have hnum : numbersOn "orders" [.publish 0 "orders" ⟨"created", "{}"⟩, .prune [] "orders" 1,
      .publish 1 "orders" ⟨"paid", "{}"⟩] InnerState.init = [1, 1] := by decide
  refine ⟨enumerates_nil, hnum, ?_⟩
  rintro ⟨hlaw, _⟩
  have hbad := hlaw "orders"
  rw [hnum] at hbad
  exact absurd hbad (by decide)

end Azums.Memory
