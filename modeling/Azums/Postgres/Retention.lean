import Azums.Postgres.Delivery

/-!
# `Postgres.Retention` — pruning a stream that is being read

`prune_events` deletes the events of a stream up to a number, but none above an offset of the stream. The clients of
`Postgres.Delivery` go on meanwhile: they publish, read and acknowledge.

The history keeps every event that was ever committed. `kept_law` says of it that an event above the offset of a group
is still in the log, whatever interleaves, if the group has an offset when the stream is pruned. `retained_law` adds
what the group gets, where no `publish` commits too late: every event that was ever committed on the stream was
delivered to the group or is still there to be read.
-/

namespace Azums.Postgres.Streams

open StreamTables
open Cursor (Ascending Passed Extends)

/-! ## `prune_events` -/

/-- A statement of the other calls, or the `DELETE` of `prune_events`. -/
inductive RetentionCommand where
  | other (c : StreamCommand)
  | deleteEvents (stream : String) (throughSeq : Int)

@[reducible] def RetentionCommand.Reply : RetentionCommand → Type
  | .other c => c.Reply
  | .deleteEvents _ _ => Nat

/-- `retention.cutoff`. -/
def retentionCutoff (t : OffsetsTable) (stream : String) (throughSeq : Int) : Int :=
  min throughSeq ((((StreamTables.selectOffsets t stream).map (·.lastAckedSeq)).min?).getD throughSeq)

/-- The committed rows that the `DELETE` selects. -/
def StreamStore.doomed (s : StreamStore) (stream : String) (throughSeq : Int) (v : Version) : Bool :=
  v.writer.isNone && v.event.streamName == stream &&
    decide (v.event.sequenceNo ≤ retentionCutoff s.offsets stream throughSeq)

/-- What a statement of client `i` does. -/
def RetentionCommand.exec (i : Nat) : (c : RetentionCommand) → StreamStore → c.Reply × StreamStore
  | .other c, s => c.exec i s
  | .deleteEvents stream throughSeq, s =>
      (s.versions.countP (s.doomed stream throughSeq),
        { s with versions := s.versions.filter (fun v => !s.doomed stream throughSeq v) })

/-- What the calls return. -/
inductive RetentionAnswer where
  | other (a : StreamAnswer)
  | count (n : Nat)

/-- The programs over these statements. -/
abbrev RetentionCmds := Prog RetentionCommand RetentionCommand.Reply RetentionAnswer

/-- A call of `Postgres.Streams`. -/
def ofStream : StreamCmds StreamAnswer → RetentionCmds
  | .done a => .done (.other a)
  | .call c k => .call (.other c) (fun r => ofStream (k r))

/-- `prune_events`. -/
def pruneEvents (stream : String) (throughSeq : Int) : RetentionCmds :=
  .call (.deleteEvents stream throughSeq) (fun n => .done (.count n))

/-- A call. -/
inductive RetentionCall where
  | other (call : StreamCall)
  | pruneEvents (stream : String) (throughSeq : Int)

/-- The statements that a call runs. -/
def RetentionCall.program : RetentionCall → RetentionCmds
  | .other call => ofStream call.program
  | .pruneEvents stream throughSeq => Streams.pruneEvents stream throughSeq

/-- The server: a client that dies is rolled back. -/
def retentionServer : Server Nat RetentionCommand RetentionCommand.Reply RetentionAnswer StreamStore where
  exec i c s := some (c.exec i s)
  close _ _ s := s
  abandon := StreamStore.rollback

/-! ## History -/

/-- Every event that was ever committed, and what a group was handed and has received. -/
structure Retained extends Deliveries where
  log : List Event

namespace Retained

/-- Nothing has happened. -/
def first : Retained := { Deliveries.first with log := [] }

/-- The rows that client `i` has inserted and not committed. -/
def inserted (i : Nat) (s : StreamStore) : List Event :=
  (s.versions.filter (fun v => decide (v.writer = some i))).map (·.event)

/-- A commit logs the rows of its client; a `read_next` of the group hands out events. -/
def sent (g : Group) (i : Nat) : RetentionCall → (c : RetentionCommand) → StreamStore → c.Reply → Retained → Retained
  | _, .other .commit, s, _, h => { h with log := h.log ++ inserted i s }
  | .other call, .other c, s, r, h => { h with toDeliveries := Deliveries.sent g i call c s r h.toDeliveries }
  | _, _, _, _, h => h

/-- A `read_next` of the group returns. -/
def returned (g : Group) (i : Nat) : RetentionCall → RetentionAnswer → Retained → Retained
  | .other call, .other a, h => { h with toDeliveries := Deliveries.returned g i call a h.toDeliveries }
  | _, _, h => h

end Retained

/-- Any number of clients, their server, and what has happened. -/
abbrev RetentionPool :=
  Observed Nat RetentionCall RetentionCommand RetentionCommand.Reply RetentionAnswer StreamStore Retained

abbrev RetentionMove := Move Nat RetentionCall

/-- How the history follows the calls. -/
def retentionRecorder (g : Group) :
    Recorder Nat RetentionCall RetentionCommand RetentionCommand.Reply RetentionAnswer StreamStore Retained where
  exec := Retained.sent g
  finish := Retained.returned g

/-- The group has an offset on its stream. -/
def Joined (g : Group) (s : StreamStore) : Prop := (offsetRow s.offsets g.stream g.consumerGroup).isSome = true

/-- Clients and their server, from an empty database. -/
def retentionPools (g : Group) : System RetentionPool RetentionMove :=
  (retentionRecorder g).system retentionServer RetentionCall.program (fun s => s = .empty) (fun _ => .first)

/-- The steps at which the stream of the group is pruned only when the group has joined. -/
def PrunesJoined (g : Group) (o : RetentionPool) (move : RetentionMove) (_ : RetentionPool) : Prop :=
  ∀ i call throughSeq k, move = .exec i →
    o.pool.client i = some (call, .call (.deleteEvents g.stream throughSeq) k) → Joined g o.pool.store

/-- What a consumer group keeps to: it acknowledges a number only if it has received the event, or 0, to join; and its
    stream is pruned when it has joined. -/
structure Participates (g : Group) (o : RetentionPool) (move : RetentionMove) (o' : RetentionPool) : Prop where
  acks : ∀ i now seq, move = .start i (.other (.ack now g.stream g.consumerGroup seq)) →
    seq = 0 ∨ ∃ e ∈ o.history.delivered, e.sequenceNo = seq
  prunes : PrunesJoined g o move o'

/-- The group `g` takes part. -/
def retentionSystem (g : Group) : System RetentionPool RetentionMove := (retentionPools g).restrict (Participates g)

/-! ## What is kept -/

section Kept

variable {g : Group} {i : Nat} {s : StreamStore} {w : World StreamStore Retained} {call : RetentionCall}

/-- What was committed and is not there any more was passed by the offset of the group, which has joined. -/
structure Kept (g : Group) (w : World StreamStore Retained) : Prop where
  logged : w.store.committed ⊆ w.history.log
  kept : ∀ e ∈ w.history.log, e.streamName = g.stream →
    e ∈ w.store.committed ∨ (Joined g w.store ∧ e.sequenceNo ≤ offset g w.store)

/-- Of a group that has joined, the offset is that of its row. -/
theorem offset_of_row {r : ConsumerGroupStatus} (h : offsetRow s.offsets g.stream g.consumerGroup = some r) :
    offset g s = r.lastAckedSeq := by
  rw [offset, lastAckedSeq_eq, h]
  rfl

theorem Kept.first : Kept g { store := .empty, history := .first } := ⟨List.Subset.refl _, fun _ h => nomatch h⟩

/-- A group that has joined stays, and its offset does not go back. -/
theorem Joined.exec (h : Joined g s) (c : StreamCommand) :
    Joined g (c.exec i s).2 ∧ offset g s ≤ offset g (c.exec i s).2 := by
  cases c with
  | upsertOffset now stream consumerGroup seq =>
      obtain ⟨r, hr⟩ := Option.isSome_iff_exists.mp h
      by_cases hg : g.stream = stream ∧ g.consumerGroup = consumerGroup
      · obtain ⟨rfl, rfl⟩ := hg
        obtain ⟨r', hr', hseq⟩ := offsetRow_upsert s.offsets now g.stream g.consumerGroup seq
        have hrow : offsetRow ((StreamCommand.upsertOffset now g.stream g.consumerGroup seq).exec i s).2.offsets
            g.stream g.consumerGroup = some r' := hr'
        refine ⟨by rw [Joined, hrow]; rfl, ?_⟩
        rw [offset_of_row hr, offset_of_row hrow, hseq, hr]
        exact Int.le_max_left _ _
      · have hrow : offsetRow ((StreamCommand.upsertOffset now stream consumerGroup seq).exec i s).2.offsets
            g.stream g.consumerGroup = some r := (offsetRow_upsert_other hg).trans hr
        refine ⟨by rw [Joined, hrow]; rfl, ?_⟩
        rw [offset_of_row hr, offset_of_row hrow]
  | _ => exact ⟨h, Int.le_refl _⟩

theorem mem_inserted {e : Event} : e ∈ Retained.inserted i s ↔ ∃ v ∈ s.versions, v.writer = some i ∧ v.event = e := by
  simp [Retained.inserted, and_assoc]

/-- What a statement of the other calls makes visible. -/
theorem mem_committed_exec {c : StreamCommand} {e : Event} :
    e ∈ (c.exec i s).2.committed ↔ e ∈ s.committed ∨ (c = .commit ∧ e ∈ Retained.inserted i s) := by
  cases c with
  | commit => rw [mem_committed_commit, mem_inserted, eq_self, true_and]
  | insertEvent now stream event => simp [committed_insert]
  | upsertOffset now stream consumerGroup seq => simp [StreamCommand.exec, StreamStore.committed]
  | selectOffsets stream => simp [StreamCommand.exec]
  | selectEvents stream afterSeq limit => simp [StreamCommand.exec]

/-- And what it logs is that. -/
theorem mem_log_sent {c : StreamCommand} {r : c.Reply} {h : Retained} {e : Event} :
    e ∈ (Retained.sent g i call (.other c) s r h).log ↔ e ∈ h.log ∨ (c = .commit ∧ e ∈ Retained.inserted i s) := by
  cases c <;> cases call <;> simp [Retained.sent]

theorem Kept.exec_other (h : Kept g w) (c : StreamCommand) :
    Kept g { store := (c.exec i w.store).2
             history := Retained.sent g i call (.other c) w.store (c.exec i w.store).1 w.history } := by
  constructor
  · intro e he
    rw [mem_log_sent]
    exact (mem_committed_exec.mp he).imp_left fun hold => h.logged hold
  · intro e he hstream
    rcases mem_log_sent.mp he with hold | hnew
    · rcases h.kept e hold hstream with hin | ⟨hjoined, hle⟩
      · exact Or.inl (mem_committed_exec.mpr (Or.inl hin))
      · obtain ⟨hjoined', hmono⟩ := hjoined.exec c
        exact Or.inr ⟨hjoined', Int.le_trans hle hmono⟩
    · exact Or.inl (mem_committed_exec.mpr (Or.inr hnew))

/-- `prune_events` does not go beyond the offset of a group that has joined. -/
theorem retentionCutoff_le (h : Joined g s) (throughSeq : Int) :
    retentionCutoff s.offsets g.stream throughSeq ≤ offset g s := by
  obtain ⟨r, hr⟩ := Option.isSome_iff_exists.mp h
  obtain ⟨hmem, hkey⟩ := Table.lookup_some hr
  have hstream : r.streamName = g.stream := congrArg Prod.snd hkey
  have hin : r.lastAckedSeq ∈ (StreamTables.selectOffsets s.offsets g.stream).map (·.lastAckedSeq) :=
    List.mem_map_of_mem (List.mem_filter.mpr ⟨hmem, by simpa using hstream⟩)
  rw [offset_of_row hr, retentionCutoff]
  cases hmin : ((StreamTables.selectOffsets s.offsets g.stream).map (·.lastAckedSeq)).min? with
  | none =>
      rw [List.min?_eq_none_iff.mp hmin] at hin
      cases hin
  | some least =>
      have hle := (List.min?_eq_some_iff.mp hmin).2 _ hin
      rw [Option.getD_some]
      omega

/-- What is left of the committed rows. -/
theorem mem_committed_prune {stream : String} {throughSeq : Int} {e : Event} :
    e ∈ ((RetentionCommand.deleteEvents stream throughSeq).exec i s).2.committed ↔
      e ∈ s.committed ∧ ¬(e.streamName = stream ∧ e.sequenceNo ≤ retentionCutoff s.offsets stream throughSeq) := by
  rw [mem_committed, mem_committed]
  show (∃ v ∈ s.versions.filter (fun v => !s.doomed stream throughSeq v), _) ↔ _
  constructor
  · rintro ⟨v, hv, hw, rfl⟩
    obtain ⟨hmem, hstays⟩ := List.mem_filter.mp hv
    refine ⟨⟨v, hmem, hw, rfl⟩, ?_⟩
    rintro ⟨hs, hle⟩
    simp [StreamStore.doomed, hw, hs, hle] at hstays
  · rintro ⟨⟨v, hv, hw, rfl⟩, hstays⟩
    refine ⟨v, List.mem_filter.mpr ⟨hv, ?_⟩, hw, rfl⟩
    rw [Bool.not_eq_true', ← Bool.not_eq_true]
    intro hdoomed
    simp only [StreamStore.doomed, Bool.and_eq_true, beq_iff_eq, decide_eq_true_eq] at hdoomed
    exact hstays ⟨hdoomed.1.2, hdoomed.2⟩

/-- The rows that are left are still in order. -/
theorem VersionsInv.prune {stream : String} {throughSeq : Int} (h : VersionsInv s) :
    VersionsInv ((RetentionCommand.deleteEvents stream throughSeq).exec i s).2 :=
  ⟨h.ascending.filter _, fun v hv => h.bounded v (List.mem_of_mem_filter hv), h.nonneg⟩

theorem Kept.exec_prune (h : Kept g w) (i : Nat) (call : RetentionCall) {stream : String} (throughSeq : Int)
    (hjoined : stream = g.stream → Joined g w.store) :
    Kept g { store := ((RetentionCommand.deleteEvents stream throughSeq).exec i w.store).2
             history := Retained.sent g i call (.deleteEvents stream throughSeq) w.store
               ((RetentionCommand.deleteEvents stream throughSeq).exec i w.store).1 w.history } := by
  show Kept g { store := ((RetentionCommand.deleteEvents stream throughSeq).exec i w.store).2, history := w.history }
  refine ⟨fun e he => h.logged ((mem_committed_prune (i := i)).mp he).1, fun e he hs => ?_⟩
  rcases h.kept e he hs with hin | hpassed
  · by_cases hdoomed : e.streamName = stream ∧ e.sequenceNo ≤ retentionCutoff w.store.offsets stream throughSeq
    · -- what is pruned of its stream was passed by the group
      have hstream : stream = g.stream := hdoomed.1.symm.trans hs
      have hcut := retentionCutoff_le (hjoined hstream) throughSeq
      have hle := hdoomed.2
      rw [hstream] at hle
      exact Or.inr ⟨hjoined hstream, Int.le_trans hle hcut⟩
    · exact Or.inl ((mem_committed_prune (i := i)).mpr ⟨hin, hdoomed⟩)
  · exact Or.inr hpassed

theorem Kept.rollback (h : Kept g w) (i : Nat) : Kept g { store := w.store.rollback i, history := w.history } := by
  refine ⟨?_, fun e he hs => ?_⟩
  · show (w.store.rollback i).committed ⊆ w.history.log
    rw [committed_rollback]
    exact h.logged
  · show e ∈ (w.store.rollback i).committed ∨ _
    rw [committed_rollback]
    exact h.kept e he hs

theorem returned_log {a : RetentionAnswer} {h : Retained} : (Retained.returned g i call a h).log = h.log := by
  cases call <;> cases a <;> rfl

theorem Kept.finish (h : Kept g w) (a : RetentionAnswer) :
    Kept g { store := w.store, history := Retained.returned g i call a w.history } := by
  refine ⟨fun e he => ?_, fun e he hs => ?_⟩
  · rw [returned_log]
    exact h.logged he
  · exact h.kept e (returned_log ▸ he) hs

end Kept

/-- **Pruning takes nothing that a group has not passed.** In every run of any number of clients that publish, read,
    acknowledge, prune and die, where the group has an offset when its stream is pruned: every event of the stream that
    was ever committed is still in the log, or its number is not above the offset of the group. -/
theorem kept_law {g : Group} {o : RetentionPool} (ho : ((retentionPools g).restrict (PrunesJoined g)).Reachable o) :
    Kept g o.world := by
  refine ho.invariant (I := fun o => Kept g o.world) ?_ ?_
  · rintro o ⟨hempty, _, hhist⟩
    have hw : o.world = { store := .empty, history := .first } := by
      unfold Observed.world
      rw [hempty, hhist]
    rw [hw]
    exact Kept.first
  · rintro o move o' _ h ⟨hnext, hprunes⟩
    cases move with
    | start i call =>
        obtain ⟨_, rfl⟩ := Recorder.next_start hnext
        exact h
    | exec i =>
        obtain ⟨call, c, k, r, σ', hi, hexec, rfl⟩ := Recorder.next_exec hnext
        obtain ⟨rfl, rfl⟩ := Prod.mk.inj (Option.some.inj hexec)
        cases c with
        | other c => exact h.exec_other c
        | deleteEvents stream throughSeq =>
            refine h.exec_prune i call throughSeq ?_
            rintro rfl
            exact hprunes i call throughSeq k rfl hi
    | finish i =>
        obtain ⟨call, a, _, rfl⟩ := Recorder.next_finish hnext
        exact h.finish a
    | crash i =>
        obtain ⟨_, _, _, rfl⟩ := Recorder.next_crash hnext
        exact h.rollback i

/-! ## What the group gets -/

/-- The steps at which no event comes too late: a `publish` on the stream commits while everything that the group has
    been handed is numbered below it. -/
def CommitsInTime (g : Group) (o : RetentionPool) (move : RetentionMove) (_ : RetentionPool) : Prop :=
  ∀ i call k, move = .exec i → o.pool.client i = some (call, .call (.other .commit) k) →
    ∀ e ∈ Retained.inserted i o.pool.store, e.streamName = g.stream →
      ∀ b ∈ o.history.handed, b.sequenceNo < e.sequenceNo

section Discipline

variable {g : Group}

/-- The offset `v` is safe for the group: all that was ever committed up to it was delivered, and nothing will be
    committed below it. -/
def SafeInLog (g : Group) (w : World StreamStore Retained) (v : Int) : Prop :=
  Passed Event.sequenceNo w.history.handed (eventsOf w.history.log g.stream) w.history.delivered v

/-- What holds at any time: rows in order, nothing lost that the group has not passed, and safe offsets. -/
structure RetentionInv (g : Group) (w : World StreamStore Retained) : Prop extends Kept g w where
  versions : VersionsInv w.store
  positive : ∀ e ∈ w.history.log, 0 < e.sequenceNo
  acked : SafeInLog g w (offset g w.store)
  delivered : ∀ e ∈ w.history.delivered, SafeInLog g w e.sequenceNo

/-- What a client relies on: events are committed above everything that was handed out, and what was handed out and
    delivered is not taken back. -/
structure RetentionRely (g : Group) (w w' : World StreamStore Retained) : Prop where
  extends_ : Extends Event.sequenceNo w.history.handed (eventsOf w.history.log g.stream)
    (eventsOf w'.history.log g.stream)
  handed : w.history.handed ⊆ w'.history.handed
  delivered : w.history.delivered ⊆ w'.history.delivered

/-- What a client promises: the offsets that it writes are safe. -/
def RetentionPromise (g : Group) (c : RetentionCommand) (w : World StreamStore Retained) : Prop :=
  ∀ now seq, c = .other (.upsertOffset now g.stream g.consumerGroup seq) → SafeInLog g w seq

/-- What a client returns: to the group, events that are safe to acknowledge. -/
def RetentionResult (g : Group) (call : RetentionCall) (a : RetentionAnswer) (w : World StreamStore Retained) : Prop :=
  ∀ limit result, call = .other (.readNext g.stream g.consumerGroup limit) → a = .other (.events result) →
    ∀ e ∈ result, Passed Event.sequenceNo w.history.handed (eventsOf w.history.log g.stream)
      (w.history.delivered ++ result) e.sequenceNo

/-- The discipline of the calls. -/
def retentionDiscipline (g : Group) :
    Discipline Nat RetentionCall RetentionCommand RetentionAnswer StreamStore Retained where
  inv := RetentionInv g
  idle _ _ := True
  rely _ := RetentionRely g
  promise _ _ := RetentionPromise g
  result _ := RetentionResult g

theorem RetentionRely.refl (w : World StreamStore Retained) : RetentionRely g w w :=
  ⟨Extends.refl, List.Subset.refl _, List.Subset.refl _⟩

theorem RetentionRely.trans {w w' w'' : World StreamStore Retained} (h : RetentionRely g w w')
    (h' : RetentionRely g w' w'') : RetentionRely g w w'' :=
  ⟨h.extends_.trans h'.extends_ h.handed, List.Subset.trans h.handed h'.handed,
    List.Subset.trans h.delivered h'.delivered⟩

theorem SafeInLog.later {w w' : World StreamStore Retained} {v : Int} (h : SafeInLog g w v)
    (hrely : RetentionRely g w w') : SafeInLog g w' v :=
  h.extend hrely.extends_ hrely.handed hrely.delivered

/-! ### The calls -/

section Keeps

variable {i : Nat} {w : World StreamStore Retained}

theorem publish_retains {now : DateTime} {stream : String} {event : NewEvent} :
    (retentionDiscipline g).Keeps (retentionRecorder g) retentionServer i (.other (.publish now stream event))
      (ofStream (publish now stream event)) w := by
  intro w₁ _ _
  refine ⟨fun _ _ h => (by cases h), fun _ _ _ _ w₂ _ _ => ⟨fun _ _ h => (by cases h), fun _ _ _ _ w₃ _ _ => ?_⟩⟩
  exact fun _ _ h => nomatch h

/-- An `ack` by the group of a number that is safe. -/
theorem ack_retains {now : DateTime} {stream consumerGroup : String} {seq : Int}
    (hseq : stream = g.stream → consumerGroup = g.consumerGroup → SafeInLog g w seq) :
    (retentionDiscipline g).Keeps (retentionRecorder g) retentionServer i (.other (.ack now stream consumerGroup seq))
      (ofStream (ack now stream consumerGroup seq)) w := by
  intro w₁ h₁ _
  refine ⟨?_, fun _ _ _ _ w₂ _ _ => fun _ _ h => nomatch h⟩
  rintro _ _ ⟨⟩
  exact (hseq rfl rfl).later h₁

theorem readEvents_retains {stream : String} {afterSeq limit : Int} :
    (retentionDiscipline g).Keeps (retentionRecorder g) retentionServer i
      (.other (.readEvents stream afterSeq limit)) (ofStream (readEvents stream afterSeq limit)) w := by
  intro w₁ _ _
  exact ⟨fun _ _ h => (by cases h), fun _ _ _ _ w₂ _ _ => fun _ _ h => nomatch h⟩

theorem pruneEvents_retains {stream : String} {throughSeq : Int} :
    (retentionDiscipline g).Keeps (retentionRecorder g) retentionServer i (.pruneEvents stream throughSeq)
      (pruneEvents stream throughSeq) w := by
  intro w₁ _ _
  exact ⟨fun _ _ h => (by cases h), fun _ _ _ _ w₂ _ _ => fun _ _ h => nomatch h⟩

/-- What a `read_next` of the group is handed is safe to acknowledge, once it is delivered: what is missing in the log
    was passed by the group. -/
theorem handed_safe {w₂ : World StreamStore Retained} {v limit : Int} (hinv : RetentionInv g w₂)
    (hsafe : SafeInLog g w₂ v) {e : Event}
    (he : e ∈ StreamTables.selectEvents w₂.store.committed g.stream v limit) :
    Passed Event.sequenceNo (w₂.history.handed ++ StreamTables.selectEvents w₂.store.committed g.stream v limit)
      (eventsOf w₂.history.log g.stream)
      (w₂.history.delivered ++ StreamTables.selectEvents w₂.store.committed g.stream v limit) e.sequenceNo := by
  have hasc : Ascending Event.sequenceNo (eventsOf w₂.store.committed g.stream) :=
    hinv.versions.committed.filter _
  have heq : StreamTables.selectEvents w₂.store.committed g.stream v limit =
      Cursor.batch Event.sequenceNo v (clampLimit limit) (eventsOf w₂.store.committed g.stream) :=
    selectEvents_eq hinv.versions.committed ..
  rw [heq] at he ⊢
  refine hsafe.batchOfPart hinv.acked (fun a ha => ?_) hasc he (List.mem_append_right _ he)
    (List.subset_append_left ..) (List.subset_append_right ..)
  obtain ⟨hlog, hstream⟩ := List.mem_filter.mp ha
  rcases hinv.kept a hlog (by simpa using hstream) with hin | ⟨_, hle⟩
  · exact Or.inl (List.mem_filter.mpr ⟨hin, hstream⟩)
  · exact Or.inr hle

/-- `read_next` of the group returns events that are safe to acknowledge. -/
theorem readNext_retains {stream consumerGroup : String} {limit : Int} :
    (retentionDiscipline g).Keeps (retentionRecorder g) retentionServer i
      (.other (.readNext stream consumerGroup limit)) (ofStream (readNext stream consumerGroup limit)) w := by
  intro w₁ _ hinv₁
  refine ⟨fun _ _ h => (by cases h), fun info σ₁ hans _ => ?_⟩
  obtain ⟨rfl, rfl⟩ := Prod.mk.inj (Option.some.inj hans)
  intro w₂ h₂ hinv₂
  refine ⟨fun _ _ h => (by cases h), fun events σ₂ hans₂ _ => ?_⟩
  obtain ⟨rfl, rfl⟩ := Prod.mk.inj (Option.some.inj hans₂)
  intro w₃ h₃ _
  rintro _ _ ⟨⟩ ⟨⟩ e he
  -- the offset that was read is still safe when the events are
  have hsafe : SafeInLog g w₂ (offset g w₁.store) := SafeInLog.later hinv₁.acked h₂
  have hhanded : ∀ events : List Event, Retained.sent g i (.other (.readNext g.stream g.consumerGroup limit))
      (.other (.selectEvents g.stream (offset g w₁.store) limit)) w₂.store events w₂.history =
        { w₂.history with handed := w₂.history.handed ++ events } :=
    fun _ => congrArg (fun d => { w₂.history with toDeliveries := d }) (if_pos ⟨rfl, rfl⟩)
  have hrely : RetentionRely g
      { store := w₂.store
        history := Retained.sent g i (.other (.readNext g.stream g.consumerGroup limit))
          (.other (.selectEvents g.stream (offset g w₁.store) limit)) w₂.store
          (StreamTables.selectEvents w₂.store.committed g.stream (offset g w₁.store) limit) w₂.history } w₃ := h₃
  rw [hhanded] at hrely
  refine (handed_safe hinv₂ hsafe he).extend hrely.extends_ hrely.handed (List.append_subset.mpr ⟨?_, ?_⟩)
  · exact List.Subset.trans hrely.delivered (List.subset_append_left ..)
  · exact List.subset_append_right ..

end Keeps

/-! ### The steps -/

section Steps

variable {i : Nat} {call : RetentionCall}

/-- The invariant after a step that others rely on, where the group's offset is the old one or a safe one. -/
theorem RetentionInv.step {w w' : World StreamStore Retained} (h : RetentionInv g w) (hrely : RetentionRely g w w')
    (hkept : Kept g w') (hversions : VersionsInv w'.store) (hpos : ∀ e ∈ w'.history.log, 0 < e.sequenceNo)
    (hoff : offset g w'.store = offset g w.store ∨ SafeInLog g w (offset g w'.store))
    (hdel : ∀ e ∈ w'.history.delivered, e ∈ w.history.delivered ∨ SafeInLog g w' e.sequenceNo) :
    RetentionInv g w' := by
  refine ⟨hkept, hversions, hpos, ?_, fun e he => ?_⟩
  · rcases hoff with heq | hsafe
    · rw [heq]
      exact h.acked.later hrely
    · exact hsafe.later hrely
  · rcases hdel e he with hold | hsafe
    · exact (h.delivered e hold).later hrely
    · exact hsafe

/-- A statement hands out events, or it leaves the deliveries alone. -/
theorem handed_sent (i : Nat) (call : RetentionCall) (c : RetentionCommand) (s : StreamStore) (r : c.Reply)
    (h : Retained) :
    h.handed ⊆ (Retained.sent g i call c s r h).handed ∧
      (Retained.sent g i call c s r h).delivered = h.delivered := by
  unfold Retained.sent
  split
  · exact ⟨List.Subset.refl _, rfl⟩
  · exact sent_spec i _ _ s _ _
  · exact ⟨List.Subset.refl _, rfl⟩

/-- What a returning call adds to the deliveries of the group. -/
theorem retained_returned_cases (i : Nat) (call : RetentionCall) (a : RetentionAnswer) (h : Retained) :
    Retained.returned g i call a h = h ∨
      ∃ limit result, call = .other (.readNext g.stream g.consumerGroup limit) ∧ a = .other (.events result) ∧
        Retained.returned g i call a h = { h with delivered := h.delivered ++ result } := by
  cases call with
  | pruneEvents stream throughSeq => exact Or.inl rfl
  | other call =>
      cases a with
      | count n => exact Or.inl rfl
      | other a =>
          have hreturned : Retained.returned g i (.other call) (.other a) h =
              { h with toDeliveries := Deliveries.returned g i call a h.toDeliveries } := rfl
          rw [hreturned]
          rcases returned_cases (g := g) i call a h.toDeliveries with heq | ⟨limit, result, rfl, rfl, heq⟩
          · rw [heq]
            exact Or.inl rfl
          · rw [heq]
            exact Or.inr ⟨limit, result, rfl, rfl, rfl⟩

/-- Where no `publish` commits too late, a statement logs events above everything that was handed out. -/
theorem exec_extends_log {o o' : RetentionPool} {c : StreamCommand} {r : c.Reply}
    {k : c.Reply → RetentionCmds} (h : VersionsInv o.pool.store)
    (hi : o.pool.client i = some (call, .call (.other c) k)) (hok : CommitsInTime g o (.exec i) o') :
    Extends Event.sequenceNo o.history.handed (eventsOf o.history.log g.stream)
      (eventsOf (Retained.sent g i call (.other c) o.pool.store r o.history).log g.stream) := by
  intro e he
  obtain ⟨hmem, hstream⟩ := List.mem_filter.mp he
  rcases mem_log_sent.mp hmem with hold | ⟨rfl, hnew⟩
  · exact Or.inl (List.mem_filter.mpr ⟨hold, hstream⟩)
  · obtain ⟨v, hv, _, rfl⟩ := mem_inserted.mp hnew
    exact Or.inr ⟨(h.bounded v hv).1, hok i call k rfl hi _ hnew (by simpa using hstream)⟩

/-- A statement of the other calls is executed. -/
theorem exec_retains {o o' : RetentionPool} {c : StreamCommand} {k : c.Reply → RetentionCmds}
    (h : RetentionInv g o.world) (hi : o.pool.client i = some (call, .call (.other c) k))
    (hpromise : RetentionPromise g (.other c) o.world) (hok : CommitsInTime g o (.exec i) o') :
    let w' : World StreamStore Retained :=
      { store := (c.exec i o.pool.store).2
        history := Retained.sent g i call (.other c) o.pool.store (c.exec i o.pool.store).1 o.history }
    RetentionInv g w' ∧ RetentionRely g o.world w' := by
  intro w'
  obtain ⟨hhanded, hdelivered⟩ :=
    handed_sent (g := g) i call (.other c) o.pool.store (c.exec i o.pool.store).1 o.history
  have hrely : RetentionRely g o.world w' := by
    refine ⟨exec_extends_log h.versions hi hok, hhanded, ?_⟩
    show o.history.delivered ⊆ (Retained.sent g i call (.other c) o.pool.store _ o.history).delivered
    rw [hdelivered]
    exact List.Subset.refl _
  have hpos : ∀ e ∈ w'.history.log, 0 < e.sequenceNo := by
    intro e he
    rcases mem_log_sent.mp he with hold | ⟨_, hnew⟩
    · exact h.positive e hold
    · obtain ⟨v, hv, _, rfl⟩ := mem_inserted.mp hnew
      exact (h.versions.bounded v hv).1
  refine ⟨h.step hrely (h.toKept.exec_other c) (h.versions.exec c) hpos ?_ fun e he => Or.inl (hdelivered ▸ he), hrely⟩
  rcases offset_exec (g := g) c i o.pool.store with heq | ⟨now, seq, rfl, heq | heq⟩
  · exact Or.inl heq
  · right
    show SafeInLog g o.world (offset g ((StreamCommand.upsertOffset _ _ _ seq).exec i o.pool.store).2)
    rw [heq]
    exact hpromise now seq rfl
  · right
    show SafeInLog g o.world (offset g ((StreamCommand.upsertOffset _ _ _ seq).exec i o.pool.store).2)
    rw [heq]
    exact h.acked.max (hpromise now seq rfl)

/-- A stream is pruned, which is not recorded. -/
theorem prune_retains {w w' : World StreamStore Retained} {stream : String} {throughSeq : Int} (h : RetentionInv g w)
    (i : Nat) (hkept : Kept g w')
    (hstore : w'.store = ((RetentionCommand.deleteEvents stream throughSeq).exec i w.store).2)
    (hhistory : w'.history = w.history) : RetentionInv g w' ∧ RetentionRely g w w' := by
  have hrely : RetentionRely g w w' := by
    constructor <;> rw [hhistory]
    · exact Extends.refl
    · exact List.Subset.refl _
    · exact List.Subset.refl _
  refine ⟨h.step hrely hkept ?_ ?_ (Or.inl ?_) fun e he => Or.inl (hhistory ▸ he), hrely⟩
  · rw [hstore]
    exact h.versions.prune
  · rw [hhistory]
    exact h.positive
  · rw [hstore]
    rfl

/-- A call returns. -/
theorem finish_retains {w : World StreamStore Retained} {a : RetentionAnswer} (h : RetentionInv g w)
    (hresult : RetentionResult g call a w) :
    RetentionInv g { store := w.store, history := Retained.returned g i call a w.history } ∧
      RetentionRely g w { store := w.store, history := Retained.returned g i call a w.history } := by
  have hkept : Kept g { store := w.store, history := Retained.returned g i call a w.history } := h.toKept.finish a
  rcases retained_returned_cases (g := g) i call a w.history with heq | ⟨limit, result, rfl, rfl, heq⟩
  · rw [heq]
    exact ⟨h, RetentionRely.refl w⟩
  · rw [heq] at hkept ⊢
    have hrely : RetentionRely g w
        { store := w.store, history := { w.history with delivered := w.history.delivered ++ result } } :=
      ⟨Extends.refl, List.Subset.refl _, List.subset_append_left ..⟩
    refine ⟨h.step hrely hkept h.versions h.positive (Or.inl rfl) fun e he => ?_, hrely⟩
    rcases List.mem_append.mp he with hold | hnew
    · exact Or.inl hold
    · exact Or.inr (hresult limit result rfl rfl e hnew)

/-- A client dies. -/
theorem crash_retains {w : World StreamStore Retained} (h : RetentionInv g w) :
    RetentionInv g { store := w.store.rollback i, history := w.history } ∧
      RetentionRely g w { store := w.store.rollback i, history := w.history } := by
  have hrely : RetentionRely g w { store := w.store.rollback i, history := w.history } :=
    ⟨Extends.refl, List.Subset.refl _, List.Subset.refl _⟩
  exact ⟨h.step hrely (h.toKept.rollback i) h.versions.rollback h.positive (Or.inl rfl) fun e he => Or.inl he, hrely⟩

end Steps

/-- **The calls keep the discipline**, where no `publish` commits too late. -/
theorem retention_obeyed :
    (retentionDiscipline g).Obeyed (retentionRecorder g) retentionServer RetentionCall.program
      ((retentionSystem g).restrict (CommitsInTime g)) where
  next h := h.1.1
  refl _ := RetentionRely.refl
  trans _ _ _ _ := RetentionRely.trans
  idle _ _ := trivial
  init := by
    rintro o ⟨hempty, hclients, hhist⟩
    have hw : o.world = { store := .empty, history := .first } := by
      unfold Observed.world
      rw [hempty, hhist]
    rw [hw]
    refine ⟨hclients, ⟨Kept.first, ⟨List.Pairwise.nil, fun _ h => ?_, Int.le_refl 0⟩, fun _ h => ?_,
      Passed.start (fun _ h => ?_) (Int.le_refl 0), fun _ h => ?_⟩, fun _ => trivial⟩
    · cases h
    · cases h
    · cases h
    · cases h
  start := by
    intro o i call o' h hstep _
    refine ⟨⟨h.inv, fun _ _ => RetentionRely.refl _⟩, ?_⟩
    show (retentionDiscipline g).Keeps (retentionRecorder g) retentionServer i call call.program o.world
    cases call with
    | pruneEvents stream throughSeq => exact pruneEvents_retains
    | other call =>
        cases call with
        | publish now stream event => exact publish_retains
        | ack now stream consumerGroup seq =>
            refine ack_retains ?_
            rintro rfl rfl
            rcases hstep.1.2.acks i now seq rfl with rfl | ⟨e, he, rfl⟩
            · -- a group that joins passes nothing
              exact Passed.start (fun e he => h.inv.positive e (List.mem_filter.mp he).1) (Int.le_refl 0)
            · exact h.inv.delivered e he
        | readEvents stream afterSeq limit => exact readEvents_retains
        | readNext stream consumerGroup limit => exact readNext_retains
  exec := by
    intro o i call c k r σ' o' h hstep hi hexec hpromise
    obtain ⟨rfl, rfl⟩ := Prod.mk.inj (Option.some.inj hexec)
    cases c with
    | other c =>
        have hretains := exec_retains h.inv hi hpromise hstep.2
        exact ⟨hretains.1, fun _ _ => hretains.2⟩
    | deleteEvents stream throughSeq =>
        have hjoined : stream = g.stream → Joined g o.pool.store := by
          rintro rfl
          exact hstep.1.2.prunes i call throughSeq k rfl hi
        have hkept := h.inv.toKept.exec_prune i call throughSeq hjoined
        have hretains := prune_retains h.inv i hkept rfl rfl
        exact ⟨hretains.1, fun _ _ => hretains.2⟩
  finish := by
    intro o i call a o' h _ _ hresult
    have hretains := finish_retains (i := i) h.inv hresult
    exact ⟨⟨hretains.1, fun _ _ => hretains.2⟩, trivial⟩
  crash := by
    intro o i call p o' h _ _ _
    have hretains := crash_retains (i := i) h.inv
    exact ⟨⟨hretains.1, fun _ _ => hretains.2⟩, trivial⟩

end Discipline

/-- Every event of the stream that was ever committed was delivered to the group, or is in the log above its offset,
    where `read_next` finds it. -/
def RetainedLaw (g : Group) (o : RetentionPool) : Prop :=
  ∀ e ∈ eventsOf o.history.log g.stream,
    e ∈ o.history.delivered ∨ (e ∈ o.pool.store.committed ∧ offset g o.pool.store < e.sequenceNo)

/-- **No event is lost to a group.** In every run of any number of clients that publish, read, acknowledge, prune and
    die, in which each `publish` on the stream commits while everything that the group has been handed is numbered below
    it, and the stream is pruned when the group has joined: in every state, every event that was ever committed on the
    stream was delivered to the group or is still there for it to read. -/
theorem retained_law {g : Group} {o : RetentionPool}
    (ho : ((retentionSystem g).restrict (CommitsInTime g)).Reachable o) : RetainedLaw g o := by
  intro e he
  have hinv : RetentionInv g o.world := (retention_obeyed.holds ho).inv
  obtain ⟨hlog, hstream⟩ := List.mem_filter.mp he
  by_cases hle : e.sequenceNo ≤ offset g o.pool.store
  · exact Or.inl (hinv.acked.covered e he hle)
  · rcases hinv.kept e hlog (by simpa using hstream) with hin | ⟨_, hpassed⟩
    · exact Or.inr ⟨hin, Int.not_le.mp hle⟩
    · exact absurd hpassed hle

/-! ### A stream that is pruned -/

/-- The moves that the group's rules allow: it acknowledges what it has received, or 0; the stream is pruned when it has
    joined; and a `publish` commits while nothing was handed out. -/
def allowed (g : Group) (o : RetentionPool) : RetentionMove → Bool
  | .start _ (.other (.ack _ _ _ seq)) =>
      decide (seq = 0) || o.history.delivered.any (fun e => decide (e.sequenceNo = seq))
  | .exec i =>
      match o.pool.client i with
      | some (_, .call (.deleteEvents _ _) _) => (offsetRow o.pool.store.offsets g.stream g.consumerGroup).isSome
      | some (_, .call (.other .commit) _) => o.history.handed.isEmpty
      | _ => true
  | _ => true

/-- A step, if it is allowed. -/
def allowedNext (g : Group) (o : RetentionPool) (move : RetentionMove) : Option RetentionPool :=
  if allowed g o move then (retentionRecorder g).next retentionServer RetentionCall.program o move else none

section Allowed

variable {g : Group} {o o' : RetentionPool} {move : RetentionMove}

theorem participates_of_allowed (h : allowed g o move = true) : Participates g o move o' := by
  constructor
  · rintro i now seq rfl
    simpa [allowed] using h
  · rintro i call throughSeq k rfl hi
    simpa [allowed, hi, Joined] using h

theorem commitsInTime_of_allowed (h : allowed g o move = true) : CommitsInTime g o move o' := by
  rintro i call k rfl hi _ _ _ b hb
  have hnone : o.history.handed = [] := by simpa [allowed, hi] using h
  rw [hnone] at hb
  cases hb

/-- A run of moves that are allowed is a run of the system. -/
theorem reachable_allowed (moves : List RetentionMove)
    (ho : ((retentionSystem g).restrict (CommitsInTime g)).Reachable o)
    (h : moves.foldlM (allowedNext g) o = some o') : ((retentionSystem g).restrict (CommitsInTime g)).Reachable o' := by
  induction moves generalizing o with
  | nil =>
      cases h
      exact ho
  | cons e rest ih =>
      obtain ⟨o₁, hnext, hrest⟩ := Option.bind_eq_some_iff.mp h
      unfold allowedNext at hnext
      by_cases hallowed : allowed g o e = true
      · rw [if_pos hallowed] at hnext
        exact ih (ho.next ⟨⟨hnext, participates_of_allowed hallowed⟩, commitsInTime_of_allowed hallowed⟩) hrest
      · rw [if_neg hallowed] at hnext
        cases hnext

end Allowed

/-- The group joins, an order is placed, the group reads it and acknowledges it, and the stream is pruned. -/
def placedAndPruned : List RetentionMove :=
  [.start 2 (.other (.ack 0 "orders" "billing" 0)), .exec 2, .finish 2,
    .start 0 (.other (.publish 0 "orders" (placed "a"))), .exec 0, .exec 0, .finish 0,
    .start 2 (.other (.readNext "orders" "billing" 10)), .exec 2, .exec 2, .finish 2,
    .start 2 (.other (.ack 1 "orders" "billing" 1)), .exec 2, .finish 2,
    .start 1 (.pruneEvents "orders" 1), .exec 1]

/-- An empty database, and nothing has happened. -/
def idleRetention : RetentionPool :=
  { pool := { store := .empty, client := fun _ => none }, history := .first }

/-- The end of that run. -/
def afterPruning : RetentionPool :=
  (placedAndPruned.foldlM (allowedNext billing) idleRetention).getD idleRetention

theorem afterPruning_reachable : ((retentionSystem billing).restrict (CommitsInTime billing)).Reachable afterPruning :=
  reachable_allowed (o := idleRetention) placedAndPruned (.start ⟨rfl, fun _ => rfl, rfl⟩) rfl

/-- The order is gone from the log, and was delivered. -/
theorem order_delivered : RetainedLaw billing afterPruning ∧ afterPruning.history.log.length = 1 ∧
    afterPruning.pool.store.committed.length = 0 :=
  ⟨retained_law afterPruning_reachable, rfl, rfl⟩

theorem order_kept : Kept billing afterPruning.world := by
  refine kept_law (afterPruning_reachable.mono ?_ ?_)
  · exact fun _ h => h
  · exact fun _ _ _ h => ⟨h.1.1, h.1.2.prunes⟩

end Azums.Postgres.Streams
