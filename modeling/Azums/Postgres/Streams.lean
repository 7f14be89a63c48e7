import Azums.Core.StreamTables
import Azums.Lib.Discipline

/-!
# `Postgres.Streams` — the stream operations, statement by statement

`StreamRepo`. Every statement is a transaction of its own. An `INSERT` draws its number from the sequence of
`stream_events` when it executes, and the row is seen by others when it commits; in between, others may draw numbers and
commit. What a client has inserted is rolled back when it dies, and the number is not given out again. The other
statements see the committed rows.

The `NOTIFY` of `publish` changes no table and is left out.
-/

namespace Azums.Postgres.Streams

open StreamTables
open Cursor (Ascending)

/-! ## The server -/

/-- A row of `stream_events`, and the client whose transaction has inserted it, while that is open. -/
structure Version where
  event : Event
  writer : Option Nat

/-- What the server holds: the number that the sequence has given out last, the rows in the order in which they were
    inserted, and the offsets. -/
structure StreamStore where
  nextval : Int
  versions : List Version
  offsets : OffsetsTable

/-- The database after the migrations. -/
def StreamStore.empty : StreamStore := { nextval := 0, versions := [], offsets := .empty }

/-- The committed rows. -/
def StreamStore.committed (s : StreamStore) : List Event :=
  (s.versions.filter (fun v => v.writer.isNone)).map (·.event)

/-- A row after a commit of client `i`. -/
def Version.settle (i : Nat) (v : Version) : Version :=
  if v.writer = some i then { v with writer := none } else v

@[simp] theorem Version.settle_event {i : Nat} {v : Version} : (v.settle i).event = v.event := by
  unfold Version.settle
  split <;> rfl

/-- A row is committed if it was before, or if this client has inserted it. -/
theorem Version.settle_writer {i : Nat} {v : Version} :
    (v.settle i).writer = none ↔ v.writer = none ∨ v.writer = some i := by
  unfold Version.settle
  split
  · rename_i hw
    simp [hw]
  · rename_i hw
    simp [hw]

/-- A client dies, and its transaction is rolled back. -/
def StreamStore.rollback (i : Nat) (s : StreamStore) : StreamStore :=
  { s with versions := s.versions.filter (fun v => decide (v.writer ≠ some i)) }

/-- The statements. -/
inductive StreamCommand where
  | insertEvent (now : DateTime) (stream : String) (event : NewEvent)
  | commit
  | upsertOffset (now : DateTime) (stream consumerGroup : String) (seq : Int)
  | selectOffsets (stream : String)
  | selectEvents (stream : String) (afterSeq limit : Int)

/-- What a statement returns. -/
@[reducible] def StreamCommand.Reply : StreamCommand → Type
  | .insertEvent _ _ _ => Int
  | .commit | .upsertOffset _ _ _ _ => Unit
  | .selectOffsets _ => List ConsumerGroupStatus
  | .selectEvents _ _ _ => List Event

/-- The row of a new event. -/
def newEvent (now : DateTime) (stream : String) (event : NewEvent) (seq : Int) : Event :=
  { sequenceNo := seq
    streamName := stream
    eventType := event.eventType
    payloadJson := event.payloadJson
    createdAt := now }

/-- What a statement of client `i` does. -/
def StreamCommand.exec (i : Nat) : (c : StreamCommand) → StreamStore → c.Reply × StreamStore
  | .insertEvent now stream event, s =>
      let seq := s.nextval + 1
      (seq, { s with
        nextval := seq
        versions := s.versions ++ [{ event := newEvent now stream event seq, writer := some i }] })
  | .commit, s => ((), { s with versions := s.versions.map (Version.settle i) })
  | .upsertOffset now stream consumerGroup seq, s =>
      ((), { s with offsets := StreamTables.upsertOffset s.offsets now stream consumerGroup seq })
  | .selectOffsets stream, s => (StreamTables.selectOffsets s.offsets stream, s)
  | .selectEvents stream afterSeq limit, s => (StreamTables.selectEvents s.committed stream afterSeq limit, s)

/-! ## Programs -/

/-- What the calls return. -/
inductive StreamAnswer where
  | unit
  | sequenceNo (n : Int)
  | events (result : List Event)

/-- Statements, then a value. -/
abbrev StreamCmds (α : Type) := Prog StreamCommand StreamCommand.Reply α

def insertEvent (now : DateTime) (stream : String) (event : NewEvent) : StreamCmds Int :=
  .call (.insertEvent now stream event) .done
def commit : StreamCmds Unit := .call .commit .done
def upsertOffset (now : DateTime) (stream consumerGroup : String) (seq : Int) : StreamCmds Unit :=
  .call (.upsertOffset now stream consumerGroup seq) .done
def selectOffsets (stream : String) : StreamCmds (List ConsumerGroupStatus) := .call (.selectOffsets stream) .done
def selectEvents (stream : String) (afterSeq limit : Int) : StreamCmds (List Event) :=
  .call (.selectEvents stream afterSeq limit) .done

/-- `publish`: an `INSERT`, and its commit. -/
def publish (now : DateTime) (stream : String) (event : NewEvent) : StreamCmds StreamAnswer := do
  let seq ← insertEvent now stream event
  commit
  return .sequenceNo seq

/-- `ack`. -/
def ack (now : DateTime) (stream consumerGroup : String) (seq : Int) : StreamCmds StreamAnswer := do
  upsertOffset now stream consumerGroup seq
  return .unit

/-- `read_events`. -/
def readEvents (stream : String) (afterSeq limit : Int) : StreamCmds StreamAnswer := do
  let events ← selectEvents stream afterSeq limit
  return .events events

/-- `read_next`. -/
def readNext (stream consumerGroup : String) (limit : Int) : StreamCmds StreamAnswer := do
  let info ← selectOffsets stream
  readEvents stream (lastAckedSeq info consumerGroup) limit

/-- A call. -/
inductive StreamCall where
  | publish (now : DateTime) (stream : String) (event : NewEvent)
  | ack (now : DateTime) (stream consumerGroup : String) (seq : Int)
  | readEvents (stream : String) (afterSeq limit : Int)
  | readNext (stream consumerGroup : String) (limit : Int)

/-- The statements that a call runs. -/
def StreamCall.program : StreamCall → StreamCmds StreamAnswer
  | .publish now stream event => Streams.publish now stream event
  | .ack now stream consumerGroup seq => Streams.ack now stream consumerGroup seq
  | .readEvents stream afterSeq limit => Streams.readEvents stream afterSeq limit
  | .readNext stream consumerGroup limit => Streams.readNext stream consumerGroup limit

/-- The server: a client that dies is rolled back. -/
def streamServer : Server Nat StreamCommand StreamCommand.Reply StreamAnswer StreamStore where
  exec i c s := some (c.exec i s)
  close _ _ s := s
  abandon := StreamStore.rollback

/-- The moves of the clients. -/
abbrev StreamMove := Move Nat StreamCall

/-- Any number of clients, their server, and what has happened. -/
abbrev StreamPool (η : Type) := Observed Nat StreamCall StreamCommand StreamCommand.Reply StreamAnswer StreamStore η

/-! ## What the statements do to the committed rows -/

section Committed

variable {i : Nat} {s : StreamStore} {e : Event}

theorem mem_committed : e ∈ s.committed ↔ ∃ v ∈ s.versions, v.writer = none ∧ v.event = e := by
  simp [StreamStore.committed, and_assoc]

/-- A row that is inserted is not seen yet. -/
theorem committed_insert {now : DateTime} {stream : String} {event : NewEvent} :
    ((StreamCommand.insertEvent now stream event).exec i s).2.committed = s.committed := by
  simp [StreamCommand.exec, StreamStore.committed]

/-- A rollback takes away nothing that was seen. -/
theorem committed_rollback : (s.rollback i).committed = s.committed := by
  unfold StreamStore.committed StreamStore.rollback
  rw [List.filter_filter]
  refine congrArg (List.map _) (List.filter_congr fun v _ => ?_)
  cases hw : v.writer <;> simp

/-- A commit adds the client's rows to those that are seen. -/
theorem mem_committed_commit :
    e ∈ (StreamCommand.commit.exec i s).2.committed ↔
      e ∈ s.committed ∨ ∃ v ∈ s.versions, v.writer = some i ∧ v.event = e := by
  rw [mem_committed, mem_committed]
  show (∃ v ∈ s.versions.map (Version.settle i), _) ↔ _
  constructor
  · rintro ⟨_, hv', hnone, rfl⟩
    obtain ⟨v, hv, rfl⟩ := List.mem_map.mp hv'
    rw [Version.settle_event]
    rcases Version.settle_writer.mp hnone with hw | hw
    · exact Or.inl ⟨v, hv, hw, rfl⟩
    · exact Or.inr ⟨v, hv, hw, rfl⟩
  · rintro (⟨v, hv, hw, rfl⟩ | ⟨v, hv, hw, rfl⟩)
    · exact ⟨_, List.mem_map_of_mem hv, Version.settle_writer.mpr (Or.inl hw), Version.settle_event⟩
    · exact ⟨_, List.mem_map_of_mem hv, Version.settle_writer.mpr (Or.inr hw), Version.settle_event⟩

/-- The rows are in the order of their numbers, which are positive and were given out. -/
structure VersionsInv (s : StreamStore) : Prop where
  ascending : Ascending (fun v : Version => v.event.sequenceNo) s.versions
  bounded : ∀ v ∈ s.versions, 0 < v.event.sequenceNo ∧ v.event.sequenceNo ≤ s.nextval
  nonneg : 0 ≤ s.nextval

theorem VersionsInv.exec (h : VersionsInv s) (c : StreamCommand) : VersionsInv (c.exec i s).2 := by
  have hnonneg := h.nonneg
  cases c with
  | insertEvent now stream event =>
      refine ⟨Cursor.ascending_append_one h.ascending fun v hv => ?_, fun v hv => ?_, ?_⟩
      · have hbound := h.bounded v hv
        show v.event.sequenceNo < s.nextval + 1
        omega
      · show 0 < v.event.sequenceNo ∧ v.event.sequenceNo ≤ s.nextval + 1
        rcases List.mem_append.mp hv with hold | hself
        · have hbound := h.bounded v hold
          omega
        · rw [List.mem_singleton.mp hself]
          show 0 < s.nextval + 1 ∧ s.nextval + 1 ≤ s.nextval + 1
          omega
      · show 0 ≤ s.nextval + 1
        omega
  | commit =>
      refine ⟨?_, fun v hv => ?_, hnonneg⟩
      · refine List.pairwise_map.mpr (h.ascending.imp fun {v v'} hlt => ?_)
        show (v.settle i).event.sequenceNo < (v'.settle i).event.sequenceNo
        rw [Version.settle_event, Version.settle_event]
        exact hlt
      · obtain ⟨v', hv', rfl⟩ := List.mem_map.mp hv
        rw [Version.settle_event]
        exact h.bounded v' hv'
  | _ => exact ⟨h.ascending, h.bounded, hnonneg⟩

theorem VersionsInv.rollback (h : VersionsInv s) : VersionsInv (s.rollback i) :=
  ⟨h.ascending.filter _, fun v hv => h.bounded v (List.mem_of_mem_filter hv), h.nonneg⟩

theorem VersionsInv.committed (h : VersionsInv s) : Ascending Event.sequenceNo s.committed :=
  List.pairwise_map.mpr (h.ascending.filter _)

theorem VersionsInv.positive (h : VersionsInv s) (he : e ∈ s.committed) : 0 < e.sequenceNo := by
  obtain ⟨v, hv, _, rfl⟩ := mem_committed.mp he
  exact (h.bounded v hv).1

end Committed
end Azums.Postgres.Streams
