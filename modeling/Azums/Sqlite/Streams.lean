import Azums.Core.StreamTables
import Azums.Sqlite.Texts

/-!
# `Sqlite.Streams` — the stream operations as statements

`impl StreamBackend for SqliteBackend`. As the database executes one transaction at a time, an operation is a function
of the database.

The events of all streams share one column of numbers, `INTEGER PRIMARY KEY AUTOINCREMENT`: an `INSERT` takes a number
that is larger than any that was ever used, also by a row that is gone. Which one it takes is an argument of `publish`;
the largest so far is kept in `sequence`, as `sqlite_sequence` does. A row carries the payload that was bound, and is
read with what its text is parsed to.
-/

namespace Azums.Sqlite.Streams

open StreamTables
open Cursor (Ascending above)

/-! ## The database -/

/-- The two tables, and what `sqlite_sequence` says about the first. -/
structure StreamDb where
  events : Table Event Event.sequenceNo List.Nodup
  sequence : Int
  offsets : OffsetsTable

/-- The database after the migrations. -/
def StreamDb.empty : StreamDb := { events := ⟨[], List.nodup_nil⟩, sequence := 0, offsets := .empty }

/-! ## The operations -/

/-- The row of a new event. -/
def newEvent (now : DateTime) (stream : String) (event : NewEvent) (seq : Int) : Event :=
  { sequenceNo := seq
    streamName := stream
    eventType := event.eventType
    payloadJson := event.payloadJson
    createdAt := now }

/-- `publish`, where the `INSERT` takes the number `seq`. -/
def publish (db : StreamDb) (now : DateTime) (stream : String) (event : NewEvent) (seq : Int) :
    Outcome Int × StreamDb :=
  if h : ((db.events.rows ++ [newEvent now stream event seq]).map Event.sequenceNo).Nodup then
    (.ok seq, { db with events := db.events.insert _ h, sequence := seq })
  else (.err "UNIQUE constraint failed: stream_events.sequence_no", db)

/-- `ack`. -/
def ack (db : StreamDb) (now : DateTime) (stream consumerGroup : String) (seq : Int) : Outcome Unit × StreamDb :=
  (.ok (), { db with offsets := upsertOffset db.offsets now stream consumerGroup seq })

/-- A row of `stream_events`, as `query_as::<_, Event>` decodes it. -/
def readEvent (texts : Texts) (e : Event) : Except String Event :=
  match texts.readPayload e.payloadJson with
  | .error message => .error message
  | .ok payload => .ok { e with payloadJson := payload }

/-- `read_events`. -/
def readEvents (texts : Texts) (db : StreamDb) (stream : String) (afterSeq limit : Int) : Outcome (List Event) :=
  match fetchAll (readEvent texts) (selectEvents db.events.rows stream afterSeq limit) with
  | .error message => .err message
  | .ok events => .ok events

/-- `read_next`. -/
def readNext (texts : Texts) (db : StreamDb) (stream consumerGroup : String) (limit : Int) : Outcome (List Event) :=
  readEvents texts db stream (lastAckedSeq (selectOffsets db.offsets stream) consumerGroup) limit

/-- The last number that `prune_events` may remove. -/
def pruneCutoff (db : StreamDb) (stream : String) (throughSeq : Int) : Int :=
  min throughSeq
    ((((db.offsets.rows.filter (fun r => r.streamName == stream)).map (·.lastAckedSeq)).min?).getD throughSeq)

/-- The `WHERE` of `prune_events`. -/
def prunable (stream : String) (cutoff : Int) (e : Event) : Bool :=
  e.streamName == stream && decide (e.sequenceNo ≤ cutoff)

/-- `prune_events`. -/
def pruneEvents (db : StreamDb) (stream : String) (throughSeq : Int) : Outcome Nat × StreamDb :=
  let doomed := prunable stream (pruneCutoff db stream throughSeq)
  (.ok (db.events.affected doomed), { db with events := db.events.delete doomed })

/-! ## What the operations do -/

section Operations

variable {db : StreamDb} {stream consumerGroup : String} {seq : Int}

/-- An `INSERT` with a new number appends the event. -/
theorem publish_of_new (now : DateTime) (stream : String) (event : NewEvent)
    (hnew : ∀ e ∈ db.events.rows, e.sequenceNo < seq) :
    (publish db now stream event seq).1 = .ok seq ∧
      (publish db now stream event seq).2.events.rows = db.events.rows ++ [newEvent now stream event seq] ∧
      (publish db now stream event seq).2.sequence = seq ∧
      (publish db now stream event seq).2.offsets = db.offsets := by
  have h : ((db.events.rows ++ [newEvent now stream event seq]).map Event.sequenceNo).Nodup := by
    rw [List.map_append, List.nodup_append]
    refine ⟨db.events.valid, List.nodup_singleton _, ?_⟩
    rintro n hn m hm rfl
    obtain ⟨e, he, rfl⟩ := List.mem_map.mp hn
    have hseq : e.sequenceNo = seq := List.mem_singleton.mp hm
    have hlt := hnew e he
    omega
  unfold publish
  rw [dif_pos h]
  exact ⟨rfl, rfl, rfl, rfl⟩

/-- Events whose payloads come back are read as they are. -/
theorem readEvents_of_keeps {texts : Texts} {afterSeq limit : Int}
    (h : ∀ e ∈ selectEvents db.events.rows stream afterSeq limit, texts.Keeps e.payloadJson) :
    readEvents texts db stream afterSeq limit = .ok (selectEvents db.events.rows stream afterSeq limit) := by
  have hread : ∀ e ∈ selectEvents db.events.rows stream afterSeq limit, readEvent texts e = .ok e := by
    intro e he
    unfold readEvent
    rw [Texts.readPayload_of_keeps (h e he)]
  unfold readEvents
  rw [fetchAll_of_reads hread]

/-- `prune_events` does not go beyond the offset of a group on the stream. -/
theorem pruneCutoff_le (throughSeq : Int) {r : ConsumerGroupStatus}
    (hr : offsetRow db.offsets stream consumerGroup = some r) : pruneCutoff db stream throughSeq ≤ r.lastAckedSeq := by
  obtain ⟨hmem, hkey⟩ := Table.lookup_some hr
  have hstream : r.streamName = stream := congrArg Prod.snd hkey
  have hin : r.lastAckedSeq ∈ (db.offsets.rows.filter (fun r => r.streamName == stream)).map (·.lastAckedSeq) :=
    List.mem_map_of_mem (List.mem_filter.mpr ⟨hmem, by simpa using hstream⟩)
  unfold pruneCutoff
  cases hmin : ((db.offsets.rows.filter (fun r => r.streamName == stream)).map (·.lastAckedSeq)).min? with
  | none =>
      rw [List.min?_eq_none_iff.mp hmin] at hin
      cases hin
  | some least =>
      have hle := (List.min?_eq_some_iff.mp hmin).2 _ hin
      rw [Option.getD_some]
      omega

end Operations
end Azums.Sqlite.Streams
