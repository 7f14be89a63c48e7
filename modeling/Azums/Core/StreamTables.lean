import Azums.Core.Model
import Azums.Lib.Cursor
import Azums.Lib.Table
import Mathlib.Data.List.Sort
import Mathlib.Data.Prod.Basic

/-!
# `Core.StreamTables` — the statements that both SQL backends run on streams

SQLite and PostgreSQL keep streams in the same two tables, `stream_events` and `stream_offsets`, and read and
acknowledge with the same statements: a `SELECT` of the next events, a `SELECT` of a stream's offsets, and an `INSERT`
of an offset that turns into an `UPDATE` where there is one. How an event gets its number and when others see it differs,
and is left to the backends.
-/

namespace Azums.StreamTables

open Cursor (Ascending above)

/-- A consumer group on a stream. -/
structure Group where
  stream : String
  consumerGroup : String

/-! ## Offsets -/

/-- The primary key of `stream_offsets`. -/
def offsetKey (r : ConsumerGroupStatus) : String × String := (r.consumerGroup, r.streamName)

/-- `stream_offsets`. -/
abbrev OffsetsTable := Table ConsumerGroupStatus offsetKey List.Nodup

/-- No group has an offset. -/
def OffsetsTable.empty : OffsetsTable := ⟨[], List.nodup_nil⟩

/-- The `DO UPDATE` of `ack`. -/
def forwardOffset (now : DateTime) (seq : Int) : Table.Assign offsetKey where
  set r := { r with lastAckedSeq := max r.lastAckedSeq seq, updatedAt := now }

/-- The statement of `ack`: an `INSERT` of an offset, and an `UPDATE` where the group has one on the stream. -/
def upsertOffset (t : OffsetsTable) (now : DateTime) (stream consumerGroup : String) (seq : Int) : OffsetsTable :=
  let row : ConsumerGroupStatus :=
    { consumerGroup := consumerGroup, streamName := stream, lastAckedSeq := seq, updatedAt := now }
  if h : ((t.rows ++ [row]).map offsetKey).Nodup then t.insert row h
  else t.update (fun r => offsetKey r == (consumerGroup, stream)) (forwardOffset now seq)

/-- The statement of `consumer_group_info`. -/
def selectOffsets (t : OffsetsTable) (stream : String) : List ConsumerGroupStatus :=
  t.rows.filter (fun r => r.streamName == stream)

/-- The offset that `read_next` finds for a group, or 0. -/
def lastAckedSeq (info : List ConsumerGroupStatus) (consumerGroup : String) : Int :=
  ((info.find? (fun status => status.consumerGroup == consumerGroup)).map (·.lastAckedSeq)).getD 0

section Offsets

variable {t : OffsetsTable} {now : DateTime} {stream consumerGroup : String} {seq : Int}

/-- The row of a group on a stream. -/
def offsetRow (t : OffsetsTable) (stream consumerGroup : String) : Option ConsumerGroupStatus :=
  t.lookup offsetKey (consumerGroup, stream)

/-- `read_next` goes by the group's row. -/
theorem lastAckedSeq_eq :
    lastAckedSeq (selectOffsets t stream) consumerGroup =
      ((offsetRow t stream consumerGroup).map (·.lastAckedSeq)).getD 0 := by
  unfold lastAckedSeq selectOffsets offsetRow Table.lookup
  rw [List.find?_filter]
  refine congrArg (fun o => (Option.map _ o).getD 0) (congrArg (List.find? · t.rows) (funext fun r => ?_))
  rw [Bool.eq_iff_iff]
  simp [offsetKey, Prod.ext_iff, and_comm]

/-- A primary key that is there forbids a second row with it. -/
theorem insert_offset_iff {row : ConsumerGroupStatus} :
    ((t.rows ++ [row]).map offsetKey).Nodup ↔ t.lookup offsetKey (offsetKey row) = none := by
  rw [Table.lookup_eq_none, List.map_append, List.nodup_append]
  constructor
  · rintro ⟨_, _, hne⟩ r hr
    exact hne _ (List.mem_map_of_mem hr) _ (List.mem_singleton_self _)
  · intro h
    refine ⟨t.valid, List.nodup_singleton _, ?_⟩
    intro k hk k' hk'
    obtain ⟨r, hr, rfl⟩ := List.mem_map.mp hk
    rw [List.mem_singleton.mp hk']
    exact h r hr

/-- What `ack` makes of the rows: the group's row is new, or its offset moves forward; no other row changes. -/
theorem upsert_rows :
    (upsertOffset t now stream consumerGroup seq).lookup offsetKey =
      Function.update (t.lookup offsetKey) (consumerGroup, stream)
        (some ((offsetRow t stream consumerGroup).elim
          { consumerGroup := consumerGroup, streamName := stream, lastAckedSeq := seq, updatedAt := now }
          (forwardOffset now seq).set)) := by
  simp only [upsertOffset, offsetRow]
  cases hrow : t.lookup offsetKey (consumerGroup, stream) with
  | none =>
      rw [dif_pos (insert_offset_iff.mpr hrow)]
      exact Table.lookup_insert_new hrow
  | some r =>
      have hkey := (Table.lookup_some hrow).2
      have hfound : ¬t.lookup offsetKey (consumerGroup, stream) = none := by rw [hrow]; exact nofun
      rw [dif_neg fun h => hfound (insert_offset_iff.mp h)]
      exact Table.lookup_update_one (fun _ => rfl) (fun r' h => by simpa using h) hrow (by simpa using hkey)

/-- The group's offset after its `ack`. -/
theorem offsetRow_upsert (t : OffsetsTable) (now : DateTime) (stream consumerGroup : String) (seq : Int) :
    ∃ r, offsetRow (upsertOffset t now stream consumerGroup seq) stream consumerGroup = some r ∧
      r.lastAckedSeq = (offsetRow t stream consumerGroup).elim seq (fun r => max r.lastAckedSeq seq) := by
  unfold offsetRow
  rw [upsert_rows, Function.update_self]
  refine ⟨_, rfl, ?_⟩
  unfold offsetRow
  cases t.lookup offsetKey (consumerGroup, stream) <;> rfl

/-- No other group's offset changes, and none of the group on another stream. -/
theorem offsetRow_upsert_other {stream' consumerGroup' : String}
    (h : ¬(stream' = stream ∧ consumerGroup' = consumerGroup)) :
    offsetRow (upsertOffset t now stream consumerGroup seq) stream' consumerGroup' =
      offsetRow t stream' consumerGroup' := by
  unfold offsetRow
  rw [upsert_rows]
  refine Function.update_of_ne (fun heq => h ?_) ..
  exact ⟨congrArg Prod.snd heq, congrArg Prod.fst heq⟩

end Offsets

/-! ## Events -/

/-- `limit.clamp(1, 1000)`. -/
def clampLimit (limit : Int) : Nat := (max 1 (min limit 1000)).toNat

/-- The statement of `read_events`, over the rows that it sees. -/
def selectEvents (rows : List Event) (stream : String) (afterSeq limit : Int) : List Event :=
  ((rows.filter (fun e => e.streamName == stream && decide (e.sequenceNo > afterSeq))).insertionSort
    (fun a b => a.sequenceNo ≤ b.sequenceNo)).take (clampLimit limit)

/-- The events of a stream. -/
def eventsOf (rows : List Event) (stream : String) : List Event := rows.filter (fun e => e.streamName == stream)

/-- Where the rows are in the order of their numbers, a read is a batch of the stream's events. -/
theorem selectEvents_eq {rows : List Event} (hasc : Ascending Event.sequenceNo rows) (stream : String)
    (afterSeq limit : Int) :
    selectEvents rows stream afterSeq limit =
      (above Event.sequenceNo afterSeq (eventsOf rows stream)).take (clampLimit limit) := by
  unfold selectEvents above eventsOf
  have hrows : rows.filter (fun e => e.streamName == stream && decide (e.sequenceNo > afterSeq)) =
      rows.filter (fun e => decide (afterSeq < e.sequenceNo) && e.streamName == stream) :=
    List.filter_congr fun e _ => Bool.and_comm ..
  have hsorted : (rows.filter (fun e => decide (afterSeq < e.sequenceNo) && e.streamName == stream)).Pairwise
      (fun a b => a.sequenceNo ≤ b.sequenceNo) := (hasc.filter _).imp Int.le_of_lt
  rw [List.filter_filter, hrows, hsorted.insertionSort_eq]

end Azums.StreamTables
