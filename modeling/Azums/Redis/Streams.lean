import Azums.Core.Model
import Azums.Lib.Cursor
import Azums.Lib.Discipline
import Mathlib.Data.List.AList

/-!
# `Redis.Streams` — the stream operations, command by command

`impl StreamBackend for RedisBackend`. A stream has four keys: a counter, a list of events, a hash of group offsets and
a hash of the times at which they were set. `publish` takes its number with one command and appends the event with
another; `ack` reads the offset and writes it back; `prune_events` reads the list, deletes it and pushes back what it
keeps. Between two commands any other client may run.

Some operations go on where the answer to a read does not arrive: `ack` takes it for a missing offset, the others for an
empty list or hash. Whether an answer arrives is an argument. Any other command that fails is the death of the client.

An event is written as JSON and parsed when it is read. One whose payload is nested too deep does not parse: `read_events`
skips it, and `prune_events` keeps it.
-/

namespace Azums.Redis.Streams

/-! ## Entries -/

/-- `serde_json`, which is not part of the backend: the payload that comes back from the JSON written for an event, unless
    that JSON does not parse. -/
structure Json where
  reread : Value → Option Value

namespace Json

/-- `serde_json::from_str` of an entry, which stands for the JSON written for the event. -/
def readEvent (json : Json) (entry : Event) : Option Event :=
  (json.reread entry.payloadJson).map fun payload => { entry with payloadJson := payload }

/-- Payloads that all come back, as they do without floats and deep nesting. -/
def plain : Json := { reread := some }

variable {json : Json} {entry : Event}

theorem readEvent_sequenceNo {event : Event} (h : json.readEvent entry = some event) :
    event.sequenceNo = entry.sequenceNo := by
  obtain ⟨payload, _, rfl⟩ := Option.map_eq_some_iff.mp h
  rfl

/-- Entries that all come back. -/
theorem readEvents_of_keeps {log : List Event} (h : ∀ e ∈ log, json.readEvent e = some e) :
    log.filterMap json.readEvent = log := by
  rw [List.filterMap_congr h, List.filterMap_some]

end Json

/-! ## The server -/

/-- What the server holds about streams: `azums:stream_seq:*`, `azums:stream_events:*`, `azums:stream_offsets:*` and
    `azums:stream_offsets_time:*`. -/
structure StreamStore where
  seq : String → Int
  events : String → List Event
  offsets : String → AList (fun _ : String => Int)
  times : String → AList (fun _ : String => DateTime)

/-- A server that has just been started. -/
def StreamStore.empty : StreamStore :=
  { seq := fun _ => 0, events := fun _ => [], offsets := fun _ => ∅, times := fun _ => ∅ }

/-- The offset of a group. -/
def StreamStore.offset (s : StreamStore) (stream consumerGroup : String) : Option Int :=
  (s.offsets stream).lookup consumerGroup

/-- A group on a stream. -/
abbrev Group := String × String

/-- The offset of a group. -/
def StreamStore.offsetOf (s : StreamStore) (g : Group) : Option Int := s.offset g.1 g.2

/-- The commands. `hget`, `hset` and `hgetall` are about the offsets, and their `Time` variants about the times. -/
inductive StreamCommand where
  | incr (stream : String)
  | rpush (stream : String) (events : List Event)
  | lrange (stream : String)
  | del (stream : String)
  | llen (stream : String)
  | hget (stream consumerGroup : String)
  | hset (stream consumerGroup : String) (seq : Int)
  | hgetall (stream : String)
  | hsetTime (stream consumerGroup : String) (now : DateTime)
  | hgetallTime (stream : String)

/-- What a command answers. -/
@[reducible] def StreamCommand.Reply : StreamCommand → Type
  | .incr _ => Int
  | .rpush _ _ | .del _ | .hset _ _ _ | .hsetTime _ _ _ => Unit
  | .lrange _ => List Event
  | .llen _ => Nat
  | .hget _ _ => Option Int
  | .hgetall _ => AList (fun _ : String => Int)
  | .hgetallTime _ => AList (fun _ : String => DateTime)

/-- What a command does. -/
def StreamCommand.exec : (c : StreamCommand) → StreamStore → c.Reply × StreamStore
  | .incr stream, s => (s.seq stream + 1, { s with seq := Function.update s.seq stream (s.seq stream + 1) })
  | .rpush stream events, s =>
      ((), { s with events := Function.update s.events stream (s.events stream ++ events) })
  | .lrange stream, s => (s.events stream, s)
  | .del stream, s => ((), { s with events := Function.update s.events stream [] })
  | .llen stream, s => ((s.events stream).length, s)
  | .hget stream consumerGroup, s => (s.offset stream consumerGroup, s)
  | .hset stream consumerGroup seq, s =>
      ((), { s with offsets := Function.update s.offsets stream ((s.offsets stream).insert consumerGroup seq) })
  | .hgetall stream, s => (s.offsets stream, s)
  | .hsetTime stream consumerGroup now, s =>
      ((), { s with times := Function.update s.times stream ((s.times stream).insert consumerGroup now) })
  | .hgetallTime stream, s => (s.times stream, s)

/-! ### Frames -/

/-- The command appends to the list of the stream or deletes it. -/
def StreamCommand.Rewrites (stream : String) : StreamCommand → Prop
  | .rpush stream' _ | .del stream' => stream' = stream
  | _ => False

/-- Only `RPUSH` and `DEL` change a stream's list. -/
theorem StreamCommand.exec_events {c : StreamCommand} {s : StreamStore} {stream : String}
    (h : ¬c.Rewrites stream) : (c.exec s).2.events stream = s.events stream := by
  cases c with
  | rpush stream' events => exact Function.update_of_ne (Ne.symm h) ..
  | del stream' => exact Function.update_of_ne (Ne.symm h) ..
  | _ => rfl

@[simp] theorem StreamCommand.exec_rpush_events {s : StreamStore} {stream : String} {events : List Event} :
    ((StreamCommand.rpush stream events).exec s).2.events stream = s.events stream ++ events :=
  Function.update_self ..

@[simp] theorem StreamCommand.exec_del_events {s : StreamStore} {stream : String} :
    ((StreamCommand.del stream).exec s).2.events stream = [] := Function.update_self ..

/-- `INCR` only changes a counter, and by one. -/
theorem StreamCommand.exec_seq (c : StreamCommand) (s : StreamStore) (stream : String) :
    (c.exec s).2.seq stream = s.seq stream ∨ (c = .incr stream ∧ (c.exec s).2.seq stream = s.seq stream + 1) := by
  cases c with
  | incr stream' =>
      by_cases hs : stream = stream'
      · subst hs
        exact Or.inr ⟨rfl, Function.update_self ..⟩
      · exact Or.inl (Function.update_of_ne hs ..)
  | _ => exact Or.inl rfl

/-- Only the `HSET` of a group's offset changes it. -/
theorem StreamCommand.exec_offset {c : StreamCommand} {s : StreamStore} {stream consumerGroup : String}
    (h : ∀ seq, c ≠ .hset stream consumerGroup seq) :
    (c.exec s).2.offset stream consumerGroup = s.offset stream consumerGroup := by
  cases c with
  | hset stream' group' seq =>
      show ((Function.update s.offsets stream' _) stream).lookup consumerGroup = _
      by_cases hs : stream = stream'
      · subst hs
        rw [Function.update_self, AList.lookup_insert_ne (fun hg => h seq (by rw [hg]))]
        rfl
      · rw [Function.update_of_ne hs]
        rfl
  | _ => rfl

@[simp] theorem StreamCommand.exec_hset_offset {s : StreamStore} {stream consumerGroup : String} {seq : Int} :
    ((StreamCommand.hset stream consumerGroup seq).exec s).2.offset stream consumerGroup = some seq := by
  show ((Function.update s.offsets stream _) stream).lookup consumerGroup = _
  rw [Function.update_self, AList.lookup_insert]

/-! ## Programs -/

/-- What the calls return. -/
inductive StreamAnswer where
  | unit
  | sequenceNo (n : Int)
  | events (result : List Event)
  | removed (count : Nat)
  | groups (info : List ConsumerGroupStatus)

/-- Commands, then a value. -/
abbrev StreamCmds (α : Type) := Prog StreamCommand StreamCommand.Reply α

def incr (stream : String) : StreamCmds Int := .call (.incr stream) .done
def rpush (stream : String) (events : List Event) : StreamCmds Unit := .call (.rpush stream events) .done
def lrange (stream : String) : StreamCmds (List Event) := .call (.lrange stream) .done
def del (stream : String) : StreamCmds Unit := .call (.del stream) .done
def llen (stream : String) : StreamCmds Nat := .call (.llen stream) .done
def hget (stream consumerGroup : String) : StreamCmds (Option Int) := .call (.hget stream consumerGroup) .done
def hset (stream consumerGroup : String) (seq : Int) : StreamCmds Unit :=
  .call (.hset stream consumerGroup seq) .done
def hgetall (stream : String) : StreamCmds (AList (fun _ : String => Int)) := .call (.hgetall stream) .done
def hsetTime (stream consumerGroup : String) (now : DateTime) : StreamCmds Unit :=
  .call (.hsetTime stream consumerGroup now) .done
def hgetallTime (stream : String) : StreamCmds (AList (fun _ : String => DateTime)) :=
  .call (.hgetallTime stream) .done

/-- The entry of a published event. -/
def eventEntity (now : DateTime) (stream : String) (event : NewEvent) (sequenceNo : Int) : Event :=
  { sequenceNo := sequenceNo, streamName := stream, eventType := event.eventType, payloadJson := event.payloadJson,
    createdAt := now }

/-- `publish`. -/
def publish (now : DateTime) (stream : String) (event : NewEvent) : StreamCmds StreamAnswer := do
  let sequenceNo ← incr stream
  rpush stream [eventEntity now stream event sequenceNo]
  return .sequenceNo sequenceNo

/-- The offset that `ack` writes, from the one it has read. -/
def newSeq (currentOffset : Option Int) (seq : Int) : Int :=
  match currentOffset with
  | some existing => max existing seq
  | none => seq

/-- `conn.hget(…).await.ok()`: an answer that does not arrive counts as none. -/
def okAnswer (answered : Bool) (reply : Option Int) : Option Int := if answered then reply else none

/-- `ack`. -/
def ack (now : DateTime) (stream consumerGroup : String) (seq : Int) (answered : Bool) : StreamCmds StreamAnswer := do
  let reply ← hget stream consumerGroup
  hset stream consumerGroup (newSeq (okAnswer answered reply) seq)
  hsetTime stream consumerGroup now
  return .unit

/-- The loop of `read_events`. -/
def collectEvents (json : Json) (afterSeq : Int) (limit : Nat) : List Event → List Event → List Event
  | [], result => result
  | raw :: rest, result =>
      match json.readEvent raw with
      | none => collectEvents json afterSeq limit rest result
      | some event =>
          if event.sequenceNo > afterSeq then
            let result := result ++ [event]
            if result.length ≥ limit then result else collectEvents json afterSeq limit rest result
          else collectEvents json afterSeq limit rest result

/-- `limit.clamp(1, 1000)`. -/
def clampLimit (limit : Int) : Nat := (min (max limit 1) 1000).toNat

/-- `read_events`. -/
def readEvents (json : Json) (stream : String) (afterSeq limit : Int) (answered : Bool) :
    StreamCmds StreamAnswer := do
  let reply ← lrange stream
  let rawEvents := if answered then reply else []
  return .events (collectEvents json afterSeq (clampLimit limit) rawEvents [])

/-- `consumer_group_info`; `now` is what stands in for a missing time. -/
def consumerGroupInfo (now : DateTime) (stream : String) (answered timesAnswered : Bool) :
    StreamCmds (List ConsumerGroupStatus) := do
  let reply ← hgetall stream
  let map := if answered then reply else ∅
  let reply ← hgetallTime stream
  let timeMap := if timesAnswered then reply else ∅
  return map.entries.map (fun entry =>
    { consumerGroup := entry.1, streamName := stream, lastAckedSeq := entry.2,
      updatedAt := (timeMap.lookup entry.1).getD now })

/-- The offset that `read_next` finds for a group. -/
def lastAckedSeq (info : List ConsumerGroupStatus) (consumerGroup : String) : Int :=
  ((info.find? (fun status => status.consumerGroup == consumerGroup)).map (·.lastAckedSeq)).getD 0

/-- `read_next`. -/
def readNext (json : Json) (now : DateTime) (stream consumerGroup : String) (limit : Int)
    (answered timesAnswered eventsAnswered : Bool) : StreamCmds StreamAnswer := do
  let info ← consumerGroupInfo now stream answered timesAnswered
  readEvents json stream (lastAckedSeq info consumerGroup) limit eventsAnswered

/-- The last number that `prune_events` may remove, from the offsets it has read. -/
def pruneCutoff (offsets : List Int) (throughSeq : Int) : Int :=
  let minOffset := offsets.min?.getD throughSeq
  min throughSeq minOffset

/-- The offsets that `prune_events` goes by. -/
def offsetValues (answered : Bool) (reply : AList (fun _ : String => Int)) : List Int :=
  (if answered then reply else ∅).entries.map (·.2)

/-- The end of `prune_events`, once the list is gone. -/
def pushBack (stream : String) (before : Nat) (retained : List Event) : StreamCmds StreamAnswer :=
  if retained.isEmpty then do
    let after ← llen stream
    return .removed (before - after)
  else do
    rpush stream retained
    let after ← llen stream
    return .removed (before - after)

/-- The entries that `prune_events` keeps: those above the cutoff, and those that do not parse. -/
def retains (json : Json) (cutoff : Int) (raw : Event) : Bool :=
  match json.readEvent raw with
  | some event => decide (event.sequenceNo > cutoff)
  | none => true

/-- `prune_events`. -/
def pruneEvents (json : Json) (stream : String) (throughSeq : Int) (offsetsAnswered eventsAnswered : Bool) :
    StreamCmds StreamAnswer := do
  let reply ← hgetall stream
  let cutoff := pruneCutoff (offsetValues offsetsAnswered reply) throughSeq
  let reply ← lrange stream
  let rawEvents := if eventsAnswered then reply else []
  let retained := rawEvents.filter (retains json cutoff)
  del stream
  pushBack stream rawEvents.length retained

/-- An entry above the cutoff is kept. -/
theorem retains_of_lt {json : Json} {cutoff : Int} {raw : Event} (h : cutoff < raw.sequenceNo) :
    retains json cutoff raw = true := by
  unfold retains
  cases hread : json.readEvent raw with
  | none => rfl
  | some event => simpa [json.readEvent_sequenceNo hread] using h

/-- The loop of `read_events` takes the first events above the offset, of those that parse. -/
theorem collectEvents_eq {json : Json} {afterSeq : Int} {limit : Nat} {result : List Event}
    (hroom : result.length < limit) :
    ∀ (log : List Event), collectEvents json afterSeq limit log result =
      result ++ Cursor.batch Event.sequenceNo afterSeq (limit - result.length) (log.filterMap json.readEvent)
  | [] => by simp [collectEvents, Cursor.batch]
  | raw :: rest => by
      unfold collectEvents
      cases hread : json.readEvent raw with
      | none => rw [List.filterMap_cons_none hread, collectEvents_eq hroom rest]
      | some event =>
          rw [List.filterMap_cons_some hread]
          show (if event.sequenceNo > afterSeq then _ else _) = _
          by_cases hafter : event.sequenceNo > afterSeq
          · have hsplit : Cursor.batch Event.sequenceNo afterSeq (limit - result.length)
                (event :: rest.filterMap json.readEvent) =
                event :: Cursor.batch Event.sequenceNo afterSeq (limit - (result.length + 1))
                  (rest.filterMap json.readEvent) := by
              unfold Cursor.batch
              rw [List.filter_cons_of_pos (by simpa using hafter)]
              obtain ⟨n, hn⟩ : ∃ n, limit - result.length = n + 1 := ⟨limit - result.length - 1, by omega⟩
              rw [hn, List.take_succ_cons, show limit - (result.length + 1) = n by omega]
            rw [if_pos hafter, hsplit]
            have hlen : (result ++ [event]).length = result.length + 1 := by simp
            by_cases hfull : (result ++ [event]).length ≥ limit
            · rw [if_pos hfull, show limit - (result.length + 1) = 0 by omega]
              rfl
            · rw [if_neg hfull, collectEvents_eq (by omega) rest, hlen, List.append_assoc]
              rfl
          · rw [if_neg hafter, collectEvents_eq hroom rest]
            unfold Cursor.batch
            rw [List.filter_cons_of_neg (by simpa using hafter)]

theorem clampLimit_pos (limit : Int) : 0 < clampLimit limit := by
  unfold clampLimit
  omega

/-- What `read_events` returns of a log whose entries come back. -/
theorem collectEvents_start {json : Json} {afterSeq limit : Int} {log : List Event}
    (h : ∀ e ∈ log, json.readEvent e = some e) :
    collectEvents json afterSeq (clampLimit limit) log [] =
      Cursor.batch Event.sequenceNo afterSeq (clampLimit limit) log := by
  rw [collectEvents_eq (clampLimit_pos limit) log, Json.readEvents_of_keeps h]
  rfl

/-! ## The clients -/

/-- A call, with the clock readings it is given and whether the answers to its reads arrive. -/
inductive StreamCall where
  | publish (now : DateTime) (stream : String) (event : NewEvent)
  | ack (now : DateTime) (stream consumerGroup : String) (seq : Int) (answered : Bool)
  | readEvents (stream : String) (afterSeq limit : Int) (answered : Bool)
  | readNext (now : DateTime) (stream consumerGroup : String) (limit : Int)
      (answered timesAnswered eventsAnswered : Bool)
  | pruneEvents (stream : String) (throughSeq : Int) (offsetsAnswered eventsAnswered : Bool)
  | consumerGroupInfo (now : DateTime) (stream : String) (answered timesAnswered : Bool)

/-- The commands that a call sends. -/
def StreamCall.program (json : Json) : StreamCall → StreamCmds StreamAnswer
  | .publish now stream event => Streams.publish now stream event
  | .ack now stream consumerGroup seq answered => Streams.ack now stream consumerGroup seq answered
  | .readEvents stream afterSeq limit answered => Streams.readEvents json stream afterSeq limit answered
  | .readNext now stream consumerGroup limit answered timesAnswered eventsAnswered =>
      Streams.readNext json now stream consumerGroup limit answered timesAnswered eventsAnswered
  | .pruneEvents stream throughSeq offsetsAnswered eventsAnswered =>
      Streams.pruneEvents json stream throughSeq offsetsAnswered eventsAnswered
  | .consumerGroupInfo now stream answered timesAnswered => do
      let info ← Streams.consumerGroupInfo now stream answered timesAnswered
      return .groups info

/-- The commands that a call may send. -/
def StreamCall.Sends : StreamCall → StreamCommand → Prop
  | .publish _ stream _, c => c = .incr stream ∨ ∃ events, c = .rpush stream events
  | .ack _ stream consumerGroup _ _, c =>
      c = .hget stream consumerGroup ∨ (∃ seq, c = .hset stream consumerGroup seq) ∨
        ∃ now, c = .hsetTime stream consumerGroup now
  | .readEvents stream _ _ _, c => c = .lrange stream
  | .readNext _ stream _ _ _ _ _, c => c = .hgetall stream ∨ c = .hgetallTime stream ∨ c = .lrange stream
  | .pruneEvents stream _ _ _, c =>
      c = .hgetall stream ∨ c = .lrange stream ∨ c = .del stream ∨ c = .llen stream ∨
        ∃ events, c = .rpush stream events
  | .consumerGroupInfo _ stream _ _, c => c = .hgetall stream ∨ c = .hgetallTime stream

/-- A call sends no other commands. -/
theorem StreamCall.program_avoids {json : Json} {P : StreamCommand → Prop} {call : StreamCall}
    (h : ∀ c, call.Sends c → ¬P c) : (call.program json).Avoids P := by
  cases call with
  | publish now stream event => exact ⟨h _ (Or.inl rfl), fun _ => ⟨h _ (Or.inr ⟨_, rfl⟩), fun _ => trivial⟩⟩
  | ack now stream consumerGroup seq answered =>
      exact ⟨h _ (Or.inl rfl), fun _ => ⟨h _ (Or.inr (Or.inl ⟨_, rfl⟩)), fun _ =>
        ⟨h _ (Or.inr (Or.inr ⟨_, rfl⟩)), fun _ => trivial⟩⟩⟩
  | readEvents stream afterSeq limit answered => exact ⟨h _ rfl, fun _ => trivial⟩
  | readNext now stream consumerGroup limit answered timesAnswered eventsAnswered =>
      exact ⟨h _ (Or.inl rfl), fun _ => ⟨h _ (Or.inr (Or.inl rfl)), fun _ =>
        ⟨h _ (Or.inr (Or.inr rfl)), fun _ => trivial⟩⟩⟩
  | pruneEvents stream throughSeq offsetsAnswered eventsAnswered =>
      have hlast : ∀ before retained, (pushBack stream before retained).Avoids P := by
        intro before retained
        unfold pushBack
        split
        · exact ⟨h _ (Or.inr (Or.inr (Or.inr (Or.inl rfl)))), fun _ => trivial⟩
        · exact ⟨h _ (Or.inr (Or.inr (Or.inr (Or.inr ⟨_, rfl⟩)))), fun _ =>
            ⟨h _ (Or.inr (Or.inr (Or.inr (Or.inl rfl)))), fun _ => trivial⟩⟩
      exact ⟨h _ (Or.inl rfl), fun _ => ⟨h _ (Or.inr (Or.inl rfl)), fun _ =>
        ⟨h _ (Or.inr (Or.inr (Or.inl rfl))), fun _ => hlast _ _⟩⟩⟩
  | consumerGroupInfo now stream answered timesAnswered =>
      exact ⟨h _ (Or.inl rfl), fun _ => ⟨h _ (Or.inr rfl), fun _ => trivial⟩⟩

/-- The server: every command is answered at once, and the end of a client changes nothing. -/
def streamServer : Server Nat StreamCommand StreamCommand.Reply StreamAnswer StreamStore where
  exec _ c s := some (c.exec s)
  close _ _ s := s
  abandon _ s := s

/-- Any number of clients, each in one call at a time, and a history. -/
abbrev StreamPool (η : Type) := Observed Nat StreamCall StreamCommand StreamCommand.Reply StreamAnswer StreamStore η

/-- What may happen next. -/
abbrev StreamMove := Move Nat StreamCall

theorem streamServer_exec {i : Nat} {c : StreamCommand} {s σ' : StreamStore} {r : c.Reply}
    (h : streamServer.exec i c s = some (r, σ')) : r = (c.exec s).1 ∧ σ' = (c.exec s).2 := by
  have heq : c.exec s = (r, σ') := Option.some.inj h
  rw [heq]
  exact ⟨rfl, rfl⟩

end Azums.Redis.Streams
