import Azums.Lib.System
import Azums.Sqlite.Streams

/-!
# `Sqlite.Delivery` — what a consumer group receives

A consumer group reads with `read_next` and acknowledges the last number it got. Its offset is a row that every other
call could have to do with: `publish` must not number an event below it, and `prune_events` must not remove one above it.

`group_receives` says that this goes well over all runs of `publish`, `ack`, `read_next` and `prune_events`, by any groups
on any streams: a group that joined before the stream's first event receives the stream, in order, up to its offset; and
until it acknowledges, it reads the same events again, and later ones after them. It assumes of the stream's events that
`serde_json` reads their payloads as it wrote them.
-/

namespace Azums.Sqlite.Streams

open StreamTables
open Cursor (Ascending above upTo)

/-! ## Runs -/

/-- The calls, `publish` with the number that its `INSERT` takes. -/
inductive StreamCall where
  | publish (now : DateTime) (stream : String) (event : NewEvent) (seq : Int)
  | ack (now : DateTime) (stream consumerGroup : String) (seq : Int)
  | readNext (stream consumerGroup : String) (limit : Int)
  | pruneEvents (stream : String) (throughSeq : Int)

namespace StreamCall

/-- The database after a call. -/
def apply (db : StreamDb) : StreamCall → StreamDb
  | publish now stream event seq => (Streams.publish db now stream event seq).2
  | ack now stream consumerGroup seq => (Streams.ack db now stream consumerGroup seq).2
  | readNext _ _ _ => db
  | pruneEvents stream throughSeq => (Streams.pruneEvents db stream throughSeq).2

/-- `AUTOINCREMENT`: the number of an `INSERT` is larger than any that was ever used. -/
def Numbered (db : StreamDb) : StreamCall → Prop
  | publish _ _ _ seq => db.sequence < seq
  | ack .. | readNext .. | pruneEvents .. => True

/-- The call is an `ack` of the group. -/
def AcksFor (g : Group) : StreamCall → Prop
  | ack _ stream consumerGroup _ => stream = g.stream ∧ consumerGroup = g.consumerGroup
  | publish .. | readNext .. | pruneEvents .. => False

end StreamCall

/-- What has happened on a group's stream: the events published, the group's latest `read_next` result and whether it
    was acknowledged, and the acknowledged results, one after another. -/
structure Deliveries where
  published : List Event
  latest : Option (List Event)
  acked : Bool
  received : List Event

namespace Deliveries

/-- Nothing has happened. -/
def first : Deliveries := { published := [], latest := none, acked := false, received := [] }

/-- The group acknowledges: its latest result is received, unless it was before. -/
def acknowledge (h : Deliveries) : Deliveries :=
  { h with acked := true, received := if h.acked then h.received else h.received ++ h.latest.getD [] }

/-- What a call adds. -/
def record (texts : Texts) (g : Group) (db : StreamDb) (h : Deliveries) : StreamCall → Deliveries
  | .publish now stream event seq =>
      if stream = g.stream then
        match (publish db now stream event seq).1 with
        | .ok n => { h with published := h.published ++ [newEvent now stream event n] }
        | .err _ | .panic => h
      else h
  | .ack _ stream consumerGroup _ =>
      if stream = g.stream ∧ consumerGroup = g.consumerGroup then h.acknowledge else h
  | .readNext stream consumerGroup limit =>
      if stream = g.stream ∧ consumerGroup = g.consumerGroup then
        match readNext texts db stream consumerGroup limit with
        | .ok events => { h with latest := some events, acked := false }
        | .err _ | .panic => h
      else h
  | .pruneEvents _ _ => h

end Deliveries

/-- The database, and what has happened to a group. -/
structure Consumption where
  db : StreamDb
  history : Deliveries

/-- All runs from an empty database. -/
def consumption (texts : Texts) (g : Group) : System Consumption StreamCall where
  init o := o = { db := .empty, history := .first }
  step o call o' := call.Numbered o.db ∧
    o' = { db := call.apply o.db, history := o.history.record texts g o.db call }

/-- The steps in which the group keeps to the rules: it has acknowledged 0 before the stream's first event is published,
    and from then on it acknowledges the last number of its latest `read_next` result. The payloads of the stream's
    events come back as they were bound. -/
structure Consumes (texts : Texts) (g : Group) (o : Consumption) (call : StreamCall) (_ : Consumption) : Prop where
  joins : ∀ now event seq, call = .publish now g.stream event seq → o.history.published = [] →
    (offsetRow o.db.offsets g.stream g.consumerGroup).isSome = true
  acks : ∀ now seq, call = .ack now g.stream g.consumerGroup seq →
    (seq = 0 ∧ o.history.published = []) ∨
      ∃ events e, o.history.latest = some events ∧ events.getLast? = some e ∧ seq = e.sequenceNo
  payloads : ∀ now event seq, call = .publish now g.stream event seq → texts.Keeps event.payloadJson

/-! ## The law -/

/-- The group's offset. -/
def Consumption.offset (g : Group) (o : Consumption) : Int :=
  lastAckedSeq (selectOffsets o.db.offsets g.stream) g.consumerGroup

/-- The events of the stream are numbered in publish order; what the group has received is the beginning of them, namely
    all up to its offset; and it reads the next ones after that. -/
structure DeliveryLaw (texts : Texts) (g : Group) (o : Consumption) : Prop where
  ordered : Ascending Event.sequenceNo o.history.published
  beginning : o.history.received <+: o.history.published
  received : o.history.received = upTo Event.sequenceNo (o.offset g) o.history.published
  next : ∀ limit, readNext texts o.db g.stream g.consumerGroup limit =
    .ok ((above Event.sequenceNo (o.offset g) o.history.published).take (clampLimit limit))

/-- A later `read_next` returns the same events, as far as its limit goes, and then later ones. -/
def Rereads (texts : Texts) (g : Group) (o o' : Consumption) : Prop :=
  ∀ limit limit' events events', readNext texts o.db g.stream g.consumerGroup limit = .ok events →
    readNext texts o'.db g.stream g.consumerGroup limit' = .ok events' →
      events'.length ≤ clampLimit limit' ∧ ∃ later, events' = events.take (clampLimit limit') ++ later ∧
        ∀ e ∈ events.take (clampLimit limit'), ∀ e' ∈ later, e.sequenceNo < e'.sequenceNo

/-! ## The invariant -/

/-- The table is in the order of its numbers, which are positive and among those used. -/
structure TableInv (db : StreamDb) : Prop where
  rows : Ascending Event.sequenceNo db.events.rows
  bounded : ∀ e ∈ db.events.rows, 0 < e.sequenceNo ∧ e.sequenceNo ≤ db.sequence
  nonneg : 0 ≤ db.sequence

/-- What holds of the group's history: the table has kept what is above its offset, it has received what is not, and its
    latest result is the beginning of what comes next, until it is acknowledged. -/
structure DeliveryInv (texts : Texts) (g : Group) (o : Consumption) : Prop where
  table : TableInv o.db
  ordered : Ascending Event.sequenceNo o.history.published
  numbers : ∀ e ∈ o.history.published, e.sequenceNo ≤ o.db.sequence
  joined : offsetRow o.db.offsets g.stream g.consumerGroup = none → o.history.published = []
  used : o.offset g ≤ o.db.sequence
  retained : above Event.sequenceNo (o.offset g) (eventsOf o.db.events.rows g.stream) =
    above Event.sequenceNo (o.offset g) o.history.published
  received : o.history.received = upTo Event.sequenceNo (o.offset g) o.history.published
  known : ∀ events, o.history.latest = some events → ∀ e ∈ events, e ∈ o.history.published
  acked : ∀ events, o.history.latest = some events → o.history.acked = true → ∀ e ∈ events, e.sequenceNo ≤ o.offset g
  pending : ∀ events, o.history.latest = some events → o.history.acked = false →
    events <+: above Event.sequenceNo (o.offset g) o.history.published
  payloads : ∀ e ∈ o.history.published, texts.Keeps e.payloadJson

variable {texts : Texts} {g : Group} {o o' : Consumption}

theorem offset_eq : o.offset g = ((offsetRow o.db.offsets g.stream g.consumerGroup).map (·.lastAckedSeq)).getD 0 :=
  lastAckedSeq_eq

/-- The group's offset is in its row, and in nothing else. -/
theorem offset_congr (hrow : offsetRow o'.db.offsets g.stream g.consumerGroup =
    offsetRow o.db.offsets g.stream g.consumerGroup) : o'.offset g = o.offset g := by
  rw [offset_eq, offset_eq, hrow]

/-- A call that leaves the group's row, its history and the events above its offset alone keeps the invariant. -/
theorem DeliveryInv.frame {db : StreamDb} (h : DeliveryInv texts g o) (htable : TableInv db)
    (hseq : o.db.sequence ≤ db.sequence)
    (hrow : offsetRow db.offsets g.stream g.consumerGroup = offsetRow o.db.offsets g.stream g.consumerGroup)
    (hkept : above Event.sequenceNo (o.offset g) (eventsOf db.events.rows g.stream) =
      above Event.sequenceNo (o.offset g) (eventsOf o.db.events.rows g.stream)) :
    DeliveryInv texts g { db := db, history := o.history } := by
  have hoff : Consumption.offset g { db := db, history := o.history } = o.offset g := offset_congr hrow
  refine ⟨htable, h.ordered, fun e he => (h.numbers e he).trans hseq, fun hnone => h.joined (hrow.symm.trans hnone),
    ?_, ?_, ?_, h.known, ?_, ?_, h.payloads⟩
  · rw [hoff]
    exact h.used.trans hseq
  · rw [hoff]
    exact hkept.trans h.retained
  · rw [hoff]
    exact h.received
  · rw [hoff]
    exact h.acked
  · rw [hoff]
    exact h.pending

/-- The stream grows by an event with a new number. -/
theorem DeliveryInv.append {db : StreamDb} {e : Event} (h : DeliveryInv texts g o) (htable : TableInv db)
    (hnew : o.db.sequence < e.sequenceNo) (hlast : db.sequence = e.sequenceNo)
    (hrow : offsetRow db.offsets g.stream g.consumerGroup = offsetRow o.db.offsets g.stream g.consumerGroup)
    (hjoined : offsetRow o.db.offsets g.stream g.consumerGroup ≠ none)
    (hevents : eventsOf db.events.rows g.stream = eventsOf o.db.events.rows g.stream ++ [e])
    (hpayload : texts.Keeps e.payloadJson) :
    DeliveryInv texts g { db := db, history := { o.history with published := o.history.published ++ [e] } } := by
  have hoff : Consumption.offset g
      { db := db, history := { o.history with published := o.history.published ++ [e] } } = o.offset g :=
    offset_congr hrow
  have hused := h.used
  refine ⟨htable, ?_, ?_, fun hnone => absurd (hrow.symm.trans hnone) hjoined, ?_, ?_, ?_, ?_, ?_, ?_, ?_⟩
  · refine Cursor.ascending_append_one h.ordered fun e' he' => ?_
    have hle := h.numbers e' he'
    omega
  · intro e' he'
    show e'.sequenceNo ≤ db.sequence
    rcases List.mem_append.mp he' with hold | hself
    · have hle := h.numbers e' hold
      omega
    · rw [List.mem_singleton.mp hself, hlast]
  · rw [hoff]
    show o.offset g ≤ db.sequence
    omega
  · rw [hoff]
    show above Event.sequenceNo (o.offset g) (eventsOf db.events.rows g.stream) = _
    rw [hevents, Cursor.above_append, Cursor.above_append, h.retained]
  · rw [hoff]
    show o.history.received = upTo Event.sequenceNo (o.offset g) (o.history.published ++ [e])
    rw [Cursor.upTo_append_above_self, h.received]
    omega
  · exact fun events hlatest e' he' => List.mem_append_left _ (h.known events hlatest e' he')
  · rw [hoff]
    exact h.acked
  · rw [hoff]
    intro events hlatest hopen
    refine (h.pending events hlatest hopen).trans ?_
    show _ <+: above Event.sequenceNo (o.offset g) (o.history.published ++ [e])
    rw [Cursor.above_append]
    exact List.prefix_append ..
  · exact List.forall_mem_append.mpr ⟨h.payloads, List.forall_mem_singleton.mpr hpayload⟩

theorem first_inv : DeliveryInv texts g { db := .empty, history := .first } where
  table := ⟨List.Pairwise.nil, fun _ h => (nomatch h), Int.le_refl 0⟩
  ordered := List.Pairwise.nil
  numbers _ h := nomatch h
  joined _ := rfl
  used := Int.le_refl 0
  retained := rfl
  received := rfl
  known _ h := nomatch h
  acked _ h := nomatch h
  pending _ h := nomatch h
  payloads _ h := nomatch h

/-! ### The calls -/

section Calls

variable {now : DateTime} {stream consumerGroup : String} {event : NewEvent} {seq limit throughSeq : Int}

theorem publish_table (now : DateTime) (stream : String) (event : NewEvent) {db : StreamDb} (h : TableInv db)
    (hseq : db.sequence < seq) : TableInv (publish db now stream event seq).2 := by
  have hnew : ∀ e ∈ db.events.rows, e.sequenceNo < seq := fun e he => by have := h.bounded e he; omega
  obtain ⟨_, hrows, hsequence, _⟩ := publish_of_new now stream event hnew
  have hnonneg := h.nonneg
  constructor
  · rw [hrows]
    exact Cursor.ascending_append_one h.rows hnew
  · rw [hrows, hsequence]
    intro e he
    rcases List.mem_append.mp he with hold | hself
    · have hbound := h.bounded e hold
      omega
    · rw [List.mem_singleton.mp hself]
      show 0 < seq ∧ seq ≤ seq
      omega
  · rw [hsequence]
    omega

/-- The events of a stream after a `publish`. -/
theorem eventsOf_publish (now : DateTime) (stream : String) (event : NewEvent) {db : StreamDb} (h : TableInv db)
    (hseq : db.sequence < seq) (stream' : String) :
    eventsOf (publish db now stream event seq).2.events.rows stream' =
      eventsOf db.events.rows stream' ++ if stream = stream' then [newEvent now stream event seq] else [] := by
  have hnew : ∀ e ∈ db.events.rows, e.sequenceNo < seq := fun e he => by have := h.bounded e he; omega
  unfold eventsOf
  rw [(publish_of_new now stream event hnew).2.1, List.filter_append]
  by_cases hs : stream = stream'
  · rw [if_pos hs, List.filter_cons_of_pos (by simpa [newEvent] using hs), List.filter_nil]
  · rw [if_neg hs, List.filter_cons_of_neg (by simpa [newEvent] using hs), List.filter_nil]

theorem publish_inv (h : DeliveryInv texts g o) (hseq : o.db.sequence < seq)
    (hok : Consumes texts g o (.publish now stream event seq) o') :
    DeliveryInv texts g { db := (publish o.db now stream event seq).2,
                          history := o.history.record texts g o.db (.publish now stream event seq) } := by
  have hnew : ∀ e ∈ o.db.events.rows, e.sequenceNo < seq := fun e he => by have := h.table.bounded e he; omega
  obtain ⟨hanswer, _, hsequence, hoffsets⟩ := publish_of_new now stream event hnew
  have hrow : offsetRow (publish o.db now stream event seq).2.offsets g.stream g.consumerGroup =
      offsetRow o.db.offsets g.stream g.consumerGroup := by rw [hoffsets]
  have htable := publish_table now stream event h.table hseq
  have hevents := eventsOf_publish now stream event h.table hseq g.stream
  by_cases hs : stream = g.stream
  · subst hs
    have hhist : o.history.record texts g o.db (.publish now g.stream event seq) =
        { o.history with published := o.history.published ++ [newEvent now g.stream event seq] } := by
      simp only [Deliveries.record, hanswer, if_true]
    rw [if_pos rfl] at hevents
    rw [hhist]
    refine h.append htable hseq hsequence hrow (fun hnone => ?_) hevents (hok.payloads now event seq rfl)
    have hjoins := hok.joins now event seq rfl (h.joined hnone)
    rw [hnone] at hjoins
    cases hjoins
  · have hhist : o.history.record texts g o.db (.publish now stream event seq) = o.history := if_neg hs
    rw [hhist]
    rw [if_neg hs, List.append_nil] at hevents
    refine h.frame htable ?_ hrow (by rw [hevents])
    rw [hsequence]
    omega

/-- The group acknowledges before anything was published: it has read nothing, and receives nothing. -/
theorem acknowledge_nothing (h : DeliveryInv texts g o) (hempty : o.history.published = []) :
    o.history.acknowledge.received = [] ∧ ∀ events, o.history.latest = some events → events = [] := by
  have hnothing : ∀ events, o.history.latest = some events → events = [] := by
    intro events hlatest
    refine List.eq_nil_iff_forall_not_mem.mpr fun e he => ?_
    have hin := h.known events hlatest e he
    rw [hempty] at hin
    cases hin
  have hreceived : o.history.received = [] := by rw [h.received, hempty]; rfl
  refine ⟨?_, hnothing⟩
  show (if o.history.acked then o.history.received else o.history.received ++ o.history.latest.getD []) = []
  split
  · exact hreceived
  · rw [hreceived, List.nil_append]
    cases hlatest : o.history.latest with
    | none => rfl
    | some events => exact hnothing events hlatest

/-- The group acknowledges the last number of its latest result: it has received all up to there. -/
theorem acknowledge_latest (h : DeliveryInv texts g o) {events : List Event} {e : Event} {v : Int}
    (hlatest : o.history.latest = some events) (hlast : events.getLast? = some e)
    (hv : v = max (o.offset g) e.sequenceNo) :
    (o.offset g ≤ v ∧ v ≤ o.db.sequence) ∧
      o.history.acknowledge.received = upTo Event.sequenceNo v o.history.published ∧
      ∀ e' ∈ events, e'.sequenceNo ≤ v := by
  have hin : e ∈ events := List.mem_of_getLast? hlast
  have hle := h.numbers e (h.known events hlatest e hin)
  have hused := h.used
  cases hacked : o.history.acked with
  | true =>
      -- the same result again
      have hold := h.acked events hlatest hacked
      have hve : v = o.offset g := by rw [hv, Int.max_eq_left (hold e hin)]
      rw [hve]
      refine ⟨⟨Int.le_refl _, hused⟩, ?_, hold⟩
      show (if o.history.acked then o.history.received else _) = _
      rw [hacked, if_pos rfl, h.received]
  | false =>
      have hpending := h.pending events hlatest hacked
      have habove := (Cursor.mem_above.mp (hpending.subset hin)).2
      have hve : v = e.sequenceNo := by rw [hv, Int.max_eq_right (Int.le_of_lt habove)]
      have hnext := h.ordered.upTo_getLast hpending hlast
      rw [hve]
      refine ⟨⟨Int.le_of_lt habove, hle⟩, ?_, fun e' he' => ?_⟩
      · show (if o.history.acked then _ else o.history.received ++ o.history.latest.getD []) = _
        rw [hacked, if_neg Bool.false_ne_true, hlatest, Option.getD_some, hnext, h.received]
      · have hmem : e' ∈ upTo Event.sequenceNo e.sequenceNo o.history.published := by
          rw [hnext]
          exact List.mem_append_right _ he'
        exact (Cursor.mem_upTo.mp hmem).2

/-- What the group has received when it acknowledges, and where its offset goes to. -/
theorem acknowledge_spec (h : DeliveryInv texts g o)
    (hok : Consumes texts g o (.ack now g.stream g.consumerGroup seq) o') {v : Int}
    (hv : v = (offsetRow o.db.offsets g.stream g.consumerGroup).elim seq (fun r => max r.lastAckedSeq seq)) :
    (o.offset g ≤ v ∧ v ≤ o.db.sequence) ∧
      o.history.acknowledge.received = upTo Event.sequenceNo v o.history.published ∧
      ∀ events, o.history.latest = some events → ∀ e ∈ events, e.sequenceNo ≤ v := by
  have hoff := offset_eq (g := g) (o := o)
  rcases hok.acks now seq rfl with ⟨rfl, hempty⟩ | ⟨events, e, hlatest, hlast, rfl⟩
  · obtain ⟨hreceived, hnothing⟩ := acknowledge_nothing h hempty
    refine ⟨?_, ?_, fun events hlatest e he => ?_⟩
    · have hused := h.used
      have hnonneg := h.table.nonneg
      cases hrow : offsetRow o.db.offsets g.stream g.consumerGroup with
      | none =>
          simp only [hrow, Option.elim_none, Option.map_none, Option.getD_none] at hv hoff
          omega
      | some r =>
          simp only [hrow, Option.elim_some, Option.map_some, Option.getD_some] at hv hoff
          omega
    · rw [hreceived, hempty]
      rfl
    · rw [hnothing events hlatest] at he
      cases he
  · cases hrow : offsetRow o.db.offsets g.stream g.consumerGroup with
    | none =>
        have hpublished := h.known events hlatest e (List.mem_of_getLast? hlast)
        rw [h.joined hrow] at hpublished
        cases hpublished
    | some r =>
        simp only [hrow, Option.elim_some, Option.map_some, Option.getD_some] at hv hoff
        rw [← hoff] at hv
        obtain ⟨hforward, hreceived, hbelow⟩ := acknowledge_latest h hlatest hlast hv
        refine ⟨hforward, hreceived, fun events' hlatest' => ?_⟩
        rw [hlatest] at hlatest'
        obtain rfl := Option.some.inj hlatest'
        exact hbelow

/-- `ack` has nothing to do with the events. -/
theorem ack_table {db : StreamDb} (h : TableInv db) : TableInv (ack db now stream consumerGroup seq).2 :=
  ⟨h.rows, h.bounded, h.nonneg⟩

theorem ack_inv (h : DeliveryInv texts g o) (hok : Consumes texts g o (.ack now stream consumerGroup seq) o') :
    DeliveryInv texts g { db := (ack o.db now stream consumerGroup seq).2,
                          history := o.history.record texts g o.db (.ack now stream consumerGroup seq) } := by
  by_cases hg : stream = g.stream ∧ consumerGroup = g.consumerGroup
  · obtain ⟨rfl, rfl⟩ := hg
    have hhist : o.history.record texts g o.db (.ack now g.stream g.consumerGroup seq) = o.history.acknowledge :=
      if_pos ⟨rfl, rfl⟩
    rw [hhist]
    obtain ⟨r, hr, hv⟩ := offsetRow_upsert o.db.offsets now g.stream g.consumerGroup seq
    obtain ⟨⟨hforward, hle⟩, hreceived, hacked⟩ := acknowledge_spec h hok hv
    have hoff : Consumption.offset g
        { db := (ack o.db now g.stream g.consumerGroup seq).2, history := o.history.acknowledge } =
        r.lastAckedSeq := by
      rw [offset_eq]
      show ((offsetRow (upsertOffset o.db.offsets now g.stream g.consumerGroup seq) g.stream g.consumerGroup).map
        (·.lastAckedSeq)).getD 0 = _
      rw [hr, Option.map_some, Option.getD_some]
    refine ⟨ack_table h.table, h.ordered, h.numbers, fun hnone => ?_, ?_, ?_, ?_, h.known, ?_, ?_, h.payloads⟩
    · cases hr.symm.trans hnone
    · rw [hoff]
      exact hle
    · rw [hoff]
      exact Cursor.above_congr h.retained hforward
    · rw [hoff]
      exact hreceived
    · rw [hoff]
      exact fun events hlatest _ => hacked events hlatest
    · exact fun events _ hopen => nomatch hopen
  · have hhist : o.history.record texts g o.db (.ack now stream consumerGroup seq) = o.history := if_neg hg
    rw [hhist]
    exact h.frame (ack_table h.table) (Int.le_refl _) (offsetRow_upsert_other fun h => hg ⟨h.1.symm, h.2.symm⟩) rfl

/-- What `read_next` returns: the beginning of what comes next. -/
theorem DeliveryInv.readNext_eq (h : DeliveryInv texts g o) (limit : Int) :
    readNext texts o.db g.stream g.consumerGroup limit =
      .ok ((above Event.sequenceNo (o.offset g) o.history.published).take (clampLimit limit)) := by
  have hselected := selectEvents_eq h.table.rows g.stream (o.offset g) limit
  rw [h.retained] at hselected
  rw [← hselected]
  refine readEvents_of_keeps fun e he => ?_
  rw [show lastAckedSeq (selectOffsets o.db.offsets g.stream) g.consumerGroup = o.offset g from rfl, hselected] at he
  exact h.payloads e (Cursor.mem_above.mp (List.mem_of_mem_take he)).1

theorem readNext_inv (h : DeliveryInv texts g o) :
    DeliveryInv texts g
      { db := o.db, history := o.history.record texts g o.db (.readNext stream consumerGroup limit) } := by
  by_cases hg : stream = g.stream ∧ consumerGroup = g.consumerGroup
  · obtain ⟨rfl, rfl⟩ := hg
    have hhist : o.history.record texts g o.db (.readNext g.stream g.consumerGroup limit) =
        { o.history with
          latest := some ((above Event.sequenceNo (o.offset g) o.history.published).take (clampLimit limit))
          acked := false } := by
      simp only [Deliveries.record, h.readNext_eq limit, and_self, if_true]
    rw [hhist]
    refine ⟨h.table, h.ordered, h.numbers, h.joined, h.used, h.retained, h.received, ?_, ?_, ?_, h.payloads⟩
    · rintro events ⟨⟩ e he
      exact (Cursor.mem_above.mp (List.mem_of_mem_take he)).1
    · exact fun events _ hacked => nomatch hacked
    · rintro events ⟨⟩ _
      exact List.take_prefix ..
  · have hhist : o.history.record texts g o.db (.readNext stream consumerGroup limit) = o.history := if_neg hg
    rw [hhist]
    exact h

theorem prune_inv (h : DeliveryInv texts g o) :
    DeliveryInv texts g { db := (pruneEvents o.db stream throughSeq).2, history := o.history } := by
  have htable : TableInv (pruneEvents o.db stream throughSeq).2 :=
    ⟨h.table.rows.filter _, fun e he => h.table.bounded e (List.mem_of_mem_filter he), h.table.nonneg⟩
  refine h.frame htable (Int.le_refl _) rfl ?_
  -- nothing that the group has not received may be removed
  have hkeep : ∀ e ∈ eventsOf o.db.events.rows g.stream, o.offset g < e.sequenceNo →
      (!prunable stream (pruneCutoff o.db stream throughSeq) e) = true := by
    intro e he habove
    have hstream : e.streamName = g.stream := by simpa using (List.mem_filter.mp he).2
    cases hrow : offsetRow o.db.offsets g.stream g.consumerGroup with
    | none =>
        have hmem : e ∈ above Event.sequenceNo (o.offset g) o.history.published := by
          rw [← h.retained]
          exact Cursor.mem_above.mpr ⟨he, habove⟩
        rw [h.joined hrow] at hmem
        cases hmem
    | some r =>
        have hoff := offset_eq (g := g) (o := o)
        rw [hrow, Option.map_some, Option.getD_some] at hoff
        by_cases hs : stream = g.stream
        · subst hs
          have hcut := pruneCutoff_le throughSeq hrow
          have hlt : ¬e.sequenceNo ≤ pruneCutoff o.db g.stream throughSeq := by omega
          simp [prunable, hlt]
        · have hne : ¬e.streamName = stream := fun heq => hs (heq.symm.trans hstream)
          simp [prunable, hne]
  have hcomm : eventsOf (pruneEvents o.db stream throughSeq).2.events.rows g.stream =
      (eventsOf o.db.events.rows g.stream).filter (fun e => !prunable stream (pruneCutoff o.db stream throughSeq) e) := by
    show (o.db.events.rows.filter _).filter _ = (o.db.events.rows.filter _).filter _
    rw [List.filter_filter, List.filter_filter]
    exact List.filter_congr fun e _ => Bool.and_comm ..
  rw [hcomm, Cursor.above_filter hkeep]

end Calls

/-- **One call.** -/
theorem step_inv {call : StreamCall} (h : DeliveryInv texts g o)
    (hstep : ((consumption texts g).restrict (Consumes texts g)).step o call o') : DeliveryInv texts g o' := by
  obtain ⟨⟨hnumbered, rfl⟩, hok⟩ := hstep
  cases call with
  | publish now stream event seq => exact publish_inv h hnumbered hok
  | ack now stream consumerGroup seq => exact ack_inv h hok
  | readNext stream consumerGroup limit => exact readNext_inv h
  | pruneEvents stream throughSeq => exact prune_inv h

/-- **Every reachable state.** -/
theorem reachable_inv (ho : ((consumption texts g).restrict (Consumes texts g)).Reachable o) : DeliveryInv texts g o :=
  ho.invariant (fun _ hinit => by rw [hinit]; exact first_inv) fun _ _ _ _ h hstep => step_inv h hstep

/-! ## Until the next acknowledgement -/

/-- A call that is no `ack` of the group leaves its offset alone and only adds to what was published. -/
theorem step_waits {call : StreamCall} (h : DeliveryInv texts g o)
    (hstep : ((consumption texts g).restrict (Consumes texts g)).step o call o') (hcall : ¬call.AcksFor g) :
    o'.offset g = o.offset g ∧ o.history.published <+: o'.history.published := by
  obtain ⟨⟨hnumbered, rfl⟩, hok⟩ := hstep
  cases call with
  | publish now stream event seq =>
      have hnew : ∀ e ∈ o.db.events.rows, e.sequenceNo < seq := by
        intro e he
        exact Int.lt_of_le_of_lt (h.table.bounded e he).2 hnumbered
      obtain ⟨hanswer, _, _, hoffsets⟩ := publish_of_new now stream event hnew
      refine ⟨offset_congr ?_, ?_⟩
      · show offsetRow (publish o.db now stream event seq).2.offsets _ _ = _
        rw [hoffsets]
      · by_cases hs : stream = g.stream
        · simp only [Deliveries.record, hanswer, if_pos hs]
          exact List.prefix_append ..
        · simp only [Deliveries.record, if_neg hs]
          exact List.prefix_refl _
  | ack now stream consumerGroup seq =>
      have hg : ¬(stream = g.stream ∧ consumerGroup = g.consumerGroup) := hcall
      simp only [Deliveries.record, if_neg hg]
      exact ⟨offset_congr (offsetRow_upsert_other fun h => hg ⟨h.1.symm, h.2.symm⟩), List.prefix_refl _⟩
  | readNext stream consumerGroup limit =>
      refine ⟨rfl, ?_⟩
      simp only [Deliveries.record]
      split
      · split <;> exact List.prefix_refl _
      · exact List.prefix_refl _
  | pruneEvents stream throughSeq => exact ⟨rfl, List.prefix_refl _⟩

/-- So does a run without an `ack` of the group. -/
theorem run_waits {calls : List StreamCall} (ho : ((consumption texts g).restrict (Consumes texts g)).Reachable o)
    (hrun : ((consumption texts g).restrict (Consumes texts g)).Run o calls o')
    (hcalls : ∀ call ∈ calls, ¬call.AcksFor g) :
    o'.offset g = o.offset g ∧ o.history.published <+: o'.history.published := by
  induction hrun with
  | nil o => exact ⟨rfl, List.prefix_refl _⟩
  | cons hstep _ ih =>
      have hone := step_waits (reachable_inv ho) hstep (hcalls _ (List.mem_cons_self ..))
      have hrest := ih (ho.next hstep) fun call hcall => hcalls call (List.mem_cons_of_mem _ hcall)
      exact ⟨hrest.1.trans hone.1, hone.2.trans hrest.2⟩

/-- The beginning of a longer list is the beginning of the shorter one, and more. -/
theorem rereads (h : DeliveryInv texts g o) (h' : DeliveryInv texts g o') (hoff : o'.offset g = o.offset g)
    (hmore : o.history.published <+: o'.history.published) : Rereads texts g o o' := by
  intro limit limit' events events' hread hread'
  rw [h.readNext_eq limit, Outcome.ok.injEq] at hread
  rw [h'.readNext_eq limit', Outcome.ok.injEq, hoff] at hread'
  subst hread hread'
  refine ⟨List.length_take_le .., ?_⟩
  have hsame : ((above Event.sequenceNo (o.offset g) o.history.published).take (clampLimit limit)).take
      (clampLimit limit') <+:
        (above Event.sequenceNo (o.offset g) o'.history.published).take (clampLimit limit') := by
    rw [List.prefix_take_iff]
    refine ⟨?_, List.length_take_le ..⟩
    obtain ⟨new, hnew⟩ := hmore
    rw [← hnew, Cursor.above_append]
    exact ((List.take_prefix ..).trans (List.take_prefix ..)).trans (List.prefix_append ..)
  obtain ⟨later, hlater⟩ := hsame
  refine ⟨later, hlater.symm, ?_⟩
  -- a read is in the order of the numbers
  have hasc : Ascending Event.sequenceNo
      ((above Event.sequenceNo (o.offset g) o'.history.published).take (clampLimit limit')) :=
    (h'.ordered.filter _).take
  rw [← hlater] at hasc
  exact (List.pairwise_append.mp hasc).2.2

/-- **What a consumer group receives.** In every run in which the group has acknowledged 0 before the stream's first event
    and then only acknowledges the last number of its latest `read_next` result, and in which the payloads of the stream
    come back as they were bound: what it has received is the beginning of the stream, all events up to its offset in
    publish order; and until it acknowledges again it reads the same events, and later ones after them, up to the
    limit. -/
theorem group_receives {calls : List StreamCall}
    (ho : ((consumption texts g).restrict (Consumes texts g)).Reachable o)
    (hrun : ((consumption texts g).restrict (Consumes texts g)).Run o calls o')
    (hcalls : ∀ call ∈ calls, ¬call.AcksFor g) :
    DeliveryLaw texts g o ∧ Rereads texts g o o' := by
  have h := reachable_inv ho
  have h' := reachable_inv (ho.run hrun)
  obtain ⟨hoff, hmore⟩ := run_waits ho hrun hcalls
  refine ⟨⟨h.ordered, ?_, h.received, h.readNext_eq⟩, rereads h h' hoff hmore⟩
  rw [h.received]
  exact h.ordered.upTo_prefix _

/-- The group `billing` on the stream `orders`. -/
def billing : Group := { stream := "orders", consumerGroup := "billing" }

/-- An order. -/
def placed : NewEvent := { eventType := "placed", payloadJson := "{}" }

/-- The group joins, two orders and another stream's event are published, and everything is pruned that may be; the group
    reads the first order and acknowledges it. Then it reads the second one, another order is published, and it reads
    again. -/
def oneConsumer : List StreamCall :=
  [.ack 0 "orders" "billing" 0, .publish 1 "orders" placed 1, .publish 1 "users" placed 2, .publish 1 "orders" placed 3,
    .pruneEvents "orders" 3, .readNext "orders" "billing" 1, .ack 2 "orders" "billing" 1,
    .readNext "orders" "billing" 1, .publish 3 "orders" placed 4, .readNext "orders" "billing" 5]

/-- That run after `n` of its calls. -/
def oneConsumerAfter (n : Nat) : Consumption :=
  (oneConsumer.take n).foldl
    (fun o call => { db := call.apply o.db, history := o.history.record .plain billing o.db call })
    { db := .empty, history := .first }

/-- After the stream's first event, only the group's own `ack` has to keep to the rules. -/
theorem consumes_of_quiet {call : StreamCall} (hcall : ¬call.AcksFor g) (hfirst : o.history.published ≠ []) :
    Consumes .plain g o call o' := by
  refine ⟨fun now event seq _ hempty => absurd hempty hfirst, ?_, fun _ _ _ _ => Texts.plain_keeps _⟩
  rintro now seq rfl
  exact absurd ⟨rfl, rfl⟩ hcall

theorem billing_receives : DeliveryLaw .plain billing (oneConsumerAfter 8) ∧
    Rereads .plain billing (oneConsumerAfter 8) (oneConsumerAfter 10) := by
  have hquiet : ∀ {n : Nat} (call : StreamCall),
      (consumption .plain billing).step (oneConsumerAfter n) call (oneConsumerAfter (n + 1)) →
      ¬call.AcksFor billing → (oneConsumerAfter n).history.published ≠ [] →
        ((consumption .plain billing).restrict (Consumes .plain billing)).step (oneConsumerAfter n) call
          (oneConsumerAfter (n + 1)) :=
    fun call hstep hcall hfirst => ⟨hstep, consumes_of_quiet hcall hfirst⟩
  have h₁ : ((consumption .plain billing).restrict (Consumes .plain billing)).Reachable (oneConsumerAfter 1) := by
    refine .next (i := .ack 0 "orders" "billing" 0) (.start rfl)
      ⟨⟨trivial, rfl⟩, ?_, ?_, fun _ _ _ _ => Texts.plain_keeps _⟩
    · rintro _ _ _ ⟨⟩
    · rintro _ _ ⟨⟩
      exact Or.inl ⟨rfl, rfl⟩
  have h₂ : ((consumption .plain billing).restrict (Consumes .plain billing)).Reachable (oneConsumerAfter 2) := by
    refine h₁.next (i := .publish 1 "orders" placed 1)
      ⟨⟨Int.zero_lt_one, rfl⟩, ?_, ?_, fun _ _ _ _ => Texts.plain_keeps _⟩
    · rintro _ _ _ ⟨⟩ _
      rfl
    · rintro _ _ ⟨⟩
  have h₃ := h₂.next (hquiet (.publish 1 "users" placed 2) ⟨by exact Int.lt_succ 1, rfl⟩ (fun h => h) nofun)
  have h₄ := h₃.next (hquiet (.publish 1 "orders" placed 3) ⟨by exact Int.lt_succ 2, rfl⟩ (fun h => h) nofun)
  have h₅ := h₄.next (hquiet (.pruneEvents "orders" 3) ⟨trivial, rfl⟩ (fun h => h) nofun)
  have h₆ := h₅.next (hquiet (.readNext "orders" "billing" 1) ⟨trivial, rfl⟩ (fun h => h) nofun)
  have h₇ : ((consumption .plain billing).restrict (Consumes .plain billing)).Reachable (oneConsumerAfter 7) := by
    refine h₆.next (i := .ack 2 "orders" "billing" 1)
      ⟨⟨trivial, rfl⟩, ?_, ?_, fun _ _ _ _ => Texts.plain_keeps _⟩
    · rintro _ _ _ ⟨⟩
    · rintro _ _ ⟨⟩
      exact Or.inr ⟨_, _, rfl, rfl, rfl⟩
  have h₈ := h₇.next (hquiet (.readNext "orders" "billing" 1) ⟨trivial, rfl⟩ (fun h => h) nofun)
  have hrun : ((consumption .plain billing).restrict (Consumes .plain billing)).Run (oneConsumerAfter 8)
      (oneConsumer.drop 8) (oneConsumerAfter 10) :=
    .cons (hquiet (.publish 3 "orders" placed 4) ⟨by exact Int.lt_succ 3, rfl⟩ (fun h => h) nofun)
      (.cons (hquiet (.readNext "orders" "billing" 5) ⟨trivial, rfl⟩ (fun h => h) nofun) (.nil _))
  refine group_receives h₈ hrun ?_
  rintro call hcall
  simp only [oneConsumer, List.drop_succ_cons, List.drop_zero, List.mem_cons, List.not_mem_nil, or_false] at hcall
  rcases hcall with rfl | rfl
  · exact fun h => h
  · exact fun h => h

end Azums.Sqlite.Streams
