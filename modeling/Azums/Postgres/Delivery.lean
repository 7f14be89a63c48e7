import Azums.Postgres.Streams

/-!
# `Postgres.Delivery` — when a consumer group is passed by no event

`publish` draws its number when its `INSERT` executes, and others see the event when it commits. Two publishers may
commit in the other order than they drew their numbers; and a group that has been handed the larger number by then, and
acknowledges it, never asks for the smaller one.

The run is that of any number of clients: they publish, read and acknowledge, on any streams, and may die; one group
acknowledges numbers of events that it has received. `delivered_law` says that no event is passed over, if every
`publish` on the stream commits while all that the group has been handed is numbered below it. `late_commit_missed` is
the run of two publishers and one consumer in which an event is missed.
-/

namespace Azums.Postgres.Streams

open StreamTables
open Cursor (Ascending Passed Extends)

/-! ## History -/

/-- What a group's `read_next` calls were handed by their `SELECT`, and what they have returned. -/
structure Deliveries where
  handed : List Event
  delivered : List Event

namespace Deliveries

/-- Nothing was read. -/
def first : Deliveries := { handed := [], delivered := [] }

/-- A `read_next` of the group reads the next events. -/
def sent (g : Group) (_ : Nat) (call : StreamCall) (c : StreamCommand) (_ : StreamStore) (r : c.Reply)
    (h : Deliveries) : Deliveries :=
  match call, c, r with
  | .readNext stream consumerGroup _, .selectEvents _ _ _, events =>
      if stream = g.stream ∧ consumerGroup = g.consumerGroup then { h with handed := h.handed ++ events } else h
  | _, _, _ => h

/-- A `read_next` of the group returns. -/
def returned (g : Group) (_ : Nat) (call : StreamCall) (a : StreamAnswer) (h : Deliveries) : Deliveries :=
  match call, a with
  | .readNext stream consumerGroup _, .events result =>
      if stream = g.stream ∧ consumerGroup = g.consumerGroup then { h with delivered := h.delivered ++ result } else h
  | _, _ => h

end Deliveries

/-- How the history follows the calls. -/
def deliveryRecorder (g : Group) :
    Recorder Nat StreamCall StreamCommand StreamCommand.Reply StreamAnswer StreamStore Deliveries where
  exec := Deliveries.sent g
  finish := Deliveries.returned g

/-- What a consumer group keeps to: it acknowledges a number only if it has received the event. -/
def Consumes (g : Group) (o : StreamPool Deliveries) (move : StreamMove) (_ : StreamPool Deliveries) : Prop :=
  ∀ i now seq, move = .start i (.ack now g.stream g.consumerGroup seq) → ∃ e ∈ o.history.delivered, e.sequenceNo = seq

/-- Clients and their server, from an empty database; the group `g` is a consumer. -/
def deliverySystem (g : Group) : System (StreamPool Deliveries) StreamMove :=
  ((deliveryRecorder g).system streamServer StreamCall.program (fun s => s = .empty) (fun _ => .first)).restrict
    (Consumes g)

/-! ## The law -/

/-- The group's offset. -/
def offset (g : Group) (s : StreamStore) : Int :=
  lastAckedSeq (StreamTables.selectOffsets s.offsets g.stream) g.consumerGroup

/-- Every event of the stream that the group's offset has passed was delivered to the group. -/
def DeliveredLaw (g : Group) (o : StreamPool Deliveries) : Prop :=
  ∀ e ∈ eventsOf o.pool.store.committed g.stream, e.sequenceNo ≤ offset g o.pool.store → e ∈ o.history.delivered

/-- The steps at which no event comes too late: a `publish` on the stream commits while everything that the group has
    been handed is numbered below it. -/
def InTime (g : Group) (o : StreamPool Deliveries) (move : StreamMove) (_ : StreamPool Deliveries) : Prop :=
  ∀ i call k, move = .exec i → o.pool.client i = some (call, .call .commit k) →
    ∀ v ∈ o.pool.store.versions, v.writer = some i → v.event.streamName = g.stream →
      ∀ b ∈ o.history.handed, b.sequenceNo < v.event.sequenceNo

/-! ## The discipline of the calls -/

section Discipline

variable {g : Group}

/-- The offset `v` is safe for the group: all up to it was delivered, and nothing will be committed below it. -/
def SafeOffset (g : Group) (w : World StreamStore Deliveries) (v : Int) : Prop :=
  Passed Event.sequenceNo w.history.handed (eventsOf w.store.committed g.stream) w.history.delivered v

/-- The rows are in order, and the group's offset is safe, as is the number of every delivered event. -/
structure DeliveryInv (g : Group) (w : World StreamStore Deliveries) : Prop where
  versions : VersionsInv w.store
  acked : SafeOffset g w (offset g w.store)
  delivered : ∀ e ∈ w.history.delivered, SafeOffset g w e.sequenceNo

/-- What a client relies on: events become visible above everything that was handed out, and what was handed out and
    delivered is not taken back. -/
structure DeliveryRely (g : Group) (w w' : World StreamStore Deliveries) : Prop where
  extends_ : Extends Event.sequenceNo w.history.handed (eventsOf w.store.committed g.stream)
    (eventsOf w'.store.committed g.stream)
  handed : w.history.handed ⊆ w'.history.handed
  delivered : w.history.delivered ⊆ w'.history.delivered

/-- What a client promises: the offsets that it writes are safe. -/
def DeliveryPromise (g : Group) (c : StreamCommand) (w : World StreamStore Deliveries) : Prop :=
  ∀ now seq, c = .upsertOffset now g.stream g.consumerGroup seq → SafeOffset g w seq

/-- What a client returns: to the group, events that are safe to acknowledge. -/
def DeliveryResult (g : Group) (call : StreamCall) (a : StreamAnswer) (w : World StreamStore Deliveries) : Prop :=
  ∀ limit result, call = .readNext g.stream g.consumerGroup limit → a = .events result →
    ∀ e ∈ result, Passed Event.sequenceNo w.history.handed (eventsOf w.store.committed g.stream)
      (w.history.delivered ++ result) e.sequenceNo

/-- The discipline of the calls. -/
def deliveryDiscipline (g : Group) : Discipline Nat StreamCall StreamCommand StreamAnswer StreamStore Deliveries where
  inv := DeliveryInv g
  idle _ _ := True
  rely _ := DeliveryRely g
  promise _ _ := DeliveryPromise g
  result _ := DeliveryResult g

theorem DeliveryRely.refl (w : World StreamStore Deliveries) : DeliveryRely g w w :=
  ⟨Extends.refl, List.Subset.refl _, List.Subset.refl _⟩

theorem DeliveryRely.trans {w w' w'' : World StreamStore Deliveries} (h : DeliveryRely g w w')
    (h' : DeliveryRely g w' w'') : DeliveryRely g w w'' :=
  ⟨h.extends_.trans h'.extends_ h.handed, List.Subset.trans h.handed h'.handed,
    List.Subset.trans h.delivered h'.delivered⟩

theorem SafeOffset.later {w w' : World StreamStore Deliveries} {v : Int} (h : SafeOffset g w v)
    (hrely : DeliveryRely g w w') : SafeOffset g w' v :=
  h.extend hrely.extends_ hrely.handed hrely.delivered

/-! ### The calls -/

section Keeps

variable {i : Nat} {w : World StreamStore Deliveries}

theorem publish_keeps {now : DateTime} {stream : String} {event : NewEvent} :
    (deliveryDiscipline g).Keeps (deliveryRecorder g) streamServer i (.publish now stream event)
      (publish now stream event) w := by
  intro w₁ _ _
  refine ⟨fun _ _ h => (by cases h), fun _ _ _ _ w₂ _ _ => ⟨fun _ _ h => (by cases h), fun _ _ _ _ w₃ _ _ => ?_⟩⟩
  exact fun _ _ h => nomatch h

/-- An `ack` by the group of a number that is safe. -/
theorem ack_keeps {now : DateTime} {stream consumerGroup : String} {seq : Int}
    (hseq : stream = g.stream → consumerGroup = g.consumerGroup → SafeOffset g w seq) :
    (deliveryDiscipline g).Keeps (deliveryRecorder g) streamServer i (.ack now stream consumerGroup seq)
      (ack now stream consumerGroup seq) w := by
  intro w₁ h₁ _
  refine ⟨?_, fun _ _ _ _ w₂ _ _ => fun _ _ h => nomatch h⟩
  rintro _ _ ⟨⟩
  exact (hseq rfl rfl).later h₁

theorem readEvents_keeps {stream : String} {afterSeq limit : Int} :
    (deliveryDiscipline g).Keeps (deliveryRecorder g) streamServer i (.readEvents stream afterSeq limit)
      (readEvents stream afterSeq limit) w := by
  intro w₁ _ _
  exact ⟨fun _ _ h => (by cases h), fun _ _ _ _ w₂ _ _ => fun _ _ h => nomatch h⟩

/-- `read_next` of the group returns events that are safe to acknowledge. -/
theorem readNext_keeps {stream consumerGroup : String} {limit : Int} :
    (deliveryDiscipline g).Keeps (deliveryRecorder g) streamServer i (.readNext stream consumerGroup limit)
      (readNext stream consumerGroup limit) w := by
  intro w₁ _ hinv₁
  refine ⟨fun _ _ h => (by cases h), fun info σ₁ hans _ => ?_⟩
  obtain ⟨rfl, rfl⟩ := Prod.mk.inj (Option.some.inj hans)
  intro w₂ h₂ hinv₂
  refine ⟨fun _ _ h => (by cases h), fun events σ₂ hans₂ _ => ?_⟩
  obtain ⟨rfl, rfl⟩ := Prod.mk.inj (Option.some.inj hans₂)
  intro w₃ h₃ _
  rintro _ _ ⟨⟩ ⟨⟩ e he
  -- the offset that was read is still safe when the events are
  have hsafe : SafeOffset g w₂ (offset g w₁.store) := SafeOffset.later hinv₁.acked h₂
  have hasc : Ascending Event.sequenceNo (eventsOf w₂.store.committed g.stream) :=
    hinv₂.versions.committed.filter _
  have heq : StreamTables.selectEvents w₂.store.committed g.stream (offset g w₁.store) limit =
      Cursor.batch Event.sequenceNo (offset g w₁.store) (clampLimit limit) (eventsOf w₂.store.committed g.stream) :=
    selectEvents_eq hinv₂.versions.committed ..
  have hhanded : ∀ events : List Event, Deliveries.sent g i (.readNext g.stream g.consumerGroup limit)
      (.selectEvents g.stream (offset g w₁.store) limit) w₂.store events w₂.history =
        { w₂.history with handed := w₂.history.handed ++ events } := fun _ => if_pos ⟨rfl, rfl⟩
  have hrely : DeliveryRely g
      { store := w₂.store
        history := Deliveries.sent g i (.readNext g.stream g.consumerGroup limit)
          (.selectEvents g.stream (offset g w₁.store) limit) w₂.store
          (StreamTables.selectEvents w₂.store.committed g.stream (offset g w₁.store) limit) w₂.history } w₃ := h₃
  rw [hhanded, heq] at hrely
  have hresult : e ∈ Cursor.batch Event.sequenceNo (offset g w₁.store) (clampLimit limit)
      (eventsOf w₂.store.committed g.stream) := by
    rw [← heq]
    exact he
  show Passed _ _ _ (_ ++ StreamTables.selectEvents w₂.store.committed g.stream (offset g w₁.store) limit) _
  rw [heq]
  refine (hsafe.batch hasc hresult (List.mem_append_right _ hresult) (List.subset_append_left ..)
    (List.subset_append_right ..)).extend hrely.extends_ hrely.handed (List.append_subset.mpr ⟨?_, ?_⟩)
  · exact List.Subset.trans hrely.delivered (List.subset_append_left ..)
  · exact List.subset_append_right ..

end Keeps

/-! ### The steps -/

/-- The invariant after a step that others rely on, where the group's offset is the old one or a safe one. -/
theorem DeliveryInv.step {w w' : World StreamStore Deliveries} (h : DeliveryInv g w) (hrely : DeliveryRely g w w')
    (hversions : VersionsInv w'.store)
    (hoff : offset g w'.store = offset g w.store ∨ SafeOffset g w (offset g w'.store))
    (hdel : ∀ e ∈ w'.history.delivered, e ∈ w.history.delivered ∨ SafeOffset g w' e.sequenceNo) :
    DeliveryInv g w' := by
  refine ⟨hversions, ?_, fun e he => ?_⟩
  · rcases hoff with heq | hsafe
    · rw [heq]
      exact h.acked.later hrely
    · exact hsafe.later hrely
  · rcases hdel e he with hold | hsafe
    · exact (h.delivered e hold).later hrely
    · exact hsafe

/-- The group's offset after a statement: it only changes by an `ack` of the group, and then to the larger of the two
    numbers. -/
theorem offset_exec (c : StreamCommand) (i : Nat) (s : StreamStore) :
    offset g (c.exec i s).2 = offset g s ∨
      ∃ now seq, c = .upsertOffset now g.stream g.consumerGroup seq ∧
        (offset g (c.exec i s).2 = seq ∨ offset g (c.exec i s).2 = max (offset g s) seq) := by
  cases c with
  | upsertOffset now stream consumerGroup seq =>
      have hexec : offset g ((StreamCommand.upsertOffset now stream consumerGroup seq).exec i s).2 =
          lastAckedSeq (StreamTables.selectOffsets
            (StreamTables.upsertOffset s.offsets now stream consumerGroup seq) g.stream) g.consumerGroup := rfl
      rw [hexec, lastAckedSeq_eq]
      by_cases hg : g.stream = stream ∧ g.consumerGroup = consumerGroup
      · obtain ⟨rfl, rfl⟩ := hg
        refine Or.inr ⟨now, seq, rfl, ?_⟩
        obtain ⟨r, hr, hv⟩ := offsetRow_upsert s.offsets now g.stream g.consumerGroup seq
        rw [hr, Option.map_some, Option.getD_some, hv, offset, lastAckedSeq_eq]
        cases offsetRow s.offsets g.stream g.consumerGroup with
        | none => exact Or.inl rfl
        | some r => exact Or.inr rfl
      · rw [offsetRow_upsert_other hg, ← lastAckedSeq_eq]
        exact Or.inl rfl
  | _ => exact Or.inl rfl

/-- Where no `publish` commits too late, a statement makes events visible above everything that was handed out. -/
theorem exec_extends {o : StreamPool Deliveries} {i : Nat} {call : StreamCall} {c : StreamCommand}
    {k : c.Reply → StreamCmds StreamAnswer} {o' : StreamPool Deliveries} (h : VersionsInv o.pool.store)
    (hi : o.pool.client i = some (call, .call c k)) (hok : InTime g o (.exec i) o') :
    Extends Event.sequenceNo o.history.handed (eventsOf o.pool.store.committed g.stream)
      (eventsOf (c.exec i o.pool.store).2.committed g.stream) := by
  intro e he
  obtain ⟨hmem, hstream⟩ := List.mem_filter.mp he
  cases c with
  | commit =>
      rcases mem_committed_commit.mp hmem with hold | ⟨v, hv, hw, rfl⟩
      · exact Or.inl (List.mem_filter.mpr ⟨hold, hstream⟩)
      · have hs : v.event.streamName = g.stream := by simpa using hstream
        exact Or.inr ⟨(h.bounded v hv).1, hok i call k rfl hi v hv hw hs⟩
  | insertEvent now stream event =>
      rw [committed_insert] at hmem
      exact Or.inl (List.mem_filter.mpr ⟨hmem, hstream⟩)
  | _ => exact Or.inl he

/-- A statement hands out events, or it leaves the history alone. -/
theorem sent_spec (i : Nat) (call : StreamCall) (c : StreamCommand) (s : StreamStore) (r : c.Reply)
    (h : Deliveries) :
    h.handed ⊆ (Deliveries.sent g i call c s r h).handed ∧ (Deliveries.sent g i call c s r h).delivered = h.delivered := by
  unfold Deliveries.sent
  split
  · split
    · exact ⟨List.subset_append_left .., rfl⟩
    · exact ⟨List.Subset.refl _, rfl⟩
  · exact ⟨List.Subset.refl _, rfl⟩

/-- What a returning call adds to the deliveries of the group. -/
theorem returned_cases (i : Nat) (call : StreamCall) (a : StreamAnswer) (h : Deliveries) :
    Deliveries.returned g i call a h = h ∨
      ∃ limit result, call = .readNext g.stream g.consumerGroup limit ∧ a = .events result ∧
        Deliveries.returned g i call a h = { h with delivered := h.delivered ++ result } := by
  unfold Deliveries.returned
  split
  · rename_i stream consumerGroup limit result
    split
    · rename_i hg
      obtain ⟨rfl, rfl⟩ := hg
      exact Or.inr ⟨limit, result, rfl, rfl, rfl⟩
    · exact Or.inl rfl
  · exact Or.inl rfl

/-- A statement is executed. -/
theorem exec_delivers {o : StreamPool Deliveries} {i : Nat} {call : StreamCall} {c : StreamCommand}
    {k : c.Reply → StreamCmds StreamAnswer} {o' : StreamPool Deliveries} (h : DeliveryInv g o.world)
    (hi : o.pool.client i = some (call, .call c k)) (hpromise : DeliveryPromise g c o.world)
    (hok : InTime g o (.exec i) o') :
    let w' : World StreamStore Deliveries :=
      { store := (c.exec i o.pool.store).2
        history := Deliveries.sent g i call c o.pool.store (c.exec i o.pool.store).1 o.history }
    DeliveryInv g w' ∧ DeliveryRely g o.world w' := by
  intro w'
  obtain ⟨hhanded, hdelivered⟩ := sent_spec (g := g) i call c o.pool.store (c.exec i o.pool.store).1 o.history
  have hrely : DeliveryRely g o.world w' := by
    refine ⟨exec_extends h.versions hi hok, hhanded, ?_⟩
    show o.history.delivered ⊆ (Deliveries.sent g i call c o.pool.store _ o.history).delivered
    rw [hdelivered]
    exact List.Subset.refl _
  refine ⟨h.step hrely (h.versions.exec c) ?_ fun e he => Or.inl (hdelivered ▸ he), hrely⟩
  · rcases offset_exec (g := g) c i o.pool.store with heq | ⟨now, seq, rfl, heq | heq⟩
    · exact Or.inl heq
    · right
      show SafeOffset g o.world (offset g ((StreamCommand.upsertOffset _ _ _ seq).exec i o.pool.store).2)
      rw [heq]
      exact hpromise now seq rfl
    · right
      show SafeOffset g o.world (offset g ((StreamCommand.upsertOffset _ _ _ seq).exec i o.pool.store).2)
      rw [heq]
      exact h.acked.max (hpromise now seq rfl)

/-- A call returns. -/
theorem finish_delivers {w : World StreamStore Deliveries} {i : Nat} {call : StreamCall} {a : StreamAnswer}
    (h : DeliveryInv g w) (hresult : DeliveryResult g call a w) :
    DeliveryInv g { store := w.store, history := Deliveries.returned g i call a w.history } ∧
      DeliveryRely g w { store := w.store, history := Deliveries.returned g i call a w.history } := by
  rcases returned_cases (g := g) i call a w.history with heq | ⟨limit, result, rfl, rfl, heq⟩
  · rw [heq]
    exact ⟨h, DeliveryRely.refl w⟩
  · rw [heq]
    have hrely : DeliveryRely g w
        { store := w.store, history := { w.history with delivered := w.history.delivered ++ result } } :=
      ⟨Extends.refl, List.Subset.refl _, List.subset_append_left ..⟩
    refine ⟨h.step hrely h.versions (Or.inl rfl) fun e he => ?_, hrely⟩
    rcases List.mem_append.mp he with hold | hnew
    · exact Or.inl hold
    · exact Or.inr (hresult limit result rfl rfl e hnew)

/-- A client dies. -/
theorem crash_delivers {w : World StreamStore Deliveries} {i : Nat} (h : DeliveryInv g w) :
    DeliveryInv g { store := w.store.rollback i, history := w.history } ∧
      DeliveryRely g w { store := w.store.rollback i, history := w.history } := by
  have hrely : DeliveryRely g w { store := w.store.rollback i, history := w.history } := by
    refine ⟨?_, List.Subset.refl _, List.Subset.refl _⟩
    rw [committed_rollback]
    exact Extends.refl
  exact ⟨h.step hrely h.versions.rollback (Or.inl rfl) fun e he => Or.inl he, hrely⟩

/-- **The calls keep the discipline**, where no `publish` commits too late. -/
theorem delivery_obeyed :
    (deliveryDiscipline g).Obeyed (deliveryRecorder g) streamServer StreamCall.program
      ((deliverySystem g).restrict (InTime g)) where
  next h := h.1.1
  refl _ := DeliveryRely.refl
  trans _ _ _ _ := DeliveryRely.trans
  idle _ _ := trivial
  init := by
    rintro o ⟨hempty, hclients, hhist⟩
    have hw : o.world = { store := .empty, history := .first } := by
      unfold Observed.world
      rw [hempty, hhist]
    rw [hw]
    refine ⟨hclients, ⟨⟨List.Pairwise.nil, fun _ h => ?_, Int.le_refl 0⟩, Passed.start (fun _ h => ?_) (Int.le_refl 0),
      fun _ h => ?_⟩, fun _ => trivial⟩
    · cases h
    · cases h
    · cases h
  start := by
    intro o i call o' h hstep _
    refine ⟨⟨h.inv, fun _ _ => DeliveryRely.refl _⟩, ?_⟩
    show (deliveryDiscipline g).Keeps (deliveryRecorder g) streamServer i call call.program o.world
    cases call with
    | publish now stream event => exact publish_keeps
    | ack now stream consumerGroup seq =>
        refine ack_keeps ?_
        rintro rfl rfl
        -- a number that the group acknowledges is one that it has received
        obtain ⟨e, he, rfl⟩ := hstep.1.2 i now seq rfl
        exact h.inv.delivered e he
    | readEvents stream afterSeq limit => exact readEvents_keeps
    | readNext stream consumerGroup limit => exact readNext_keeps
  exec := by
    intro o i call c k r σ' o' h hstep hi hexec hpromise
    obtain ⟨rfl, rfl⟩ := Prod.mk.inj (Option.some.inj hexec)
    have hdelivers := exec_delivers h.inv hi hpromise hstep.2
    exact ⟨hdelivers.1, fun _ _ => hdelivers.2⟩
  finish := by
    intro o i call a o' h _ _ hresult
    have hdelivers := finish_delivers (i := i) h.inv hresult
    exact ⟨⟨hdelivers.1, fun _ _ => hdelivers.2⟩, trivial⟩
  crash := by
    intro o i call p o' h _ _ _
    have hdelivers := crash_delivers (i := i) h.inv
    exact ⟨⟨hdelivers.1, fun _ _ => hdelivers.2⟩, trivial⟩

end Discipline

/-- **When a group misses no event.** In every run in which each `publish` on the stream commits while everything that the
    group has been handed is numbered below it: in every state, every event of the stream that the group's offset has
    passed was delivered to the group. -/
theorem delivered_law {g : Group} {o : StreamPool Deliveries}
    (ho : ((deliverySystem g).restrict (InTime g)).Reachable o) : DeliveredLaw g o :=
  (delivery_obeyed.holds ho).inv.acked.covered

/-! ### Two publishers and a consumer -/

/-- The move starts no acknowledgement. -/
def readsOrWrites : StreamMove → Bool
  | .start _ (.ack ..) => false
  | _ => true

theorem consumes_of_readsOrWrites {g : Group} {o o' : StreamPool Deliveries} {move : StreamMove}
    (h : readsOrWrites move = true) : Consumes g o move o' := by
  rintro i now seq rfl
  cases h

/-- The group `billing` on the stream `orders`. -/
def billing : Group := { stream := "orders", consumerGroup := "billing" }

/-- An order. -/
def placed (payload : Value) : NewEvent := { eventType := "placed", payloadJson := payload }

/-- An empty database, and nothing was read. -/
def idleStreams : StreamPool Deliveries :=
  { pool := { store := .empty, client := fun _ => none }, history := .first }

/-- Publisher 0 draws 1; publisher 1 draws 2 and commits; the group reads event 2 and acknowledges it; publisher 0
    commits. -/
def lateCommit : List StreamMove :=
  [.start 0 (.publish 0 "orders" (placed "a")), .exec 0,
    .start 1 (.publish 0 "orders" (placed "b")), .exec 1, .exec 1, .finish 1,
    .start 2 (.readNext "orders" "billing" 10), .exec 2, .exec 2, .finish 2,
    .start 2 (.ack 1 "orders" "billing" 2), .exec 2, .finish 2, .exec 0]

/-- That run after `n` of its moves. -/
def lateCommitAfter (n : Nat) : StreamPool Deliveries :=
  ((deliveryRecorder billing).run streamServer StreamCall.program idleStreams (lateCommit.take n)).getD idleStreams

/-- Event 1 is committed, the offset has passed it, and it was not delivered. -/
theorem late_commit_missed :
    (deliverySystem billing).Reachable (lateCommitAfter 14) ∧
    offset billing (lateCommitAfter 14).pool.store = 2 ∧
    ((lateCommitAfter 14).pool.store.committed).map (·.sequenceNo) = [1, 2] ∧
    ((lateCommitAfter 14).history.delivered).map (·.sequenceNo) = [2] ∧
    ¬DeliveredLaw billing (lateCommitAfter 14) := by
  have h₀ : (deliverySystem billing).Reachable (lateCommitAfter 0) := .start ⟨rfl, fun _ => rfl, rfl⟩
  have hread : (deliverySystem billing).Reachable (lateCommitAfter 10) :=
    Recorder.reachable_along (fun _ => readsOrWrites) (fun hmove hnext => ⟨hnext, consumes_of_readsOrWrites hmove⟩)
      (lateCommit.take 10) rfl h₀ rfl
  have hack : (deliverySystem billing).Reachable (lateCommitAfter 11) := by
    refine hread.next (i := .start 2 (.ack 1 "orders" "billing" 2)) ⟨rfl, ?_⟩
    rintro i now seq ⟨⟩
    exact ⟨_, List.mem_singleton_self _, rfl⟩
  have hend : (deliverySystem billing).Reachable (lateCommitAfter 14) :=
    Recorder.reachable_along (fun _ => readsOrWrites) (fun hmove hnext => ⟨hnext, consumes_of_readsOrWrites hmove⟩)
      ((lateCommit.take 14).drop 11) rfl hack rfl
  refine ⟨hend, by decide, by decide, by decide, fun hlaw => ?_⟩
  have hin := hlaw (newEvent 0 "orders" (placed "a") 1) (by decide) (by decide)
  revert hin
  decide

/-- One publisher, and the group reads the event and acknowledges it. -/
def oneEvent : List StreamMove :=
  [.start 0 (.publish 0 "orders" (placed "a")), .exec 0, .exec 0, .finish 0,
    .start 2 (.readNext "orders" "billing" 10), .exec 2, .exec 2, .finish 2,
    .start 2 (.ack 1 "orders" "billing" 1), .exec 2]

/-- That run after `n` of its moves. -/
def oneEventAfter (n : Nat) : StreamPool Deliveries :=
  ((deliveryRecorder billing).run streamServer StreamCall.program idleStreams (oneEvent.take n)).getD idleStreams

theorem one_event_acknowledged : DeliveredLaw billing (oneEventAfter 10) := by
  have hearly : ∀ {n : Nat} (move : StreamMove),
      ((deliverySystem billing).restrict (InTime billing)).Reachable (oneEventAfter n) →
      (deliveryRecorder billing).next streamServer StreamCall.program (oneEventAfter n) move =
        some (oneEventAfter (n + 1)) →
      readsOrWrites move = true → (oneEventAfter n).history.handed = [] →
        ((deliverySystem billing).restrict (InTime billing)).Reachable (oneEventAfter (n + 1)) := by
    intro n move hreach hnext hmove hnone
    refine hreach.next (i := move) ⟨⟨hnext, consumes_of_readsOrWrites hmove⟩, ?_⟩
    intro _ _ _ _ _ _ _ _ _ b hb
    rw [hnone] at hb
    cases hb
  have h₀ : ((deliverySystem billing).restrict (InTime billing)).Reachable (oneEventAfter 0) :=
    .start ⟨rfl, fun _ => rfl, rfl⟩
  have h₄ := hearly (.finish 0) (hearly (.exec 0) (hearly (.exec 0) (hearly (.start 0 _) h₀ rfl rfl rfl) rfl rfl rfl)
    rfl rfl rfl) rfl rfl rfl
  have h₇ := hearly (.exec 2) (hearly (.exec 2) (hearly (.start 2 _) h₄ rfl rfl rfl) rfl rfl rfl) rfl rfl rfl
  have h₈ : ((deliverySystem billing).restrict (InTime billing)).Reachable (oneEventAfter 8) :=
    h₇.next (i := .finish 2) ⟨⟨rfl, consumes_of_readsOrWrites rfl⟩, fun _ _ _ h => nomatch h⟩
  have h₉ : ((deliverySystem billing).restrict (InTime billing)).Reachable (oneEventAfter 9) := by
    refine h₈.next (i := .start 2 (.ack 1 "orders" "billing" 1)) ⟨⟨rfl, ?_⟩, fun _ _ _ h => nomatch h⟩
    rintro i now seq ⟨⟩
    exact ⟨_, List.mem_singleton_self _, rfl⟩
  have h₁₀ : ((deliverySystem billing).restrict (InTime billing)).Reachable (oneEventAfter 10) := by
    refine h₉.next (i := .exec 2) ⟨⟨rfl, consumes_of_readsOrWrites rfl⟩, ?_⟩
    rintro _ _ _ ⟨⟩ ⟨⟩
  exact delivered_law h₁₀

end Azums.Postgres.Streams
