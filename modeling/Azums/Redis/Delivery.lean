import Azums.Redis.Streams

/-!
# `Redis.Delivery` — when a consumer group misses no event

`publish` takes its number with `INCR` and appends the event with `RPUSH`. Two publishers may append in the other order
than they were numbered, and then the list of events is not in the order of their numbers. A group that has read the
larger number, and has acknowledged it, never asks for the smaller one.

The run is that of any number of clients on one server: they publish, read and acknowledge, on any streams; one group
acknowledges numbers of events that it has received, and its stream is not pruned. `delivery_law` says that no event is
missed, and that what is read ascends, if every event is appended above the numbers that the list has already, and comes
back from its JSON as it was written.
`late_event_missed` is the run of two publishers and one consumer in which an event is missed.
-/

namespace Azums.Redis.Streams

open Cursor (Ascending Passed Extends)

/-! ## History -/

/-- The events that `read_next` has returned to each group. -/
abbrev Deliveries := Group → List Event

/-- A `read_next` returns. -/
def delivered (_ : Nat) (call : StreamCall) (a : StreamAnswer) (h : Deliveries) : Deliveries :=
  match call, a with
  | .readNext _ stream consumerGroup _ _ _ _, .events result =>
      Function.update h (stream, consumerGroup) (h (stream, consumerGroup) ++ result)
  | _, _ => h

/-- How the history follows the calls. -/
def deliveryRecorder :
    Recorder Nat StreamCall StreamCommand StreamCommand.Reply StreamAnswer StreamStore Deliveries where
  finish := delivered

/-- A call reads events of the stream. -/
def StreamCall.ReadsFrom (stream : String) : StreamCall → Prop
  | .readEvents stream' _ _ _ | .readNext _ stream' _ _ _ _ _ => stream' = stream
  | _ => False

/-- A call is a `read_next` of the group. -/
def StreamCall.ReadsNext (g : Group) : StreamCall → Prop
  | .readNext _ stream consumerGroup _ _ _ _ => (stream, consumerGroup) = g
  | _ => False

/-- What a consumer group keeps to: its stream is not pruned, and it acknowledges a number only if it has received the
    event. -/
def Consumes (g : Group) (o : StreamPool Deliveries) (move : StreamMove) (_ : StreamPool Deliveries) : Prop :=
  ∀ i call, move = .start i call →
    (∀ throughSeq offsetsAnswered eventsAnswered, call ≠ .pruneEvents g.1 throughSeq offsetsAnswered eventsAnswered) ∧
    ∀ now seq answered, call = .ack now g.1 g.2 seq answered → ∃ e ∈ o.history g, e.sequenceNo = seq

/-- Clients and their server, from a server with nothing in it; the group `g` is a consumer. -/
def deliverySystem (json : Json) (g : Group) : System (StreamPool Deliveries) StreamMove :=
  (deliveryRecorder.system streamServer (StreamCall.program json) (fun s => s = .empty) (fun _ _ => [])).restrict
    (Consumes g)

/-! ## The law -/

/-- Every event of the stream that the group's offset has passed was delivered to the group; and whoever has read events
    of the stream has them in ascending order. -/
structure DeliveryLaw (g : Group) (o : StreamPool Deliveries) : Prop where
  delivered : ∀ v, o.pool.store.offsetOf g = some v → ∀ e ∈ o.pool.store.events g.1, e.sequenceNo ≤ v → e ∈ o.history g
  ascending : ∀ i call result, o.pool.client i = some (call, .done (.events result)) → call.ReadsFrom g.1 →
    Ascending Event.sequenceNo result

/-- The steps that keep the list in order and readable: an event is appended above all the numbers there are, and it
    comes back as it was written. -/
def InOrder (json : Json) (g : Group) (o : StreamPool Deliveries) (move : StreamMove)
    (_ : StreamPool Deliveries) : Prop :=
  ∀ i call events k, move = .exec i → o.pool.client i = some (call, .call (.rpush g.1 events) k) →
    ∀ e ∈ events, json.readEvent e = some e ∧ ∀ b ∈ o.pool.store.events g.1, b.sequenceNo < e.sequenceNo

/-! ## The discipline of the calls -/

section Discipline

variable {json : Json} {g : Group}

/-- The offset `v` is safe for the group: all up to it was delivered, and nothing will come below it. -/
def SafeOffset (g : Group) (w : World StreamStore Deliveries) (v : Int) : Prop :=
  Passed Event.sequenceNo (w.store.events g.1) (w.store.events g.1) (w.history g) v

/-- The list ascends from a positive number on, its entries come back, and the offset is safe, as is the number of every
    delivered event. -/
structure DeliveryInv (json : Json) (g : Group) (w : World StreamStore Deliveries) : Prop where
  readable : ∀ e ∈ w.store.events g.1, json.readEvent e = some e
  ascending : Ascending Event.sequenceNo (w.store.events g.1)
  positive : ∀ e ∈ w.store.events g.1, 0 < e.sequenceNo
  counter : 0 ≤ w.store.seq g.1
  offset : ∀ v, w.store.offsetOf g = some v → SafeOffset g w v
  delivered : ∀ e ∈ w.history g, SafeOffset g w e.sequenceNo

/-- What a client relies on: the list grows above all that is there, and deliveries are not taken back. -/
structure DeliveryRely (g : Group) (w w' : World StreamStore Deliveries) : Prop where
  extends_ : Extends Event.sequenceNo (w.store.events g.1) (w.store.events g.1) (w'.store.events g.1)
  events : w.store.events g.1 ⊆ w'.store.events g.1
  delivered : w.history g ⊆ w'.history g

/-- What a client promises: it appends one event, with a positive number; it does not delete the list; and it writes
    offsets that are safe. -/
def DeliveryPromise (g : Group) (c : StreamCommand) (w : World StreamStore Deliveries) : Prop :=
  match c with
  | .rpush stream events => stream = g.1 → ∃ e, events = [e] ∧ 0 < e.sequenceNo
  | .del stream => stream ≠ g.1
  | .hset stream consumerGroup v => (stream, consumerGroup) = g → SafeOffset g w v
  | _ => True

/-- What a client returns: events in ascending order, and to the group events that are safe to acknowledge. -/
def DeliveryResult (g : Group) (call : StreamCall) (a : StreamAnswer) (w : World StreamStore Deliveries) : Prop :=
  ∀ result, a = .events result →
    (call.ReadsFrom g.1 → Ascending Event.sequenceNo result) ∧
    (call.ReadsNext g → ∀ e ∈ result, Passed Event.sequenceNo (w.store.events g.1) (w.store.events g.1)
      (w.history g ++ result) e.sequenceNo)

/-- The discipline of the calls. -/
def deliveryDiscipline (json : Json) (g : Group) :
    Discipline Nat StreamCall StreamCommand StreamAnswer StreamStore Deliveries where
  inv := DeliveryInv json g
  idle _ _ := True
  rely _ := DeliveryRely g
  promise _ _ := DeliveryPromise g
  result _ := DeliveryResult g

theorem DeliveryRely.refl (w : World StreamStore Deliveries) : DeliveryRely g w w :=
  ⟨Extends.refl, List.Subset.refl _, List.Subset.refl _⟩

theorem DeliveryRely.trans {w w' w'' : World StreamStore Deliveries} (h : DeliveryRely g w w')
    (h' : DeliveryRely g w' w'') : DeliveryRely g w w'' :=
  ⟨h.extends_.trans h'.extends_ h.events, List.Subset.trans h.events h'.events,
    List.Subset.trans h.delivered h'.delivered⟩

theorem SafeOffset.later {w w' : World StreamStore Deliveries} {v : Int} (h : SafeOffset g w v)
    (hrely : DeliveryRely g w w') : SafeOffset g w' v :=
  h.extend hrely.extends_ hrely.events hrely.delivered

/-! ### What is read -/

/-- `read_next` goes by the group's offset, or by 0. -/
theorem lastAckedSeq_cases {map : AList (fun _ : String => Int)} {consumerGroup : String}
    {f : (Σ _ : String, Int) → ConsumerGroupStatus} (hf : ∀ entry, (f entry).consumerGroup = entry.1 ∧
      (f entry).lastAckedSeq = entry.2) :
    lastAckedSeq (map.entries.map f) consumerGroup = 0 ∨
      map.lookup consumerGroup = some (lastAckedSeq (map.entries.map f) consumerGroup) := by
  unfold lastAckedSeq
  cases hfind : (map.entries.map f).find? (fun status => status.consumerGroup == consumerGroup) with
  | none => exact Or.inl rfl
  | some status =>
      obtain ⟨⟨group, v⟩, hmem, rfl⟩ := List.mem_map.mp (List.mem_of_find?_eq_some hfind)
      have hgroup : group = consumerGroup :=
        (hf ⟨group, v⟩).1.symm.trans (by simpa using List.find?_some hfind)
      subst hgroup
      refine Or.inr (List.mem_dlookup map.nodupKeys ?_)
      rw [Option.map_some, Option.getD_some, (hf ⟨group, v⟩).2]
      exact hmem

/-- The events that a reader gets, if it gets any. -/
theorem read_cases {log : List Event} (hread : ∀ e ∈ log, json.readEvent e = some e) (afterSeq limit : Int)
    (answered : Bool) :
    collectEvents json afterSeq (clampLimit limit) (if answered then log else []) [] = [] ∨
      collectEvents json afterSeq (clampLimit limit) (if answered then log else []) [] =
        Cursor.batch Event.sequenceNo afterSeq (clampLimit limit) log := by
  cases answered with
  | false => exact Or.inl rfl
  | true => exact Or.inr (collectEvents_start hread)

/-- What is read from an ascending list ascends. -/
theorem read_ascending {log : List Event} (hread : ∀ e ∈ log, json.readEvent e = some e)
    (h : Ascending Event.sequenceNo log) (afterSeq limit : Int) (answered : Bool) :
    Ascending Event.sequenceNo
      (collectEvents json afterSeq (clampLimit limit) (if answered then log else []) []) := by
  rcases read_cases hread afterSeq limit answered with heq | heq <;> rw [heq]
  · exact List.Pairwise.nil
  · exact h.batch

/-! ### The calls -/

/-- A call that neither reads the stream nor changes its list nor writes the group's offset has nothing to promise. -/
theorem quiet_keeps {i : Nat} {call : StreamCall} {w : World StreamStore Deliveries}
    (hreads : ¬call.ReadsFrom g.1) (hsends : ∀ c, call.Sends c → ∀ w, DeliveryPromise g c w) :
    (deliveryDiscipline json g).Keeps deliveryRecorder streamServer i call (call.program json) w := by
  refine Discipline.keeps_of_avoids (P := fun c => ¬∀ w, DeliveryPromise g c w) (I := fun _ => True)
    (fun _ _ _ _ => trivial) (fun c w hc _ => Classical.byContradiction fun hn => hc fun h => hn (h w)) ?_
    (fun _ _ _ _ _ _ _ => trivial) _ w (StreamCall.program_avoids fun c hc hn => hn (hsends c hc)) trivial
  intro a w _ result _
  refine ⟨fun h => absurd h hreads, fun h => ?_⟩
  cases call with
  | readNext now stream consumerGroup limit answered timesAnswered eventsAnswered =>
      exact absurd (congrArg Prod.fst (h : (stream, consumerGroup) = g)) hreads
  | _ => cases h

theorem publish_keeps {i : Nat} {now : DateTime} {stream : String} {event : NewEvent}
    {w : World StreamStore Deliveries} :
    (deliveryDiscipline json g).Keeps deliveryRecorder streamServer i (.publish now stream event)
      (publish now stream event) w := by
  intro w₁ _ hinv₁
  refine ⟨trivial, fun n σ₁ hans _ => ?_⟩
  obtain ⟨rfl, rfl⟩ := streamServer_exec hans
  intro w₃ _ _
  refine ⟨?_, fun _ _ _ _ w₅ _ _ => ?_⟩
  · rintro rfl
    refine ⟨_, rfl, ?_⟩
    have hcounter : 0 ≤ w₁.store.seq g.1 := hinv₁.counter
    show 0 < w₁.store.seq g.1 + 1
    omega
  · rintro result ⟨⟩

/-- `ack` by the group: it writes a number that is safe, or the offset that it has read. -/
theorem ack_safe {i : Nat} {now : DateTime} {seq : Int} {answered : Bool} {w : World StreamStore Deliveries}
    (hseq : SafeOffset g w seq) :
    (deliveryDiscipline json g).Keeps deliveryRecorder streamServer i (.ack now g.1 g.2 seq answered)
      (ack now g.1 g.2 seq answered) w := by
  intro w₁ h₁ hinv₁
  refine ⟨trivial, fun reply σ₁ hans _ => ?_⟩
  obtain ⟨rfl, rfl⟩ := streamServer_exec hans
  intro w₃ h₃ _
  have hseq₃ : SafeOffset g w₃ seq := (hseq.later h₁).later h₃
  refine ⟨fun _ => ?_, fun _ _ _ _ w₅ _ _ => ⟨trivial, fun _ _ _ _ w₇ _ _ => ?_⟩⟩
  · cases hread : okAnswer answered (w₁.store.offset g.1 g.2) with
    | none =>
        show SafeOffset g w₃ (newSeq (okAnswer answered (w₁.store.offset g.1 g.2)) seq)
        rw [hread]
        exact hseq₃
    | some existing =>
        show SafeOffset g w₃ (newSeq (okAnswer answered (w₁.store.offset g.1 g.2)) seq)
        rw [hread]
        have hoff : w₁.store.offsetOf g = some existing := by
          cases answered with
          | false => cases hread
          | true => exact hread
        exact ((hinv₁.offset existing hoff).later h₃).max hseq₃
  · rintro result ⟨⟩

theorem ack_keeps_safe {i : Nat} {now : DateTime} {stream consumerGroup : String} {seq : Int} {answered : Bool}
    {w : World StreamStore Deliveries} (hseq : (stream, consumerGroup) = g → SafeOffset g w seq) :
    (deliveryDiscipline json g).Keeps deliveryRecorder streamServer i (.ack now stream consumerGroup seq answered)
      (ack now stream consumerGroup seq answered) w := by
  by_cases hg : (stream, consumerGroup) = g
  · subst hg
    exact ack_safe (hseq rfl)
  · refine quiet_keeps (fun h => h) ?_
    rintro c (rfl | ⟨v, rfl⟩ | ⟨now, rfl⟩) w
    · trivial
    · exact fun h => absurd h hg
    · trivial

theorem readEvents_keeps {i : Nat} {stream : String} {afterSeq limit : Int} {answered : Bool}
    {w : World StreamStore Deliveries} :
    (deliveryDiscipline json g).Keeps deliveryRecorder streamServer i (.readEvents stream afterSeq limit answered)
      (readEvents json stream afterSeq limit answered) w := by
  intro w₁ _ hinv₁
  refine ⟨trivial, fun log σ₁ hans _ => ?_⟩
  obtain ⟨rfl, rfl⟩ := streamServer_exec hans
  intro w₃ _ _
  rintro result ⟨⟩
  refine ⟨?_, fun h => absurd h (fun h => h)⟩
  rintro rfl
  exact read_ascending hinv₁.readable hinv₁.ascending ..

/-- `read_next` of the group returns events that are safe to acknowledge. -/
theorem readNext_keeps {i : Nat} {now : DateTime} {stream consumerGroup : String} {limit : Int}
    {answered timesAnswered eventsAnswered : Bool} {w : World StreamStore Deliveries} :
    (deliveryDiscipline json g).Keeps deliveryRecorder streamServer i
      (.readNext now stream consumerGroup limit answered timesAnswered eventsAnswered)
      (readNext json now stream consumerGroup limit answered timesAnswered eventsAnswered) w := by
  intro w₁ _ hinv₁
  refine ⟨trivial, fun offsets σ₁ hans _ => ?_⟩
  obtain ⟨rfl, rfl⟩ := streamServer_exec hans
  intro w₂ h₂ _
  refine ⟨trivial, fun times σ₂ hans₂ _ => ?_⟩
  obtain ⟨rfl, rfl⟩ := streamServer_exec hans₂
  intro w₃ h₃ hinv₃
  refine ⟨trivial, fun log σ₃ hans₃ _ => ?_⟩
  obtain ⟨rfl, rfl⟩ := streamServer_exec hans₃
  intro w₄ h₄ _
  rintro result ⟨⟩
  constructor
  · rintro rfl
    exact read_ascending hinv₃.readable hinv₃.ascending ..
  · rintro rfl
    -- whatever it reads from was safe when the offset was read, and still is when the list is
    have hbatch : ∀ after, (after = 0 ∨ w₁.store.offset stream consumerGroup = some after) →
        ∀ result, result = collectEvents json after (clampLimit limit)
            (if eventsAnswered then w₃.store.events stream else []) [] →
          ∀ e ∈ result, Passed Event.sequenceNo (w₄.store.events stream) (w₄.store.events stream)
            (w₄.history (stream, consumerGroup) ++ result) e.sequenceNo := by
      intro after hafter result hresult e he
      have hsafe : SafeOffset (stream, consumerGroup) w₃ after := by
        rcases hafter with rfl | hoff
        · exact Passed.start hinv₃.positive (Int.le_refl 0)
        · exact ((hinv₁.offset after hoff).later h₂).later h₃
      rcases read_cases hinv₃.readable after limit eventsAnswered with heq | heq
      · rw [hresult, heq] at he
        cases he
      · rw [hresult, heq] at he ⊢
        have hsafe₃ := hsafe.batch hinv₃.ascending he (Cursor.mem_of_mem_batch he).1
          (List.subset_append_left ..) (List.subset_append_right ..)
        refine hsafe₃.extend h₄.extends_ h₄.events (List.append_subset.mpr ⟨?_, List.subset_append_right ..⟩)
        exact List.Subset.trans h₄.delivered (List.subset_append_left ..)
    refine hbatch _ ?_ _ rfl
    cases answered with
    | false => exact Or.inl rfl
    | true => exact lastAckedSeq_cases fun _ => ⟨rfl, rfl⟩

/-! ### The steps -/

/-- The invariant, while the list grows in order, the counter does not fall and deliveries stay as they are. -/
theorem DeliveryInv.grow {w w' : World StreamStore Deliveries} (h : DeliveryInv json g w) (hrely : DeliveryRely g w w')
    (hread : ∀ e ∈ w'.store.events g.1, json.readEvent e = some e)
    (hasc : Ascending Event.sequenceNo (w'.store.events g.1)) (hpos : ∀ e ∈ w'.store.events g.1, 0 < e.sequenceNo)
    (hcounter : w.store.seq g.1 ≤ w'.store.seq g.1) (hdel : w'.history g = w.history g)
    (hoff : ∀ v, w'.store.offsetOf g = some v → w.store.offsetOf g = some v ∨ SafeOffset g w v) :
    DeliveryInv json g w' := by
  refine ⟨hread, hasc, hpos, Int.le_trans h.counter hcounter, fun v hv => ?_, fun e he => ?_⟩
  · rcases hoff v hv with hold | hsafe
    · exact (h.offset v hold).later hrely
    · exact hsafe.later hrely
  · rw [hdel] at he
    exact (h.delivered e he).later hrely

/-- A command is sent. -/
theorem exec_grows {w : World StreamStore Deliveries} {c : StreamCommand} (h : DeliveryInv json g w)
    (hpromise : DeliveryPromise g c w)
    (horder : ∀ events, c = .rpush g.1 events → ∀ e ∈ events,
      json.readEvent e = some e ∧ ∀ b ∈ w.store.events g.1, b.sequenceNo < e.sequenceNo) :
    DeliveryInv json g { store := (c.exec w.store).2, history := w.history } ∧
      DeliveryRely g w { store := (c.exec w.store).2, history := w.history } := by
  have hcounter : w.store.seq g.1 ≤ (c.exec w.store).2.seq g.1 := by
    rcases StreamCommand.exec_seq c w.store g.1 with heq | ⟨_, heq⟩ <;> omega
  have hoff : ∀ v, (c.exec w.store).2.offsetOf g = some v → w.store.offsetOf g = some v ∨ SafeOffset g w v := by
    intro v hv
    by_cases hc : ∃ v', c = .hset g.1 g.2 v'
    · obtain ⟨v', rfl⟩ := hc
      obtain rfl := Option.some.inj ((StreamCommand.exec_hset_offset (s := w.store)).symm.trans hv)
      exact Or.inr (hpromise rfl)
    · exact Or.inl ((StreamCommand.exec_offset fun v' heq => hc ⟨v', heq⟩).symm.trans hv)
  by_cases hc : c.Rewrites g.1
  · cases c with
    | rpush stream events =>
        obtain rfl : stream = g.1 := hc
        obtain ⟨e, rfl, hpos⟩ := hpromise rfl
        obtain ⟨hback, hbelow⟩ := horder _ rfl e (List.mem_singleton_self e)
        have hlog : ((StreamCommand.rpush g.1 [e]).exec w.store).2.events g.1 = w.store.events g.1 ++ [e] :=
          StreamCommand.exec_rpush_events
        have hrely : DeliveryRely g w
            { store := ((StreamCommand.rpush g.1 [e]).exec w.store).2, history := w.history } := by
          refine ⟨?_, ?_, List.Subset.refl _⟩
          · intro a ha
            rw [hlog] at ha
            rcases List.mem_append.mp ha with hold | hnew
            · exact Or.inl hold
            · rw [List.mem_singleton.mp hnew]
              exact Or.inr ⟨hpos, hbelow⟩
          · rw [hlog]
            exact List.subset_append_left ..
        refine ⟨h.grow hrely ?_ ?_ ?_ hcounter rfl hoff, hrely⟩
        · intro a ha
          rw [hlog] at ha
          rcases List.mem_append.mp ha with hold | hnew
          · exact h.readable a hold
          · rw [List.mem_singleton.mp hnew]
            exact hback
        · rw [hlog]
          exact Cursor.ascending_append_one h.ascending hbelow
        · intro a ha
          rw [hlog] at ha
          rcases List.mem_append.mp ha with hold | hnew
          · exact h.positive a hold
          · rw [List.mem_singleton.mp hnew]
            exact hpos
    | del stream => exact absurd (show stream = g.1 from hc) hpromise
    | _ => cases hc
  · have hlog : (c.exec w.store).2.events g.1 = w.store.events g.1 := StreamCommand.exec_events hc
    have hrely : DeliveryRely g w { store := (c.exec w.store).2, history := w.history } := by
      refine ⟨?_, ?_, List.Subset.refl _⟩
      · rw [hlog]
        exact Extends.refl
      · rw [hlog]
        exact List.Subset.refl _
    refine ⟨h.grow hrely ?_ ?_ ?_ hcounter rfl hoff, hrely⟩
    · rw [hlog]
      exact h.readable
    · rw [hlog]
      exact h.ascending
    · rw [hlog]
      exact h.positive

/-- What a returning call adds to the deliveries of the group. -/
theorem delivered_cases (i : Nat) (call : StreamCall) (a : StreamAnswer) (h : Deliveries) :
    delivered i call a h g = h g ∨
      ∃ result, a = .events result ∧ call.ReadsNext g ∧ delivered i call a h g = h g ++ result := by
  unfold delivered
  split
  · rename_i stream consumerGroup _ _ _ _ result
    by_cases hg : (stream, consumerGroup) = g
    · subst hg
      exact Or.inr ⟨result, rfl, rfl, Function.update_self ..⟩
    · exact Or.inl (Function.update_of_ne (Ne.symm hg) ..)
  · exact Or.inl rfl

/-- A call returns. -/
theorem finish_delivers {w : World StreamStore Deliveries} {i : Nat} {call : StreamCall} {a : StreamAnswer}
    (h : DeliveryInv json g w) (hresult : DeliveryResult g call a w) :
    DeliveryInv json g { store := w.store, history := delivered i call a w.history } ∧
      DeliveryRely g w { store := w.store, history := delivered i call a w.history } := by
  have hsub : w.history g ⊆ delivered i call a w.history g := by
    rcases delivered_cases i call a w.history with heq | ⟨result, _, _, heq⟩ <;> rw [heq]
    · exact List.Subset.refl _
    · exact List.subset_append_left ..
  have hrely : DeliveryRely g w { store := w.store, history := delivered i call a w.history } :=
    ⟨Extends.refl, List.Subset.refl _, hsub⟩
  refine ⟨⟨h.readable, h.ascending, h.positive, h.counter, fun v hv => (h.offset v hv).later hrely, fun e he => ?_⟩,
    hrely⟩
  have hmem : e ∈ delivered i call a w.history g := he
  rcases delivered_cases (g := g) i call a w.history with heq | ⟨result, ha, hnext, heq⟩
  · rw [heq] at hmem
    exact (h.delivered e hmem).later hrely
  · rw [heq] at hmem
    rcases List.mem_append.mp hmem with hold | hnew
    · exact (h.delivered e hold).later hrely
    · -- what is returned to the group is safe to acknowledge, once it counts as delivered
      show Passed _ _ _ (delivered i call a w.history g) _
      rw [heq]
      exact (hresult result ha).2 hnext e hnew

/-- Every step that keeps the list in order keeps to the discipline. -/
theorem delivery_obeyed :
    (deliveryDiscipline json g).Obeyed deliveryRecorder streamServer (StreamCall.program json)
      ((deliverySystem json g).restrict (InOrder json g)) where
  next h := h.1.1
  refl _ := DeliveryRely.refl
  trans _ _ _ _ := DeliveryRely.trans
  idle _ _ := trivial
  init := by
    rintro o ⟨hempty, hclients, hhist⟩
    have hw : o.world = { store := .empty, history := fun _ => [] } := by
      unfold Observed.world
      rw [hempty, hhist]
    rw [hw]
    refine ⟨hclients, ⟨fun _ h => ?_, List.Pairwise.nil, fun _ h => ?_, Int.le_refl 0, fun _ h => ?_, fun _ h => ?_⟩,
      fun _ => trivial⟩
    · cases h
    · cases h
    · cases h
    · cases h
  start := by
    intro o i call o' h hstep _
    obtain ⟨hprune, hack⟩ := hstep.1.2 i call rfl
    refine ⟨⟨h.inv, fun _ _ => DeliveryRely.refl _⟩, ?_⟩
    show (deliveryDiscipline json g).Keeps deliveryRecorder streamServer i call (call.program json) o.world
    cases call with
    | publish now stream event => exact publish_keeps
    | ack now stream consumerGroup seq answered =>
        refine ack_keeps_safe ?_
        rintro rfl
        -- a number that the group acknowledges is one that it has received
        obtain ⟨e, he, rfl⟩ := hack now seq answered rfl
        exact h.inv.delivered e he
    | readEvents stream afterSeq limit answered => exact readEvents_keeps
    | readNext now stream consumerGroup limit answered timesAnswered eventsAnswered => exact readNext_keeps
    | pruneEvents stream throughSeq offsetsAnswered eventsAnswered =>
        have hne : stream ≠ g.1 := fun heq => hprune _ _ _ (by rw [heq])
        refine quiet_keeps (fun h => h) ?_
        rintro c (rfl | rfl | rfl | rfl | ⟨events, rfl⟩) w
        · trivial
        · trivial
        · exact hne
        · trivial
        · exact fun heq => absurd heq hne
    | consumerGroupInfo now stream answered timesAnswered =>
        refine quiet_keeps (fun h => h) ?_
        rintro c (rfl | rfl) w <;> trivial
  exec := by
    intro o i call c k r σ' o' h hstep hi hexec hpromise
    obtain ⟨rfl, rfl⟩ := streamServer_exec hexec
    have hgrows := exec_grows h.inv hpromise fun events heq => by
      subst heq
      exact hstep.2 i call events k rfl hi
    exact ⟨hgrows.1, fun _ _ => hgrows.2⟩
  finish := by
    intro o i call a o' h _ _ hresult
    have hdelivers := finish_delivers (i := i) h.inv hresult
    exact ⟨⟨hdelivers.1, fun _ _ => hdelivers.2⟩, trivial⟩
  crash h _ _ _ := ⟨⟨h.inv, fun _ _ => DeliveryRely.refl _⟩, trivial⟩

end Discipline

/-- **When a group misses no event.** In every run in which each event is appended above the numbers that the list has,
    and comes back as it was written: in every state, every event that the group's offset has passed was delivered to the
    group, and whatever was read from the stream ascends. -/
theorem delivery_law {json : Json} {g : Group} {o : StreamPool Deliveries}
    (ho : ((deliverySystem json g).restrict (InOrder json g)).Reachable o) : DeliveryLaw g o := by
  have h := delivery_obeyed.holds ho
  constructor
  · intro v hv e he hle
    exact (h.inv.offset v hv).covered e he hle
  · intro i call result hi hreads
    exact (delivery_obeyed.result_of h hi result rfl).1 hreads

/-! ### Two publishers and a consumer -/

section Runs

variable {json : Json} {g : Group} {o o' : StreamPool Deliveries} {move : StreamMove}

/-- The move starts no pruning of the group's stream, and no acknowledgement of what the group has not received. -/
def keepsRules (g : Group) (o : StreamPool Deliveries) : StreamMove → Bool
  | .start _ (.pruneEvents stream _ _ _) => stream != g.1
  | .start _ (.ack _ stream consumerGroup seq _) =>
      (stream, consumerGroup) != g || (o.history g).any (fun e => e.sequenceNo == seq)
  | _ => true

theorem consumes_of_keepsRules (h : keepsRules g o move = true) : Consumes g o move o' := by
  rintro i call rfl
  refine ⟨?_, ?_⟩
  · rintro throughSeq offsetsAnswered eventsAnswered rfl
    simp [keepsRules] at h
  · rintro now seq answered rfl
    simpa [keepsRules] using h

/-- What the move appends to the group's stream comes back, and is above all that is there. -/
def appendsAbove (json : Json) (g : Group) (o : StreamPool Deliveries) : StreamMove → Bool
  | .exec i =>
      match o.pool.client i with
      | some (_, .call (.rpush stream events) _) =>
          stream != g.1 || events.all (fun e => json.readEvent e == some e &&
            (o.pool.store.events g.1).all (fun b => decide (b.sequenceNo < e.sequenceNo)))
      | _ => true
  | _ => true

theorem inOrder_of_appendsAbove (h : appendsAbove json g o move = true) : InOrder json g o move o' := by
  rintro i call events k rfl hi e he
  simp only [appendsAbove, hi, bne_self_eq_false, Bool.false_or, List.all_eq_true, Bool.and_eq_true, beq_iff_eq,
    decide_eq_true_eq] at h
  exact h e he

end Runs

/-- The consumer group of the run. -/
def billing : Group := ("orders", "billing")

/-- An order. -/
def placed (payload : Value) : NewEvent := { eventType := "placed", payloadJson := payload }

/-- A server that has just been started, and nothing was delivered. -/
def idleStreams : StreamPool Deliveries :=
  { pool := { store := .empty, client := fun _ => none }, history := fun _ => [] }

/-- Publishers 0 and 1 are numbered 1 and 2, and the second appends first. The consumer reads event 2 and acknowledges
    it. Then the first publisher appends. -/
def lateAppend : List StreamMove :=
  [.start 0 (.publish 0 "orders" (placed "a")), .start 1 (.publish 0 "orders" (placed "b")),
    .exec 0, .exec 1, .exec 1,
    .start 2 (.readNext 1 "orders" "billing" 10 true true true), .exec 2, .exec 2, .exec 2, .finish 2,
    .start 2 (.ack 2 "orders" "billing" 2 true), .exec 2, .exec 2, .exec 0]

/-- That run after `n` of its moves. -/
def lateAppendAfter (n : Nat) : StreamPool Deliveries :=
  (deliveryRecorder.run streamServer (StreamCall.program .plain) idleStreams (lateAppend.take n)).getD idleStreams

theorem idleStreams_reachable (g : Group) : (deliverySystem .plain g).Reachable idleStreams :=
  .start ⟨rfl, fun _ => rfl, rfl⟩

/-- Event 1 is in the list, below the group's offset, and was never delivered. -/
theorem late_event_missed :
    (deliverySystem .plain billing).Reachable (lateAppendAfter 14) ∧
    (lateAppendAfter 14).pool.store.offsetOf billing = some 2 ∧
    ((lateAppendAfter 14).pool.store.events "orders").map (·.sequenceNo) = [2, 1] ∧
    ((lateAppendAfter 14).history billing).map (·.sequenceNo) = [2] ∧
    ¬DeliveryLaw billing (lateAppendAfter 14) := by
  have hend : (deliverySystem .plain billing).Reachable (lateAppendAfter 14) :=
    Recorder.reachable_along (keepsRules billing) (fun hmove hnext => ⟨hnext, consumes_of_keepsRules hmove⟩)
      lateAppend rfl (idleStreams_reachable billing) rfl
  have hoff : (lateAppendAfter 14).pool.store.offsetOf billing = some 2 := by decide
  refine ⟨hend, hoff, by decide, by decide, fun hlaw => ?_⟩
  have hin := hlaw.delivered 2 hoff (eventEntity 0 "orders" (placed "a") 1) (by decide) (by decide)
  revert hin
  decide

/-- The two publishers append in the order of their numbers. The consumer reads both events and acknowledges the second,
    while another client has read them too. -/
def appendInOrder : List StreamMove :=
  [.start 0 (.publish 0 "orders" (placed "a")), .start 1 (.publish 0 "orders" (placed "b")),
    .exec 0, .exec 1, .exec 0, .exec 1, .finish 0, .finish 1,
    .start 2 (.readNext 1 "orders" "billing" 10 true true true), .exec 2, .exec 2, .exec 2, .finish 2,
    .start 3 (.readEvents "orders" 0 10 true), .exec 3,
    .start 2 (.ack 2 "orders" "billing" 2 true), .exec 2, .exec 2, .exec 2, .finish 2]

/-- The end of that run. -/
def appendedInOrder : StreamPool Deliveries :=
  (deliveryRecorder.run streamServer (StreamCall.program .plain) idleStreams appendInOrder).getD idleStreams

/-- Both events were delivered when the offset passed them. -/
theorem two_events_delivered :
    appendedInOrder.pool.store.offsetOf billing = some 2 ∧
    (appendedInOrder.history billing).map (·.sequenceNo) = [1, 2] ∧ DeliveryLaw billing appendedInOrder := by
  have hstart : ((deliverySystem .plain billing).restrict (InOrder .plain billing)).Reachable idleStreams :=
    .start ⟨rfl, fun _ => rfl, rfl⟩
  have hend : ((deliverySystem .plain billing).restrict (InOrder .plain billing)).Reachable appendedInOrder :=
    Recorder.reachable_along (fun o move => keepsRules billing o move && appendsAbove .plain billing o move)
      (fun hmove hnext => ⟨⟨hnext, consumes_of_keepsRules (Bool.and_eq_true_iff.mp hmove).1⟩,
        inOrder_of_appendsAbove (Bool.and_eq_true_iff.mp hmove).2⟩)
      appendInOrder rfl hstart rfl
  exact ⟨by decide, by decide, delivery_law hend⟩

end Azums.Redis.Streams
