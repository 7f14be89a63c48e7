import Azums.Redis.Streams

/-!
# `Redis.Pruning` — when pruning loses no event

`prune_events` reads the offsets of the groups, which give it its cutoff, and the whole list of events; then it deletes
the list, and pushes back the events above the cutoff. What was appended after it read the list is deleted with it, and
between the deletion and the push the events that it keeps are nowhere but in the client.

`prune_law` says when nothing above the cutoffs is lost: in every run in which a list is deleted only while it holds
what the pruning client has read of it, above all cutoffs computed so far, and in which no client dies between its
deletion and its push. Then every event above the cutoffs is in the list once, whenever no pruning is going on.
`append_lost` is a run that breaks it: an event is appended between the reading and the deletion.

The invariant is about the place of an event: once in the list, or once with one client that is about to push it back.
-/

namespace Azums.Redis.Streams

/-! ## History -/

/-- What has happened to a stream: the events that were appended by `publish`, and the cutoffs that were computed; and
    for each client the number it has taken for an event, the cutoff and the list that it has read, and the events that it
    has deleted and is to push back. -/
structure PruneHistory where
  published : List Event
  cutoffs : List Int
  taken : Nat → Option Int
  cutoff : Nat → Int
  read : Nat → List Event
  pending : Nat → List Event

/-- Nothing has happened. -/
def PruneHistory.first : PruneHistory :=
  { published := [], cutoffs := [], taken := fun _ => none, cutoff := fun _ => 0, read := fun _ => [],
    pending := fun _ => [] }

namespace PruneHistory

/-- The client takes a number. -/
def take (h : PruneHistory) (i : Nat) (n : Int) : PruneHistory := { h with taken := Function.update h.taken i (some n) }

/-- The client appends what it publishes. -/
def append (h : PruneHistory) (i : Nat) (events : List Event) : PruneHistory :=
  { h with published := h.published ++ events, taken := Function.update h.taken i none }

/-- The client computes its cutoff. -/
def compute (h : PruneHistory) (i : Nat) (cutoff : Int) : PruneHistory :=
  { h with cutoffs := h.cutoffs ++ [cutoff], cutoff := Function.update h.cutoff i cutoff }

/-- The client reads the list. -/
def look (h : PruneHistory) (i : Nat) (events : List Event) : PruneHistory :=
  { h with read := Function.update h.read i events }

/-- The client deletes the list, and is to push back what it keeps of what it has read. -/
def delete (json : Json) (h : PruneHistory) (i : Nat) : PruneHistory :=
  { h with pending := Function.update h.pending i ((h.read i).filter (retains json (h.cutoff i))) }

/-- The client pushes back what it keeps. -/
def push (h : PruneHistory) (i : Nat) : PruneHistory := { h with pending := Function.update h.pending i [] }

/-- A client dies, and what it was to push back is gone. -/
def lose (i : Nat) (h : PruneHistory) : PruneHistory :=
  { h with taken := Function.update h.taken i none, pending := Function.update h.pending i [] }

/-- A command of `publish` or `prune_events` on the stream is sent. -/
def sent (json : Json) (stream : String) (i : Nat) (call : StreamCall) (c : StreamCommand) (_ : StreamStore)
    (r : c.Reply) (h : PruneHistory) : PruneHistory :=
  match call, c, r with
  | .publish .., .incr s, n => if s = stream then h.take i n else h
  | .publish .., .rpush s events, _ => if s = stream then h.append i events else h
  | .pruneEvents _ throughSeq offsetsAnswered _, .hgetall s, r =>
      if s = stream then h.compute i (pruneCutoff (offsetValues offsetsAnswered r) throughSeq) else h
  | .pruneEvents _ _ _ eventsAnswered, .lrange s, r =>
      if s = stream then h.look i (if eventsAnswered then r else []) else h
  | .pruneEvents .., .del s, _ => if s = stream then h.delete json i else h
  | .pruneEvents .., .rpush s _, _ => if s = stream then h.push i else h
  | _, _, _ => h

end PruneHistory

/-- How the history follows the calls. -/
def pruneRecorder (json : Json) (stream : String) :
    Recorder Nat StreamCall StreamCommand StreamCommand.Reply StreamAnswer StreamStore PruneHistory where
  exec := PruneHistory.sent json stream
  crash := PruneHistory.lose

/-- Clients and their server, from a server with nothing in it. -/
def pruneSystem (json : Json) (stream : String) : System (StreamPool PruneHistory) StreamMove :=
  (pruneRecorder json stream).system streamServer (StreamCall.program json) (fun s => s = .empty) (fun _ => .first)

/-! ## The law -/

/-- The event is above every cutoff that was computed. -/
def PruneHistory.Above (h : PruneHistory) (e : Event) : Prop := ∀ c ∈ h.cutoffs, c < e.sequenceNo

/-- A call prunes the stream. -/
def StreamCall.Prunes (stream : String) : StreamCall → Prop
  | .pruneEvents stream' _ _ _ => stream' = stream
  | _ => False

/-- While no pruning of the stream is going on, every published event above the cutoffs is in the list exactly once. -/
def PruneLaw (stream : String) (o : StreamPool PruneHistory) : Prop :=
  (∀ i call p, o.pool.client i = some (call, p) → ¬call.Prunes stream) →
    ∀ e ∈ o.history.published, o.history.Above e → (o.pool.store.events stream).count e = 1

/-- The steps that lose nothing: a client deletes the list while it holds, above the cutoffs, what the client has read of
    it; and a client that has deleted the list does not die before it has pushed back what it keeps. -/
structure SafePrune (stream : String) (o : StreamPool PruneHistory) (move : StreamMove)
    (_ : StreamPool PruneHistory) : Prop where
  delete : ∀ i call k, move = .exec i → o.pool.client i = some (call, .call (.del stream) k) →
    ∀ e ∈ o.history.published, o.history.Above e →
      (o.history.read i).count e = (o.pool.store.events stream).count e
  survive : ∀ i call events k, move = .crash i → call.Prunes stream →
    o.pool.client i ≠ some (call, .call (.rpush stream events) k)

/-! ## The discipline of the calls -/

section Discipline

variable {json : Json} {stream : String}

/-- The event is in one place: once in the list, or once with one client that is to push it back. -/
def OnePlace (log : List Event) (pending : Nat → List Event) (e : Event) : Prop :=
  (log.count e = 1 ∧ ∀ i, e ∉ pending i) ∨
    (e ∉ log ∧ ∃ i, (pending i).count e = 1 ∧ ∀ j, j ≠ i → e ∉ pending j)

/-- Numbers are taken once, what is read or kept was published, and every event above the cutoffs is in one place. -/
structure PruneInv (stream : String) (w : World StreamStore PruneHistory) : Prop where
  listed : w.store.events stream ⊆ w.history.published
  read : ∀ i, w.history.read i ⊆ w.history.published
  pending : ∀ i, w.history.pending i ⊆ w.history.published
  distinct : (w.history.published.map Event.sequenceNo).Nodup
  counted : ∀ e ∈ w.history.published, e.sequenceNo ≤ w.store.seq stream
  taken : ∀ i n, w.history.taken i = some n →
    n ≤ w.store.seq stream ∧ ∀ e ∈ w.history.published, e.sequenceNo ≠ n
  apart : ∀ i j n, w.history.taken i = some n → w.history.taken j = some n → i = j
  once : ∀ e ∈ w.history.published, w.history.Above e → OnePlace (w.store.events stream) w.history.pending e

/-- What client `i` relies on: the others keep to their own part of the history, and a cutoff stays. -/
structure PruneRely (i : Nat) (w w' : World StreamStore PruneHistory) : Prop where
  taken : w'.history.taken i = w.history.taken i
  cutoff : w'.history.cutoff i = w.history.cutoff i
  read : w'.history.read i = w.history.read i
  pending : w'.history.pending i = w.history.pending i
  cutoffs : w.history.cutoffs ⊆ w'.history.cutoffs

/-- What a client promises: `publish` appends the event under the number it has taken, `prune_events` goes by a cutoff
    that was computed and pushes back what it is to push back, and otherwise nothing is to be pushed back. -/
def PrunePromise (stream : String) (i : Nat) (call : StreamCall) (c : StreamCommand)
    (w : World StreamStore PruneHistory) : Prop :=
  match c with
  | .rpush s events => (s ≠ stream → w.history.pending i = []) ∧ (s = stream →
      ((∃ now event e, call = .publish now stream event ∧ events = [e] ∧ w.history.taken i = some e.sequenceNo) ∧
        w.history.pending i = []) ∨
      ((∃ throughSeq a b, call = .pruneEvents stream throughSeq a b) ∧ events = w.history.pending i))
  | .incr s => w.history.pending i = [] ∧ (s = stream → ∃ now event, call = .publish now stream event)
  | .del s => w.history.pending i = [] ∧ (s = stream → w.history.cutoff i ∈ w.history.cutoffs ∧
      ∃ throughSeq a b, call = .pruneEvents stream throughSeq a b)
  | _ => w.history.pending i = []

/-- The client has nothing to push back and no number to use. -/
def Clear (i : Nat) (w : World StreamStore PruneHistory) : Prop :=
  w.history.pending i = [] ∧ w.history.taken i = none

/-- The discipline of the calls. -/
def pruneDiscipline (stream : String) :
    Discipline Nat StreamCall StreamCommand StreamAnswer StreamStore PruneHistory where
  inv := PruneInv stream
  idle := Clear
  rely := PruneRely
  promise := PrunePromise stream
  result i _ _ := Clear i

theorem PruneRely.refl (i : Nat) (w : World StreamStore PruneHistory) : PruneRely i w w :=
  ⟨rfl, rfl, rfl, rfl, List.Subset.refl _⟩

theorem PruneRely.trans {i : Nat} {w w' w'' : World StreamStore PruneHistory} (h : PruneRely i w w')
    (h' : PruneRely i w' w'') : PruneRely i w w'' :=
  ⟨h'.taken.trans h.taken, h'.cutoff.trans h.cutoff, h'.read.trans h.read, h'.pending.trans h.pending,
    List.Subset.trans h.cutoffs h'.cutoffs⟩

theorem Clear.later {i : Nat} {w w' : World StreamStore PruneHistory} (h : Clear i w) (hrely : PruneRely i w w') :
    Clear i w' :=
  ⟨hrely.pending.trans h.1, hrely.taken.trans h.2⟩

/-! ### What a command leaves of the history -/

section Sent

variable {i j : Nat} {call : StreamCall} {c : StreamCommand} {s : StreamStore} {r : c.Reply} {h : PruneHistory}

/-- A command is no other client's business, and no cutoff is forgotten. -/
theorem sent_rely (hj : j ≠ i) {s' : StreamStore} :
    PruneRely j { store := s, history := h }
      { store := s', history := PruneHistory.sent json stream i call c s r h } := by
  have hne : ∀ {β : Type} (f : Nat → β) (b : β), Function.update f i b j = f j := fun f b => Function.update_of_ne hj ..
  have hrefl : PruneRely j { store := s, history := h } { store := s', history := h } :=
    ⟨rfl, rfl, rfl, rfl, List.Subset.refl _⟩
  show PruneRely j _ { store := s', history := PruneHistory.sent json stream i call c s r h }
  unfold PruneHistory.sent
  split
  · split
    · exact ⟨hne .., rfl, rfl, rfl, List.Subset.refl _⟩
    · exact hrefl
  · split
    · exact ⟨hne .., rfl, rfl, rfl, List.Subset.refl _⟩
    · exact hrefl
  · split
    · exact ⟨rfl, hne .., rfl, rfl, List.subset_append_left ..⟩
    · exact hrefl
  · split
    · exact ⟨rfl, rfl, hne .., rfl, List.Subset.refl _⟩
    · exact hrefl
  · split
    · exact ⟨rfl, rfl, rfl, hne .., List.Subset.refl _⟩
    · exact hrefl
  · split
    · exact ⟨rfl, rfl, rfl, hne .., List.Subset.refl _⟩
    · exact hrefl
  · exact hrefl

/-- The command is about another stream, or about offsets and times. -/
def StreamCommand.Elsewhere (stream : String) : StreamCommand → Prop
  | .incr s | .rpush s _ | .lrange s | .del s | .hgetall s => s ≠ stream
  | _ => True

theorem sent_elsewhere (hc : c.Elsewhere stream) : PruneHistory.sent json stream i call c s r h = h := by
  unfold PruneHistory.sent
  split
  · exact if_neg hc
  · exact if_neg hc
  · exact if_neg hc
  · exact if_neg hc
  · exact if_neg hc
  · exact if_neg hc
  · rfl

end Sent

/-! ### The calls -/

section Keeps

variable {i : Nat} {w : World StreamStore PruneHistory}

/-- A call that leaves the history alone has nothing to push back at any time. -/
theorem clear_keeps {call : StreamCall}
    (hsent : ∀ c, call.Sends c → ∀ s r h, PruneHistory.sent json stream i call c s r h = h)
    (hpromise : ∀ c, call.Sends c → ∀ w, Clear i w → PrunePromise stream i call c w) (hclear : Clear i w) :
    (pruneDiscipline stream).Keeps (pruneRecorder json stream) streamServer i call (call.program json) w := by
  refine Discipline.keeps_of_avoids (P := fun c => ¬call.Sends c) (I := Clear i)
    (fun w w' h hI => Clear.later hI h) (fun c w hc hI => hpromise c (not_not.mp hc) w hI) (fun _ _ hI => hI) ?_ _ w
    (StreamCall.program_avoids fun c hc => not_not.mpr hc) hclear
  intro c w r σ' hc hI _
  show Clear i { store := σ', history := PruneHistory.sent json stream i call c w.store r w.history }
  rw [hsent c (not_not.mp hc)]
  exact hI

theorem publish_keeps_number {now : DateTime} {event : NewEvent} (hclear : Clear i w) :
    (pruneDiscipline stream).Keeps (pruneRecorder json stream) streamServer i (.publish now stream event)
      (publish now stream event) w := by
  intro w₁ h₁ _
  have hclear₁ := hclear.later h₁
  refine ⟨⟨hclear₁.1, fun _ => ⟨now, event, rfl⟩⟩, fun n σ₁ _ _ => ?_⟩
  intro w₂ h₂ _
  have hsent₁ : (pruneRecorder json stream).exec i (.publish now stream event) (.incr stream) w₁.store n w₁.history =
      w₁.history.take i n := if_pos rfl
  rw [hsent₁] at h₂
  have htaken : w₂.history.taken i = some n := h₂.taken.trans (Function.update_self ..)
  have hpending : w₂.history.pending i = [] := h₂.pending.trans hclear₁.1
  refine ⟨⟨fun _ => hpending, fun _ => Or.inl ⟨⟨now, event, _, rfl, rfl, htaken⟩, hpending⟩⟩, fun r σ₂ _ _ => ?_⟩
  intro w₃ h₃ _
  have hsent₂ : (pruneRecorder json stream).exec i (.publish now stream event)
      (.rpush stream [eventEntity now stream event n]) w₂.store r w₂.history =
      w₂.history.append i [eventEntity now stream event n] := if_pos rfl
  rw [hsent₂] at h₃
  exact ⟨h₃.pending.trans hpending, h₃.taken.trans (Function.update_self ..)⟩

/-- The end of `prune_events`: what was deleted and is kept is pushed back. -/
theorem pushBack_keeps {throughSeq : Int} {a b : Bool} {before : Nat} {retained : List Event}
    (hpending : w.history.pending i = retained) (htaken : w.history.taken i = none) :
    (pruneDiscipline stream).Keeps (pruneRecorder json stream) streamServer i (.pruneEvents stream throughSeq a b)
      (pushBack stream before retained) w := by
  have hlast : ∀ (w : World StreamStore PruneHistory), Clear i w →
      (pruneDiscipline stream).Keeps (pruneRecorder json stream) streamServer i (.pruneEvents stream throughSeq a b)
        (do let after ← Streams.llen stream; return .removed (before - after)) w := by
    intro w hclear w₁ h₁ _
    have hclear₁ := hclear.later h₁
    refine ⟨hclear₁.1, fun n σ₁ _ _ w₂ h₂ _ => ?_⟩
    exact ⟨h₂.pending.trans hclear₁.1, h₂.taken.trans hclear₁.2⟩
  unfold pushBack
  by_cases hnil : retained.isEmpty = true
  · rw [if_pos hnil]
    rw [List.isEmpty_iff.mp hnil] at hpending
    exact hlast w ⟨hpending, htaken⟩
  · rw [if_neg hnil]
    intro w₁ h₁ _
    have hpush : retained = w₁.history.pending i := (h₁.pending.trans hpending).symm
    refine ⟨⟨fun h => absurd rfl h, fun _ => Or.inr ⟨⟨throughSeq, a, b, rfl⟩, hpush⟩⟩, fun r σ₁ _ _ => ?_⟩
    refine hlast _ ?_
    have hsent : (pruneRecorder json stream).exec i (.pruneEvents stream throughSeq a b) (.rpush stream retained)
        w₁.store r w₁.history = w₁.history.push i := if_pos rfl
    rw [hsent]
    exact ⟨Function.update_self .., h₁.taken.trans htaken⟩

theorem pruneEvents_keeps {throughSeq : Int} {offsetsAnswered eventsAnswered : Bool} (hclear : Clear i w) :
    (pruneDiscipline stream).Keeps (pruneRecorder json stream) streamServer i
      (.pruneEvents stream throughSeq offsetsAnswered eventsAnswered)
      (pruneEvents json stream throughSeq offsetsAnswered eventsAnswered) w := by
  intro w₁ h₁ _
  have hclear₁ := hclear.later h₁
  refine ⟨hclear₁.1, fun offsets σ₁ _ _ => ?_⟩
  -- the cutoff is computed from the offsets
  intro w₂ h₂ _
  have hsent₁ : (pruneRecorder json stream).exec i (.pruneEvents stream throughSeq offsetsAnswered eventsAnswered)
      (.hgetall stream) w₁.store offsets w₁.history =
      w₁.history.compute i (pruneCutoff (offsetValues offsetsAnswered offsets) throughSeq) := if_pos rfl
  rw [hsent₁] at h₂
  have hcutoff : w₂.history.cutoff i = pruneCutoff (offsetValues offsetsAnswered offsets) throughSeq :=
    h₂.cutoff.trans (Function.update_self ..)
  have hcomputed : w₂.history.cutoff i ∈ w₂.history.cutoffs := by
    rw [hcutoff]
    exact h₂.cutoffs (List.mem_append_right _ (List.mem_singleton_self _))
  have hclear₂ : Clear i w₂ := ⟨h₂.pending.trans hclear₁.1, h₂.taken.trans hclear₁.2⟩
  refine ⟨hclear₂.1, fun log σ₂ _ _ => ?_⟩
  -- the list is read
  intro w₃ h₃ _
  have hsent₂ : (pruneRecorder json stream).exec i (.pruneEvents stream throughSeq offsetsAnswered eventsAnswered)
      (.lrange stream) w₂.store log w₂.history = w₂.history.look i (if eventsAnswered then log else []) := if_pos rfl
  rw [hsent₂] at h₃
  have hread : w₃.history.read i = if eventsAnswered then log else [] := h₃.read.trans (Function.update_self ..)
  have hcutoff₃ : w₃.history.cutoff i = w₂.history.cutoff i := h₃.cutoff
  refine ⟨⟨h₃.pending.trans hclear₂.1, fun _ => ⟨?_, throughSeq, offsetsAnswered, eventsAnswered, rfl⟩⟩,
    fun r σ₃ _ _ => ?_⟩
  · rw [hcutoff₃]
    exact h₃.cutoffs hcomputed
  · -- the list is deleted, and what is kept of it is pushed back
    have hsent₃ : (pruneRecorder json stream).exec i (.pruneEvents stream throughSeq offsetsAnswered eventsAnswered)
        (.del stream) w₃.store r w₃.history = w₃.history.delete json i := if_pos rfl
    rw [hsent₃]
    refine pushBack_keeps ?_ (h₃.taken.trans hclear₂.2)
    show Function.update w₃.history.pending i ((w₃.history.read i).filter (retains json (w₃.history.cutoff i))) i = _
    rw [Function.update_self, hread, hcutoff₃, hcutoff]

/-- Every call keeps its promises. -/
theorem call_keeps (call : StreamCall) (hclear : Clear i w) :
    (pruneDiscipline stream).Keeps (pruneRecorder json stream) streamServer i call (call.program json) w := by
  cases call with
  | publish now stream' event =>
      by_cases hs : stream' = stream
      · subst hs
        exact publish_keeps_number hclear
      · refine clear_keeps ?_ ?_ hclear
        · rintro c (rfl | ⟨events, rfl⟩) s r h <;> exact sent_elsewhere hs
        · rintro c (rfl | ⟨events, rfl⟩) w hclear
          · exact ⟨hclear.1, fun h => absurd h hs⟩
          · exact ⟨fun _ => hclear.1, fun h => absurd h hs⟩
  | pruneEvents stream' throughSeq offsetsAnswered eventsAnswered =>
      by_cases hs : stream' = stream
      · subst hs
        exact pruneEvents_keeps hclear
      · refine clear_keeps ?_ ?_ hclear
        · rintro c (rfl | rfl | rfl | rfl | ⟨events, rfl⟩) s r h
          · exact sent_elsewhere hs
          · exact sent_elsewhere hs
          · exact sent_elsewhere hs
          · rfl
          · exact sent_elsewhere hs
        · rintro c (rfl | rfl | rfl | rfl | ⟨events, rfl⟩) w hclear
          · exact hclear.1
          · exact hclear.1
          · exact ⟨hclear.1, fun h => absurd h hs⟩
          · exact hclear.1
          · exact ⟨fun _ => hclear.1, fun h => absurd h hs⟩
  | ack now stream' consumerGroup seq answered =>
      refine clear_keeps ?_ ?_ hclear
      · rintro c (rfl | ⟨v, rfl⟩ | ⟨t, rfl⟩) s r h <;> rfl
      · rintro c (rfl | ⟨v, rfl⟩ | ⟨t, rfl⟩) w hclear <;> exact hclear.1
  | readEvents stream' afterSeq limit answered =>
      refine clear_keeps ?_ ?_ hclear
      · rintro c rfl s r h
        rfl
      · rintro c rfl w hclear
        exact hclear.1
  | readNext now stream' consumerGroup limit answered timesAnswered eventsAnswered =>
      refine clear_keeps ?_ ?_ hclear
      · rintro c (rfl | rfl | rfl) s r h <;> rfl
      · rintro c (rfl | rfl | rfl) w hclear <;> exact hclear.1
  | consumerGroupInfo now stream' answered timesAnswered =>
      refine clear_keeps ?_ ?_ hclear
      · rintro c (rfl | rfl) s r h <;> rfl
      · rintro c (rfl | rfl) w hclear <;> exact hclear.1

end Keeps

/-! ### The steps -/

section Steps

variable {i : Nat} {s s' : StreamStore} {h : PruneHistory}

/-- Nothing happens to the stream. -/
theorem PruneInv.frame (hinv : PruneInv stream { store := s, history := h }) (hlog : s'.events stream = s.events stream)
    (hseq : s'.seq stream = s.seq stream) : PruneInv stream { store := s', history := h } := by
  constructor
  · show s'.events stream ⊆ h.published
    rw [hlog]
    exact hinv.listed
  · exact hinv.read
  · exact hinv.pending
  · exact hinv.distinct
  · intro e he
    show e.sequenceNo ≤ s'.seq stream
    rw [hseq]
    exact hinv.counted e he
  · intro j n hj
    show n ≤ s'.seq stream ∧ _
    rw [hseq]
    exact hinv.taken j n hj
  · exact hinv.apart
  · intro e he habove
    show OnePlace (s'.events stream) h.pending e
    rw [hlog]
    exact hinv.once e he habove

/-- A publisher takes a number that nothing has. -/
theorem PruneInv.take (hinv : PruneInv stream { store := s, history := h }) :
    PruneInv stream { store := ((StreamCommand.incr stream).exec s).2, history := h.take i (s.seq stream + 1) } := by
  have hseq : ((StreamCommand.incr stream).exec s).2.seq stream = s.seq stream + 1 := Function.update_self ..
  have hcases : ∀ j n, (h.take i (s.seq stream + 1)).taken j = some n →
      j = i ∧ n = s.seq stream + 1 ∨ j ≠ i ∧ h.taken j = some n := by
    intro j n hj
    by_cases hji : j = i
    · subst hji
      have hnew : (h.take j (s.seq stream + 1)).taken j = some (s.seq stream + 1) := Function.update_self ..
      exact Or.inl ⟨rfl, (Option.some.inj (hnew.symm.trans hj)).symm⟩
    · exact Or.inr ⟨hji, (Function.update_of_ne hji ..).symm.trans hj⟩
  have hcounted : ∀ e ∈ h.published, e.sequenceNo ≤ s.seq stream := hinv.counted
  refine ⟨hinv.listed, hinv.read, hinv.pending, hinv.distinct, ?_, ?_, ?_, hinv.once⟩
  · intro e he
    have hle := hcounted e he
    show e.sequenceNo ≤ ((StreamCommand.incr stream).exec s).2.seq stream
    omega
  · intro j n hj
    show n ≤ ((StreamCommand.incr stream).exec s).2.seq stream ∧ _
    rcases hcases j n hj with ⟨_, rfl⟩ | ⟨_, hold⟩
    · refine ⟨by omega, fun e he heq => ?_⟩
      have hle := hcounted e he
      omega
    · have hle : n ≤ s.seq stream := (hinv.taken j n hold).1
      exact ⟨by omega, (hinv.taken j n hold).2⟩
  · intro j j' n hj hj'
    rcases hcases j n hj with ⟨rfl, rfl⟩ | ⟨_, hold⟩ <;> rcases hcases j' _ hj' with ⟨rfl, heq⟩ | ⟨_, hold'⟩
    · rfl
    · have hle : s.seq stream + 1 ≤ s.seq stream := (hinv.taken j' _ hold').1
      omega
    · have hle : n ≤ s.seq stream := (hinv.taken j n hold).1
      omega
    · exact hinv.apart j j' n hold hold'

/-- A published event goes to the end of the list. -/
theorem PruneInv.append {e : Event} (hinv : PruneInv stream { store := s, history := h })
    (htaken : h.taken i = some e.sequenceNo) :
    PruneInv stream { store := ((StreamCommand.rpush stream [e]).exec s).2, history := h.append i [e] } := by
  have hlog : ((StreamCommand.rpush stream [e]).exec s).2.events stream = s.events stream ++ [e] :=
    StreamCommand.exec_rpush_events
  have hfresh : e ∉ h.published := fun hin => (hinv.taken i _ htaken).2 e hin rfl
  have hcases : ∀ j n, (h.append i [e]).taken j = some n → j ≠ i ∧ h.taken j = some n := by
    intro j n hj
    by_cases hji : j = i
    · subst hji
      cases (Function.update_self ..).symm.trans hj
    · exact ⟨hji, (Function.update_of_ne hji ..).symm.trans hj⟩
  have hsub : h.published ⊆ (h.append i [e]).published := List.subset_append_left ..
  refine ⟨?_, fun j => List.Subset.trans (hinv.read j) hsub, fun j => List.Subset.trans (hinv.pending j) hsub,
    ?_, ?_, ?_, ?_, ?_⟩
  · show ((StreamCommand.rpush stream [e]).exec s).2.events stream ⊆ h.published ++ [e]
    rw [hlog]
    exact List.append_subset.mpr ⟨List.Subset.trans hinv.listed hsub, List.subset_append_right ..⟩
  · show ((h.published ++ [e]).map Event.sequenceNo).Nodup
    rw [List.map_append, List.nodup_append']
    refine ⟨hinv.distinct, List.nodup_singleton _, fun n hn hn' => ?_⟩
    obtain ⟨e', he', rfl⟩ := List.mem_map.mp hn
    exact (hinv.taken i _ htaken).2 e' he' (List.mem_singleton.mp hn')
  · intro e' he'
    rcases List.mem_append.mp he' with hold | hnew
    · exact hinv.counted e' hold
    · rw [List.mem_singleton.mp hnew]
      exact (hinv.taken i _ htaken).1
  · intro j n hj
    obtain ⟨hji, hold⟩ := hcases j n hj
    refine ⟨(hinv.taken j n hold).1, fun e' he' => ?_⟩
    rcases List.mem_append.mp he' with hin | hnew
    · exact (hinv.taken j n hold).2 e' hin
    · rw [List.mem_singleton.mp hnew]
      rintro rfl
      exact hji (hinv.apart j i _ hold htaken)
  · intro j j' n hj hj'
    exact hinv.apart j j' n (hcases j n hj).2 (hcases j' n hj').2
  · intro e' he' habove
    show OnePlace (((StreamCommand.rpush stream [e]).exec s).2.events stream) h.pending e'
    rw [hlog]
    rcases List.mem_append.mp he' with hold | hnew
    · have hne : e' ≠ e := fun heq => hfresh (heq ▸ hold)
      rcases hinv.once e' hold habove with ⟨hone, hnone⟩ | ⟨hout, hheld⟩
      · refine Or.inl ⟨?_, hnone⟩
        rw [List.count_append, List.count_singleton, if_neg (by simpa using Ne.symm hne)]
        exact hone
      · refine Or.inr ⟨?_, hheld⟩
        rw [List.mem_append, List.mem_singleton]
        exact not_or.mpr ⟨hout, hne⟩
    · -- the new event was nowhere before
      rw [List.mem_singleton.mp hnew]
      refine Or.inl ⟨?_, fun j hj => hfresh (hinv.pending j hj)⟩
      rw [List.count_append, List.count_eq_zero.mpr (fun hin => hfresh (hinv.listed hin)), List.count_singleton_self]

/-- A cutoff is computed: fewer events are above all of them. -/
theorem PruneInv.compute {cutoff : Int} (hinv : PruneInv stream { store := s, history := h }) :
    PruneInv stream { store := s, history := h.compute i cutoff } :=
  ⟨hinv.listed, hinv.read, hinv.pending, hinv.distinct, hinv.counted, hinv.taken, hinv.apart,
    fun e he habove => hinv.once e he fun c hc => habove c (List.mem_append_left _ hc)⟩

/-- The list is read. -/
theorem PruneInv.look {answered : Bool} (hinv : PruneInv stream { store := s, history := h }) :
    PruneInv stream { store := s, history := h.look i (if answered then s.events stream else []) } := by
  refine ⟨hinv.listed, fun j => ?_, hinv.pending, hinv.distinct, hinv.counted, hinv.taken, hinv.apart, hinv.once⟩
  show Function.update h.read i _ j ⊆ h.published
  by_cases hji : j = i
  · subst hji
    rw [Function.update_self]
    cases answered with
    | false => exact List.nil_subset _
    | true => exact hinv.listed
  · rw [Function.update_of_ne hji]
    exact hinv.read j

/-- The list is deleted by a client that has read of it what counts: the events change their place. -/
theorem PruneInv.delete (hinv : PruneInv stream { store := s, history := h }) (hnil : h.pending i = [])
    (hcutoff : h.cutoff i ∈ h.cutoffs)
    (hsafe : ∀ e ∈ h.published, h.Above e → (h.read i).count e = (s.events stream).count e) :
    PruneInv stream { store := ((StreamCommand.del stream).exec s).2, history := h.delete json i } := by
  have hlog : ((StreamCommand.del stream).exec s).2.events stream = [] := StreamCommand.exec_del_events
  have hself : (h.delete json i).pending i = (h.read i).filter (retains json (h.cutoff i)) := Function.update_self ..
  have hother : ∀ j, j ≠ i → (h.delete json i).pending j = h.pending j := fun j hji => Function.update_of_ne hji ..
  refine ⟨?_, hinv.read, fun j => ?_, hinv.distinct, hinv.counted, hinv.taken, hinv.apart, ?_⟩
  · show ((StreamCommand.del stream).exec s).2.events stream ⊆ _
    rw [hlog]
    exact List.nil_subset _
  · by_cases hji : j = i
    · rw [hji]
      show (h.delete json i).pending i ⊆ _
      rw [hself]
      exact List.Subset.trans (List.filter_subset_self ..) (hinv.read i)
    · show (h.delete json i).pending j ⊆ _
      rw [hother j hji]
      exact hinv.pending j
  · intro e he habove
    show OnePlace (((StreamCommand.del stream).exec s).2.events stream) (h.delete json i).pending e
    rw [hlog]
    have hkept : ((h.delete json i).pending i).count e = (s.events stream).count e := by
      rw [hself, ← hsafe e he habove]
      exact List.count_filter (retains_of_lt (habove _ hcutoff))
    refine Or.inr ⟨List.not_mem_nil, ?_⟩
    rcases hinv.once e he habove with ⟨hone, hnone⟩ | ⟨hout, j, hj, hothers⟩
    · refine ⟨i, hkept.trans hone, fun j hji => ?_⟩
      rw [hother j hji]
      exact hnone j
    · have hji : j ≠ i := by
        rintro rfl
        rw [show h.pending j = [] from hnil] at hj
        cases hj
      refine ⟨j, by rw [hother j hji]; exact hj, fun j' hj' => ?_⟩
      by_cases hj'i : j' = i
      · rw [hj'i, ← List.count_eq_zero, hkept]
        exact List.count_eq_zero.mpr hout
      · rw [hother j' hj'i]
        exact hothers j' hj'

/-- What was deleted and is kept goes back to the list. -/
theorem PruneInv.push (hinv : PruneInv stream { store := s, history := h }) :
    PruneInv stream { store := ((StreamCommand.rpush stream (h.pending i)).exec s).2, history := h.push i } := by
  have hlog : ((StreamCommand.rpush stream (h.pending i)).exec s).2.events stream = s.events stream ++ h.pending i :=
    StreamCommand.exec_rpush_events
  have hself : (h.push i).pending i = [] := Function.update_self ..
  have hother : ∀ j, j ≠ i → (h.push i).pending j = h.pending j := fun j hji => Function.update_of_ne hji ..
  have hnot : ∀ j e, e ∉ h.pending j → e ∉ (h.push i).pending j := by
    intro j e he
    by_cases hji : j = i
    · rw [hji, hself]
      exact List.not_mem_nil
    · rw [hother j hji]
      exact he
  refine ⟨?_, hinv.read, fun j => ?_, hinv.distinct, hinv.counted, hinv.taken, hinv.apart, ?_⟩
  · show ((StreamCommand.rpush stream (h.pending i)).exec s).2.events stream ⊆ _
    rw [hlog]
    exact List.append_subset.mpr ⟨hinv.listed, hinv.pending i⟩
  · intro e he
    by_contra hout
    exact hnot j e (fun hin => hout (hinv.pending j hin)) he
  · intro e he habove
    show OnePlace (((StreamCommand.rpush stream (h.pending i)).exec s).2.events stream) (h.push i).pending e
    rw [hlog]
    rcases hinv.once e he habove with ⟨hone, hnone⟩ | ⟨hout, j, hj, hothers⟩
    · refine Or.inl ⟨?_, fun j => hnot j e (hnone j)⟩
      rw [List.count_append, List.count_eq_zero.mpr (hnone i)]
      exact hone
    · by_cases hji : j = i
      · -- the client that had it
        refine Or.inl ⟨?_, fun j' => ?_⟩
        · rw [List.count_append, List.count_eq_zero.mpr hout, Nat.zero_add, ← hji]
          exact hj
        · by_cases hj'i : j' = i
          · rw [hj'i, hself]
            exact List.not_mem_nil
          · exact hnot j' e (hothers j' fun heq => hj'i (heq.trans hji))
      · refine Or.inr ⟨?_, j, by rw [hother j hji]; exact hj, fun j' hj' => hnot j' e (hothers j' hj')⟩
        rw [List.mem_append]
        exact not_or.mpr ⟨hout, hothers i (Ne.symm hji)⟩

end Steps

/-- A command is sent. -/
theorem exec_prune {i : Nat} {call : StreamCall} {c : StreamCommand} {s : StreamStore} {h : PruneHistory}
    (hinv : PruneInv stream { store := s, history := h })
    (hpromise : PrunePromise stream i call c { store := s, history := h })
    (hsafe : c = .del stream → ∀ e ∈ h.published, h.Above e → (h.read i).count e = (s.events stream).count e) :
    PruneInv stream
      { store := (c.exec s).2, history := PruneHistory.sent json stream i call c s (c.exec s).1 h } := by
  by_cases helse : c.Elsewhere stream
  · rw [sent_elsewhere helse]
    refine hinv.frame ?_ ?_
    · refine StreamCommand.exec_events fun hc => ?_
      cases c <;> first | exact helse hc | exact hc
    · rcases StreamCommand.exec_seq c s stream with heq | ⟨rfl, _⟩
      · exact heq
      · exact absurd rfl helse
  · cases c with
    | incr s' =>
        obtain rfl : s' = stream := not_not.mp helse
        obtain ⟨now, event, rfl⟩ := hpromise.2 rfl
        rw [show PruneHistory.sent json s' i (.publish now s' event) (.incr s') s ((StreamCommand.incr s').exec s).1 h =
          h.take i (s.seq s' + 1) from if_pos rfl]
        exact hinv.take
    | rpush s' events =>
        obtain rfl : s' = stream := not_not.mp helse
        rcases hpromise.2 rfl with ⟨⟨now, event, e, rfl, rfl, htaken⟩, _⟩ | ⟨⟨throughSeq, a, b, rfl⟩, rfl⟩
        · rw [show PruneHistory.sent json s' i (.publish now s' event) (.rpush s' [e]) s
            ((StreamCommand.rpush s' [e]).exec s).1 h = h.append i [e] from if_pos rfl]
          exact hinv.append htaken
        · rw [show PruneHistory.sent json s' i (.pruneEvents s' throughSeq a b) (.rpush s' (h.pending i)) s
            ((StreamCommand.rpush s' (h.pending i)).exec s).1 h = h.push i from if_pos rfl]
          exact hinv.push
    | del s' =>
        obtain rfl : s' = stream := not_not.mp helse
        obtain ⟨hcutoff, throughSeq, a, b, rfl⟩ := hpromise.2 rfl
        rw [show PruneHistory.sent json s' i (.pruneEvents s' throughSeq a b) (.del s') s
          ((StreamCommand.del s').exec s).1 h = h.delete json i from if_pos rfl]
        exact hinv.delete hpromise.1 hcutoff (hsafe rfl)
    | hgetall s' =>
        obtain rfl : s' = stream := not_not.mp helse
        cases call with
        | pruneEvents stream' throughSeq a b =>
            rw [show PruneHistory.sent json s' i (.pruneEvents stream' throughSeq a b) (.hgetall s') s
              ((StreamCommand.hgetall s').exec s).1 h = h.compute i _ from if_pos rfl]
            exact hinv.compute
        | _ => exact hinv
    | lrange s' =>
        obtain rfl : s' = stream := not_not.mp helse
        cases call with
        | pruneEvents stream' throughSeq a b =>
            rw [show PruneHistory.sent json s' i (.pruneEvents stream' throughSeq a b) (.lrange s') s
              ((StreamCommand.lrange s').exec s).1 h = h.look i (if b then s.events s' else []) from if_pos rfl]
            exact hinv.look
        | _ => exact hinv
    | _ => exact absurd trivial helse

/-- A client dies. It has nothing to push back: else it would be at its push. -/
theorem crash_prune {i : Nat} {s : StreamStore} {h : PruneHistory}
    (hinv : PruneInv stream { store := s, history := h }) (hnil : h.pending i = []) :
    PruneInv stream { store := s, history := h.lose i } := by
  have hpending : (h.lose i).pending = h.pending := by
    show Function.update h.pending i [] = h.pending
    rw [← hnil, Function.update_eq_self]
  have htaken : ∀ j n, (h.lose i).taken j = some n → h.taken j = some n := by
    intro j n hj
    by_cases hji : j = i
    · subst hji
      have hnone : (h.lose j).taken j = none := Function.update_self ..
      rw [show (h.lose j).taken j = some n from hj] at hnone
      cases hnone
    · exact (Function.update_of_ne hji ..).symm.trans hj
  refine ⟨hinv.listed, hinv.read, fun j => ?_, hinv.distinct, hinv.counted, fun j n hj => hinv.taken j n (htaken j n hj),
    fun j j' n hj hj' => hinv.apart j j' n (htaken j n hj) (htaken j' n hj'), fun e he habove => ?_⟩
  · show (h.lose i).pending j ⊆ h.published
    rw [hpending]
    exact hinv.pending j
  · show OnePlace (s.events stream) (h.lose i).pending e
    rw [hpending]
    exact hinv.once e he habove

/-- Only a client that is about to push back has something to push back. -/
theorem keeps_pending {i : Nat} {call : StreamCall} {p : StreamCmds StreamAnswer} {w : World StreamStore PruneHistory}
    (hinv : PruneInv stream w)
    (hkeeps : (pruneDiscipline stream).Keeps (pruneRecorder json stream) streamServer i call p w)
    (hp : ∀ events k, p = .call (.rpush stream events) k → ¬call.Prunes stream) : w.history.pending i = [] := by
  cases p with
  | done a => exact (hkeeps w (PruneRely.refl i w) hinv).1
  | call c k =>
      have hpromise : PrunePromise stream i call c w := (hkeeps w (PruneRely.refl i w) hinv).1
      cases c with
      | rpush s events =>
          by_cases hs : s = stream
          · subst hs
            rcases hpromise.2 rfl with ⟨_, hnil⟩ | ⟨⟨throughSeq, a, b, rfl⟩, _⟩
            · exact hnil
            · exact absurd rfl (hp events k rfl)
          · exact hpromise.1 hs
      | incr s => exact hpromise.1
      | del s => exact hpromise.1
      | _ => exact hpromise

/-- Every safe step keeps to the discipline. -/
theorem pruning_obeyed :
    (pruneDiscipline stream).Obeyed (pruneRecorder json stream) streamServer (StreamCall.program json)
      ((pruneSystem json stream).restrict (SafePrune stream)) where
  next h := h.1
  refl := PruneRely.refl
  trans _ _ _ _ := PruneRely.trans
  idle := Clear.later
  init := by
    rintro o ⟨hempty, hclients, hhist⟩
    have hw : o.world = { store := .empty, history := .first } := by
      unfold Observed.world
      rw [hempty, hhist]
    rw [hw]
    refine ⟨hclients, ⟨?_, ?_, ?_, List.nodup_nil, ?_, ?_, ?_, ?_⟩, fun _ => ⟨rfl, rfl⟩⟩
    · exact List.nil_subset _
    · exact fun _ => List.nil_subset _
    · exact fun _ => List.nil_subset _
    · exact fun _ h => absurd h List.not_mem_nil
    · exact fun _ _ h => by cases h
    · exact fun _ _ _ h => by cases h
    · exact fun _ h => absurd h List.not_mem_nil
  start h _ hidle := ⟨⟨h.inv, fun j _ => PruneRely.refl j _⟩, call_keeps _ hidle⟩
  exec := by
    intro o i call c k r σ' o' h hstep hi hexec hpromise
    obtain ⟨rfl, rfl⟩ := streamServer_exec hexec
    refine ⟨exec_prune h.inv hpromise ?_, fun j hj => sent_rely hj⟩
    rintro rfl
    exact hstep.2.delete i call k rfl hi
  finish h _ _ hresult := ⟨⟨h.inv, fun j _ => PruneRely.refl j _⟩, hresult⟩
  crash := by
    intro o i call p o' h hstep hi hkeeps
    have hnil : o.world.history.pending i = [] := by
      refine keeps_pending h.inv hkeeps ?_
      rintro events k rfl hprunes
      exact hstep.2.survive i call events k rfl hprunes hi
    refine ⟨⟨crash_prune h.inv hnil, fun j hj => ?_⟩, Function.update_self .., Function.update_self ..⟩
    exact ⟨Function.update_of_ne hj .., rfl, rfl, Function.update_of_ne hj .., List.Subset.refl _⟩

end Discipline

/-- **When pruning loses nothing.** In every run in which a list is deleted only while it holds, above all cutoffs, what
    the pruning client has read of it, and in which no client dies between its deletion and its push: whenever no pruning
    of the stream is going on, every published event above the cutoffs is in the list exactly once. -/
theorem prune_law {json : Json} {stream : String} {o : StreamPool PruneHistory}
    (ho : ((pruneSystem json stream).restrict (SafePrune stream)).Reachable o) : PruneLaw stream o := by
  have h := pruning_obeyed.holds ho
  intro hquiet e he habove
  have hnil : ∀ i, o.world.history.pending i = [] := by
    intro i
    have hstand := h.stands i
    rcases hi : o.pool.client i with _ | ⟨call, p⟩
    · rw [hi] at hstand
      exact hstand.1
    · rw [hi] at hstand
      exact keeps_pending h.inv hstand fun _ _ _ => hquiet i call p hi
  rcases h.inv.once e he habove with ⟨hone, _⟩ | ⟨_, i, hi, _⟩
  · exact hone
  · rw [hnil i] at hi
    cases hi

/-! ### A publisher between the reading and the deletion -/

/-- A reading of a sensor. -/
def reading (payload : Value) : NewEvent := { eventType := "reading", payloadJson := payload }

/-- A server that has just been started, and nothing has happened. -/
def idleSensors : StreamPool PruneHistory :=
  { pool := { store := .empty, client := fun _ => none }, history := .first }

/-- An event is published. Then client 1 prunes up to 0, which removes nothing; after it has read the list, client 2
    publishes another event. -/
def pruneAndAppend : List StreamMove :=
  [.start 0 (.publish 0 "sensors" (reading "a")), .exec 0, .exec 0, .finish 0,
    .start 1 (.pruneEvents "sensors" 0 true true), .exec 1, .exec 1,
    .start 2 (.publish 1 "sensors" (reading "b")), .exec 2, .exec 2, .finish 2,
    .exec 1, .exec 1, .exec 1, .finish 1]

/-- That run after `n` of its moves. -/
def pruneAndAppendAfter (n : Nat) : StreamPool PruneHistory :=
  ((pruneRecorder .plain "sensors").run streamServer (StreamCall.program .plain) idleSensors
    (pruneAndAppend.take n)).getD idleSensors

theorem idleSensors_reachable : (pruneSystem .plain "sensors").Reachable idleSensors := .start ⟨rfl, fun _ => rfl, rfl⟩

/-- The second event is above the cutoff, no call is running any more, and the list has only the first. -/
theorem append_lost :
    (pruneSystem .plain "sensors").Reachable (pruneAndAppendAfter 15) ∧
    (pruneAndAppendAfter 15).history.cutoffs = [0] ∧
    (pruneAndAppendAfter 15).history.published.map (·.sequenceNo) = [1, 2] ∧
    ((pruneAndAppendAfter 15).pool.store.events "sensors").map (·.sequenceNo) = [1] ∧
    ¬PruneLaw "sensors" (pruneAndAppendAfter 15) := by
  refine ⟨Recorder.reachable_run pruneAndAppend idleSensors_reachable rfl, by decide, by decide, by decide, ?_⟩
  intro hlaw
  have hcount := hlaw ?_ (eventEntity 1 "sensors" (reading "b") 2) (by decide) ?_
  · revert hcount
    decide
  · intro i call p hi
    rcases i with _ | _ | _ | i <;> cases hi
  · intro c hc
    obtain rfl := List.mem_singleton.mp (show c ∈ [0] from hc)
    decide

/-- The pruning client dies after it has deleted the list: no event is left. -/
def pruneAndDie : List StreamMove :=
  [.start 0 (.publish 0 "sensors" (reading "a")), .exec 0, .exec 0, .finish 0,
    .start 1 (.pruneEvents "sensors" 0 true true), .exec 1, .exec 1, .exec 1, .crash 1]

/-- That run after `n` of its moves. -/
def pruneAndDieAfter (n : Nat) : StreamPool PruneHistory :=
  ((pruneRecorder .plain "sensors").run streamServer (StreamCall.program .plain) idleSensors
    (pruneAndDie.take n)).getD idleSensors

theorem dead_pruner_empties :
    (pruneSystem .plain "sensors").Reachable (pruneAndDieAfter 9) ∧
    (pruneAndDieAfter 9).history.published.map (·.sequenceNo) = [1] ∧
    (pruneAndDieAfter 9).pool.store.events "sensors" = [] :=
  ⟨Recorder.reachable_run pruneAndDie idleSensors_reachable rfl, by decide, by decide⟩

/-! ### Pruning with nobody else -/

/-- The move deletes no list, and no client dies. -/
def keepsList (o : StreamPool PruneHistory) : StreamMove → Bool
  | .exec i =>
      match o.pool.client i with
      | some (_, .call (.del _) _) => false
      | _ => true
  | .crash _ => false
  | _ => true

/-- Such a move is safe. -/
theorem keepsList_safe {stream : String} {o o' : StreamPool PruneHistory} {move : StreamMove}
    (h : keepsList o move = true) : SafePrune stream o move o' := by
  constructor
  · rintro i call k rfl hi
    simp only [keepsList, hi] at h
    cases h
  · rintro i call events k rfl
    cases h

/-- The same pruning after the first event, alone. -/
def prunedAlone (n : Nat) : StreamPool PruneHistory :=
  ((pruneRecorder .plain "sensors").run streamServer (StreamCall.program .plain) idleSensors
    (((pruneAndAppend.take 7) ++ pruneAndAppend.drop 11).take n)).getD idleSensors

/-- It deletes what it has read, and the law holds at its end. -/
theorem pruned_alone_lawful : PruneLaw "sensors" (prunedAlone 11) := by
  have hkeep : ∀ {n : Nat} (move : StreamMove),
      ((pruneSystem .plain "sensors").restrict (SafePrune "sensors")).Reachable (prunedAlone n) →
      (pruneSystem .plain "sensors").step (prunedAlone n) move (prunedAlone (n + 1)) →
      keepsList (prunedAlone n) move = true →
        ((pruneSystem .plain "sensors").restrict (SafePrune "sensors")).Reachable (prunedAlone (n + 1)) :=
    fun move hreach hstep hmove => hreach.next (i := move) ⟨hstep, keepsList_safe hmove⟩
  have h₀ : ((pruneSystem .plain "sensors").restrict (SafePrune "sensors")).Reachable (prunedAlone 0) :=
    .start ⟨rfl, fun _ => rfl, rfl⟩
  have h₄ := hkeep (.finish 0) (hkeep (.exec 0) (hkeep (.exec 0) (hkeep (.start 0 _) h₀ rfl rfl) rfl rfl) rfl rfl)
    rfl rfl
  have h₇ := hkeep (.exec 1) (hkeep (.exec 1) (hkeep (.start 1 _) h₄ rfl rfl) rfl rfl) rfl rfl
  have h₈ : ((pruneSystem .plain "sensors").restrict (SafePrune "sensors")).Reachable (prunedAlone 8) := by
    refine h₇.next (i := .exec 1) ⟨rfl, ?_, fun _ _ _ _ h => (by cases h)⟩
    rintro i call k ⟨⟩ _ e he _
    -- the list is what it was when it was read
    obtain rfl := List.mem_singleton.mp (show e ∈ [eventEntity 0 "sensors" (reading "a") 1] from he)
    decide
  have h₁₁ := hkeep (.finish 1) (hkeep (.exec 1) (hkeep (.exec 1) h₈ rfl rfl) rfl rfl) rfl rfl
  exact prune_law h₁₁

end Azums.Redis.Streams
