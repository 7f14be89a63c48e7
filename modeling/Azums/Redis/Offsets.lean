import Azums.Redis.Streams

/-!
# `Redis.Offsets` — when group offsets move forward only

`ack` reads a group's offset, takes the maximum with its own number, and writes the result back. Two calls that run at
the same time may both read before either writes; then the one that writes last undoes the other, where the other's
number was larger.

`offset_law` says when this does not happen: in every run in which no `ack` writes after the offset has moved past
both what it read and its own number, no offset ever decreases, and when all calls have returned an offset is the
maximum of what it was at first and the numbers acknowledged. `slow_ack_undoes` is the run of two calls that breaks it.
-/

namespace Azums.Redis.Streams

/-! ## History -/

/-- What `ack` calls have done: the offset a group had at first, the numbers of all calls that have started, the one that
    a client has still to write, and the offset that a client has read. -/
structure OffsetHistory where
  initial : Group → Option Int
  asked : Group → List Int
  due : Nat → Option (Group × Int)
  read : Nat → Option Int
  died : Bool

/-- Where a group's offset starts from, and the numbers that were acknowledged. -/
def OffsetHistory.numbers (h : OffsetHistory) (g : Group) : List Int := (h.initial g).toList ++ h.asked g

/-- Nothing has been acknowledged. -/
def OffsetHistory.first (s : StreamStore) : OffsetHistory :=
  { initial := s.offsetOf, asked := fun _ => [], due := fun _ => none, read := fun _ => none, died := false }

namespace OffsetHistory

/-- An `ack` starts. -/
def started (i : Nat) (call : StreamCall) (h : OffsetHistory) : OffsetHistory :=
  match call with
  | .ack _ stream consumerGroup seq _ =>
      { h with
        asked := Function.update h.asked (stream, consumerGroup) (h.asked (stream, consumerGroup) ++ [seq])
        due := Function.update h.due i (some ((stream, consumerGroup), seq)) }
  | _ => h

/-- An `ack` reads the offset, or writes it. -/
def sent (i : Nat) (call : StreamCall) (c : StreamCommand) (_ : StreamStore) (r : c.Reply) (h : OffsetHistory) :
    OffsetHistory :=
  match call, c, r with
  | .ack _ _ _ _ answered, .hget _ _, r => { h with read := Function.update h.read i (okAnswer answered r) }
  | .ack .., .hset .., _ => { h with due := Function.update h.due i none }
  | _, _, _ => h

end OffsetHistory

/-- How the history follows the calls. -/
def offsetRecorder :
    Recorder Nat StreamCall StreamCommand StreamCommand.Reply StreamAnswer StreamStore OffsetHistory where
  start := OffsetHistory.started
  exec := OffsetHistory.sent
  crash i h := { h with died := true, due := Function.update h.due i none }

/-- Clients and their server, whatever offsets there are at first. -/
def offsetSystem (json : Json) : System (StreamPool OffsetHistory) StreamMove :=
  offsetRecorder.system streamServer (StreamCall.program json) (fun _ => True) OffsetHistory.first

/-! ## The law -/

/-- What a step should do to the offsets: none decreases, and when no call is running any more and none has died, each
    is the maximum of what it was at first and the numbers acknowledged. -/
structure OffsetLaw (o : StreamPool OffsetHistory) (o' : StreamPool OffsetHistory) : Prop where
  monotone : ∀ g v, o.pool.store.offsetOf g = some v → ∃ v', o'.pool.store.offsetOf g = some v' ∧ v ≤ v'
  maximum : (∀ i, o'.pool.client i = none) → o'.history.died = false →
    ∀ g, o'.pool.store.offsetOf g = (o'.history.numbers g).max?

/-- The steps that undo no other: where an `ack` writes, the offset is still the one it has read, or not above its own
    number. -/
def TimelyWrite (o : StreamPool OffsetHistory) (move : StreamMove) (_ : StreamPool OffsetHistory) : Prop :=
  ∀ i now stream consumerGroup seq answered v k stored, move = .exec i →
    o.pool.client i = some (.ack now stream consumerGroup seq answered, .call (.hset stream consumerGroup v) k) →
    o.pool.store.offset stream consumerGroup = some stored →
      o.history.read i = some stored ∨ stored ≤ seq

/-! ## The discipline of the calls -/

variable {json : Json}

/-- An offset that is there is one of the numbers; and a number is due, or the offset has reached it. -/
structure OffsetInv (w : World StreamStore OffsetHistory) : Prop where
  among : ∀ g v, w.store.offsetOf g = some v → v ∈ w.history.numbers g
  reached : ∀ g, ∀ x ∈ w.history.numbers g,
    w.history.died = true ∨ (∃ i, w.history.due i = some (g, x)) ∨ ∃ v, w.store.offsetOf g = some v ∧ x ≤ v

/-- What client `i` relies on: the others keep to their own part of the history, and numbers stay. -/
structure OffsetRely (i : Nat) (w w' : World StreamStore OffsetHistory) : Prop where
  due : w'.history.due i = w.history.due i
  read : w'.history.read i = w.history.read i
  numbers : ∀ g, w.history.numbers g ⊆ w'.history.numbers g

/-- What an `ack` promises when it writes: it writes its own number or what it has read, whichever is larger. -/
def OffsetPromise (i : Nat) (call : StreamCall) (c : StreamCommand) (w : World StreamStore OffsetHistory) : Prop :=
  ∀ stream consumerGroup v, c = .hset stream consumerGroup v →
    ∃ now seq answered, call = .ack now stream consumerGroup seq answered ∧ v = newSeq (w.history.read i) seq ∧
      w.history.due i = some ((stream, consumerGroup), seq) ∧ seq ∈ w.history.numbers (stream, consumerGroup) ∧
      ∀ x, w.history.read i = some x → x ∈ w.history.numbers (stream, consumerGroup)

/-- The discipline of the calls. -/
def offsetDiscipline : Discipline Nat StreamCall StreamCommand StreamAnswer StreamStore OffsetHistory where
  inv := OffsetInv
  idle i w := w.history.due i = none
  rely := OffsetRely
  promise := OffsetPromise
  result i _ _ w := w.history.due i = none

theorem OffsetRely.trans {i : Nat} {w w' w'' : World StreamStore OffsetHistory} (h : OffsetRely i w w')
    (h' : OffsetRely i w' w'') : OffsetRely i w w'' :=
  ⟨h'.due.trans h.due, h'.read.trans h.read, fun g => List.Subset.trans (h.numbers g) (h'.numbers g)⟩

theorem newSeq_cases (currentOffset : Option Int) (seq : Int) :
    newSeq currentOffset seq = seq ∨ currentOffset = some (newSeq currentOffset seq) := by
  cases currentOffset with
  | none => exact Or.inl rfl
  | some existing =>
      show max existing seq = seq ∨ some existing = some (max existing seq)
      rcases Int.le_total existing seq with hle | hle
      · exact Or.inl (Int.max_eq_right hle)
      · exact Or.inr (by rw [Int.max_eq_left hle])

theorem le_newSeq (currentOffset : Option Int) (seq : Int) :
    seq ≤ newSeq currentOffset seq ∧ ∀ x, currentOffset = some x → x ≤ newSeq currentOffset seq := by
  cases currentOffset with
  | none => exact ⟨Int.le_refl _, fun _ h => by cases h⟩
  | some existing =>
      refine ⟨Int.le_max_right .., ?_⟩
      rintro x ⟨⟩
      exact Int.le_max_left ..

/-! ### What a command leaves of the history -/

section Sent

variable {i j : Nat} {call : StreamCall} {c : StreamCommand} {s : StreamStore} {r : c.Reply} {h : OffsetHistory}

@[simp] theorem sent_numbers (g : Group) : (OffsetHistory.sent i call c s r h).numbers g = h.numbers g := by
  unfold OffsetHistory.sent
  split <;> rfl

@[simp] theorem sent_died : (OffsetHistory.sent i call c s r h).died = h.died := by
  unfold OffsetHistory.sent
  split <;> rfl

/-- A command is no other client's business. -/
theorem sent_of_ne (hj : j ≠ i) : (OffsetHistory.sent i call c s r h).due j = h.due j ∧
    (OffsetHistory.sent i call c s r h).read j = h.read j := by
  unfold OffsetHistory.sent
  split
  · exact ⟨rfl, Function.update_of_ne hj ..⟩
  · exact ⟨Function.update_of_ne hj .., rfl⟩
  · exact ⟨rfl, rfl⟩

/-- What is due stays so until an offset is written. -/
theorem sent_due (hc : ∀ stream consumerGroup v, c ≠ .hset stream consumerGroup v) :
    (OffsetHistory.sent i call c s r h).due = h.due := by
  unfold OffsetHistory.sent
  split
  · rfl
  · exact absurd rfl (hc _ _ _)
  · rfl

end Sent

/-! ### The calls -/

section Keeps

variable {i : Nat} {w : World StreamStore OffsetHistory}

/-- `ack` keeps its promise. -/
theorem ack_keeps {now : DateTime} {stream consumerGroup : String} {seq : Int} {answered : Bool}
    (hdue : w.history.due i = some ((stream, consumerGroup), seq))
    (hseq : seq ∈ w.history.numbers (stream, consumerGroup)) :
    offsetDiscipline.Keeps offsetRecorder streamServer i (.ack now stream consumerGroup seq answered)
      (ack now stream consumerGroup seq answered) w := by
  intro w₁ h₁ hinv₁
  refine ⟨fun _ _ _ h => (by cases h), fun reply σ₁ hans _ => ?_⟩
  obtain ⟨rfl, rfl⟩ := streamServer_exec hans
  -- the write: it goes by the offset just read, which was one of the numbers
  intro w₃ h₃ hinv₃
  refine ⟨?_, fun _ σ₃ hans₃ _ => ?_⟩
  · rintro _ _ _ ⟨⟩
    have hread : w₃.history.read i = okAnswer answered (w₁.store.offset stream consumerGroup) :=
      h₃.read.trans (Function.update_self ..)
    refine ⟨now, seq, answered, rfl, by rw [hread]; rfl, h₃.due.trans (h₁.due.trans hdue),
      h₃.numbers _ (h₁.numbers _ hseq), fun x hx => ?_⟩
    rw [hread] at hx
    cases answered with
    | false => cases hx
    | true => exact h₃.numbers _ (hinv₁.among (stream, consumerGroup) x hx)
  · intro w₅ h₅ _
    refine ⟨fun _ _ _ h => (by cases h), fun _ σ₅ _ _ => ?_⟩
    intro w₇ h₇ _
    exact h₇.due.trans (h₅.due.trans (Function.update_self ..))

/-- The other calls write no offset. -/
theorem other_keeps {call : StreamCall} (hcall : ∀ now stream consumerGroup seq answered,
    call ≠ .ack now stream consumerGroup seq answered) (hdue : w.history.due i = none) :
    offsetDiscipline.Keeps offsetRecorder streamServer i call (call.program json) w := by
  refine Discipline.keeps_of_avoids (P := fun c => ∃ stream consumerGroup v, c = .hset stream consumerGroup v)
    (I := fun w => w.history.due i = none) (fun w w' h hI => (OffsetRely.due h).trans hI) ?_ (fun _ _ hI => hI) ?_ _ w
    (StreamCall.program_avoids fun c hc => ?_) hdue
  · intro c w hc _ stream consumerGroup v heq
    exact absurd ⟨_, _, _, heq⟩ hc
  · intro c w r σ' hc hI _
    show (OffsetHistory.sent i call c w.store r w.history).due i = none
    rw [sent_due fun stream consumerGroup v heq => hc ⟨_, _, _, heq⟩]
    exact hI
  · rintro ⟨stream, consumerGroup, v, rfl⟩
    cases call with
    | ack now stream consumerGroup seq answered => exact hcall _ _ _ _ _ rfl
    | publish now stream event => rcases hc with h | ⟨_, h⟩ <;> cases h
    | readEvents stream afterSeq limit answered => cases hc
    | readNext now stream consumerGroup limit answered timesAnswered eventsAnswered =>
        rcases hc with h | h | h <;> cases h
    | pruneEvents stream throughSeq offsetsAnswered eventsAnswered =>
        rcases hc with h | h | h | h | ⟨_, h⟩ <;> cases h
    | consumerGroupInfo now stream answered timesAnswered => rcases hc with h | h <;> cases h

end Keeps

/-! ### The steps -/

/-- A call starts. -/
theorem start_owes {o : StreamPool OffsetHistory} {i : Nat} {call : StreamCall} (hinv : OffsetInv o.world)
    (hidle : o.history.due i = none) :
    offsetDiscipline.Owes i o.world
        { store := o.pool.store, history := OffsetHistory.started i call o.history } ∧
      offsetDiscipline.Keeps offsetRecorder streamServer i call (call.program json)
        { store := o.pool.store, history := OffsetHistory.started i call o.history } := by
  cases call with
  | ack now stream consumerGroup seq answered =>
      -- one more number, and it is due
      have hnumbers : ∀ g, (OffsetHistory.started i (.ack now stream consumerGroup seq answered) o.history).numbers g =
          o.history.numbers g ++ if g = (stream, consumerGroup) then [seq] else [] := by
        intro g
        by_cases hg : g = (stream, consumerGroup)
        · subst hg
          simp [OffsetHistory.numbers, OffsetHistory.started]
        · simp [OffsetHistory.numbers, OffsetHistory.started, hg]
      have hsub : ∀ g, o.history.numbers g ⊆
          (OffsetHistory.started i (.ack now stream consumerGroup seq answered) o.history).numbers g := by
        intro g
        rw [hnumbers]
        exact List.subset_append_left ..
      have hdue : ∀ j, j ≠ i →
          (OffsetHistory.started i (.ack now stream consumerGroup seq answered) o.history).due j = o.history.due j :=
        fun j hj => Function.update_of_ne hj ..
      refine ⟨⟨⟨fun g v hv => hsub g (hinv.among g v hv), ?_⟩, fun j hj => ⟨hdue j hj, rfl, hsub⟩⟩, ?_⟩
      · intro g x hx
        rw [hnumbers] at hx
        rcases List.mem_append.mp hx with hold | hnew
        · rcases hinv.reached g x hold with hdied | ⟨j, hj⟩ | hv
          · exact Or.inl hdied
          · refine Or.inr (Or.inl ⟨j, (hdue j ?_).trans hj⟩)
            rintro rfl
            rw [show o.world.history.due j = none from hidle] at hj
            cases hj
          · exact Or.inr (Or.inr hv)
        · split at hnew
          · rename_i hg
            obtain rfl := List.mem_singleton.mp hnew
            exact Or.inr (Or.inl ⟨i, by rw [hg]; exact Function.update_self ..⟩)
          · cases hnew
      · refine ack_keeps (Function.update_self ..) ?_
        rw [hnumbers, if_pos rfl]
        exact List.mem_append_right _ (List.mem_singleton_self _)
  | _ =>
      exact ⟨⟨hinv, fun j _ => ⟨rfl, rfl, fun _ => List.Subset.refl _⟩⟩,
        other_keeps (fun _ _ _ _ _ h => (by cases h)) hidle⟩

section Exec

variable {o o' : StreamPool OffsetHistory} {i : Nat} {call : StreamCall} {c : StreamCommand}
  {k : c.Reply → StreamCmds StreamAnswer}

/-- A timely write lowers no offset. -/
theorem exec_monotone (hpromise : OffsetPromise i call c o.world) (hi : o.pool.client i = some (call, .call c k))
    (htimely : TimelyWrite o (.exec i) o') {g : Group} {v : Int} (hv : o.pool.store.offsetOf g = some v) :
    ∃ v', (c.exec o.pool.store).2.offsetOf g = some v' ∧ v ≤ v' := by
  by_cases hc : ∃ v', c = .hset g.1 g.2 v'
  · obtain ⟨v', rfl⟩ := hc
    obtain ⟨now, seq, answered, rfl, rfl, _⟩ := hpromise g.1 g.2 v' rfl
    refine ⟨_, StreamCommand.exec_hset_offset, ?_⟩
    obtain ⟨hseq, hread⟩ := le_newSeq (o.history.read i) seq
    rcases htimely i now g.1 g.2 seq answered _ k v rfl hi hv with hsame | hle
    · exact hread v hsame
    · exact Int.le_trans hle hseq
  · refine ⟨v, ?_, Int.le_refl v⟩
    rw [← hv]
    exact StreamCommand.exec_offset fun v' heq => hc ⟨v', heq⟩

/-- A command is sent. -/
theorem exec_owes {r : c.Reply} (hinv : OffsetInv o.world) (hpromise : OffsetPromise i call c o.world)
    (hi : o.pool.client i = some (call, .call c k)) (htimely : TimelyWrite o (.exec i) o') :
    offsetDiscipline.Owes i o.world
      { store := (c.exec o.pool.store).2, history := OffsetHistory.sent i call c o.pool.store r o.history } := by
  refine ⟨⟨?_, ?_⟩, fun j hj =>
    ⟨(sent_of_ne (s := o.pool.store) hj).1, (sent_of_ne (s := o.pool.store) hj).2, fun g => ?_⟩⟩
  · -- what is written is a number that was asked for, or one that was read
    intro g v hv
    show v ∈ (OffsetHistory.sent i call c o.pool.store r o.history).numbers g
    rw [sent_numbers]
    by_cases hc : ∃ v', c = .hset g.1 g.2 v'
    · obtain ⟨v', rfl⟩ := hc
      obtain ⟨now, seq, answered, rfl, hval, _, hseq, hread⟩ := hpromise g.1 g.2 v' rfl
      obtain rfl := Option.some.inj ((StreamCommand.exec_hset_offset (s := o.pool.store)).symm.trans hv)
      rcases newSeq_cases (o.history.read i) seq with heq | heq
      · rw [hval, show newSeq (o.world.history.read i) seq = seq from heq]
        exact hseq
      · exact hread _ (by rw [hval]; exact heq)
    · exact hinv.among g v ((StreamCommand.exec_offset fun v' heq => hc ⟨v', heq⟩).symm.trans hv)
  · intro g x hx
    rw [show (OffsetHistory.sent i call c o.pool.store r o.history).numbers g = o.history.numbers g from
      sent_numbers g] at hx
    show (OffsetHistory.sent i call c o.pool.store r o.history).died = true ∨ _
    rw [sent_died]
    rcases hinv.reached g x hx with hdied | ⟨j, hj⟩ | ⟨v, hv, hle⟩
    · exact Or.inl hdied
    · by_cases hc : ∃ stream consumerGroup v', c = .hset stream consumerGroup v'
      · by_cases hji : j = i
        · -- the client writes what was due
          subst hji
          obtain ⟨stream, consumerGroup, v', rfl⟩ := hc
          obtain ⟨now, seq, answered, rfl, rfl, hdue, _⟩ := hpromise stream consumerGroup v' rfl
          rw [hj] at hdue
          obtain ⟨rfl, rfl⟩ := Prod.mk.inj (Option.some.inj hdue)
          exact Or.inr (Or.inr ⟨_, StreamCommand.exec_hset_offset, (le_newSeq _ _).1⟩)
        · exact Or.inr (Or.inl ⟨j, (sent_of_ne (s := o.pool.store) hji).1.trans hj⟩)
      · refine Or.inr (Or.inl ⟨j, ?_⟩)
        show (OffsetHistory.sent i call c o.pool.store r o.history).due j = _
        rw [sent_due fun stream consumerGroup v' heq => hc ⟨_, _, _, heq⟩]
        exact hj
    · obtain ⟨v', hv', hvv'⟩ := exec_monotone hpromise hi htimely hv
      exact Or.inr (Or.inr ⟨v', hv', Int.le_trans hle hvv'⟩)
  · rw [show (OffsetHistory.sent i call c o.pool.store r o.history).numbers g = o.history.numbers g from
      sent_numbers g]
    exact List.Subset.refl _

end Exec

/-- Every timely step keeps to the discipline. -/
theorem offsets_obeyed :
    offsetDiscipline.Obeyed offsetRecorder streamServer (StreamCall.program json)
      ((offsetSystem json).restrict TimelyWrite) where
  next h := h.1
  refl _ _ := ⟨rfl, rfl, fun _ => List.Subset.refl _⟩
  trans _ _ _ _ := OffsetRely.trans
  idle hidle hrely := hrely.due.trans hidle
  init := by
    rintro o ⟨_, hclients, hhist⟩
    have hw : o.world = { store := o.pool.store, history := OffsetHistory.first o.pool.store } := by
      rw [← hhist]
      rfl
    rw [hw]
    refine ⟨hclients, ⟨?_, ?_⟩, fun _ => rfl⟩
    · intro g v hv
      show v ∈ (o.pool.store.offsetOf g).toList ++ []
      rw [show o.pool.store.offsetOf g = some v from hv]
      exact List.mem_singleton_self v
    · intro g x hx
      have hmem : x ∈ (o.pool.store.offsetOf g).toList ++ [] := hx
      rw [List.append_nil, Option.mem_toList] at hmem
      exact Or.inr (Or.inr ⟨x, hmem, Int.le_refl x⟩)
  start h _ hidle := start_owes h.inv hidle
  exec := by
    intro o i call c k r σ' o' h hstep hi hexec hpromise
    obtain ⟨rfl, rfl⟩ := streamServer_exec hexec
    exact exec_owes h.inv hpromise hi hstep.2
  finish h hstep hi hresult := ⟨⟨h.inv, fun _ _ => ⟨rfl, rfl, fun _ => List.Subset.refl _⟩⟩, hresult⟩
  crash := by
    intro o i call p o' h _ _ _
    refine ⟨⟨⟨h.inv.among, fun g x _ => Or.inl rfl⟩, fun j hj => ⟨Function.update_of_ne hj .., rfl,
      fun _ => List.Subset.refl _⟩⟩, Function.update_self ..⟩

/-- **When offsets are monotone.** In every run in which no `ack` writes after the offset has moved past both what it
    read and its own number: no step lowers an offset, and when every call has returned an offset is the maximum of what
    it was at first and the numbers acknowledged. -/
theorem offset_law {json : Json} {o o' : StreamPool OffsetHistory} {move : StreamMove}
    (ho : ((offsetSystem json).restrict TimelyWrite).Reachable o)
    (hstep : ((offsetSystem json).restrict TimelyWrite).step o move o') : OffsetLaw o o' := by
  have h := offsets_obeyed.holds ho
  constructor
  · intro g v hv
    cases move with
    | start i call =>
        obtain ⟨_, rfl⟩ := Recorder.next_start hstep.1
        exact ⟨v, hv, Int.le_refl v⟩
    | exec i =>
        obtain ⟨call, c, k, r, σ', hi, hexec, rfl⟩ := Recorder.next_exec hstep.1
        obtain ⟨_, rfl⟩ := streamServer_exec hexec
        exact exec_monotone ((@offsets_obeyed json).promise_of h hi) hi hstep.2 hv
    | finish i =>
        obtain ⟨_, _, _, rfl⟩ := Recorder.next_finish hstep.1
        exact ⟨v, hv, Int.le_refl v⟩
    | crash i =>
        obtain ⟨_, _, _, rfl⟩ := Recorder.next_crash hstep.1
        exact ⟨v, hv, Int.le_refl v⟩
  · intro hidle halive g
    have h' := offsets_obeyed.holds (ho.next hstep)
    -- nothing is due any more
    have hreached : ∀ x ∈ o'.history.numbers g, ∃ v, o'.pool.store.offsetOf g = some v ∧ x ≤ v := by
      intro x hx
      rcases h'.inv.reached g x hx with hdied | ⟨i, hi⟩ | hv
      · rw [show o'.history.died = true from hdied] at halive
        cases halive
      · have hnone := h'.stands i
        rw [hidle i] at hnone
        rw [show o'.world.history.due i = none from hnone] at hi
        cases hi
      · exact hv
    cases hoff : o'.pool.store.offsetOf g with
    | none =>
        have hnil : o'.history.numbers g = [] := by
          refine List.eq_nil_iff_forall_not_mem.mpr fun x hx => ?_
          obtain ⟨v, hv, _⟩ := hreached x hx
          rw [hoff] at hv
          cases hv
        rw [hnil]
        rfl
    | some v =>
        symm
        rw [List.max?_eq_some_iff]
        refine ⟨h'.inv.among g v hoff, fun x hx => ?_⟩
        obtain ⟨v', hv', hle⟩ := hreached x hx
        rw [hoff] at hv'
        obtain rfl := Option.some.inj hv'
        exact hle

/-! ### Two acknowledgements at once -/

/-- A server that has just been started, and nothing has happened. -/
def idleGroups : StreamPool OffsetHistory :=
  { pool := { store := .empty, client := fun _ => none }, history := .first .empty }

/-- Clients 0 and 1 acknowledge 5 and 3 for the same group. Both read before either writes, and the smaller number is
    written last. -/
def twoAcks : List StreamMove :=
  [.start 0 (.ack 0 "orders" "billing" 5 true), .start 1 (.ack 0 "orders" "billing" 3 true),
    .exec 0, .exec 1, .exec 0, .exec 1]

/-- That run after `n` of its moves. -/
def twoAcksAfter (n : Nat) : StreamPool OffsetHistory :=
  (offsetRecorder.run streamServer (StreamCall.program .plain) idleGroups (twoAcks.take n)).getD idleGroups

theorem idleGroups_reachable : (offsetSystem .plain).Reachable idleGroups := .start ⟨trivial, fun _ => rfl, rfl⟩

/-- The second write takes the offset back from 5 to 3. -/
theorem slow_ack_undoes :
    (offsetSystem .plain).Reachable (twoAcksAfter 5) ∧
    (offsetSystem .plain).step (twoAcksAfter 5) (.exec 1) (twoAcksAfter 6) ∧
    (twoAcksAfter 5).pool.store.offsetOf ("orders", "billing") = some 5 ∧
    (twoAcksAfter 6).pool.store.offsetOf ("orders", "billing") = some 3 ∧
    ¬OffsetLaw (twoAcksAfter 5) (twoAcksAfter 6) := by
  have hbefore : (twoAcksAfter 5).pool.store.offsetOf ("orders", "billing") = some 5 := by decide
  have hafter : (twoAcksAfter 6).pool.store.offsetOf ("orders", "billing") = some 3 := by decide
  refine ⟨Recorder.reachable_run (twoAcks.take 5) idleGroups_reachable rfl, rfl, hbefore, hafter, fun hlaw => ?_⟩
  obtain ⟨v, hv, hle⟩ := hlaw.monotone _ _ hbefore
  rw [hafter] at hv
  obtain rfl := Option.some.inj hv
  omega

/-- What the move writes undoes no other write. -/
def writesInTime (o : StreamPool OffsetHistory) : StreamMove → Bool
  | .exec i =>
      match o.pool.client i with
      | some (.ack _ _ _ seq _, .call (.hset stream consumerGroup _) _) =>
          (o.pool.store.offset stream consumerGroup).all
            (fun stored => o.history.read i == some stored || decide (stored ≤ seq))
      | _ => true
  | _ => true

theorem timelyWrite_of_writesInTime {o o' : StreamPool OffsetHistory} {move : StreamMove}
    (h : writesInTime o move = true) : TimelyWrite o move o' := by
  rintro i now stream consumerGroup seq answered v k stored rfl hi hstored
  simpa [writesInTime, hi, hstored] using h

/-- A server on which the group has acknowledged 1. -/
def oneAcked : StreamPool OffsetHistory :=
  let store := { StreamStore.empty with offsets := fun _ => (∅ : AList fun _ : String => Int).insert "billing" 1 }
  { pool := { store := store, client := fun _ => none }, history := .first store }

/-- Both calls read before either writes, and the larger number is written last. -/
def inTime : List StreamMove :=
  [.start 0 (.ack 0 "orders" "billing" 5 true), .start 1 (.ack 0 "orders" "billing" 3 true),
    .exec 0, .exec 1, .exec 1, .exec 0, .exec 1, .exec 0, .finish 1, .finish 0]

/-- That run after `n` of its moves. -/
def inTimeAfter (n : Nat) : StreamPool OffsetHistory :=
  (offsetRecorder.run streamServer (StreamCall.program .plain) oneAcked (inTime.take n)).getD oneAcked

/-- The law holds up to the end of the second call, and the offset is the maximum of all three numbers. -/
theorem two_acks_lawful :
    (inTimeAfter 5).pool.store.offsetOf ("orders", "billing") = some 3 ∧
    (inTimeAfter 10).pool.store.offsetOf ("orders", "billing") = some 5 ∧
    OffsetLaw (inTimeAfter 9) (inTimeAfter 10) := by
  have hstart : ((offsetSystem .plain).restrict TimelyWrite).Reachable oneAcked := .start ⟨trivial, fun _ => rfl, rfl⟩
  have hend : ((offsetSystem .plain).restrict TimelyWrite).Reachable (inTimeAfter 9) :=
    Recorder.reachable_along writesInTime (fun hmove hnext => ⟨hnext, timelyWrite_of_writesInTime hmove⟩)
      (inTime.take 9) rfl hstart rfl
  have hlast : (offsetSystem .plain).step (inTimeAfter 9) (.finish 0) (inTimeAfter 10) := rfl
  exact ⟨by decide, by decide, offset_law hend ⟨hlast, timelyWrite_of_writesInTime rfl⟩⟩

end Azums.Redis.Streams
