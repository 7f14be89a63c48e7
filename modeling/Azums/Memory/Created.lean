import Azums.Memory.Numbering

/-!
# `Memory.Created` — every attempt that was ever created

`Memory.Numbering` is about the attempts in the store, and `delete_history_for_succeeded_older_than` takes attempts out
of it. Here a run comes with a record of the attempts that its calls created, in the order in which they created them:
those of a batch that fails half way, those of a job that a batch names twice, and those deleted since.

`attempts_numbered_in_order` says that the numbers of a job's attempts are counted up from 1 in this order, and that the
job's counter is the last of them. `clear` empties the store with its counters, so the record also says what was created
before the last one. A counter is an `i32`: a call that would raise it beyond `i32::MAX` panics, and ends the run.
-/

namespace Azums.Memory

open Function (update)

variable {s s' : InnerState} {now : DateTime} {workerId : String}

/-- `clear`. -/
def clear (_ : InnerState) : InnerState :=
  { jobs := fun _ => none, queuedJobs := fun _ => none, archive := fun _ => none, attempts := fun _ => none,
    attemptCounts := fun _ => none, streams := fun _ => none, streamOffsets := fun _ => none }

/-- The attempts that the loop of `start_attempts_batch` inserts, in this order: up to the first request that fails its
    check, or that finds its counter at the maximum. -/
def startedBy (now : DateTime) (workerId : String) : List (Uuid × Uuid) → InnerState → List MemoryAttempt
  | [], _ => []
  | (jobId, attemptId) :: rest, s =>
      match s.jobs jobId with
      | none => []
      | some job =>
          if job.status ≠ "running" ∨ job.lockedBy ≠ some workerId then []
          else
            match succI32 ((s.attemptCounts jobId).getD 0) with
            | none => []
            | some nextAttemptNo =>
                startedAttempt now attemptId jobId nextAttemptNo workerId ::
                  startedBy now workerId rest (recordAttempt s now workerId jobId attemptId nextAttemptNo)

/-- The attempts ever created in a run: those before the last `clear`, and those since. -/
structure Created where
  before : List MemoryAttempt
  since : List MemoryAttempt

namespace Created

/-- All of them, in the order of their creation. -/
def ever (c : Created) : List MemoryAttempt := c.before ++ c.since

end Created

/-- An operation of the backend: any of its calls, or `clear`. -/
inductive Operation where
  | call (call : Call)
  | clear

namespace Operation

/-- What an operation adds to the record. -/
def record (s : InnerState) (c : Created) : Operation → Created
  | call (.job (.startAttempts now requests workerId)) =>
      { c with since := c.since ++ startedBy now workerId requests s }
  | call _ => c
  | clear => { before := c.ever, since := [] }

end Operation

/-- `MemoryBackend` with every operation, `clear` among them, and the record of the attempts it has created. The ids of
    new jobs are new (`Uuid::new_v4()`), so no job is added under the id of one from before the last `clear`. -/
def recordedSystem : System (InnerState × Created) Operation :=
  { init := fun r => r = (InnerState.init, { before := [], since := [] })
    step := fun r op r' => r'.2 = op.record r.1 r.2 ∧ match op with
      | .call call => backendSystem.step r.1 call r'.1 ∧
          ∀ att ∈ r.2.before, r.1.jobs att.jobId = none → r'.1.jobs att.jobId = none
      | .clear => r'.1 = clear r.1 }

/-- The numbers that the attempts of a job were given, in the order of the record. -/
def numbersGiven (created : List MemoryAttempt) (jobId : Uuid) : List Int :=
  (created.filter (fun att => att.jobId = jobId)).map (·.attemptNo)

/-- The numbers 1, 2, 3 and so on, up to `count`. -/
def countedUp (count : Nat) : List Int := (List.range count).map (fun i => (i : Int) + 1)

/-! ## The numbers of a record -/

theorem numbersGiven_append (created more : List MemoryAttempt) (jobId : Uuid) :
    numbersGiven (created ++ more) jobId = numbersGiven created jobId ++ numbersGiven more jobId := by
  simp [numbersGiven]

/-- One more attempt. -/
theorem numbersGiven_started (created : List MemoryAttempt) (jobId attemptId : Uuid) (attemptNo : Int) (id : Uuid) :
    numbersGiven (created ++ [startedAttempt now attemptId jobId attemptNo workerId]) id =
      numbersGiven created id ++ if jobId = id then [attemptNo] else [] := by
  rw [numbersGiven_append]
  by_cases hj : jobId = id <;> simp [numbersGiven, startedAttempt, hj]

/-- A job without attempts was given no number. -/
theorem numbersGiven_eq_nil {created : List MemoryAttempt} {jobId : Uuid} (h : ∀ att ∈ created, att.jobId ≠ jobId) :
    numbersGiven created jobId = [] := by
  rw [numbersGiven, List.map_eq_nil_iff, List.filter_eq_nil_iff]
  intro att hatt hj
  exact h att hatt (of_decide_eq_true hj)

theorem countedUp_succ (count : Nat) : countedUp (count + 1) = countedUp count ++ [(count : Int) + 1] := by
  simp [countedUp, List.range_succ]

/-- The last number is how many there are. -/
theorem countedUp_getLast (count : Nat) : ((countedUp count).getLast?).getD 0 = count := by
  cases count with
  | zero => rfl
  | succ n => simp [countedUp_succ]

/-- The numbers given since the last `clear`, and the counters. -/
structure Counting (s : InnerState) (since : List MemoryAttempt) : Prop where
  numbers : ∀ jobId, ∃ count, numbersGiven since jobId = countedUp count
  counter : ∀ jobId, s.attemptCounts jobId = (numbersGiven since jobId).getLast?

namespace Counting

variable {since : List MemoryAttempt}

theorem congr (h : Counting s since) (hcounts : s'.attemptCounts = s.attemptCounts) : Counting s' since :=
  ⟨h.numbers, fun jobId => hcounts ▸ h.counter jobId⟩

/-- A new attempt takes the next number. -/
theorem record (h : Counting s since) (jobId attemptId : Uuid) :
    Counting (recordAttempt s now workerId jobId attemptId ((s.attemptCounts jobId).getD 0 + 1))
      (since ++ [startedAttempt now attemptId jobId ((s.attemptCounts jobId).getD 0 + 1) workerId]) := by
  constructor
  · intro id
    obtain ⟨count, hcount⟩ := h.numbers id
    rw [numbersGiven_started]
    by_cases hid : jobId = id
    · subst hid
      exact ⟨count + 1, by rw [if_pos rfl, hcount, countedUp_succ, h.counter, hcount, countedUp_getLast]⟩
    · exact ⟨count, by rw [if_neg hid, List.append_nil, hcount]⟩
  · intro id
    rw [numbersGiven_started]
    show update s.attemptCounts jobId (some ((s.attemptCounts jobId).getD 0 + 1)) id = _
    by_cases hid : jobId = id
    · subst hid
      rw [if_pos rfl, Function.update_self, List.getLast?_concat]
    · rw [if_neg hid, List.append_nil, Function.update_of_ne (Ne.symm hid)]
      exact h.counter id

end Counting

/-! ## The loop of `start_attempts_batch` -/

theorem startedBy_cons (now : DateTime) {jobId : Uuid} (attemptId : Uuid) (rest : List (Uuid × Uuid))
    (h : Startable s workerId jobId) :
    startedBy now workerId ((jobId, attemptId) :: rest) s =
      startedAttempt now attemptId jobId ((s.attemptCounts jobId).getD 0 + 1) workerId ::
        startedBy now workerId rest
          (recordAttempt s now workerId jobId attemptId ((s.attemptCounts jobId).getD 0 + 1)) := by
  obtain ⟨job, hjob, _⟩ := id h.leased
  have hnext : succI32 ((s.attemptCounts jobId).getD 0) = some ((s.attemptCounts jobId).getD 0 + 1) := if_pos h.room
  rw [startedBy]
  simp only [hjob, if_neg (leased_passes h.leased hjob), hnext]

theorem startedBy_stops (now : DateTime) {jobId : Uuid} (attemptId : Uuid) (rest : List (Uuid × Uuid))
    (h : ¬Startable s workerId jobId) : startedBy now workerId ((jobId, attemptId) :: rest) s = [] := by
  rw [startedBy]
  cases hjob : s.jobs jobId with
  | none => rfl
  | some job =>
      by_cases hl : Leased s workerId jobId
      · have hnext : succI32 ((s.attemptCounts jobId).getD 0) = none := if_neg fun hroom => h ⟨hl, hroom⟩
        simp only [if_neg (leased_passes hl hjob), hnext]
      · simp only [if_pos ((not_leased_iff hjob).mpr hl)]

/-- An attempts map after the insertion of new attempts, one after the other. -/
def inserted (created : List MemoryAttempt) (attempts : Uuid → Option MemoryAttempt) : Uuid → Option MemoryAttempt :=
  created.foldl (fun m att => update m att.id (some att)) attempts

theorem inserted_eq_some {created : List MemoryAttempt} {a : Uuid} {att : MemoryAttempt} :
    ∀ {attempts : Uuid → Option MemoryAttempt}, inserted created attempts a = some att →
      att ∈ created ∧ att.id = a ∨ attempts a = some att := by
  induction created with
  | nil => intro attempts h; exact Or.inr h
  | cons first rest ih =>
      intro attempts h
      rcases ih h with ⟨hin, hid⟩ | h
      · exact Or.inl ⟨List.mem_cons_of_mem _ hin, hid⟩
      · rcases update_eq_some h with ⟨ha, rfl⟩ | ⟨_, hold⟩
        · exact Or.inl ⟨List.mem_cons_self, ha.symm⟩
        · exact Or.inr hold

/-- The record is what the loop does to the attempts map: it inserts these attempts, in this order. -/
theorem startEach_inserts (requests : List (Uuid × Uuid)) :
    ∀ s : InnerState,
      (startEach now workerId requests s).2.attempts = inserted (startedBy now workerId requests s) s.attempts := by
  induction requests with
  | nil => intro s; rfl
  | cons request rest ih =>
      intro s
      obtain ⟨jobId, attemptId⟩ := request
      by_cases hl : Startable s workerId jobId
      · rw [startEach_cons now attemptId rest hl, prependAttempt_snd, startedBy_cons now attemptId rest hl,
          ih]
        rfl
      · obtain ⟨_, hm, _⟩ := startEach_stops now attemptId rest hl
        rw [hm, startedBy_stops now attemptId rest hl]
        rfl

/-- The loop keeps counting, however far it gets. -/
theorem startEach_counting (requests : List (Uuid × Uuid)) :
    ∀ (s : InnerState) (since : List MemoryAttempt), Counting s since →
      Counting (startEach now workerId requests s).2 (since ++ startedBy now workerId requests s) := by
  induction requests with
  | nil =>
      intro s since h
      rw [startedBy, List.append_nil]
      exact h
  | cons request rest ih =>
      intro s since h
      obtain ⟨jobId, attemptId⟩ := request
      by_cases hl : Startable s workerId jobId
      · rw [startEach_cons now attemptId rest hl, prependAttempt_snd, startedBy_cons now attemptId rest hl,
          List.append_cons]
        exact ih _ _ (h.record jobId attemptId)
      · obtain ⟨_, hm, _⟩ := startEach_stops now attemptId rest hl
        rw [hm, startedBy_stops now attemptId rest hl, List.append_nil]
        exact h

/-- It creates attempts of stored jobs only. -/
theorem startedBy_stored (requests : List (Uuid × Uuid)) :
    ∀ s : InnerState, ∀ att ∈ startedBy now workerId requests s, s.jobs att.jobId ≠ none := by
  induction requests with
  | nil => intro s att hatt; cases hatt
  | cons request rest ih =>
      intro s att hatt
      obtain ⟨jobId, attemptId⟩ := request
      by_cases hl : Startable s workerId jobId
      · rw [startedBy_cons now attemptId rest hl] at hatt
        rcases List.mem_cons.mp hatt with rfl | hatt
        · obtain ⟨job, hjob, _⟩ := hl.leased
          show s.jobs jobId ≠ none
          rw [hjob]
          exact Option.some_ne_none job
        · exact ih (recordAttempt s now workerId jobId attemptId ((s.attemptCounts jobId).getD 0 + 1)) att hatt
      · rw [startedBy_stops now attemptId rest hl] at hatt
        cases hatt

/-! ## A run -/

/-- What a run keeps: since the last `clear` the jobs count their attempts, and the attempts created before it are of
    jobs that are gone. -/
structure Recorded (s : InnerState) (c : Created) : Prop where
  counting : Counting s c.since
  before : ∀ jobId, ∃ count, numbersGiven c.before jobId = countedUp count
  gone : ∀ att ∈ c.before, s.jobs att.jobId = none
  apart : ∀ old ∈ c.before, ∀ att ∈ c.since, att.jobId ≠ old.jobId
  stored : ∀ a att, s.attempts a = some att →
    ∃ b ∈ c.since, b.id = a ∧ b.jobId = att.jobId ∧ b.attemptNo = att.attemptNo

namespace Recorded

variable {c : Created}

theorem init : Recorded InnerState.init { before := [], since := [] } where
  counting := ⟨fun _ => ⟨0, rfl⟩, fun _ => rfl⟩
  before := fun _ => ⟨0, rfl⟩
  gone := by intro att h; cases h
  apart := by intro old h; cases h
  stored := by intro a att h; cases h

/-- A job has all its attempts on one side of the last `clear`. -/
theorem ever (h : Recorded s c) (jobId : Uuid) : ∃ count, numbersGiven c.ever jobId = countedUp count := by
  rw [Created.ever, numbersGiven_append]
  by_cases hold : ∃ old ∈ c.before, old.jobId = jobId
  · obtain ⟨old, hin, rfl⟩ := hold
    rw [numbersGiven_eq_nil (h.apart old hin), List.append_nil]
    exact h.before old.jobId
  · push Not at hold
    rw [numbersGiven_eq_nil hold, List.nil_append]
    exact h.counting.numbers jobId

theorem clear (h : Recorded s c) : Recorded (Memory.clear s) { before := c.ever, since := [] } where
  counting := ⟨fun _ => ⟨0, rfl⟩, fun _ => rfl⟩
  before := h.ever
  gone := fun _ _ => rfl
  apart := by intro old _ att hatt; cases hatt
  stored := by intro a att hatt; cases hatt

/-- A call that creates no attempt and moves no counter. -/
theorem same (h : Recorded s c) (hcounts : s'.attemptCounts = s.attemptCounts)
    (hgone : ∀ att ∈ c.before, s.jobs att.jobId = none → s'.jobs att.jobId = none)
    (hstored : ∀ a att', s'.attempts a = some att' →
      ∃ att, s.attempts a = some att ∧ att.jobId = att'.jobId ∧ att.attemptNo = att'.attemptNo) : Recorded s' c where
  counting := h.counting.congr hcounts
  before := h.before
  gone := fun att hatt => hgone att hatt (h.gone att hatt)
  apart := h.apart
  stored := by
    intro a att' hatt'
    obtain ⟨att, hatt, hj, hno⟩ := hstored a att' hatt'
    obtain ⟨b, hb, hid, hj', hno'⟩ := h.stored a att hatt
    exact ⟨b, hb, hid, hj'.trans hj, hno'.trans hno⟩

/-- `start_attempts_batch`, whether or not it succeeds. -/
theorem start (h : Recorded s c) (now : DateTime) (workerId : String) (requests : List (Uuid × Uuid)) :
    Recorded (startEach now workerId requests s).2
      { c with since := c.since ++ startedBy now workerId requests s } where
  counting := startEach_counting requests s c.since h.counting
  before := h.before
  gone := by
    intro att hatt
    rw [(startEach_frame requests s).1]
    exact h.gone att hatt
  apart := by
    intro old hold att hatt
    rcases List.mem_append.mp hatt with hatt | hatt
    · exact h.apart old hold att hatt
    · -- an attempt is started for a stored job, and the old ones are of jobs that are gone
      rintro heq
      exact startedBy_stored requests s att hatt (heq ▸ h.gone old hold)
  stored := by
    intro a att hatt
    rw [startEach_inserts] at hatt
    rcases inserted_eq_some hatt with ⟨hin, hid⟩ | hold
    · exact ⟨att, List.mem_append_right _ hin, hid, rfl, rfl⟩
    · obtain ⟨b, hb, hrest⟩ := h.stored a att hold
      exact ⟨b, List.mem_append_left _ hb, hrest⟩

end Recorded

/-- A call other than `start_attempts_batch` moves no counter. -/
theorem call_attemptCounts (hk : Keyed s) {call : Call} (hstep : backendSystem.step s call s')
    (hstart : ∀ now requests workerId, call ≠ .job (.startAttempts now requests workerId)) :
    s'.attemptCounts = s.attemptCounts := by
  rcases backendSystem_step hstep with ⟨op, rfl, _, happ⟩ | ⟨_, hsame⟩
  · have hret : (op.apply s).1 = true := by rw [happ]
    obtain rfl : (op.apply s).2 = s' := by rw [happ]
    by_cases hdelete : ∃ archiveOrder attemptOrder cutoff limit,
        op = .deleteHistory archiveOrder attemptOrder cutoff limit
    · -- the deletion takes attempts away, and the counters stay
      obtain ⟨archiveOrder, attemptOrder, cutoff, limit, rfl⟩ := hdelete
      rfl
    · exact (apply_sameNumbers hk op hret (fun now requests workerId heq => hstart now requests workerId
        (congrArg _ heq)) fun _ _ _ _ heq => hdelete ⟨_, _, _, _, heq⟩).attemptCounts
  · exact hsame.attemptCounts

/-- After such a call an attempt is one from before, under the number that it had. -/
theorem call_stored (hwf : WellFormed s) (hk : Keyed s) {call : Call} (hstep : backendSystem.step s call s')
    (hstart : ∀ now requests workerId, call ≠ .job (.startAttempts now requests workerId)) {a : Uuid}
    {att' : MemoryAttempt} (hatt' : s'.attempts a = some att') :
    ∃ att, s.attempts a = some att ∧ att.jobId = att'.jobId ∧ att.attemptNo = att'.attemptNo := by
  rcases backendSystem_step hstep with ⟨op, rfl, hadm, happ⟩ | ⟨_, hsame⟩
  · have hret : (op.apply s).1 = true := by rw [happ]
    obtain rfl : (op.apply s).2 = s' := by rw [happ]
    cases apply_attemptEntry hwf hk op hadm hret a with
    | kept same => exact ⟨att', same ▸ hatt', rfl, rfl⟩
    | started drawn _ _ _ _ =>
        cases op with
        | startAttempts now requests workerId => exact absurd rfl (hstart now requests workerId)
        | _ => cases drawn
    | closed before after closes _ _ =>
        rw [hatt'] at after
        cases after
        exact ⟨_, before, closes.jobId.symm, closes.attemptNo.symm⟩
    | removed _ after _ =>
        rw [hatt'] at after
        cases after
  · exact ⟨att', hsame.attempts ▸ hatt', rfl, rfl⟩

/-- Such a call adds nothing to the record. -/
theorem record_of_not_start {c : Created} {call : Call}
    (hstart : ∀ now requests workerId, call ≠ .job (.startAttempts now requests workerId)) :
    (Operation.call call).record s c = c := by
  cases call with
  | stream op => rfl
  | job op =>
      cases op with
      | startAttempts now requests workerId => exact absurd rfl (hstart now requests workerId)
      | _ => rfl

/-- A call adds to the record of what was created since the last `clear`. -/
theorem record_call (s : InnerState) (c : Created) (call : Call) :
    ∃ more, (Operation.call call).record s c = { c with since := c.since ++ more } := by
  cases call with
  | stream op => exact ⟨[], by rw [List.append_nil]; rfl⟩
  | job op =>
      cases op with
      | startAttempts now requests workerId => exact ⟨startedBy now workerId requests s, rfl⟩
      | _ => exact ⟨[], by rw [List.append_nil]; rfl⟩

/-- The operations that are calls lead to states of the backend, and so does `clear`. -/
theorem recordedSystem_reachable {r : InnerState × Created} (h : recordedSystem.Reachable r) :
    backendSystem.Reachable r.1 := by
  refine h.invariant (I := fun r => backendSystem.Reachable r.1) ?_ ?_
  · rintro r rfl
    exact .start rfl
  · rintro r op r' _ hreach ⟨_, hstep⟩
    cases op with
    | call call => exact hreach.next hstep.1
    | clear => exact .start hstep

/-- **The run lemma.** -/
theorem reachable_recorded {r : InnerState × Created} (h : recordedSystem.Reachable r) : Recorded r.1 r.2 := by
  refine h.invariant (I := fun r => Recorded r.1 r.2) ?_ ?_
  · rintro r rfl
    exact .init
  · rintro ⟨s, c⟩ op ⟨s', c'⟩ hreach hI ⟨hrecord, hstep⟩
    obtain ⟨hwf, hk⟩ := backend_invariants (recordedSystem_reachable hreach)
    cases op with
    | clear =>
        obtain rfl : s' = clear s := hstep
        obtain rfl : c' = _ := hrecord
        exact hI.clear
    | call call =>
        obtain ⟨hcall, hgone⟩ := hstep
        by_cases hstart : ∃ now requests workerId, call = .job (.startAttempts now requests workerId)
        · obtain ⟨now, requests, workerId, rfl⟩ := hstart
          obtain rfl : c' = _ := hrecord
          have hs' := congrArg Prod.snd hcall.2
          simp only [Call.apply, MemOp.apply, MemOp.finish_snd] at hs'
          obtain rfl : (startEach now workerId requests s).2 = s' := hs'
          exact hI.start now workerId requests
        · have hnot : ∀ now requests workerId, call ≠ .job (.startAttempts now requests workerId) :=
            fun _ _ _ heq => hstart ⟨_, _, _, heq⟩
          obtain rfl : c' = c := (show c' = _ from hrecord).trans (record_of_not_start hnot)
          exact hI.same (call_attemptCounts hk hcall hnot) hgone fun a att' => call_stored hwf hk hcall hnot

/-- **Every attempt ever created has its number.** In every run the attempts that were ever created for a job carry the
    numbers 1, 2, 3 and so on, in the order of their creation, and the record has every attempt that is stored. The
    job's counter is the last number given since the last `clear`, which empties the counters: without one, it is the
    last number ever given. -/
theorem attempts_numbered_in_order {r : InnerState × Created} (h : recordedSystem.Reachable r) :
    (∀ jobId, ∃ count, numbersGiven r.2.ever jobId = countedUp count) ∧
      (∀ jobId, r.1.attemptCounts jobId = (numbersGiven r.2.since jobId).getLast?) ∧
      (r.2.before = [] → ∀ jobId, r.1.attemptCounts jobId = (numbersGiven r.2.ever jobId).getLast?) ∧
      ∀ a att, r.1.attempts a = some att →
        ∃ b ∈ r.2.since, b.id = a ∧ b.jobId = att.jobId ∧ b.attemptNo = att.attemptNo := by
  have hI := reachable_recorded h
  refine ⟨hI.ever, hI.counting.counter, fun hnever jobId => ?_, hI.stored⟩
  rw [Created.ever, hnever, List.nil_append]
  exact hI.counting.counter jobId

/-- A call of a run without a `clear`. -/
theorem recordedSystem_call (call : Call) {created : List MemoryAttempt}
    (h : recordedSystem.Reachable (s, { before := [], since := created })) (hadm : call.Admissible s)
    (hret : (call.apply s).1 = true) :
    recordedSystem.Reachable ((call.apply s).2, (Operation.call call).record s { before := [], since := created }) :=
  h.next (i := .call call) ⟨rfl, ⟨hadm, Prod.ext hret rfl⟩, fun _ hatt => absurd hatt List.not_mem_nil⟩

/-- Every run of the calls is recorded: without a `clear` nothing is asked of the ids of new jobs. -/
theorem recorded_of_reachable (h : backendSystem.Reachable s) :
    ∃ created, recordedSystem.Reachable (s, { before := [], since := created }) := by
  induction h with
  | start hinit =>
      obtain rfl : _ = InnerState.init := hinit
      exact ⟨[], .start rfl⟩
  | @next s s' call _ hstep ih =>
      obtain ⟨created, hreach⟩ := ih
      obtain ⟨more, hmore⟩ := record_call s { before := [], since := created } call
      have hnext := recordedSystem_call call hreach hstep.1 (by rw [hstep.2])
      rw [hstep.2, hmore] at hnext
      exact ⟨created ++ more, hnext⟩

/-- A batch names the leased job 7 twice and fails at the job 8, which is not stored; 7 succeeds and is archived, and
    its attempts are deleted. -/
theorem attempts_numbered_in_order_deleted :
    let s₁ := ((Call.job (.enqueue 0 7 [] welcomeEmail)).apply InnerState.init).2
    let s₂ := ((Call.job (.lease 1 "emails" "w1" 30 10 .fifo)).apply s₁).2
    let s₃ := ((Call.job (.startAttempts 2 [(7, 100), (7, 101), (8, 102)] "w1")).apply s₂).2
    let s₄ := ((Call.job (.markSucceeded 3 9 7 101 "w1" 5)).apply s₃).2
    let s₅ := ((Call.job (.archive [7] 10 10)).apply s₄).2
    let s₆ := ((Call.job (.deleteHistory [7] [100, 101] 10 10)).apply s₅).2
    let created := startedBy 2 "w1" [(7, 100), (7, 101), (8, 102)] s₂
    s₆.attemptCounts 7 = (numbersGiven created 7).getLast? ∧ numbersGiven created 7 = countedUp 2 ∧
      s₆.attempts 100 = none ∧ s₆.attempts 101 = none := by
  intro s₁ s₂ s₃ s₄ s₅ s₆ created
  have h₁ := recordedSystem_call (.job (.enqueue 0 7 [] welcomeEmail)) (.start rfl)
    ⟨⟨rfl, rfl⟩, enumerates_nil⟩ rfl
  have h₂ := recordedSystem_call (.job (.lease 1 "emails" "w1" 30 10 .fifo)) h₁ trivial (by decide)
  have h₃ := recordedSystem_call (.job (.startAttempts 2 [(7, 100), (7, 101), (8, 102)] "w1")) h₂
    ⟨by decide, by decide⟩ (by decide)
  have h₄ := recordedSystem_call (.job (.markSucceeded 3 9 7 101 "w1" 5)) h₃ ⟨by decide, by decide⟩
    (by decide)
  have hjobs : Enumerates s₄.jobs [7] := by
    refine enumerates_singleton (by decide) fun id hne => ?_
    have hsame : s₄.jobs id = update (update (update (fun _ => none) 7 _) 7 _) 7 _ id := rfl
    rw [hsame, Function.update_of_ne hne, Function.update_of_ne hne, Function.update_of_ne hne]
  have h₅ := recordedSystem_call (.job (.archive [7] 10 10)) h₄ hjobs (by decide)
  have harchive : Enumerates s₅.archive [7] := by
    refine enumerates_singleton (by decide) fun id hne => ?_
    have hsame : s₅.archive id = update (fun _ => none) 7 _ id := rfl
    rw [hsame, Function.update_of_ne hne]
  have hattempts : Enumerates s₅.attempts [100, 101] := by
    refine ⟨by decide, fun id => ?_⟩
    have hsame : s₅.attempts id = update (update (update (fun _ => none) 100 _) 101 _) 101 _ id := rfl
    by_cases h100 : id = 100
    · subst h100
      decide
    · by_cases h101 : id = 101
      · subst h101
        decide
      · rw [hsame, Function.update_of_ne h101, Function.update_of_ne h101, Function.update_of_ne h100]
        simp [h100, h101]
  have h₆ := recordedSystem_call (.job (.deleteHistory [7] [100, 101] 10 10)) h₅ ⟨harchive, hattempts⟩ rfl
  exact ⟨(attempts_numbered_in_order h₆).2.2.1 rfl 7, by decide, by decide, by decide⟩

end Azums.Memory
