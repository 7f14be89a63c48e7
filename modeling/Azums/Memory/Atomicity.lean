import Azums.Memory.Fencing

/-!
# `Memory.Atomicity` — what a failed call leaves behind

An operation on one job checks everything before it writes anything, so its error leaves the state as it was. The
two batch operations run such a check and its writes job by job: an error at one item leaves the items before it
done. `err_keeps_state_iff` says exactly when that cannot be seen: when a batch that fails, fails at its first item.
-/

namespace Azums.Memory

open Function (update)

variable {s s' : InnerState} {now : DateTime}

/-! ## Results without their values -/

/-- The outcome of a call, with the value forgotten. -/
def forget {α : Type} : Outcome α × InnerState → Outcome Unit × InnerState
  | (.ok _, s) => (.ok (), s)
  | (.err message, s) => (.err message, s)
  | (.panic, s) => (.panic, s)

/-- How a call ends, and the state it leaves. -/
def Call.result (s : InnerState) : Call → Outcome Unit × InnerState
  | job (.enqueue now newId order new) => forget (enqueue s now newId order new)
  | job (.lease now queue workerId leaseSeconds batchSize ordering) =>
      forget (leaseJobsBatchWithOrdering s now queue workerId leaseSeconds batchSize ordering)
  | job (.reap now order) => forget (reapExpiredLocks s now order)
  | job (.startAttempts now requests workerId) => forget (startAttemptsBatch s now requests workerId)
  | job (.markSucceeded now newId jobId attemptId workerId latencyMs) =>
      markSucceeded s now newId jobId attemptId workerId latencyMs
  | job (.markSucceededBatch updates workerId) => markSucceededBatch workerId updates s
  | job (.reschedule now jobId attemptId workerId latencyMs nextRunAt errorCode errorMessage) =>
      rescheduleForRetry s now jobId attemptId workerId latencyMs nextRunAt errorCode errorMessage
  | job (.markDlq now jobId attemptId workerId latencyMs reasonCode errorCode errorMessage) =>
      markDlq s now jobId attemptId workerId latencyMs reasonCode errorCode errorMessage
  | job (.extendLease now jobId workerId leaseSeconds) => forget (extendLease s now jobId workerId leaseSeconds)
  | job (.cancel now attemptOrder jobId workerId) => cancelJob s now attemptOrder jobId workerId
  | job (.archive order cutoff limit) => forget (archiveSucceededOlderThan s order cutoff limit)
  | job (.deleteHistory archiveOrder attemptOrder cutoff limit) =>
      forget (deleteHistoryForSucceededOlderThan s archiveOrder attemptOrder cutoff limit)
  | job (.replay now newId jobId overrideQueue overrideRunAt) =>
      forget (replayJob s now newId jobId overrideQueue overrideRunAt)
  | stream (.publish now name event) => forget (publish s now name event)
  | stream (.ack now name consumerGroup seq) => ack s now name consumerGroup seq
  | stream (.prune order name throughSeq) => forget (pruneEvents s order name throughSeq)

/-- If the call returns an error, the whole state is as before. -/
def ErrKeepsState (s : InnerState) (call : Call) : Prop :=
  ∀ message s', call.result s = (.err message, s') → s' = s

theorem forget_err {α : Type} {r : Outcome α × InnerState} {message : String}
    (h : forget r = (.err message, s')) : r = (.err message, s') := by
  obtain ⟨outcome, t⟩ := r
  cases outcome with
  | ok a => cases h
  | err m => cases h; rfl
  | panic => cases h

/-! ## Starting attempts -/

/-- The attempts that a batch asks for can be counted: no counter of its jobs passes the maximum. -/
def CountsFit (s : InnerState) (requests : List (Uuid × Uuid)) : Prop :=
  ∀ r ∈ requests, (s.attemptCounts r.1).getD 0 + (requests.map (·.1)).count r.1 ≤ 2147483647

/-- A batch fits exactly if its first attempt does, and the others fit after it. -/
theorem countsFit_cons {jobId attemptId : Uuid} {rest : List (Uuid × Uuid)} (now : DateTime) (workerId : String) :
    CountsFit s ((jobId, attemptId) :: rest) ↔ HasRoom s jobId ∧
      CountsFit (recordAttempt s now workerId jobId attemptId ((s.attemptCounts jobId).getD 0 + 1)) rest := by
  have hcount : ∀ id, ((recordAttempt s now workerId jobId attemptId
      ((s.attemptCounts jobId).getD 0 + 1)).attemptCounts id).getD 0 + (rest.map (·.1)).count id =
        (s.attemptCounts id).getD 0 + (((jobId, attemptId) :: rest).map (·.1)).count id := by
    intro id
    show (update s.attemptCounts jobId (some ((s.attemptCounts jobId).getD 0 + 1)) id).getD 0 + _ = _
    by_cases hid : id = jobId
    · subst hid
      rw [Function.update_self, List.map_cons, List.count_cons_self, Option.getD_some]
      omega
    · rw [Function.update_of_ne hid, List.map_cons, List.count_cons_of_ne (Ne.symm hid)]
  unfold CountsFit HasRoom
  simp only [hcount]
  rw [List.forall_mem_cons]
  refine and_congr_left fun hrest => ?_
  simp only [List.map_cons, List.count_cons_self]
  constructor
  · intro h
    omega
  · intro hroom
    by_cases hin : jobId ∈ rest.map (·.1)
    · -- the job is asked for again, and that attempt fits too
      obtain ⟨r, hr, hid⟩ := List.mem_map.mp hin
      have hagain := hrest r hr
      simp only [hid, List.map_cons, List.count_cons_self] at hagain
      exact hagain
    · rw [List.count_eq_zero_of_not_mem hin]
      omega

/-- The loop fails at a job that fails its check, if the jobs before it pass theirs and their counters can be raised. -/
theorem startEach_fails (now : DateTime) {workerId : String} {r : Uuid × Uuid} (after before : List (Uuid × Uuid)) :
    ∀ s : InnerState, (∀ b ∈ before, Leased s workerId b.1) → CountsFit s before → ¬Leased s workerId r.1 →
      ∃ message, (startEach now workerId (before ++ r :: after) s).1 = .err message := by
  induction before with
  | nil =>
      intro s _ _ hnot
      obtain ⟨message, hm⟩ := startEach_refused now r.2 after hnot
      exact ⟨message, congrArg Prod.fst hm⟩
  | cons first rest ih =>
      intro s hleased hfit hnot
      obtain ⟨jobId, attemptId⟩ := first
      obtain ⟨hroom, hfit⟩ := (countsFit_cons now workerId).mp hfit
      -- the jobs are the same after the round, so the rest of the loop makes the same checks
      obtain ⟨message, hm⟩ := ih (recordAttempt s now workerId jobId attemptId ((s.attemptCounts jobId).getD 0 + 1))
        (fun b hb => hleased b (List.mem_cons_of_mem _ hb)) hfit hnot
      rw [List.cons_append, startEach_cons now attemptId _ ⟨hleased _ List.mem_cons_self, hroom⟩]
      exact ⟨message, prependAttempt_err.mpr hm⟩

/-- And it fails in no other way. -/
theorem startEach_failed (now : DateTime) {workerId message : String} (requests : List (Uuid × Uuid)) :
    ∀ s : InnerState, (startEach now workerId requests s).1 = .err message →
      ∃ before r after, requests = before ++ r :: after ∧ (∀ b ∈ before, Leased s workerId b.1) ∧
        CountsFit s before ∧ ¬Leased s workerId r.1 := by
  induction requests with
  | nil => intro s h; cases h
  | cons request rest ih =>
      intro s h
      obtain ⟨jobId, attemptId⟩ := request
      by_cases hl : Leased s workerId jobId
      · by_cases hroom : HasRoom s jobId
        · rw [startEach_cons now attemptId rest ⟨hl, hroom⟩, prependAttempt_err] at h
          obtain ⟨before, r, after, rfl, hleased, hfit, hnot⟩ := ih _ h
          refine ⟨(jobId, attemptId) :: before, r, after, rfl, ?_, (countsFit_cons now workerId).mpr ⟨hroom, hfit⟩, hnot⟩
          intro b hb
          rcases List.mem_cons.mp hb with rfl | hb
          · exact hl
          · exact hleased b hb
        · rw [startEach_full now attemptId rest hl hroom] at h
          cases h
      · refine ⟨[], (jobId, attemptId), rest, rfl, ?_, ?_, hl⟩
        · intro b hb
          cases hb
        · intro b hb
          cases hb

/-- Attempt counters never go down. -/
theorem startEach_counts (now : DateTime) (workerId : String) (requests : List (Uuid × Uuid)) :
    ∀ (s : InnerState) (id : Uuid), (s.attemptCounts id).getD 0 ≤
      ((startEach now workerId requests s).2.attemptCounts id).getD 0 := by
  induction requests with
  | nil => intro s id; exact le_refl _
  | cons request rest ih =>
      intro s id
      obtain ⟨jobId, attemptId⟩ := request
      by_cases hl : Startable s workerId jobId
      · rw [startEach_cons _ _ rest hl, prependAttempt_snd]
        refine le_trans ?_ (ih _ id)
        by_cases hid : id = jobId
        · subst hid
          show _ ≤ (update s.attemptCounts id (some ((s.attemptCounts id).getD 0 + 1)) id).getD 0
          rw [Function.update_self, Option.getD_some]
          omega
        · show _ ≤ (update s.attemptCounts jobId (some ((s.attemptCounts jobId).getD 0 + 1)) id).getD 0
          rw [Function.update_of_ne hid]
      · obtain ⟨_, hm, _⟩ := startEach_stops now attemptId rest hl
        rw [hm]

/-- The first attempt that is started shows in the counter. -/
theorem startEach_ne (now : DateTime) {workerId : String} {jobId : Uuid} (attemptId : Uuid)
    (rest : List (Uuid × Uuid)) (h : Startable s workerId jobId) :
    (startEach now workerId ((jobId, attemptId) :: rest) s).2 ≠ s := by
  intro heq
  have hcount := startEach_counts now workerId rest
    (recordAttempt s now workerId jobId attemptId ((s.attemptCounts jobId).getD 0 + 1)) jobId
  rw [startEach_cons _ _ rest h, prependAttempt_snd] at heq
  rw [heq] at hcount
  have hrecord : (recordAttempt s now workerId jobId attemptId ((s.attemptCounts jobId).getD 0 + 1)).attemptCounts
      jobId = some ((s.attemptCounts jobId).getD 0 + 1) := Function.update_self ..
  rw [hrecord, Option.getD_some] at hcount
  omega

/-- A batch of attempts that gets past its first job does not fail: where the jobs before pass their checks, and the
    counters can be raised, so does the next one. -/
def StartFailsFirst (s : InnerState) (workerId : String) (requests : List (Uuid × Uuid)) : Prop :=
  ∀ before r after, requests = before ++ r :: after → before ≠ [] → (∀ b ∈ before, Leased s workerId b.1) →
    CountsFit s before → Leased s workerId r.1

/-- `start_attempts_batch` leaves the state alone when it fails, exactly if it fails at the first job. -/
theorem startAttemptsBatch_errKeepsState_iff (requests : List (Uuid × Uuid)) (workerId : String) :
    ErrKeepsState s (.job (.startAttempts now requests workerId)) ↔ StartFailsFirst s workerId requests := by
  constructor
  · rintro h before r after rfl hne hleased hfit
    cases before with
    | nil => exact absurd rfl hne
    | cons first rest =>
        obtain ⟨jobId, attemptId⟩ := first
        -- the attempt of the first job would stay in the counter, whatever the rest of the loop does
        by_contra hnot
        obtain ⟨message, hm⟩ := startEach_fails now after _ s hleased hfit hnot
        have hfirst : Startable s workerId jobId :=
          ⟨hleased _ List.mem_cons_self, ((countsFit_cons now workerId).mp hfit).1⟩
        refine startEach_ne now attemptId (rest ++ r :: after) hfirst (h message _ ?_)
        rw [List.cons_append] at hm
        show forget (startEach now workerId ((jobId, attemptId) :: (rest ++ r :: after)) s) = _
        rw [← Prod.mk.eta (p := startEach now workerId ((jobId, attemptId) :: (rest ++ r :: after)) s), hm]
        rfl
  · intro h message s' hres
    have herr : startEach now workerId requests s = (.err message, s') := forget_err hres
    obtain ⟨before, r, after, rfl, hleased, hfit, hnot⟩ := startEach_failed now requests s (congrArg Prod.fst herr)
    by_cases hne : before = []
    · subst hne
      obtain ⟨m, hm⟩ := startEach_refused now r.2 after hnot
      rw [List.nil_append] at herr
      have hsame : (Outcome.err m, s) = (Outcome.err message, s') := hm.symm.trans herr
      exact (congrArg Prod.snd hsame).symm
    · exact absurd (h before r after rfl hne hleased hfit) hnot

/-! ## Acknowledging in a batch

An item of a batch is the tuple of `now`, `newId`, `jobId`, `attemptId` and `latencyMs` of its call. -/

/-- An item of `mark_succeeded_batch`. -/
abbrev AckItem := DateTime × Uuid × Uuid × Uuid × Int

/-- What `mark_succeeded` checks, and that it gets to its checks. -/
structure Acceptable (s : InnerState) (workerId : String) (u : AckItem) : Prop where
  lease : Leased s workerId u.2.2.1
  attempt : HasAttempt s u.2.2.2.1 u.2.2.1
  inRange : NextInRange s u.2.2.1

variable {workerId : String}

/-- `mark_succeeded` returns an error exactly if it gets to its checks and one of them fails. -/
theorem markSucceeded_err_iff (u : AckItem) :
    (∃ e, markSucceeded s u.1 u.2.1 u.2.2.1 u.2.2.2.1 workerId u.2.2.2.2 = (.err e, s)) ↔
      NextInRange s u.2.2.1 ∧ ¬Acceptable s workerId u := by
  obtain ⟨now, newId, jobId, attemptId, latencyMs⟩ := u
  rcases markSucceeded_cases s now newId jobId attemptId workerId latencyMs with
    ⟨hnone, heq⟩ | ⟨hnot, hsome, e, heq⟩ | ⟨next, job, att, _, hlease, hatt, heq⟩
  · -- the next occurrence is computed before the checks, and the call panics there
    refine iff_of_false ?_ fun hboth => ?_
    · rintro ⟨e, he⟩
      cases heq.symm.trans he
    · have hsome := (recurringJob_isSome now newId).mpr hboth.1
      rw [hnone] at hsome
      cases hsome
  · refine iff_of_true ⟨e, heq⟩ ⟨(recurringJob_isSome now newId).mp hsome, fun hacc => ?_⟩
    exact hnot ⟨hacc.lease, hacc.attempt⟩
  · refine iff_of_false ?_ fun hboth => ?_
    · rintro ⟨e, he⟩
      cases heq.symm.trans he
    · exact hboth.2 ⟨⟨job, hlease⟩, ⟨att, hatt⟩, hboth.1⟩

/-- A next occurrence out of range is a panic, whatever the checks would have said. -/
theorem markSucceeded_panic {jobId : Uuid} (h : ¬NextInRange s jobId) (newId attemptId : Uuid)
    (latencyMs : Int) : markSucceeded s now newId jobId attemptId workerId latencyMs = (.panic, s) := by
  rw [← recurringJob_isSome now newId, Option.not_isSome_iff_eq_none] at h
  rw [markSucceeded, h]

/-- An acceptable item is accepted; what it makes of the jobs and the attempts. -/
theorem markSucceeded_ok {u : AckItem} (h : Acceptable s workerId u) : ∃ t job att,
    markSucceeded s u.1 u.2.1 u.2.2.1 u.2.2.2.1 workerId u.2.2.2.2 = (.ok (), t) ∧
    s.jobs u.2.2.1 = some job ∧ job.status = "running" ∧
    (∀ id, id ≠ u.2.1 → t.jobs id = update s.jobs u.2.2.1 (some (completedJob u.1 job)) id) ∧
    t.attempts = update s.attempts u.2.2.2.1 (some (succeededAttempt u.1 u.2.2.2.2 att)) := by
  obtain ⟨now, newId, jobId, attemptId, latencyMs⟩ := u
  rcases markSucceeded_cases s now newId jobId attemptId workerId latencyMs with
    ⟨hnone, _⟩ | ⟨hnot, _⟩ | ⟨next, job, att, hrec, ⟨hjob, hst, _⟩, _, heq⟩
  · have hsome := (recurringJob_isSome now newId).mpr h.inRange
    rw [hnone] at hsome
    cases hsome
  · exact absurd ⟨h.lease, h.attempt⟩ hnot
  · exact ⟨_, job, att, heq, hjob, hst, fun id hid => insertNext_jobs hrec hid, insertNext_attempts next⟩

/-- The ids the items draw are ids of no item's job. -/
def DrawsApart (updates : List AckItem) : Prop := ∀ u ∈ updates, ∀ v ∈ updates, u.2.1 ≠ v.2.2.1

/-- What the items done so far have made of the state the batch began in. -/
structure Done (s : InnerState) (done : List AckItem) (t : InnerState) : Prop where
  jobs : ∀ u ∈ done, ∃ job, s.jobs u.2.2.1 = some job ∧ job.status = "running" ∧
    t.jobs u.2.2.1 = some (completedJob u.1 job)
  otherJobs : ∀ id, (∀ u ∈ done, u.2.2.1 ≠ id ∧ u.2.1 ≠ id) → t.jobs id = s.jobs id
  attempts : ∀ u ∈ done, Closed t u.2.2.2.1
  otherAttempts : ∀ a, (∀ u ∈ done, u.2.2.2.1 ≠ a) → t.attempts a = s.attempts a

theorem Done.nil (s : InnerState) : Done s [] s :=
  ⟨fun _ hu => absurd hu List.not_mem_nil, fun _ _ => rfl, fun _ hu => absurd hu List.not_mem_nil, fun _ _ => rfl⟩

section Done

variable {done : List AckItem} {t : InnerState} {u : AckItem}

/-- The items done do not change whether the next occurrence of a job is in range. -/
theorem Done.inRange_iff (h : Done s done t) (hapart : ∀ v ∈ done, v.2.1 ≠ u.2.2.1) :
    NextInRange t u.2.2.1 ↔ NextInRange s u.2.2.1 := by
  by_cases hin : ∃ v ∈ done, v.2.2.1 = u.2.2.1
  · obtain ⟨v, hv, hid⟩ := hin
    obtain ⟨job, hjob, _, hdone⟩ := h.jobs v hv
    rw [hid] at hjob hdone
    constructor
    · intro hr j i hj hi
      rw [hjob] at hj
      cases hj
      exact hr (completedJob v.1 job) i hdone hi
    · intro hr j i hj hi
      rw [hdone] at hj
      cases hj
      exact hr job i hjob hi
  · have hsame : t.jobs u.2.2.1 = s.jobs u.2.2.1 :=
      h.otherJobs _ fun v hv => ⟨fun hid => hin ⟨v, hv, hid⟩, hapart v hv⟩
    rw [NextInRange, hsame, NextInRange]

/-- An item is acceptable now exactly if it was at the start and its job is none of those done. -/
theorem Done.acceptable_iff (h : Done s done t) (hacc : ∀ v ∈ done, Acceptable s workerId v)
    (hapart : ∀ v ∈ done, v.2.1 ≠ u.2.2.1) :
    Acceptable t workerId u ↔ Acceptable s workerId u ∧ ∀ v ∈ done, v.2.2.1 ≠ u.2.2.1 := by
  have hrange := h.inRange_iff (u := u) hapart
  constructor
  · rintro ⟨⟨job, hjob, hst, hby⟩, ⟨att, hatt, hrun, hj⟩, hnext⟩
    have hnew : ∀ v ∈ done, v.2.2.1 ≠ u.2.2.1 := by
      intro v hv hid
      obtain ⟨_, _, _, hdone⟩ := h.jobs v hv
      rw [hid, hjob] at hdone
      cases hdone
      exact absurd hst (by simp [completedJob])
    have hjobs : t.jobs u.2.2.1 = s.jobs u.2.2.1 := h.otherJobs _ fun v hv => ⟨hnew v hv, hapart v hv⟩
    have hattempts : t.attempts u.2.2.2.1 = s.attempts u.2.2.2.1 := by
      refine h.otherAttempts _ fun v hv ha => ?_
      exact h.attempts v hv att (ha ▸ hatt) hrun
    exact ⟨⟨⟨job, hjobs ▸ hjob, hst, hby⟩, ⟨att, hattempts ▸ hatt, hrun, hj⟩, hrange.mp hnext⟩, hnew⟩
  · rintro ⟨⟨⟨job, hjob, hst, hby⟩, ⟨att, hatt, hrun, hj⟩, hnext⟩, hnew⟩
    have hjobs : t.jobs u.2.2.1 = s.jobs u.2.2.1 := h.otherJobs _ fun v hv => ⟨hnew v hv, hapart v hv⟩
    have hattempts : t.attempts u.2.2.2.1 = s.attempts u.2.2.2.1 := by
      refine h.otherAttempts _ fun v hv ha => ?_
      -- an attempt belongs to one job
      obtain ⟨att', hatt', _, hj'⟩ := (hacc v hv).attempt
      rw [ha, hatt] at hatt'
      cases hatt'
      exact hnew v hv (hj'.symm.trans hj)
    exact ⟨⟨job, hjobs.trans hjob, hst, hby⟩, ⟨att, hattempts.trans hatt, hrun, hj⟩, hrange.mpr hnext⟩

/-- One more item. -/
theorem Done.snoc (h : Done s done t) (hacc : Acceptable t workerId u) (hnew : ∀ v ∈ done, v.2.2.1 ≠ u.2.2.1)
    (hapart : ∀ v ∈ done, v.2.1 ≠ u.2.2.1) (hapart' : ∀ v ∈ done, u.2.1 ≠ v.2.2.1) (hself : u.2.1 ≠ u.2.2.1) :
    ∃ t', markSucceeded t u.1 u.2.1 u.2.2.1 u.2.2.2.1 workerId u.2.2.2.2 = (.ok (), t') ∧
      Done s (done ++ [u]) t' := by
  obtain ⟨t', job, att, hok, hjob, hst, hjobs, hattempts⟩ := markSucceeded_ok hacc
  obtain ⟨open_, hopen, hrun, _⟩ := hacc.attempt
  refine ⟨t', hok, ?_, ?_, ?_, ?_⟩
  · -- jobs: those done before are not the job of `u`, which is done now
    intro v hv
    rcases List.mem_append.mp hv with hv | hv
    · obtain ⟨j, hj, hjst, hjt⟩ := h.jobs v hv
      refine ⟨j, hj, hjst, ?_⟩
      rw [hjobs _ (hapart' v hv).symm, Function.update_of_ne (hnew v hv)]
      exact hjt
    · rw [List.mem_singleton] at hv
      subst hv
      refine ⟨job, ?_, hst, ?_⟩
      · rw [← h.otherJobs _ fun w hw => ⟨hnew w hw, hapart w hw⟩]
        exact hjob
      · rw [hjobs _ hself.symm, Function.update_self]
  · -- every other job
    intro id hid
    obtain ⟨hu, hn⟩ := hid u (List.mem_append_right _ List.mem_cons_self)
    rw [hjobs _ hn.symm, Function.update_of_ne hu.symm]
    exact h.otherJobs id fun v hv => hid v (List.mem_append_left _ hv)
  · intro v hv
    rcases List.mem_append.mp hv with hv | hv
    · have hne : v.2.2.2.1 ≠ u.2.2.2.1 := by
        intro ha
        exact h.attempts v hv open_ (ha ▸ hopen) hrun
      intro a ha
      rw [hattempts, Function.update_of_ne hne] at ha
      exact h.attempts v hv a ha
    · rw [List.mem_singleton] at hv
      subst hv
      intro a ha
      rw [hattempts, Function.update_self] at ha
      cases ha
      simp [succeededAttempt]
  · intro a ha
    have hu := ha u (List.mem_append_right _ List.mem_cons_self)
    rw [hattempts, Function.update_of_ne hu.symm]
    exact h.otherAttempts a fun v hv => ha v (List.mem_append_left _ hv)

end Done

theorem markSucceededBatch_cons {u : AckItem} {rest : List AckItem} {t t' : InnerState}
    (h : markSucceeded t u.1 u.2.1 u.2.2.1 u.2.2.2.1 workerId u.2.2.2.2 = (.ok (), t')) :
    markSucceededBatch workerId (u :: rest) t = markSucceededBatch workerId rest t' := by
  obtain ⟨now, newId, jobId, attemptId, latencyMs⟩ := u
  rw [markSucceededBatch, h]

theorem markSucceededBatch_err {u : AckItem} {rest : List AckItem} {t : InnerState} {e : String}
    (h : markSucceeded t u.1 u.2.1 u.2.2.1 u.2.2.2.1 workerId u.2.2.2.2 = (.err e, t)) :
    markSucceededBatch workerId (u :: rest) t = (.err e, t) := by
  obtain ⟨now, newId, jobId, attemptId, latencyMs⟩ := u
  rw [markSucceededBatch, h]

/-- Acceptable items for different jobs are done one after the other. -/
theorem markSucceededBatch_accepts (workerId : String) (todo : List AckItem) :
    ∀ (done : List AckItem) (t : InnerState), Done s done t → DrawsApart (done ++ todo) →
      (∀ v ∈ done ++ todo, Acceptable s workerId v) → ((done ++ todo).map (·.2.2.1)).Nodup →
      ∃ t', Done s (done ++ todo) t' ∧
        ∀ rest, markSucceededBatch workerId (todo ++ rest) t = markSucceededBatch workerId rest t' := by
  induction todo with
  | nil =>
      intro done t h _ _ _
      rw [List.append_nil]
      exact ⟨t, h, fun rest => rfl⟩
  | cons u todo ih =>
      intro done t h hapart hacc hnd
      have hin : u ∈ done ++ u :: todo := List.mem_append_right _ List.mem_cons_self
      have hleft : ∀ v ∈ done, v ∈ done ++ u :: todo := fun v hv => List.mem_append_left _ hv
      have hnew : ∀ v ∈ done, v.2.2.1 ≠ u.2.2.1 := by
        intro v hv
        rw [List.map_append, List.map_cons] at hnd
        exact (List.nodup_append.mp hnd).2.2 _ (List.mem_map.mpr ⟨v, hv, rfl⟩) _ List.mem_cons_self
      have hacc' : Acceptable t workerId u :=
        (h.acceptable_iff (fun v hv => hacc v (hleft v hv)) fun v hv => hapart v (hleft v hv) u hin).mpr
          ⟨hacc u hin, hnew⟩
      obtain ⟨t₁, hok, hdone⟩ := h.snoc hacc' hnew (fun v hv => hapart v (hleft v hv) u hin)
        (fun v hv => hapart u hin v (hleft v hv)) (hapart u hin u hin)
      have hassoc : done ++ u :: todo = done ++ [u] ++ todo := by simp
      rw [hassoc] at hapart hacc hnd ⊢
      obtain ⟨t', hdone', hrest⟩ := ih (done ++ [u]) t₁ hdone hapart hacc hnd
      exact ⟨t', hdone', fun rest => by rw [List.cons_append, markSucceededBatch_cons hok, hrest rest]⟩

/-- A batch that fails has done some acceptable items for different jobs, and then met one that is not. -/
theorem markSucceededBatch_fails {message : String} (todo : List AckItem) :
    ∀ (done : List AckItem) (t : InnerState), Done s done t → DrawsApart (done ++ todo) →
      (∀ v ∈ done, Acceptable s workerId v) → (done.map (·.2.2.1)).Nodup →
      markSucceededBatch workerId todo t = (.err message, s') →
      ∃ mid u after, todo = mid ++ u :: after ∧ (∀ v ∈ done ++ mid, Acceptable s workerId v) ∧
        ((done ++ mid).map (·.2.2.1)).Nodup ∧ NextInRange s u.2.2.1 ∧
        ¬(Acceptable s workerId u ∧ ∀ v ∈ done ++ mid, v.2.2.1 ≠ u.2.2.1) ∧ (mid = [] → s' = t) := by
  induction todo with
  | nil => intro done t _ _ _ _ hres; cases hres
  | cons u todo ih =>
      intro done t h hapart hacc hnd hres
      have hin : u ∈ done ++ u :: todo := List.mem_append_right _ List.mem_cons_self
      have hleft : ∀ v ∈ done, v ∈ done ++ u :: todo := fun v hv => List.mem_append_left _ hv
      -- what `t` says of the item is what `s` says of it, while the jobs of the items differ
      have hiff := h.acceptable_iff hacc fun v hv => hapart v (hleft v hv) u hin
      have hrange := h.inRange_iff (u := u) fun v hv => hapart v (hleft v hv) u hin
      by_cases hu : Acceptable t workerId u
      · -- the item is done, and the failure comes further on
        obtain ⟨haccu, hnew⟩ := hiff.mp hu
        obtain ⟨t₁, hok, hdone⟩ := h.snoc hu hnew (fun v hv => hapart v (hleft v hv) u hin)
          (fun v hv => hapart u hin v (hleft v hv)) (hapart u hin u hin)
        rw [markSucceededBatch_cons hok] at hres
        have hassoc : done ++ u :: todo = done ++ [u] ++ todo := by simp
        rw [hassoc] at hapart
        have hacc₁ : ∀ v ∈ done ++ [u], Acceptable s workerId v := by
          intro v hv
          rcases List.mem_append.mp hv with hv | hv
          · exact hacc v hv
          · rw [List.mem_singleton] at hv
            exact hv ▸ haccu
        have hnd₁ : ((done ++ [u]).map (·.2.2.1)).Nodup := by
          rw [List.map_append, List.nodup_append]
          refine ⟨hnd, List.nodup_singleton _, ?_⟩
          intro i hi j hj
          obtain ⟨v, hv, rfl⟩ := List.mem_map.mp hi
          rw [List.map_singleton, List.mem_singleton] at hj
          exact hj ▸ hnew v hv
        obtain ⟨mid, w, after, heq, hmid, hndm, hr, hnot, _⟩ := ih (done ++ [u]) t₁ hdone hapart hacc₁ hnd₁ hres
        have hassoc' : done ++ u :: mid = done ++ [u] ++ mid := by simp
        refine ⟨u :: mid, w, after, by rw [heq, List.cons_append], ?_, ?_, hr, ?_, ?_⟩
        · rw [hassoc']; exact hmid
        · rw [hassoc']; exact hndm
        · rw [hassoc']; exact hnot
        · intro hnil; cases hnil
      · -- the item is refused here, unless its call panics
        by_cases hnext : NextInRange t u.2.2.1
        · obtain ⟨e, he⟩ := (markSucceeded_err_iff u).mpr ⟨hnext, hu⟩
          rw [markSucceededBatch_err he] at hres
          obtain ⟨_, rfl⟩ := Prod.mk.inj hres
          refine ⟨[], u, todo, rfl, ?_, ?_, hrange.mp hnext, ?_, fun _ => rfl⟩
          · rw [List.append_nil]; exact hacc
          · rw [List.append_nil]; exact hnd
          · rw [List.append_nil]; exact fun hc => hu (hiff.mpr hc)
        · obtain ⟨now, newId, jobId, attemptId, latencyMs⟩ := u
          rw [markSucceededBatch, markSucceeded_panic hnext] at hres
          cases hres

/-- Every item that comes after acceptable ones for different jobs is acceptable too, and names another job, unless
    its next occurrence is out of range. -/
def FailsFirst (s : InnerState) (workerId : String) (updates : List AckItem) : Prop :=
  ∀ before u after, updates = before ++ u :: after → before ≠ [] → (∀ v ∈ before, Acceptable s workerId v) →
    (before.map (·.2.2.1)).Nodup → NextInRange s u.2.2.1 →
      Acceptable s workerId u ∧ ∀ v ∈ before, v.2.2.1 ≠ u.2.2.1

/-- `mark_succeeded_batch` leaves the state alone when it fails, exactly if it fails at the first item. -/
theorem markSucceededBatch_errKeepsState_iff {updates : List AckItem} (hapart : DrawsApart updates) :
    ErrKeepsState s (.job (.markSucceededBatch updates workerId)) ↔ FailsFirst s workerId updates := by
  constructor
  · rintro h before u after rfl hne hacc hnd hnext
    by_contra hnot
    have hapart' : DrawsApart ([] ++ before) := fun v hv w hw =>
      hapart v (List.mem_append_left _ hv) w (List.mem_append_left _ hw)
    obtain ⟨t, hdone, hrest⟩ := markSucceededBatch_accepts workerId before [] s (Done.nil s) hapart'
      hacc hnd
    rw [List.nil_append] at hdone
    have hbefore : ∀ v ∈ before, v.2.1 ≠ u.2.2.1 := fun v hv =>
      hapart v (List.mem_append_left _ hv) u (List.mem_append_right _ List.mem_cons_self)
    have hrefused : ¬Acceptable t workerId u := fun hc => hnot ((hdone.acceptable_iff hacc hbefore).mp hc)
    obtain ⟨e, he⟩ := (markSucceeded_err_iff u).mpr ⟨(hdone.inRange_iff hbefore).mpr hnext, hrefused⟩
    have hsame : t = s := by
      refine h e t ?_
      show markSucceededBatch workerId (before ++ u :: after) s = _
      rw [hrest, markSucceededBatch_err he]
    -- but the first job has been completed
    obtain ⟨v, hv⟩ := List.exists_mem_of_ne_nil before hne
    obtain ⟨job, hjob, hst, hjt⟩ := hdone.jobs v hv
    rw [hsame, hjob] at hjt
    rw [Option.some.inj hjt] at hst
    exact absurd hst (by simp [completedJob])
  · intro h message s' hres
    have hres' : markSucceededBatch workerId updates s = (.err message, s') := hres
    obtain ⟨mid, u, after, heq, hacc, hnd, hnext, hnot, hsame⟩ := markSucceededBatch_fails updates [] s (Done.nil s)
      hapart (fun v hv => absurd hv List.not_mem_nil) List.nodup_nil hres'
    rw [List.nil_append] at hacc hnd hnot
    by_cases hmid : mid = []
    · exact hsame hmid
    · exact absurd (h mid u after heq hmid hacc hnd hnext) hnot

/-! ## Every call -/

/-- A batch that fails, fails at its first item. -/
def Call.FailsFirst (s : InnerState) : Call → Prop
  | job (.startAttempts _ requests workerId) => StartFailsFirst s workerId requests
  | job (.markSucceededBatch updates workerId) => Memory.FailsFirst s workerId updates
  | _ => True

/-- The ids a call draws are not among the job ids it is given. -/
def Call.DrawsApart : Call → Prop
  | job (.markSucceededBatch updates _) => Memory.DrawsApart updates
  | _ => True

/-- A call that writes only when it is accepted. -/
theorem errKeeps_of_accepted {r : Outcome Unit × InnerState} {message : String} (h : r.2 = s ∨ r.1 = .ok ())
    (hres : r = (.err message, s')) : s' = s := by
  subst hres
  rcases h with hsame | hok
  · exact hsame
  · cases hok

/-- **When an error leaves no trace.** In every state and for every call: an error leaves jobs, lease index, archive,
    attempts, counters, streams and offsets exactly as they were if and only if the call is not a batch that gets
    past its first item before it fails. -/
theorem err_keeps_state_iff (s : InnerState) (call : Call) (hapart : call.DrawsApart) :
    ErrKeepsState s call ↔ call.FailsFirst s := by
  cases call with
  | stream op =>
      refine iff_of_true (fun message s' hres => ?_) trivial
      -- no stream call returns an error
      cases op with
      | publish now name event => cases hres
      | ack now name consumerGroup seq => cases hres
      | prune order name throughSeq =>
          have herr := forget_err hres
          unfold pruneEvents at herr
          cases hlog : s.streams name with
          | none => rw [hlog] at herr; cases herr
          | some log => rw [hlog] at herr; cases herr
  | job op =>
      cases op with
      | enqueue now newId order new =>
          refine iff_of_true (fun message s' hres => ?_) trivial
          have herr := forget_err hres
          unfold enqueue at herr
          cases hfind : new.idempotencyKey.bind (findByKey s order) with
          | none => rw [hfind] at herr; cases herr
          | some existing => rw [hfind] at herr; cases herr
      | lease now queue workerId leaseSeconds batchSize ordering =>
          refine iff_of_true (fun message s' hres => ?_) trivial
          have herr := forget_err hres
          simp only [leaseJobsBatchWithOrdering] at herr
          split at herr
          · cases herr
          · cases hadd : Chrono.addSeconds now leaseSeconds with
            | none => rw [hadd] at herr; cases herr
            | some t => rw [hadd] at herr; cases herr
      | reap now order =>
          refine iff_of_true (fun message s' hres => ?_) trivial
          have herr := forget_err (r := reapExpiredLocks s now order) hres
          cases herr
      | startAttempts now requests workerId => exact startAttemptsBatch_errKeepsState_iff requests workerId
      -- the calls for one job check before they write: refused, they return the state they were given
      | markSucceeded now newId jobId attemptId workerId latencyMs =>
          refine iff_of_true (fun message s' hres => errKeeps_of_accepted ?_ hres) trivial
          exact (markSucceeded_accepted s now newId jobId attemptId workerId latencyMs).imp And.left And.left
      | markSucceededBatch updates workerId => exact markSucceededBatch_errKeepsState_iff hapart
      | reschedule now jobId attemptId workerId latencyMs nextRunAt errorCode errorMessage =>
          refine iff_of_true (fun message s' hres => errKeeps_of_accepted ?_ hres) trivial
          exact (rescheduleForRetry_accepted s now jobId attemptId workerId latencyMs nextRunAt errorCode
            errorMessage).imp And.left And.left
      | markDlq now jobId attemptId workerId latencyMs reasonCode errorCode errorMessage =>
          refine iff_of_true (fun message s' hres => errKeeps_of_accepted ?_ hres) trivial
          exact (markDlq_accepted s now jobId attemptId workerId latencyMs reasonCode errorCode
            errorMessage).imp And.left And.left
      | extendLease now jobId workerId leaseSeconds =>
          refine iff_of_true (fun message s' hres => ?_) trivial
          have herr := forget_err hres
          unfold extendLease at herr
          cases hjob : s.jobs jobId with
          | none => rw [hjob] at herr; cases herr
          | some job =>
              simp only [hjob] at herr
              split at herr
              · cases hadd : Chrono.addSeconds now leaseSeconds with
                | none => rw [hadd] at herr; cases herr
                | some t => rw [hadd] at herr; cases herr
              · cases herr
      | cancel now attemptOrder jobId workerId =>
          refine iff_of_true (fun message s' hres => errKeeps_of_accepted ?_ hres) trivial
          rcases cancelJob_ok s now attemptOrder jobId workerId with ⟨hsame, _⟩ | ⟨_, _, _, hok, _⟩
          · exact Or.inl hsame
          · exact Or.inr hok
      | archive order cutoff limit =>
          refine iff_of_true (fun message s' hres => ?_) trivial
          have herr := forget_err (r := archiveSucceededOlderThan s order cutoff limit) hres
          cases herr
      | deleteHistory archiveOrder attemptOrder cutoff limit =>
          refine iff_of_true (fun message s' hres => ?_) trivial
          have herr := forget_err
            (r := deleteHistoryForSucceededOlderThan s archiveOrder attemptOrder cutoff limit) hres
          cases herr
      | replay now newId jobId overrideQueue overrideRunAt =>
          refine iff_of_true (fun message s' hres => ?_) trivial
          have herr := forget_err hres
          unfold replayJob at herr
          cases hget : getJob s jobId with
          | none => rw [hget] at herr; cases herr; rfl
          | some src => rw [hget] at herr; cases herr

/-- A batch whose first item names an attempt that does not exist leaves no trace, though its second one would be
    accepted. -/
theorem err_keeps_state_unknown :
    ErrKeepsState (started welcomeEmail) (.job (.markSucceededBatch [(7, 8, 7, 99, 5), (7, 10, 7, 9, 5)] "w1")) := by
  have hapart : Call.DrawsApart (.job (.markSucceededBatch [(7, 8, 7, 99, 5), (7, 10, 7, 9, 5)] "w1")) := by
    unfold Call.DrawsApart DrawsApart
    decide
  refine (err_keeps_state_iff (started welcomeEmail) _ hapart).mpr ?_
  rintro (_ | ⟨first, rest⟩) u after heq hne hacc
  · exact absurd rfl hne
  · obtain ⟨att, hatt, _⟩ := (hacc first List.mem_cons_self).attempt
    rw [← (List.cons.inj heq).1] at hatt
    cases hatt

/-- A batch over a leased job and an unknown one fails, and has started an attempt of the first. -/
theorem start_batch_leaves_attempt :
    let s := ((Call.job (.lease 5 "emails" "w1" 30 10 .fifo)).apply
      ((Call.job (.enqueue 0 7 [] welcomeEmail)).apply InnerState.init).2).2
    ((Call.job (.startAttempts 6 [(7, 9), (8, 10)] "w1")).result s).1 =
        .err "job 00000000-0000-0000-0000-000000000008 not found" ∧
      s.attempts 9 = none ∧
      (((Call.job (.startAttempts 6 [(7, 9), (8, 10)] "w1")).result s).2.attempts 9).isSome ∧
      ¬ErrKeepsState s (.job (.startAttempts 6 [(7, 9), (8, 10)] "w1")) := by
  intro s
  have herr : ((Call.job (.startAttempts 6 [(7, 9), (8, 10)] "w1")).result s).1 =
      .err "job 00000000-0000-0000-0000-000000000008 not found" := by decide
  have hsome : (((Call.job (.startAttempts 6 [(7, 9), (8, 10)] "w1")).result s).2.attempts 9).isSome := by decide
  refine ⟨herr, rfl, hsome, fun h => ?_⟩
  have hsame : ((Call.job (.startAttempts 6 [(7, 9), (8, 10)] "w1")).result s).2 = s := h _ _ (Prod.ext herr rfl)
  rw [hsame] at hsome
  cases hsome

end Azums.Memory
