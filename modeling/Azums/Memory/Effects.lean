import Azums.Memory.Preservation

/-!
# `Memory.Effects` — what successful calls leave behind

Where `Memory.Preservation` says what no call may break, this module says what a call that returns `Ok` has done:

* a lease stores every job it returns, as returned, each once (`leased_spec`);
* `start_attempts_batch` leaves a running attempt for each job (`startEach_spec`);
* `mark_succeeded`, `reschedule_for_retry` and `mark_dlq` close the attempt and settle the job, and touch no other
  job or attempt (`Acked`).
-/

namespace Azums.Memory

open Function (update)

variable {s s' : InnerState} {now : DateTime}

/-! ## Leasing -/

/-- The lease loop over distinct keys of stored jobs: what it returns, and what it stores. -/
theorem leaseEach_spec {lockExpiresAt : DateTime} {workerId : String} (taken : List QueueEntry) :
    ∀ s : InnerState, (taken.map (·.id)).Nodup → (∀ id job, s.jobs id = some job → job.id = id) →
      (∀ job ∈ (leaseEach now lockExpiresAt workerId taken s).1, job.id ∈ taken.map (·.id) ∧
        (leaseEach now lockExpiresAt workerId taken s).2.jobs job.id = some job ∧ job.status = "running" ∧
        job.lockedBy = some workerId) ∧
      ((leaseEach now lockExpiresAt workerId taken s).1.map (·.id)).Nodup ∧
      (∀ id, id ∉ taken.map (·.id) →
        (leaseEach now lockExpiresAt workerId taken s).2.jobs id = s.jobs id) := by
  induction taken with
  | nil =>
      intro s _ _
      refine ⟨fun job h => absurd h List.not_mem_nil, List.nodup_nil, fun id _ => rfl⟩
  | cons entry rest ih =>
      intro s hnd hkey
      obtain ⟨hnotin, hnd⟩ := List.nodup_cons.mp hnd
      unfold leaseEach
      cases hjob : s.jobs entry.id with
      | none =>
          -- an entry without a record is skipped
          obtain ⟨hret, hids, hframe⟩ := ih s hnd hkey
          refine ⟨fun job h => ?_, hids, fun id hid => hframe id fun h => hid (List.mem_cons_of_mem _ h)⟩
          obtain ⟨hin, hrest⟩ := hret job h
          exact ⟨List.mem_cons_of_mem _ hin, hrest⟩
      | some job =>
          have hid : job.id = entry.id := hkey _ _ hjob
          have hkey' : ∀ id j, (s.setJob entry.id (leasedJob now lockExpiresAt workerId job)).jobs id = some j →
              j.id = id := by
            intro id j hj
            rw [InnerState.setJob_jobs] at hj
            rcases update_eq_some hj with ⟨rfl, rfl⟩ | ⟨_, hold⟩
            · exact hid
            · exact hkey id j hold
          obtain ⟨hret, hids, hframe⟩ := ih (s.setJob entry.id (leasedJob now lockExpiresAt workerId job)) hnd hkey'
          simp only
          refine ⟨?_, ?_, ?_⟩
          · intro j hj
            rcases List.mem_cons.mp hj with rfl | hj
            · refine ⟨List.mem_cons.mpr (Or.inl hid), ?_, rfl, rfl⟩
              show (leaseEach _ _ _ rest _).2.jobs job.id = _
              -- the keys are distinct, so the rest of the loop leaves this job as it is leased here
              rw [hid, hframe entry.id hnotin, InnerState.setJob_jobs, Function.update_self]
            · obtain ⟨hin, hrest⟩ := hret j hj
              exact ⟨List.mem_cons_of_mem _ hin, hrest⟩
          · refine List.nodup_cons.mpr ⟨?_, hids⟩
            intro hin
            obtain ⟨j, hj, heq⟩ := List.mem_map.mp hin
            have hrest := (hret j hj).1
            rw [heq.trans hid] at hrest
            exact hnotin hrest
          · intro i hi
            have hne : i ≠ entry.id := fun h => hi (List.mem_cons.mpr (Or.inl h))
            rw [hframe i fun h => hi (List.mem_cons_of_mem _ h), InnerState.setJob_jobs,
              Function.update_of_ne hne]

/-- **What a lease returns.** Distinct jobs, stored as returned, running under the worker's lease. -/
theorem leased_spec (h : WellFormed s) {queue workerId : String} {leaseSeconds batchSize : Int}
    {ordering : QueueOrdering} {leased : List Job}
    (hret : leaseJobsBatchWithOrdering s now queue workerId leaseSeconds batchSize ordering = (.ok leased, s')) :
    (leased.map (·.id)).Nodup ∧
      ∀ job ∈ leased, s'.jobs job.id = some job ∧ job.status = "running" ∧ job.lockedBy = some workerId := by
  have hsweep : WellFormed (sweepDeadlines s now queue) := sweepDeadlines_wellFormed h queue
  unfold leaseJobsBatchWithOrdering at hret
  simp only at hret
  split at hret
  · cases hret
    exact ⟨List.nodup_nil, fun job hj => absurd hj List.not_mem_nil⟩
  · cases hadd : Chrono.addSeconds now leaseSeconds with
    | none => rw [hadd] at hret; cases hret
    | some lockExpiresAt =>
        rw [hadd] at hret
        have hsub : (candidates (sweepDeadlines s now queue) now queue batchSize).Sublist
            ((sweepDeadlines s now queue).index queue).toList :=
          (List.take_sublist _ _).trans List.filter_sublist
        -- entries of the index with one id are the key of one job
        have hids : ((candidates (sweepDeadlines s now queue) now queue batchSize).map (·.id)).Nodup := by
          refine List.Nodup.map_on ?_ (hsub.nodup (OrdSet.nodup _))
          intro e he e' he' heq
          obtain ⟨job, hjob, _, _, _, hentry⟩ := hsweep.job_of_mem (hsub.subset he)
          obtain ⟨job', hjob', _, _, _, hentry'⟩ := hsweep.job_of_mem (hsub.subset he')
          rw [heq, hjob'] at hjob
          cases hjob
          rw [hentry, hentry']
        obtain ⟨hstored, hnd, _⟩ := @leaseEach_spec now lockExpiresAt workerId
          (candidates (sweepDeadlines s now queue) now queue batchSize)
          ((sweepDeadlines s now queue).indexRemove queue
            (candidates (sweepDeadlines s now queue) now queue batchSize)) hids
          (by rw [InnerState.indexRemove_jobs]; exact hsweep.jobId)
        cases hret
        exact ⟨hnd, fun job hj => (hstored job hj).2⟩

/-! ## Starting attempts -/

/-- The loop of `start_attempts_batch` when it reaches the end: a running attempt under each requested id, and an
    answer for each requested job. -/
theorem startEach_spec {workerId : String} (requests : List (Uuid × Uuid)) :
    ∀ (s : InnerState) {started : List (Uuid × Uuid × Int)} {s' : InnerState},
      startEach now workerId requests s = (.ok started, s') → (requests.map (·.2)).Nodup →
      (started.map (fun a => (a.1, a.2.1))) = requests ∧
      (∀ r ∈ requests, ∃ att, s'.attempts r.2 = some att ∧ att.status = "running" ∧ att.jobId = r.1) ∧
      (∀ a, a ∉ requests.map (·.2) → s'.attempts a = s.attempts a) := by
  induction requests with
  | nil =>
      intro s started s' h _
      cases h
      exact ⟨rfl, fun r hr => absurd hr List.not_mem_nil, fun a _ => rfl⟩
  | cons request rest ih =>
      intro s started s' h hnd
      obtain ⟨jobId, attemptId⟩ := request
      obtain ⟨hnotin, hnd⟩ := List.nodup_cons.mp hnd
      by_cases hl : Startable s workerId jobId
      · rw [startEach_cons now attemptId rest hl] at h
        obtain ⟨results, hrest, rfl⟩ := prependAttempt_ok h
        obtain ⟨hres, hatt, hframe⟩ := ih _ hrest hnd
        refine ⟨by rw [List.map_cons, hres], ?_, ?_⟩
        · intro r hr
          rcases List.mem_cons.mp hr with rfl | hr
          · -- the rest of the loop does not use this attempt id again
            refine ⟨startedAttempt now attemptId jobId ((s.attemptCounts jobId).getD 0 + 1) workerId, ?_, rfl, rfl⟩
            rw [hframe attemptId hnotin]
            exact Function.update_self ..
          · exact hatt r hr
        · intro a ha
          have hne : a ≠ attemptId := fun h => ha (List.mem_cons.mpr (Or.inl h))
          rw [hframe a fun h => ha (List.mem_cons_of_mem _ h)]
          exact Function.update_of_ne hne ..
      · obtain ⟨_, hm, hno⟩ := startEach_stops now attemptId rest hl
        rw [hm] at h
        exact absurd (congrArg Prod.fst h) (hno started)

/-- It reaches the end only if all the jobs are leased to the worker. -/
theorem startEach_leased {workerId : String} (requests : List (Uuid × Uuid)) :
    ∀ (s : InnerState) {started : List (Uuid × Uuid × Int)} {s' : InnerState},
      startEach now workerId requests s = (.ok started, s') → ∀ r ∈ requests, Leased s workerId r.1 := by
  induction requests with
  | nil =>
      intro s started s' _ r hr
      cases hr
  | cons request rest ih =>
      intro s started s' h r hr
      obtain ⟨jobId, attemptId⟩ := request
      by_cases hl : Startable s workerId jobId
      · rcases List.mem_cons.mp hr with rfl | hr
        · exact hl.leased
        · rw [startEach_cons now attemptId rest hl] at h
          obtain ⟨results, hrest, _⟩ := prependAttempt_ok h
          exact ih (recordAttempt s now workerId jobId attemptId ((s.attemptCounts jobId).getD 0 + 1)) hrest r hr
      · obtain ⟨_, hm, hno⟩ := startEach_stops now attemptId rest hl
        rw [hm] at h
        exact absurd (congrArg Prod.fst h) (hno started)

/-! ## Acknowledgement -/

/-- The effect of an acknowledgement: the attempt is closed, the job is settled or back in its queue, and nothing
    else changes but for a job that may appear under the id `spare`. -/
structure Acked (s s' : InnerState) (jobId attemptId spare : Uuid) : Prop where
  closed : ∃ att, s'.attempts attemptId = some att ∧ att.status ≠ "running"
  settled : ∃ job, s'.jobs jobId = some job ∧
    (job.status = "succeeded" ∨ job.status = "queued" ∨ job.status = "dlq")
  jobs : ∀ id, id ≠ jobId → id ≠ spare → s'.jobs id = s.jobs id
  attempts : ∀ a, a ≠ attemptId → s'.attempts a = s.attempts a

/-- A job whose attempt was acknowledged does not run. -/
theorem Acked.not_running {jobId attemptId spare : Uuid} {job : Job} (h : Acked s s' jobId attemptId spare)
    (hjob : s'.jobs jobId = some job) : job.status ≠ "running" := by
  obtain ⟨settled, hsettled, hst⟩ := h.settled
  rw [hjob] at hsettled
  cases hsettled
  rcases hst with h | h | h <;> rw [h] <;> decide

/-- A job written together with its closed attempt. -/
theorem Acked.of_writes {jobId attemptId spare : Uuid} {job : Job} {att : MemoryAttempt}
    (hatt : att.status ≠ "running")
    (hjob : job.status = "succeeded" ∨ job.status = "queued" ∨ job.status = "dlq")
    (hjobs : s'.jobs = update s.jobs jobId (some job))
    (hattempts : s'.attempts = update s.attempts attemptId (some att)) : Acked s s' jobId attemptId spare where
  closed := ⟨att, by rw [hattempts, Function.update_self], hatt⟩
  settled := ⟨job, by rw [hjobs, Function.update_self], hjob⟩
  jobs := fun id hid _ => by rw [hjobs, Function.update_of_ne hid]
  attempts := fun a ha => by rw [hattempts, Function.update_of_ne ha]

theorem rescheduleForRetry_acked {jobId attemptId : Uuid} {workerId : String} {latencyMs : Int}
    {nextRunAt : DateTime} {errorCode errorMessage : String}
    (h : rescheduleForRetry s now jobId attemptId workerId latencyMs nextRunAt errorCode errorMessage =
      (.ok (), s')) (spare : Uuid) : Acked s s' jobId attemptId spare := by
  rcases rescheduleForRetry_cases s now jobId attemptId workerId latencyMs nextRunAt errorCode errorMessage with
    ⟨_, e, heq⟩ | ⟨job, att, _, _, heq⟩ <;> rw [heq] at h <;> cases h
  exact Acked.of_writes (by simp [failedAttempt]) (Or.inr (Or.inl rfl)) rfl rfl

theorem markDlq_acked {jobId attemptId : Uuid} {workerId : String} {latencyMs : Int}
    {reasonCode errorCode errorMessage : String}
    (h : markDlq s now jobId attemptId workerId latencyMs reasonCode errorCode errorMessage = (.ok (), s'))
    (spare : Uuid) : Acked s s' jobId attemptId spare := by
  rcases markDlq_cases s now jobId attemptId workerId latencyMs reasonCode errorCode errorMessage with
    ⟨_, e, heq⟩ | ⟨job, att, _, _, heq⟩ <;> rw [heq] at h <;> cases h
  exact Acked.of_writes (by simp [failedAttempt]) (Or.inr (Or.inr rfl)) rfl rfl

/-- For `mark_succeeded` the spare id is the one the next occurrence would take. -/
theorem markSucceeded_acked {newId jobId attemptId : Uuid} {workerId : String} {latencyMs : Int}
    (hfresh : s.jobs newId = none)
    (h : markSucceeded s now newId jobId attemptId workerId latencyMs = (.ok (), s')) :
    Acked s s' jobId attemptId newId := by
  rcases markSucceeded_cases s now newId jobId attemptId workerId latencyMs with
    ⟨_, heq⟩ | ⟨_, _, e, heq⟩ | ⟨next, job, att, hrec, ⟨hjob, _⟩, _, heq⟩
  · rw [heq] at h
    cases h
  · rw [heq] at h
    cases h
  · rw [heq] at h
    cases h
    have hdone : Acked s ((s.setAttempt attemptId (succeededAttempt now latencyMs att)).setJob jobId
        (completedJob now job)) jobId attemptId newId :=
      Acked.of_writes (by simp [succeededAttempt]) (Or.inl rfl) rfl rfl
    -- the next occurrence takes an id that no job has, so it replaces neither job
    have hne : jobId ≠ newId := by
      rintro rfl
      rw [hjob] at hfresh
      cases hfresh
    constructor
    · rw [insertNext_attempts]
      exact hdone.closed
    · rw [insertNext_jobs hrec hne]
      exact hdone.settled
    · intro id h1 h2
      rw [insertNext_jobs hrec h2]
      exact hdone.jobs id h1 h2
    · rw [insertNext_attempts]
      exact hdone.attempts

end Azums.Memory
