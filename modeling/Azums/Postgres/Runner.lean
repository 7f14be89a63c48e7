import Azums.Postgres.Tables
import Azums.Jobs.Backoff
import Azums.Jobs.Retry

/-!
# `Postgres.Runner` — `JobRunner::on_failure` and the rows of a stale worker

`on_failure` closes the attempt row, then either reschedules the job or sends it to the DLQ, each by a statement
of its own that commits at once. Only the DLQ update asks for the caller's lease: the attempt update has no guard
but the id, and the retry update none but `status = 'running'`.

`on_failure_rejects_iff` says for every state which calls of a worker without the lease are turned away without a
trace.
-/

namespace Azums.Postgres

open Azums.Jobs

/-! ## The statements -/

/-- What `finish_failed` makes of an attempt row. -/
def failedRow (now : DateTime) (latencyMs : Int) (errorCode errorMessage : String) (r : AttemptRow) : AttemptRow :=
  { r with
    status := "failed"
    finishedAt := some now
    latencyMs := some latencyMs
    errorCode := some errorCode
    errorMessage := some errorMessage }

/-- The `SET` of the statements that fail an attempt. -/
def failAttempt (now : DateTime) (latencyMs : Int) (errorCode errorMessage : String) :
    Table.Assign AttemptRow.id :=
  { set := failedRow now latencyMs errorCode errorMessage }

/-- `AttemptsRepo::finish_failed`. -/
def finishFailed (t : AttemptsTable) (now : DateTime) (attemptId : Uuid) (latencyMs : Int)
    (errorCode errorMessage : String) : AttemptsTable :=
  t.update (fun r => r.id == attemptId) (failAttempt now latencyMs errorCode errorMessage)

/-- The rows a transition out of `running` selects when it asks for no owner. -/
def runningRow (jobId : Uuid) (r : JobRow) : Bool := r.id == jobId && r.status == "running"

/-- The rows it selects when it asks for the caller's lease. -/
def heldRow (jobId : Uuid) (workerId : String) (r : JobRow) : Bool :=
  r.id == jobId && r.lockedBy == some workerId && r.status == "running"

/-- A job put back into its queue after a failure. -/
def retryRow (now nextRunAt : DateTime) (lastErrorCode lastErrorMessage : Option String) (r : JobRow) : JobRow :=
  { r with
    status := "queued"
    runAt := toTimestamptz nextRunAt
    lockedAt := none
    lockedBy := none
    lockExpiresAt := none
    updatedAt := now
    lastErrorCode := lastErrorCode
    lastErrorMessage := lastErrorMessage }

/-- `JobsRepo::reschedule_for_retry`. -/
def rescheduleForRetry (t : JobsTable) (now : DateTime) (jobId : Uuid) (nextRunAt : DateTime)
    (lastErrorCode lastErrorMessage : Option String) : Outcome Unit × JobsTable :=
  let t' := t.update (runningRow jobId) { set := retryRow now nextRunAt lastErrorCode lastErrorMessage }
  if t.affected (runningRow jobId) ≠ 1 then
    (.err (s!"illegal job state transition to retry_wait for job {showUuid jobId}: " ++
      "expected running job"), t')
  else (.ok (), t')

/-- A job moved to the dead-letter queue. -/
def dlqRow (now : DateTime) (reasonCode : String) (lastErrorCode lastErrorMessage : Option String) (r : JobRow) :
    JobRow :=
  { r with
    status := "dlq"
    dlqReasonCode := some reasonCode
    dlqAt := some now
    lockedAt := none
    lockedBy := none
    lockExpiresAt := none
    updatedAt := now
    lastErrorCode := lastErrorCode
    lastErrorMessage := lastErrorMessage }

/-- `JobsRepo::mark_dlq`. -/
def markDlq (t : JobsTable) (now : DateTime) (jobId : Uuid) (workerId reasonCode : String)
    (lastErrorCode lastErrorMessage : Option String) : Outcome Unit × JobsTable :=
  let t' := t.update (heldRow jobId workerId) { set := dlqRow now reasonCode lastErrorCode lastErrorMessage }
  if t.affected (heldRow jobId workerId) ≠ 1 then
    (.err (s!"illegal job state transition to dlq for job {showUuid jobId}: " ++
      s!"expected running lease held by {workerId}"), t')
  else (.ok (), t')

/-! ## The runner -/

/-- What a call of `on_failure` reads from its surroundings: the clocks of its two statements, its own clock, the
    `retry_cfg` of the runner, and the generator that draws the jitter. -/
structure FailureEnv where
  finishNow : DateTime
  now : DateTime
  updateNow : DateTime
  retryCfg : RetryConfig
  rng : Rng

/-- The date of a retry; `none` is a panic, of `next_delay_seconds` or of the addition. -/
def FailureEnv.nextRunAt (env : FailureEnv) (attemptNo : Int32) : Option DateTime :=
  (nextDelaySeconds attemptNo env.retryCfg env.rng).bind fun delaySecs => Chrono.addSeconds env.now delaySecs.toInt

/-- The arguments of `on_failure`. -/
structure Failure where
  jobId : Uuid
  attemptId : Uuid
  workerId : String
  latencyMs : Int
  errorCode : String
  errorMessage : String
  attemptNo : Int32
  maxAttempts : Int

/-- `can_retry`. -/
def Failure.canRetry (f : Failure) : Bool := Jobs.canRetry f.errorCode f.attemptNo.toInt f.maxAttempts

/-- The second half of `on_failure`: retry or DLQ. -/
def retryOrDlq (db : Db) (env : FailureEnv) (f : Failure) : Outcome Unit × Db :=
  if f.canRetry then
    match env.nextRunAt f.attemptNo with
    | none => (.panic, db)
    | some nextRunAt =>
        let (outcome, jobs) := rescheduleForRetry db.jobs env.updateNow f.jobId nextRunAt (some f.errorCode)
          (some f.errorMessage)
        (outcome, { db with jobs := jobs })
  else
    let (outcome, jobs) := markDlq db.jobs env.updateNow f.jobId f.workerId
      (classifyError f.errorCode).dlqReasonCode (some f.errorCode) (some f.errorMessage)
    (outcome, { db with jobs := jobs })

/-- `JobRunner::on_failure`. -/
def onFailure (db : Db) (env : FailureEnv) (f : Failure) : Outcome Unit × Db :=
  retryOrDlq
    { db with attempts := finishFailed db.attempts env.finishNow f.attemptId f.latencyMs f.errorCode f.errorMessage }
    env f

/-! ## A worker without the lease -/

/-- The worker holds the running lease of the job. -/
def HoldsLease (t : JobsTable) (jobId : Uuid) (workerId : String) : Prop :=
  ∃ r ∈ t.rows, r.id = jobId ∧ r.status = "running" ∧ r.lockedBy = some workerId

/-- The job is running, under whatever lease. -/
def IsRunning (t : JobsTable) (jobId : Uuid) : Prop := ∃ r ∈ t.rows, r.id = jobId ∧ r.status = "running"

/-- The call returns an error, and the database is as before. -/
def Rejected (db : Db) (result : Outcome Unit × Db) : Prop := (∃ e, result.1 = .err e) ∧ result.2 = db

section Statements

variable {t : JobsTable} {now : DateTime} {jobId : Uuid}

/-- Without the lease an update that asks for it selects no row. -/
theorem affected_held_eq_zero {workerId : String} (h : ¬HoldsLease t jobId workerId) :
    t.affected (heldRow jobId workerId) = 0 := by
  refine Table.affected_eq_zero.mpr fun r hr => ?_
  by_contra hsel
  simp only [heldRow, Bool.not_eq_false, Bool.and_eq_true, beq_iff_eq] at hsel
  obtain ⟨⟨hid, hby⟩, hst⟩ := hsel
  exact h ⟨r, hr, hid, hst, hby⟩

/-- Without the lease the DLQ update does nothing and says so. -/
theorem markDlq_of_not_holds {workerId : String} (h : ¬HoldsLease t jobId workerId) (reasonCode : String)
    (code message : Option String) :
    (∃ e, (markDlq t now jobId workerId reasonCode code message).1 = .err e) ∧
      (markDlq t now jobId workerId reasonCode code message).2 = t := by
  have hzero := affected_held_eq_zero h
  unfold markDlq
  simp only [hzero, ne_eq, zero_ne_one, not_false_eq_true, if_true]
  exact ⟨⟨_, rfl⟩, Table.update_of_affected_zero hzero⟩

/-- The retry update selects no row exactly when the job is not running. -/
theorem affected_running_eq_zero : t.affected (runningRow jobId) = 0 ↔ ¬IsRunning t jobId := by
  rw [Table.affected_eq_zero]
  constructor
  · rintro hall ⟨r, hr, hid, hst⟩
    have hsel := hall r hr
    simp [runningRow, hid, hst] at hsel
  · intro hno r hr
    by_contra hsel
    simp only [runningRow, Bool.not_eq_false, Bool.and_eq_true, beq_iff_eq] at hsel
    exact hno ⟨r, hr, hsel.1, hsel.2⟩

/-- The retry update of a running job succeeds: an id selects one row. -/
theorem affected_running_eq_one (h : IsRunning t jobId) : t.affected (runningRow jobId) = 1 := by
  have hpos : t.affected (runningRow jobId) ≠ 0 := fun hz => affected_running_eq_zero.mp hz h
  have hle : t.affected (runningRow jobId) ≤ 1 := by
    calc t.affected (runningRow jobId)
        ≤ t.rows.countP (fun r => r.id == jobId) :=
          List.countP_mono_left fun r _ hsel => (Bool.and_eq_true _ _ ▸ hsel).1
      _ = (t.rows.map (·.id)).count jobId := by rw [List.count, List.countP_map]; rfl
      _ ≤ 1 := List.nodup_iff_count_le_one.mp t.ids_nodup jobId
  omega

end Statements

/-- With the default configuration a retry has a date at every attempt but the 64th. -/
theorem nextRunAt_isSome_iff {env : FailureEnv} {attemptNo : Int32} (hcfg : env.retryCfg = RetryConfig.default)
    (hnow : Chrono.minUtc ≤ env.now ∧ env.now + 900 * Chrono.nanosPerSecond ≤ Chrono.maxUtc) :
    (env.nextRunAt attemptNo).isSome ↔ attemptNo ≠ 64 := by
  have hnanos : (0 : Int) < Chrono.nanosPerSecond := by decide
  constructor
  · rintro hsome rfl
    have hpanic : nextDelaySeconds 64 RetryConfig.default env.rng = none :=
      nextDelaySeconds_wrapped (by decide) (by decide) (by norm_num [RetryConfig.default]) (exponent_eq_iff.mpr rfl)
    simp [FailureEnv.nextRunAt, hcfg, hpanic] at hsome
  · intro hne
    obtain ⟨d, hd, hlo, hhi⟩ := @nextDelaySeconds_default attemptNo env.rng hne
    have hseconds : d.toInt.natAbs ≤ Chrono.maxSeconds := by
      unfold Chrono.maxSeconds
      omega
    have hadd : Chrono.minUtc ≤ env.now + d.toInt * Chrono.nanosPerSecond ∧
        env.now + d.toInt * Chrono.nanosPerSecond ≤ Chrono.maxUtc := by
      constructor <;> nlinarith
    simp [FailureEnv.nextRunAt, hcfg, hd, Chrono.addSeconds, Chrono.seconds, hseconds, Chrono.add, hadd]

/-- **When a stale failure report leaves no trace.** A worker that does not hold the running lease gets an error,
    with the database unchanged, exactly when closing the attempt row changes nothing (there is no such row, or it
    already reads as this report would leave it) and the retry branch is not taken, or gets a date for the retry
    (no panic of `next_delay_seconds`, nor of the addition) and finds the job not running. -/
theorem on_failure_rejects_iff (db : Db) (env : FailureEnv) (f : Failure)
    (hno : ¬HoldsLease db.jobs f.jobId f.workerId) :
    Rejected db (onFailure db env f) ↔
      (∀ r ∈ db.attempts.rows, r.id = f.attemptId →
        failedRow env.finishNow f.latencyMs f.errorCode f.errorMessage r = r) ∧
      (f.canRetry = true → (env.nextRunAt f.attemptNo).isSome ∧ ¬IsRunning db.jobs f.jobId) := by
  have hattempts : finishFailed db.attempts env.finishNow f.attemptId f.latencyMs f.errorCode f.errorMessage =
      db.attempts ↔ ∀ r ∈ db.attempts.rows, r.id = f.attemptId →
        failedRow env.finishNow f.latencyMs f.errorCode f.errorMessage r = r := by
    simp only [finishFailed, failAttempt, Table.update_eq_self, beq_iff_eq]
  rw [← hattempts]
  unfold onFailure retryOrDlq Rejected
  cases hretry : f.canRetry with
  | true =>
      simp only [if_true, true_implies]
      cases hdate : env.nextRunAt f.attemptNo with
      | none =>
          constructor
          · rintro ⟨⟨e, he⟩, _⟩; cases he
          · rintro ⟨_, hsome, _⟩; cases hsome
      | some nextRunAt =>
          simp only [Option.isSome_some, true_and]
          by_cases hrun : IsRunning db.jobs f.jobId
          · -- the update goes through, whoever owns the lease
            have hone := affected_running_eq_one hrun
            constructor
            · rintro ⟨⟨e, he⟩, _⟩
              simp only [rescheduleForRetry, hone, ne_eq, not_true_eq_false, if_false] at he
              cases he
            · rintro ⟨_, hnot⟩
              exact absurd hrun hnot
          · have hzero := affected_running_eq_zero.mpr hrun
            have hsame := Table.update_of_affected_zero hzero
              (f := { set := retryRow env.updateNow nextRunAt (some f.errorCode) (some f.errorMessage) })
            simp only [rescheduleForRetry, hzero, hsame, ne_eq, zero_ne_one, not_false_eq_true, if_true]
            constructor
            · rintro ⟨_, hdb⟩
              exact ⟨congrArg Db.attempts hdb, hrun⟩
            · rintro ⟨hatt, _⟩
              exact ⟨⟨_, rfl⟩, by rw [hatt]⟩
  | false =>
      obtain ⟨⟨e, he⟩, hjobs⟩ := markDlq_of_not_holds hno
        (classifyError f.errorCode).dlqReasonCode (some f.errorCode) (some f.errorMessage)
      simp only [Bool.false_eq_true, if_false, false_implies, and_true]
      constructor
      · rintro ⟨_, hdb⟩
        exact congrArg Db.attempts hdb
      · intro hatt
        exact ⟨⟨e, he⟩, by rw [hjobs, hatt]⟩

/-! ### A lost lease -/

/-- A job that `w2` runs after the lease of `w1` was reaped. -/
def releasedJob : JobRow :=
  { datasetId := "emails_19700101_00", replayOfJobId := none, idempotencyKey := none, id := 1, queue := "emails",
    jobType := "welcome", payload := "{}", runAt := 0, deadlineAt := none, timeoutSeconds := none,
    recurringIntervalSeconds := none, status := "running", priority := 0, maxAttempts := 3, lockedAt := some 100,
    lockedBy := some "w2", lockExpiresAt := some 200, dlqReasonCode := none, dlqAt := none, createdAt := 0,
    updatedAt := 100, lastErrorCode := none, lastErrorMessage := none }

/-- The attempt of `w1`, as the reaper closed it. -/
def reapedAttempt : AttemptRow :=
  { id := 10, datasetId := "emails_19700101_00", jobId := 1, attemptNo := 1, status := "failed", workerId := "w1",
    startedAt := 0, finishedAt := some 90, latencyMs := some 0, errorCode := some "LEASE_EXPIRED",
    errorMessage := some "worker lease expired before ACK" }

/-- The state in which `w1` reports late. -/
def releasedDb : Db :=
  { jobs := ⟨[releasedJob], by decide⟩, attempts := ⟨[reapedAttempt], by decide⟩,
    queuePolicies := fun _ => none, policyDecisions := [] }

/-- The late report of `w1`. -/
def lateReport (errorCode : String) : Failure :=
  { jobId := 1, attemptId := 10, workerId := "w1", latencyMs := 120, errorCode := errorCode,
    errorMessage := "smtp refused", attemptNo := 1, maxAttempts := 3 }

/-- The surroundings of the report. -/
def lateEnv : FailureEnv :=
  { finishNow := 150, now := 150, updateNow := 150, retryCfg := RetryConfig.default, rng := lowest }

/-- A late report of a retryable error returns `Ok`: it rewrites the closed attempt, and takes the job from `w2`
    back into the queue. -/
theorem on_failure_steals_lease :
    ¬HoldsLease releasedDb.jobs 1 "w1" ∧
    (onFailure releasedDb lateEnv (lateReport "HANDLER_ERROR")).1 = .ok () ∧
    (onFailure releasedDb lateEnv (lateReport "HANDLER_ERROR")).2.jobs.rows.map
      (fun r => (r.status, r.lockedBy)) = [("queued", none)] ∧
    ¬Rejected releasedDb (onFailure releasedDb lateEnv (lateReport "HANDLER_ERROR")) := by
  have hok : (onFailure releasedDb lateEnv (lateReport "HANDLER_ERROR")).1 = .ok () := by decide +kernel
  refine ⟨?_, hok, by decide +kernel, ?_⟩
  · rintro ⟨r, hr, _, _, hby⟩
    obtain rfl := List.mem_singleton.mp hr
    exact absurd hby (by decide)
  · rintro ⟨⟨e, he⟩, _⟩
    rw [hok] at he
    cases he

/-- The state in which `w2` has completed the job, and the attempt of `w1` has been pruned. -/
def completedDb : Db :=
  { releasedDb with
    jobs := ⟨[{ releasedJob with status := "succeeded", lockedAt := none, lockedBy := none, lockExpiresAt := none }],
      by decide⟩
    attempts := ⟨[], List.nodup_nil⟩ }

/-- Late reports about an attempt that is gone are turned away: of a permanent error while `w2` runs the job, and of a
    retryable one after `w2` completed it. -/
theorem on_failure_rejects_gone :
    Rejected releasedDb (onFailure releasedDb lateEnv { lateReport "BAD_PAYLOAD" with attemptId := 11 }) ∧
      Rejected completedDb (onFailure completedDb lateEnv (lateReport "HANDLER_ERROR")) := by
  constructor
  · refine (on_failure_rejects_iff _ _ _ ?_).mpr ⟨?_, ?_⟩
    · rintro ⟨r, hr, _, _, hby⟩
      obtain rfl := List.mem_singleton.mp hr
      exact absurd hby (by decide)
    · intro r hr hid
      obtain rfl := List.mem_singleton.mp hr
      exact absurd hid (by decide)
    · intro hretry
      exact absurd hretry (by decide)
  · have hidle : ¬IsRunning completedDb.jobs 1 := by
      rintro ⟨r, hr, _, hst⟩
      obtain rfl := List.mem_singleton.mp hr
      exact absurd hst (by decide)
    refine (on_failure_rejects_iff _ _ _ ?_).mpr ⟨?_, ?_⟩
    · rintro ⟨r, hr, hid, hst, _⟩
      exact hidle ⟨r, hr, hid, hst⟩
    · intro r hr
      cases hr
    · intro _
      exact ⟨(nextRunAt_isSome_iff rfl (by decide)).mpr (by decide), hidle⟩

end Azums.Postgres
