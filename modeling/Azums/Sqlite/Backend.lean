import Azums.Lib.Table
import Azums.Sqlite.Texts
import Mathlib.Data.List.Sort

/-!
# `Sqlite.Backend` — the execution core of `SqliteBackend`

The two tables that the execution core uses, and its operations as the statements they run. SQLite executes one
transaction at a time, so an operation is a function of the database: its statements in their order, and a
rollback where it returns an error or panics (`transaction`).

As in the memory backend, `now` is the operation's `Utc::now()`, and the ids it makes with `Uuid::new_v4()` are
arguments.

Timestamps and payloads are stored as text (`Sqlite.Texts`). A row carries here what was bound to its columns: a
comparison of timestamps compares their texts, and a row that is read gets the payload that is parsed from the text of
the one that was bound.
-/

namespace Azums.Sqlite

/-! ## Tables -/

/-- A row of `job_attempts`. -/
structure AttemptRow where
  id : Uuid
  datasetId : String
  jobId : Uuid
  attemptNo : Int
  status : String
  workerId : String
  startedAt : DateTime
  finishedAt : Option DateTime
  latencyMs : Option Int
  errorCode : Option String
  errorMessage : Option String
deriving DecidableEq

/-- The indexed columns of `jobs`. A row of `jobs` has the columns of a `Job`; its `payload_json` is the text of the
    payload here. -/
structure JobKey where
  id : Uuid
  idempotencyKey : Option String
deriving DecidableEq

/-- The indexed columns of a row. -/
def jobKey (r : Job) : JobKey := { id := r.id, idempotencyKey := r.idempotencyKey }

/-- The constraints of `jobs`: its primary key, and `idx_jobs_idempotency_key`. -/
structure JobsConstraint (keys : List JobKey) : Prop where
  primaryKey : (keys.map (·.id)).Nodup
  idempotencyKey : (keys.filterMap (·.idempotencyKey)).Nodup

instance (keys : List JobKey) : Decidable (JobsConstraint keys) :=
  decidable_of_iff ((keys.map (·.id)).Nodup ∧ (keys.filterMap (·.idempotencyKey)).Nodup)
    ⟨fun h => ⟨h.1, h.2⟩, fun h => ⟨h.primaryKey, h.idempotencyKey⟩⟩

/-- `jobs`. -/
abbrev JobsTable := Table Job jobKey JobsConstraint

/-- `job_attempts`, with its primary key. -/
abbrev AttemptsTable := Table AttemptRow AttemptRow.id List.Nodup

/-- The database. -/
structure Db where
  jobs : JobsTable
  attempts : AttemptsTable

/-- The database after the migrations. -/
def Db.empty : Db := { jobs := ⟨[], ⟨List.nodup_nil, List.nodup_nil⟩⟩, attempts := ⟨[], List.nodup_nil⟩ }

/-- A transaction commits where its body returns `Ok`; it is dropped, and so rolled back, where `?`, `bail!` or a panic
    ends it. -/
def transaction {α : Type} (db : Db) : Outcome α × Db → Outcome α × Db
  | (.ok a, db') => (.ok a, db')
  | (.err message, _) => (.err message, db)
  | (.panic, _) => (.panic, db)

/-- `INSERT INTO jobs`; `none` where a constraint forbids the row. -/
def insertJob (db : Db) (row : Job) : Option Db :=
  if h : JobsConstraint ((db.jobs.rows ++ [row]).map jobKey) then some { db with jobs := db.jobs.insert row h }
  else none

/-- `INSERT INTO job_attempts`. -/
def insertAttempt (db : Db) (row : AttemptRow) : Option Db :=
  if h : ((db.attempts.rows ++ [row]).map AttemptRow.id).Nodup then
    some { db with attempts := db.attempts.insert row h }
  else none

/-- A row of `jobs`, as `query_as::<_, Job>` decodes it. -/
def Texts.readRow (texts : Texts) (r : Job) : Except String Job :=
  match texts.readPayload r.payload with
  | .error message => .error message
  | .ok payload => .ok { r with payload := payload }

/-! ## Enqueue -/

/-- The row of a new job. -/
def newRow (now : DateTime) (jobId : Uuid) (job : NewJob) : Job :=
  { datasetId := "default"
    replayOfJobId := none
    idempotencyKey := job.idempotencyKey
    id := jobId
    queue := job.queue
    jobType := job.jobType
    payload := job.payloadJson
    runAt := job.runAt
    deadlineAt := job.deadlineAt
    timeoutSeconds := job.timeoutSeconds
    recurringIntervalSeconds := job.recurringIntervalSeconds
    status := "queued"
    priority := job.priority
    maxAttempts := job.maxAttempts
    lockedAt := none
    lockedBy := none
    lockExpiresAt := none
    dlqReasonCode := none
    dlqAt := none
    createdAt := now
    updatedAt := now }

/-- `enqueue_in_tx`. The `ON CONFLICT` clause sets the key of the row it finds to itself. -/
def enqueueInTx (db : Db) (now : DateTime) (jobId : Uuid) (job : NewJob) : Outcome Uuid × Db :=
  match job.idempotencyKey.bind (fun key => db.jobs.rows.find? (fun r => r.idempotencyKey == some key)) with
  | some existing => (.ok existing.id, db)
  | none =>
      match insertJob db (newRow now jobId job) with
      | some db' => (.ok jobId, db')
      | none => (.err "UNIQUE constraint failed: jobs.id", db)

/-! ## Leasing -/

/-- The rows whose deadline a lease finds missed. -/
def missedDeadline (texts : Texts) (queue : String) (now : DateTime) (r : Job) : Bool :=
  r.queue == queue && r.status == "queued" && texts.timeLe r.runAt now &&
    r.deadlineAt.any (fun d => texts.timeLt d now)

/-- What the sweep makes of such a row. -/
def deadlineRow (now : DateTime) (r : Job) : Job :=
  { r with status := "dlq", dlqReasonCode := some "DEADLINE_EXCEEDED", dlqAt := some now, updatedAt := now }

/-- The rows of a queue that are queued and due. -/
def runnable (texts : Texts) (queue : String) (now : DateTime) (r : Job) : Bool :=
  r.queue == queue && r.status == "queued" && texts.timeLe r.runAt now

/-- `ORDER BY priority DESC, run_at ASC, created_at ASC, id ASC`. -/
def FifoLe (texts : Texts) (a b : Job) : Prop :=
  b.priority < a.priority ∨ (b.priority = a.priority ∧ (texts.timeLt a.runAt b.runAt ∨ (texts.timeLe a.runAt b.runAt ∧
    (texts.timeLt a.createdAt b.createdAt ∨ (texts.timeLe a.createdAt b.createdAt ∧ a.id ≤ b.id)))))

/-- `ORDER BY priority DESC, run_at ASC`. -/
def FastestLe (texts : Texts) (a b : Job) : Prop :=
  b.priority < a.priority ∨ (b.priority = a.priority ∧ texts.timeLe a.runAt b.runAt)

/-- The order that a `QueueOrdering` asks for. -/
def OrderLe (texts : Texts) : QueueOrdering → Job → Job → Prop
  | .fifo => FifoLe texts
  | .fastest => FastestLe texts

instance (texts : Texts) : DecidableRel (FifoLe texts) := fun _ _ => inferInstanceAs (Decidable (_ ∨ _))
instance (texts : Texts) : DecidableRel (FastestLe texts) := fun _ _ => inferInstanceAs (Decidable (_ ∨ _))
instance (texts : Texts) (ordering : QueueOrdering) : DecidableRel (OrderLe texts ordering) :=
  match ordering with
  | .fifo => inferInstanceAs (DecidableRel (FifoLe texts))
  | .fastest => inferInstanceAs (DecidableRel (FastestLe texts))

/-- `LIMIT n`, which is no limit where `n` is negative. -/
def limit {α : Type} (n : Int) (rows : List α) : List α := if n < 0 then rows else rows.take n.toNat

/-- The rows that a lease selects. -/
def candidates (texts : Texts) (rows : List Job) (queue : String) (now : DateTime) (ordering : QueueOrdering)
    (batchSize : Int) : List Job :=
  limit batchSize ((rows.filter (runnable texts queue now)).insertionSort (OrderLe texts ordering))

/-- What a lease makes of a row, and of the copy that it returns. -/
def leasedRow (now lockExpiresAt : DateTime) (workerId : String) (r : Job) : Job :=
  { r with
    status := "running"
    lockedAt := some now
    lockedBy := some workerId
    lockExpiresAt := some lockExpiresAt
    updatedAt := now }

/-- The loop over the candidates. -/
def leaseEach (now lockExpiresAt : DateTime) (workerId : String) : List Job → JobsTable → List Job × JobsTable
  | [], jobs => ([], jobs)
  | job :: rest, jobs =>
      let (leased, jobs) := leaseEach now lockExpiresAt workerId rest
        (jobs.update (fun r => r.id == job.id) { set := leasedRow now lockExpiresAt workerId })
      (leasedRow now lockExpiresAt workerId job :: leased, jobs)

/-- `lease_jobs_batch_with_ordering`. -/
def leaseJobsBatchWithOrdering (texts : Texts) (db : Db) (now : DateTime) (queue workerId : String)
    (leaseSeconds batchSize : Int) (ordering : QueueOrdering) : Outcome (List Job) × Db :=
  let swept := db.jobs.update (missedDeadline texts queue now) { set := deadlineRow now }
  match fetchAll texts.readRow (candidates texts swept.rows queue now ordering batchSize) with
  | .error message => (.err message, db)
  | .ok taken =>
      if taken.isEmpty then (.ok [], { db with jobs := swept })
      else
        match Chrono.addSeconds now leaseSeconds with
        | none => (.panic, db)
        | some lockExpiresAt =>
            let (leased, jobs) := leaseEach now lockExpiresAt workerId taken swept
            (.ok leased, { db with jobs := jobs })

/-- `lease_jobs_batch`. -/
def leaseJobsBatch (texts : Texts) (db : Db) (now : DateTime) (queue workerId : String)
    (leaseSeconds batchSize : Int) : Outcome (List Job) × Db :=
  leaseJobsBatchWithOrdering texts db now queue workerId leaseSeconds batchSize .fifo

/-! ## Lease holders -/

/-- `WHERE id = ? AND status = 'running' AND locked_by = ?`. -/
def heldRow (jobId : Uuid) (workerId : String) (r : Job) : Bool :=
  r.id == jobId && r.status == "running" && r.lockedBy == some workerId

/-- A row whose lease goes on. -/
def extendedRow (now lockExpiresAt : DateTime) (r : Job) : Job :=
  { r with lockExpiresAt := some lockExpiresAt, updatedAt := now }

/-- `extend_lease`. -/
def extendLease (db : Db) (now : DateTime) (jobId : Uuid) (workerId : String) (leaseSeconds : Int) :
    Outcome Bool × Db :=
  match Chrono.addSeconds now leaseSeconds with
  | none => (.panic, db)
  | some lockExpiresAt =>
      (.ok (decide (0 < db.jobs.affected (heldRow jobId workerId))),
        { db with jobs := db.jobs.update (heldRow jobId workerId) { set := extendedRow now lockExpiresAt } })

/-- A running attempt that `start_attempts_batch` inserts. -/
def startedRow (now : DateTime) (attemptId jobId : Uuid) (attemptNo : Int) (workerId : String) : AttemptRow :=
  { id := attemptId
    datasetId := "default"
    jobId := jobId
    attemptNo := attemptNo
    status := "running"
    workerId := workerId
    startedAt := now
    finishedAt := none
    latencyMs := none
    errorCode := none
    errorMessage := none }

/-- `SELECT MAX(attempt_no) FROM job_attempts WHERE job_id = ?`. -/
def maxAttempt (db : Db) (jobId : Uuid) : Option Int :=
  ((db.attempts.rows.filter (fun a => a.jobId == jobId)).map (·.attemptNo)).max?

/-- The loop of `start_attempts_batch` over the requested jobs, each with its `Uuid::new_v4()`. -/
def startEach (now : DateTime) (workerId : String) :
    List (Uuid × Uuid) → Db → Outcome (List (Uuid × Uuid × Int)) × Db
  | [], db => (.ok [], db)
  | (jobId, attemptId) :: rest, db =>
      if db.jobs.affected (heldRow jobId workerId) ≠ 1 then
        (.err (s!"cannot start attempt for job {showUuid jobId}: " ++
          s!"expected running lease held by {workerId}"), db)
      else
        match succI32 ((maxAttempt db jobId).getD 0) with
        | none => (.panic, db)
        | some nextAttemptNo =>
            match insertAttempt db (startedRow now attemptId jobId nextAttemptNo workerId) with
            | none => (.err "UNIQUE constraint failed: job_attempts.id", db)
            | some db =>
                match startEach now workerId rest db with
                | (.ok results, db) => (.ok ((jobId, attemptId, nextAttemptNo) :: results), db)
                | (.err message, db) => (.err message, db)
                | (.panic, db) => (.panic, db)

/-- `start_attempts_batch`. -/
def startAttemptsBatch (db : Db) (now : DateTime) (requests : List (Uuid × Uuid)) (workerId : String) :
    Outcome (List (Uuid × Uuid × Int)) × Db :=
  transaction db (startEach now workerId requests db)

/-! ## Acknowledgement

`mark_succeeded`, `reschedule_for_retry` and `mark_dlq` close the attempt, then update the job, and fail where either
statement does not find its row. -/

/-- `WHERE id = ? AND job_id = ? AND status = 'running'`. -/
def openRow (attemptId jobId : Uuid) (a : AttemptRow) : Bool :=
  a.id == attemptId && a.jobId == jobId && a.status == "running"

/-- An attempt that succeeded. -/
def succeededRow (now : DateTime) (latencyMs : Int) (a : AttemptRow) : AttemptRow :=
  { a with status := "succeeded", finishedAt := some now, latencyMs := some latencyMs }

/-- A job that succeeded. -/
def completedRow (now : DateTime) (r : Job) : Job :=
  { r with
    status := "succeeded"
    lockedAt := none
    lockedBy := none
    lockExpiresAt := none
    updatedAt := now }

/-- `completed_job.deadline_at.map(|deadline| deadline + interval)`; the outer `none` is the panic. -/
def shiftDeadline (interval : Int) : Option DateTime → Option (Option DateTime)
  | none => some none
  | some deadline => (Chrono.addSeconds deadline interval).map some

/-- The next occurrence of a recurring job; `none` where a `chrono` addition panics. -/
def nextRow (now : DateTime) (nextId : Uuid) (completed : Job) (interval : Int) : Option Job := do
  let runAt ← Chrono.addSeconds completed.runAt interval
  let deadlineAt ← shiftDeadline interval completed.deadlineAt
  return { completed with
    datasetId := "default"
    replayOfJobId := some completed.id
    idempotencyKey := none
    id := nextId
    runAt := runAt
    deadlineAt := deadlineAt
    status := "queued"
    lockedAt := none
    lockedBy := none
    lockExpiresAt := none
    dlqReasonCode := none
    dlqAt := none
    createdAt := now
    updatedAt := now }

/-- The end of `mark_succeeded`: the next occurrence of the completed job, if there is one. -/
def insertNext (db : Db) (now : DateTime) (nextId : Uuid) (completed : Job) : Outcome Unit × Db :=
  match completed.recurringIntervalSeconds with
  | none => (.ok (), db)
  | some interval =>
      match nextRow now nextId completed (max interval 1) with
      | none => (.panic, db)
      | some next =>
          match insertJob db next with
          | some db => (.ok (), db)
          | none => (.err "UNIQUE constraint failed: jobs.id", db)

/-- The error where the attempt is not a running one of the job. -/
def attemptError (verb : String) (attemptId jobId : Uuid) : String :=
  s!"cannot {verb} attempt {showUuid attemptId}: expected running attempt for job {showUuid jobId}"

/-- The error where the caller does not hold the job. -/
def leaseError (target : String) (jobId : Uuid) (workerId : String) : String :=
  s!"illegal job state transition to {target} for job {showUuid jobId}: " ++
    s!"expected running lease held by {workerId}"

/-- `mark_succeeded`. The completed job is the row that the `UPDATE` returns. -/
def markSucceeded (texts : Texts) (db : Db) (now : DateTime) (nextId jobId attemptId : Uuid) (workerId : String)
    (latencyMs : Int) : Outcome Unit × Db :=
  transaction db (
    let rowsAffected := db.attempts.affected (openRow attemptId jobId)
    let db := { db with
      attempts := db.attempts.update (openRow attemptId jobId) { set := succeededRow now latencyMs } }
    if rowsAffected ≠ 1 then (.err (attemptError "complete" attemptId jobId), db)
    else
      let returned := (db.jobs.rows.find? (heldRow jobId workerId)).map (completedRow now)
      let db := { db with jobs := db.jobs.update (heldRow jobId workerId) { set := completedRow now } }
      match returned with
      | none => (.err (leaseError "completed" jobId workerId), db)
      | some row =>
          match texts.readRow row with
          | .error message => (.err message, db)
          | .ok completed => insertNext db now nextId completed)

/-- An attempt that ended in a failure. -/
def failedRow (now : DateTime) (latencyMs : Int) (errorCode errorMessage : String) (a : AttemptRow) : AttemptRow :=
  { a with
    status := "failed"
    finishedAt := some now
    latencyMs := some latencyMs
    errorCode := some errorCode
    errorMessage := some errorMessage }

/-- The common part of `reschedule_for_retry` and `mark_dlq`: what they make of the job, and the name of the
    transition in their error. -/
def failWith (db : Db) (now : DateTime) (jobId attemptId : Uuid) (workerId : String) (latencyMs : Int)
    (errorCode errorMessage : String) (target : String) (set : Table.Assign jobKey) : Outcome Unit × Db :=
  transaction db (
    let rowsAffected := db.attempts.affected (openRow attemptId jobId)
    let db := { db with
      attempts := db.attempts.update (openRow attemptId jobId)
        { set := failedRow now latencyMs errorCode errorMessage } }
    if rowsAffected ≠ 1 then (.err (attemptError "fail" attemptId jobId), db)
    else
      let rowsAffected := db.jobs.affected (heldRow jobId workerId)
      let db := { db with jobs := db.jobs.update (heldRow jobId workerId) set }
      if rowsAffected ≠ 1 then (.err (leaseError target jobId workerId), db) else (.ok (), db))

/-- A job that is to run again. -/
def retryRow (now nextRunAt : DateTime) (r : Job) : Job :=
  { r with
    status := "queued"
    runAt := nextRunAt
    lockedAt := none
    lockedBy := none
    lockExpiresAt := none
    updatedAt := now }

/-- `reschedule_for_retry`. -/
def rescheduleForRetry (db : Db) (now : DateTime) (jobId attemptId : Uuid) (workerId : String) (latencyMs : Int)
    (nextRunAt : DateTime) (errorCode errorMessage : String) : Outcome Unit × Db :=
  failWith db now jobId attemptId workerId latencyMs errorCode errorMessage "retry_wait"
    { set := retryRow now nextRunAt }

/-- A job that is given up. -/
def deadRow (now : DateTime) (reasonCode : String) (r : Job) : Job :=
  { r with
    status := "dlq"
    dlqReasonCode := some reasonCode
    dlqAt := some now
    lockedAt := none
    lockedBy := none
    lockExpiresAt := none
    updatedAt := now }

/-- `mark_dlq`. -/
def markDlq (db : Db) (now : DateTime) (jobId attemptId : Uuid) (workerId : String) (latencyMs : Int)
    (reasonCode errorCode errorMessage : String) : Outcome Unit × Db :=
  failWith db now jobId attemptId workerId latencyMs errorCode errorMessage "dlq" { set := deadRow now reasonCode }

/-! ## Cancellation and the reaper -/

/-- What becomes of a running attempt that is not acknowledged; `COALESCE` keeps a latency that is there. -/
def abandonedRow (now : DateTime) (errorCode errorMessage : String) (a : AttemptRow) : AttemptRow :=
  { a with
    status := "failed"
    finishedAt := some now
    latencyMs := some (a.latencyMs.getD 0)
    errorCode := some errorCode
    errorMessage := some errorMessage }

/-- `SELECT id … WHERE job_id = ? AND status = 'running' ORDER BY attempt_no DESC LIMIT 1`. -/
def latestRunning (db : Db) (jobId : Uuid) : Option Uuid :=
  (((db.attempts.rows.filter (fun a => a.jobId == jobId && a.status == "running")).insertionSort
    (fun a b => b.attemptNo ≤ a.attemptNo)).head?).map (·.id)

/-- A cancelled job. -/
def canceledRow (now : DateTime) (r : Job) : Job :=
  { r with
    status := "canceled"
    lockedAt := none
    lockedBy := none
    lockExpiresAt := none
    updatedAt := now }

/-- `cancel_job`. -/
def cancelJob (db : Db) (now : DateTime) (jobId : Uuid) (workerId : Option String) : Outcome Unit × Db :=
  match db.jobs.lookup (·.id) jobId with
  | none => (.err s!"job {showUuid jobId} not found", db)
  | some current =>
      match checkCancel jobId current.status current.lockedBy workerId with
      | .error e => (.err e, db)
      | .ok () =>
          let latest := latestRunning db jobId
          let attempts :=
            if current.status = "running" then
              db.attempts.update (fun a => some a.id == latest)
                { set := abandonedRow now "CANCELLED" "job cancelled" }
            else db.attempts
          (.ok (), { jobs := db.jobs.update (fun r => r.id == jobId) { set := canceledRow now }, attempts := attempts })

/-- `WHERE status = 'running' AND lock_expires_at IS NOT NULL AND lock_expires_at <= ?`. -/
def expiredRow (texts : Texts) (now : DateTime) (r : Job) : Bool :=
  r.status == "running" && r.lockExpiresAt.any (fun t => texts.timeLe t now)

/-- A job whose lease has run out, put back. -/
def requeuedRow (now : DateTime) (r : Job) : Job :=
  { r with
    status := "queued"
    lockedAt := none
    lockedBy := none
    lockExpiresAt := none
    updatedAt := now }

/-- The statement that the reaper runs for each job it has selected. -/
def closeAttempts (now : DateTime) (attempts : AttemptsTable) (job : String × Uuid) : AttemptsTable :=
  attempts.update (fun a => a.datasetId == job.1 && a.jobId == job.2 && a.status == "running")
    { set := abandonedRow now "LEASE_EXPIRED" "worker lease expired before ACK" }

/-- `reap_expired_locks`. -/
def reapExpiredLocks (texts : Texts) (db : Db) (now : DateTime) : Outcome Nat × Db :=
  let expired := (db.jobs.rows.filter (expiredRow texts now)).map (fun r => (r.datasetId, r.id))
  (.ok (db.jobs.affected (expiredRow texts now)),
    { jobs := db.jobs.update (expiredRow texts now) { set := requeuedRow now }
      attempts := expired.foldl (closeAttempts now) db.attempts })

end Azums.Sqlite
