import Azums.Memory.State

/-!
# `Memory.Backend` — the job operations of `MemoryBackend`

Each operation of `impl StorageBackend for MemoryBackend` as a function of the state behind the lock. What
the code reads from its surroundings is an argument: `now` is the call's `Utc::now()`, an id called `newId`
is what its `Uuid::new_v4()` returns, and an `order` is the order in which a `HashMap` yields its entries.

A call gives an `Outcome` and the state it leaves behind. The state goes with every outcome: `?` and `bail!`
return early without undoing what was written, and a panic leaves the writes made before it.
-/

namespace Azums.Memory

open Function (update)

/-! ## Enqueue -/

/-- The entity that `enqueue` builds from a `NewJob`. -/
def newEntity (now : DateTime) (newId : Uuid) (job : NewJob) : Job :=
  { datasetId := "default"
    replayOfJobId := none
    idempotencyKey := job.idempotencyKey
    id := newId
    queue := job.queue
    jobType := job.jobType
    payload := job.payloadJson
    runAt := job.runAt
    deadlineAt := job.deadlineAt
    timeoutSeconds := job.timeoutSeconds
    recurringIntervalSeconds := job.recurringIntervalSeconds
    status := JobStatus.queued.asStr
    priority := job.priority
    maxAttempts := job.maxAttempts
    lockedAt := none
    lockedBy := none
    lockExpiresAt := none
    dlqReasonCode := none
    dlqAt := none
    createdAt := now
    updatedAt := now }

/-- The stored job that already carries an idempotency key: the first one `jobs.values()` yields. -/
def findByKey (s : InnerState) (order : List Uuid) (key : String) : Option Job :=
  (order.filterMap s.jobs).find? (fun existing => existing.idempotencyKey == some key)

/-- Index a new queued job and store it. -/
def insertQueued (s : InnerState) (job : Job) : InnerState :=
  (s.indexInsert job.queue (QueueEntry.fromJob job)).setJob job.id job

/-- `enqueue`. -/
def enqueue (s : InnerState) (now : DateTime) (newId : Uuid) (order : List Uuid) (job : NewJob) :
    Outcome Uuid × InnerState :=
  match job.idempotencyKey.bind (findByKey s order) with
  | some existing => (.ok existing.id, s)
  | none => (.ok newId, insertQueued s (newEntity now newId job))

/-! ## Leasing -/

/-- The indexed entries of a queue that are due but whose job's deadline has passed. -/
def expiredDeadlines (s : InnerState) (now : DateTime) (queue : String) : List QueueEntry :=
  (s.index queue).toList.filter (fun entry =>
    decide (entry.runAt ≤ now) && ((s.jobs entry.id).bind (·.deadlineAt)).any (fun d => decide (d < now)))

/-- What the sweep makes of a job that missed its deadline. -/
def deadlineExceeded (now : DateTime) (job : Job) : Job :=
  { job with
    status := JobStatus.dlq.asStr
    dlqReasonCode := some "DEADLINE_EXCEEDED"
    dlqAt := some now
    updatedAt := now }

/-- One round of the sweep's loop. -/
def sweepEntry (now : DateTime) (queue : String) (s : InnerState) (entry : QueueEntry) : InnerState :=
  let s := s.indexRemove queue [entry]
  match s.jobs entry.id with
  | some job => s.setJob entry.id (deadlineExceeded now job)
  | none => s

/-- The first half of a lease: queued jobs past their deadline go to the DLQ. -/
def sweepDeadlines (s : InnerState) (now : DateTime) (queue : String) : InnerState :=
  (expiredDeadlines s now queue).foldl (sweepEntry now queue) s

/-- The entries a lease takes: the first `batch_size.max(0)` due ones, in index order. -/
def candidates (s : InnerState) (now : DateTime) (queue : String) (batchSize : Int) : List QueueEntry :=
  ((s.index queue).toList.filter (fun entry => decide (entry.runAt ≤ now))).take (max batchSize 0).toNat

/-- What a lease makes of a job. -/
def leasedJob (now lockExpiresAt : DateTime) (workerId : String) (job : Job) : Job :=
  { job with
    status := JobStatus.running.asStr
    lockedAt := some now
    lockedBy := some workerId
    lockExpiresAt := some lockExpiresAt
    updatedAt := now }

/-- The lease loop over the candidates: the jobs it hands out and the state it leaves. -/
def leaseEach (now lockExpiresAt : DateTime) (workerId : String) :
    List QueueEntry → InnerState → List Job × InnerState
  | [], s => ([], s)
  | candidate :: rest, s =>
      match s.jobs candidate.id with
      | some job =>
          let job := leasedJob now lockExpiresAt workerId job
          let (leased, s) := leaseEach now lockExpiresAt workerId rest (s.setJob candidate.id job)
          (job :: leased, s)
      | none => leaseEach now lockExpiresAt workerId rest s

/-- `lease_jobs_batch_with_ordering`; the ordering is ignored. -/
def leaseJobsBatchWithOrdering (s : InnerState) (now : DateTime) (queue workerId : String)
    (leaseSeconds batchSize : Int) (_ordering : QueueOrdering) : Outcome (List Job) × InnerState :=
  let s := sweepDeadlines s now queue
  let taken := candidates s now queue batchSize
  if taken.isEmpty then (.ok [], s)
  else
    let s := s.indexRemove queue taken
    match Chrono.addSeconds now leaseSeconds with
    | none => (.panic, s)
    | some lockExpiresAt =>
        let (leased, s) := leaseEach now lockExpiresAt workerId taken s
        (.ok leased, s)

/-- `lease_jobs_batch`. -/
def leaseJobsBatch (s : InnerState) (now : DateTime) (queue workerId : String)
    (leaseSeconds batchSize : Int) : Outcome (List Job) × InnerState :=
  leaseJobsBatchWithOrdering s now queue workerId leaseSeconds batchSize .fifo

/-! ## Reaping -/

/-- A running job whose lease has run out. -/
def leaseExpired (now : DateTime) (job : Job) : Bool :=
  job.status == "running" && job.lockExpiresAt.any (fun t => decide (t ≤ now))

/-- What the reaper makes of a running attempt of a reaped job. -/
def leaseExpiredAttempt (now : DateTime) (attempt : MemoryAttempt) : MemoryAttempt :=
  { attempt with
    status := "failed"
    finishedAt := some now
    latencyMs := some 0
    errorCode := some "LEASE_EXPIRED"
    errorMessage := some "worker lease expired before ACK" }

/-- Close every running attempt of the given jobs (`for attempt in attempts.values_mut()`). -/
def closeAttempts (now : DateTime) (jobIds : List Uuid) (s : InnerState) : InnerState :=
  { s with attempts := fun id => (s.attempts id).map (fun attempt =>
      if attempt.jobId ∈ jobIds ∧ attempt.status = "running" then leaseExpiredAttempt now attempt
      else attempt) }

/-- A job put back into its queue. -/
def requeuedJob (now : DateTime) (job : Job) : Job :=
  { job with
    status := JobStatus.queued.asStr
    lockedAt := none
    lockedBy := none
    lockExpiresAt := none
    updatedAt := now }

/-- The requeue loop: how many jobs it put back, and the state it leaves. -/
def requeueEach (now : DateTime) : List Uuid → InnerState → Nat × InnerState
  | [], s => (0, s)
  | jobId :: rest, s =>
      match s.jobs jobId with
      | some job =>
          let job := requeuedJob now job
          let s := (s.setJob jobId job).indexInsert job.queue (QueueEntry.fromJob job)
          let (reaped, s) := requeueEach now rest s
          (reaped + 1, s)
      | none => requeueEach now rest s

/-- `reap_expired_locks`. -/
def reapExpiredLocks (s : InnerState) (now : DateTime) (order : List Uuid) : Outcome Nat × InnerState :=
  let expired := ((order.filterMap s.jobs).filter (leaseExpired now)).map (·.id)
  let (reaped, s) := requeueEach now expired (closeAttempts now expired s)
  (.ok reaped, s)

/-! ## Attempts and acknowledgement

`mark_succeeded`, `reschedule_for_retry` and `mark_dlq` begin with the same two checks. -/

/-- The job, if `worker_id` holds its running lease; else the error of the caller's transition. -/
def requireLease (s : InnerState) (jobId : Uuid) (workerId target : String) : Except String Job :=
  match s.jobs jobId with
  | none => .error s!"job {showUuid jobId} not found"
  | some job =>
      if job.status ≠ "running" ∨ job.lockedBy ≠ some workerId then
        .error (s!"illegal job state transition to {target} for job {showUuid jobId}: " ++
          s!"expected running lease held by {workerId}")
      else .ok job

/-- The attempt, if it is a running attempt of the job; else the error with the caller's verb. -/
def requireAttempt (s : InnerState) (attemptId jobId : Uuid) (verb : String) :
    Except String MemoryAttempt :=
  match s.attempts attemptId with
  | none => .error s!"attempt {showUuid attemptId} not found"
  | some att =>
      if att.status ≠ "running" ∨ att.jobId ≠ jobId then
        .error (s!"cannot {verb} attempt {showUuid attemptId}: " ++
          s!"expected running attempt for job {showUuid jobId}")
      else .ok att

/-- The running attempt `start_attempts_batch` records. -/
def startedAttempt (now : DateTime) (attemptId jobId : Uuid) (attemptNo : Int) (workerId : String) :
    MemoryAttempt :=
  { id := attemptId
    datasetId := "default"
    jobId := jobId
    attemptNo := attemptNo
    status := "running"
    workerId := workerId
    startedAt := now
    finishedAt := none
    latencyMs := none
    errorCode := none
    errorMessage := none }

/-- The writes for one started attempt: the job's counter and the attempt itself. -/
def recordAttempt (s : InnerState) (now : DateTime) (workerId : String) (jobId attemptId : Uuid)
    (attemptNo : Int) : InnerState :=
  { s with
    attemptCounts := update s.attemptCounts jobId (some attemptNo)
    attempts := update s.attempts attemptId (some (startedAttempt now attemptId jobId attemptNo workerId)) }

@[simp] theorem recordAttempt_jobs (s : InnerState) (now : DateTime) (workerId : String)
    (jobId attemptId : Uuid) (attemptNo : Int) :
    (recordAttempt s now workerId jobId attemptId attemptNo).jobs = s.jobs := rfl

/-- The loop of `start_attempts_batch` over the requested jobs, each with its `Uuid::new_v4()`. The first
    job that fails its check, or whose counter is at its maximum, ends the loop; the attempts started before it stay. -/
def startEach (now : DateTime) (workerId : String) :
    List (Uuid × Uuid) → InnerState → Outcome (List (Uuid × Uuid × Int)) × InnerState
  | [], s => (.ok [], s)
  | (jobId, attemptId) :: rest, s =>
      match s.jobs jobId with
      | none => (.err s!"job {showUuid jobId} not found", s)
      | some job =>
          if job.status ≠ "running" ∨ job.lockedBy ≠ some workerId then
            (.err (s!"cannot start attempt for job {showUuid jobId}: " ++
              s!"expected running lease held by {workerId}"), s)
          else
            match succI32 ((s.attemptCounts jobId).getD 0) with
            | none => (.panic, s)
            | some nextAttemptNo =>
                match startEach now workerId rest (recordAttempt s now workerId jobId attemptId nextAttemptNo) with
                | (.ok results, s) => (.ok ((jobId, attemptId, nextAttemptNo) :: results), s)
                | (.err message, s) => (.err message, s)
                | (.panic, s) => (.panic, s)

/-- `start_attempts_batch`; every requested job comes with the attempt id it would get. -/
def startAttemptsBatch (s : InnerState) (now : DateTime) (requests : List (Uuid × Uuid))
    (workerId : String) : Outcome (List (Uuid × Uuid × Int)) × InnerState :=
  startEach now workerId requests s

/-- The next occurrence of a recurring job; `none` where a `chrono` addition panics. -/
def nextOccurrence (now : DateTime) (newId : Uuid) (job : Job) (interval : Int) : Option Job :=
  match Chrono.addSeconds job.runAt interval with
  | none => none
  | some nextRunAt =>
      let next := { job with
        id := newId
        replayOfJobId := some job.id
        idempotencyKey := none
        runAt := nextRunAt
        status := JobStatus.queued.asStr
        lockedAt := none
        lockedBy := none
        lockExpiresAt := none
        dlqReasonCode := none
        dlqAt := none
        createdAt := now
        updatedAt := now }
      match job.deadlineAt with
      | none => some next
      | some deadline =>
          (Chrono.addSeconds deadline interval).map (fun d => { next with deadlineAt := some d })

/-- `recurring_job` of `mark_succeeded`, computed before any check: `none` is a panic, `some none` means
    there is nothing to enqueue. -/
def recurringJob (s : InnerState) (now : DateTime) (newId jobId : Uuid) : Option (Option Job) :=
  match s.jobs jobId with
  | none => some none
  | some job =>
      match job.recurringIntervalSeconds with
      | none => some none
      | some interval => (nextOccurrence now newId job interval).map some

/-- A job whose handler succeeded. -/
def completedJob (now : DateTime) (job : Job) : Job :=
  { job with
    status := JobStatus.completed.asStr
    lockedAt := none
    lockedBy := none
    lockExpiresAt := none
    updatedAt := now }

/-- `mark_succeeded`. -/
def markSucceeded (s : InnerState) (now : DateTime) (newId jobId attemptId : Uuid) (workerId : String)
    (latencyMs : Int) : Outcome Unit × InnerState :=
  match recurringJob s now newId jobId with
  | none => (.panic, s)
  | some next =>
      match requireLease s jobId workerId "completed" with
      | .error e => (.err e, s)
      | .ok job =>
          match requireAttempt s attemptId jobId "complete" with
          | .error e => (.err e, s)
          | .ok att =>
              let s := s.setAttempt attemptId
                { att with status := "succeeded", finishedAt := some now, latencyMs := some latencyMs }
              let s := s.setJob jobId (completedJob now job)
              match next with
              | some next => (.ok (), insertQueued s next)
              | none => (.ok (), s)

/-- `mark_succeeded_batch`: one `mark_succeeded` after the other, up to the first failure. Each update
    comes with the clock and the id its call would draw. -/
def markSucceededBatch (workerId : String) :
    List (DateTime × Uuid × Uuid × Uuid × Int) → InnerState → Outcome Unit × InnerState
  | [], s => (.ok (), s)
  | (now, newId, jobId, attemptId, latencyMs) :: rest, s =>
      match markSucceeded s now newId jobId attemptId workerId latencyMs with
      | (.ok (), s) => markSucceededBatch workerId rest s
      | (.err message, s) => (.err message, s)
      | (.panic, s) => (.panic, s)

/-- An attempt that ended in a handler failure. -/
def failedAttempt (now : DateTime) (latencyMs : Int) (errorCode errorMessage : String)
    (att : MemoryAttempt) : MemoryAttempt :=
  { att with
    status := "failed"
    finishedAt := some now
    latencyMs := some latencyMs
    errorCode := some errorCode
    errorMessage := some errorMessage }

/-- `reschedule_for_retry`. -/
def rescheduleForRetry (s : InnerState) (now : DateTime) (jobId attemptId : Uuid) (workerId : String)
    (latencyMs : Int) (nextRunAt : DateTime) (errorCode errorMessage : String) :
    Outcome Unit × InnerState :=
  match requireLease s jobId workerId "retry_wait" with
  | .error e => (.err e, s)
  | .ok job =>
      match requireAttempt s attemptId jobId "fail" with
      | .error e => (.err e, s)
      | .ok att =>
          let s := s.setAttempt attemptId (failedAttempt now latencyMs errorCode errorMessage att)
          let job := { requeuedJob now job with runAt := nextRunAt }
          (.ok (), (s.setJob jobId job).indexInsert job.queue (QueueEntry.fromJob job))

/-- A running job moved to the dead-letter queue. -/
def deadLetteredJob (now : DateTime) (reasonCode : String) (job : Job) : Job :=
  { job with
    status := JobStatus.dlq.asStr
    dlqReasonCode := some reasonCode
    dlqAt := some now
    lockedAt := none
    lockedBy := none
    lockExpiresAt := none
    updatedAt := now }

/-- `mark_dlq`. -/
def markDlq (s : InnerState) (now : DateTime) (jobId attemptId : Uuid) (workerId : String)
    (latencyMs : Int) (reasonCode errorCode errorMessage : String) : Outcome Unit × InnerState :=
  match requireLease s jobId workerId "dlq" with
  | .error e => (.err e, s)
  | .ok job =>
      match requireAttempt s attemptId jobId "fail" with
      | .error e => (.err e, s)
      | .ok att =>
          let s := s.setAttempt attemptId (failedAttempt now latencyMs errorCode errorMessage att)
          (.ok (), s.setJob jobId (deadLetteredJob now reasonCode job))

/-! ## Maintenance -/

/-- `limit as usize`: a negative `i64` becomes a huge count. -/
def asUsize (limit : Int) : Nat := (limit % 2 ^ 64).toNat

/-- Move a job from `jobs` to `archive`. -/
def archiveJob (s : InnerState) (id : Uuid) : InnerState :=
  match s.jobs id with
  | some job => { s with jobs := update s.jobs id none, archive := update s.archive id (some job) }
  | none => s

/-- `archive_succeeded_older_than`. -/
def archiveSucceededOlderThan (s : InnerState) (order : List Uuid) (cutoff : DateTime) (limit : Int) :
    Outcome Nat × InnerState :=
  let toArchive := (((order.filterMap s.jobs).filter
    (fun j => j.status == "succeeded" && decide (j.updatedAt < cutoff))).take (asUsize limit)).map (·.id)
  (.ok toArchive.length, toArchive.foldl archiveJob s)

/-- `delete_history_for_succeeded_older_than`. -/
def deleteHistoryForSucceededOlderThan (s : InnerState) (archiveOrder attemptOrder : List Uuid)
    (cutoff : DateTime) (limit : Int) : Outcome (Nat × Nat) × InnerState :=
  let archivedIds :=
    ((archiveOrder.filterMap s.archive).filter (fun j => decide (j.updatedAt < cutoff))).map (·.id)
  let toRemove := (((attemptOrder.filterMap s.attempts).filter
    (fun a => decide (a.startedAt < cutoff) && decide (a.jobId ∈ archivedIds))).take (asUsize limit)).map
      (·.id)
  (.ok (toRemove.length, 0),
    { s with attempts := toRemove.foldl (fun m id => update m id none) s.attempts })

/-! ## Heartbeat, cancellation, reads and replay -/

/-- `extend_lease`. -/
def extendLease (s : InnerState) (now : DateTime) (jobId : Uuid) (workerId : String)
    (leaseSeconds : Int) : Outcome Bool × InnerState :=
  match s.jobs jobId with
  | some job =>
      if job.status = "running" ∧ job.lockedBy = some workerId then
        match Chrono.addSeconds now leaseSeconds with
        | none => (.panic, s)
        | some t => (.ok true, s.setJob jobId { job with lockExpiresAt := some t, updatedAt := now })
      else (.ok false, s)
  | none => (.ok false, s)

/-- The job's running attempt with the highest number; on a tie `max_by_key` keeps the last. -/
def latestRunningAttempt (s : InnerState) (attemptOrder : List Uuid) (jobId : Uuid) : Option MemoryAttempt :=
  ((attemptOrder.filterMap s.attempts).filter
    (fun a => decide (a.jobId = jobId) && a.status == "running")).foldl
      (fun best a => match best with
        | some b => if b.attemptNo ≤ a.attemptNo then some a else some b
        | none => some a) none

/-- What `cancel_job` makes of the attempt it closes. -/
def cancelledAttempt (now : DateTime) (att : MemoryAttempt) : MemoryAttempt :=
  failedAttempt now 0 "CANCELLED" "job cancelled" att

/-- A cancelled job. -/
def cancelledJob (now : DateTime) (job : Job) : Job :=
  { job with
    status := JobStatus.cancelled.asStr
    lockedAt := none
    lockedBy := none
    lockExpiresAt := none
    updatedAt := now }

/-- `cancel_job`. -/
def cancelJob (s : InnerState) (now : DateTime) (attemptOrder : List Uuid) (jobId : Uuid)
    (workerId : Option String) : Outcome Unit × InnerState :=
  match s.jobs jobId with
  | none => (.err s!"job {showUuid jobId} not found", s)
  | some job =>
      match checkCancel jobId job.status job.lockedBy workerId with
      | .error e => (.err e, s)
      | .ok () =>
          let closed :=
            if job.status = "running" then
              match latestRunningAttempt s attemptOrder jobId with
              | some att => s.setAttempt att.id (cancelledAttempt now att)
              | none => s
            else s
          let stored := closed.setJob jobId (cancelledJob now job)
          if job.status = "queued" then
            (.ok (), stored.indexRemove job.queue [QueueEntry.fromJob job])
          else (.ok (), stored)

/-- `get_job`. -/
def getJob (s : InnerState) (jobId : Uuid) : Option Job := (s.jobs jobId).or (s.archive jobId)

/-- The copy that `replay_job` enqueues. -/
def replayEntity (now : DateTime) (newId jobId : Uuid) (queue : String) (runAt : DateTime) (src : Job) :
    Job :=
  { src with
    datasetId := "default"
    replayOfJobId := some jobId
    idempotencyKey := none
    id := newId
    queue := queue
    runAt := runAt
    status := JobStatus.queued.asStr
    lockedAt := none
    lockedBy := none
    lockExpiresAt := none
    dlqReasonCode := none
    dlqAt := none
    createdAt := now
    updatedAt := now }

/-- `replay_job`. -/
def replayJob (s : InnerState) (now : DateTime) (newId jobId : Uuid) (overrideQueue : Option String)
    (overrideRunAt : Option DateTime) : Outcome Uuid × InnerState :=
  match getJob s jobId with
  | none => (.err s!"Job {showUuid jobId} not found", s)
  | some src =>
      let next := replayEntity now newId jobId (overrideQueue.getD src.queue) (overrideRunAt.getD now) src
      (.ok newId, insertQueued s next)

end Azums.Memory
