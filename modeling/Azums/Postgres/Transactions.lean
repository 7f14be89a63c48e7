import Azums.Lib.Prog
import Azums.Lib.ReadCommitted
import Azums.Postgres.Enqueue
import Azums.Postgres.Lease
import Azums.Postgres.Runner

/-!
# `Postgres.Transactions` — the job transactions, statement by statement

The functions that move a job between its states, each as the program of SQL statements it sends inside one
transaction: `JobsRepo::cancel_job`, `lease_jobs_batch_with_ordering` and `reap_expired_locks`, and the
`PostgresBackend` versions of `mark_succeeded`, `mark_succeeded_batch`, `reschedule_for_retry` and `mark_dlq`. A
statement is one atomic step over the row versions of `Lib.ReadCommitted`; between two statements any other client may
run. One statement is two steps: the `UPDATE` of `cancel_job` whose `WHERE` asks for `id = (SELECT …)`. The sub-select is
evaluated on what is committed when the statement begins; then the statement may wait for the lock on that row, and when it
goes on it asks for the id alone.

A program that returns `Ok` has just committed, and one that returns an error or panics drops its transaction, which
rolls it back. So does a client that dies.
-/

namespace Azums.Postgres

/-! ## The database and its statements -/

/-- The primary key that the clients name a job by. -/
def JobRow.rowId (r : JobRow) : Uuid := r.id

/-- A connection of the pool. -/
abbrev ClientId := Nat

/-- The database under concurrent transactions. -/
structure Store where
  jobs : Versions ClientId JobRow.rowId
  attempts : Versions ClientId AttemptRow.id
  queuePolicies : String → Option QueuePolicy
  policyDecisions : Versions ClientId PolicyDecision.id

/-- What a transaction reads. -/
structure View where
  jobs : List JobRow
  attempts : List AttemptRow
  queuePolicies : String → Option QueuePolicy

namespace Store

/-- A database with no transaction open. -/
def ofDb (db : Db) : Store :=
  { jobs := Versions.ofRows JobRow.rowId db.jobs.rows
    attempts := Versions.ofRows AttemptRow.id db.attempts.rows
    queuePolicies := db.queuePolicies
    policyDecisions := Versions.ofRows PolicyDecision.id db.policyDecisions }

def view (s : Store) (i : ClientId) : View :=
  { jobs := s.jobs.rows i, attempts := s.attempts.rows i, queuePolicies := s.queuePolicies }

/-- `COMMIT`. -/
def commit (s : Store) (i : ClientId) : Store :=
  { s with
    jobs := s.jobs.commit i
    attempts := s.attempts.commit i
    policyDecisions := s.policyDecisions.commit i }

/-- `ROLLBACK`. -/
def rollback (s : Store) (i : ClientId) : Store :=
  { s with
    jobs := s.jobs.rollback i
    attempts := s.attempts.rollback i
    policyDecisions := s.policyDecisions.rollback i }

end Store

/-- The statements. A `SELECT` answers with what the transaction sees, out of which the program reads its columns.
    `updateAttempts` has a `SET` that fails on rows outside `fits`. -/
inductive Stmt where
  | select
  | updateJobs (p : JobRow → Bool) (f : Table.Assign JobRow.rowId)
  | claimJobs (choose : List JobRow → List JobRow) (f : Table.Assign JobRow.rowId)
  | updateAttempts (p fits : AttemptRow → Bool) (f : Table.Assign AttemptRow.id)
  | insertJob (row : JobRow)
  | insertDecision (decision : PolicyDecision)

/-- What a statement returns: the rows it wrote, how many they are, or nothing. -/
@[reducible] def Stmt.Reply : Stmt → Type
  | .select => View
  | .updateJobs _ _ | .claimJobs _ _ => List JobRow
  | .updateAttempts _ _ _ => Except String Nat
  | .insertJob _ | .insertDecision _ => Unit

/-- One statement of the transaction of client `i`; `none` while it waits for a lock. -/
def Stmt.exec (i : ClientId) : (c : Stmt) → Store → Option (c.Reply × Store)
  | .select, s => some (s.view i, s)
  | .updateJobs p f, s => (s.jobs.update i p f).map (fun answer => (answer.1, { s with jobs := answer.2 }))
  | .claimJobs choose f, s =>
      let answer := s.jobs.claim i choose f
      some (answer.1, { s with jobs := answer.2 })
  | .updateAttempts p fits f, s =>
      if ((s.attempts.rows i).filter p).all fits then
        (s.attempts.update i p f).map (fun answer =>
          (.ok answer.1.length, { s with attempts := answer.2 }))
      else some (.error "integer out of range", s)
  | .insertJob row, s => (s.jobs.insert i row).map (fun jobs => ((), { s with jobs := jobs }))
  | .insertDecision decision, s =>
      (s.policyDecisions.insert i decision).map (fun decisions => ((), { s with policyDecisions := decisions }))

/-- What the calls return. -/
inductive Answer where
  | unit
  | jobs (leased : List JobRow)
  | count (n : Nat)

/-- A completion, as a batch carries it: job, attempt, latency. -/
abbrev Completion := Uuid × Uuid × Int

/-- A transaction: statements, then the outcome of the call. -/
abbrev Tx (α : Type) := Prog Stmt Stmt.Reply α

namespace Tx

def select : Tx View := .call .select .done

def updateJobs (p : JobRow → Bool) (f : Table.Assign JobRow.rowId) : Tx (List JobRow) :=
  .call (.updateJobs p f) .done

def claimJobs (choose : List JobRow → List JobRow) (f : Table.Assign JobRow.rowId) : Tx (List JobRow) :=
  .call (.claimJobs choose f) .done

def updateAttempts (p fits : AttemptRow → Bool) (f : Table.Assign AttemptRow.id) : Tx (Except String Nat) :=
  .call (.updateAttempts p fits f) .done

def insertJob (row : JobRow) : Tx Unit := .call (.insertJob row) .done

def insertDecision (decision : PolicyDecision) : Tx Unit := .call (.insertDecision decision) .done

/-! ## `cancel_job` -/

/-- The sub-select: the id of the running attempt of a job with the highest number. -/
def latestRunning (jobId : Uuid) (rows : List AttemptRow) : Option Uuid :=
  (((rows.filter (fun a => a.jobId == jobId && a.status == "running")).insertionSort
    (fun a b => b.attemptNo ≤ a.attemptNo)).head?).map (·.id)

/-- What `cancel_job` makes of that attempt. -/
def cancelledAttempt (now : DateTime) (r : AttemptRow) : AttemptRow :=
  { r with
    status := "failed"
    finishedAt := some now
    latencyMs := some (r.latencyMs.getD 0)
    errorCode := some "CANCELLED"
    errorMessage := some "job cancelled" }

/-- A cancelled job. -/
def canceledRow (now : DateTime) (r : JobRow) : JobRow :=
  { r with status := "canceled", lockedAt := none, lockedBy := none, lockExpiresAt := none, updatedAt := now }

/-- The last statement of `cancel_job`: it asks for the id and nothing else. -/
def cancelRow (now : DateTime) (jobId : Uuid) : Tx (Outcome Answer) := do
  let _ ← updateJobs (fun r => r.id == jobId) { set := canceledRow now }
  return .ok .unit

/-- `JobsRepo::cancel_job`. -/
def cancelJob (now : DateTime) (jobId : Uuid) (workerId : Option String) : Tx (Outcome Answer) := do
  let db ← select
  match db.jobs.find? (fun r => r.id == jobId) with
  | none => return .err s!"job {showUuid jobId} not found"
  | some current =>
      match checkCancel jobId current.status current.lockedBy workerId with
      | .error e => return .err e
      | .ok () =>
          if current.status = "running" then do
            let db ← select
            let latest := latestRunning jobId db.attempts
            match ← updateAttempts (fun a => latest == some a.id) (fun _ => true) { set := cancelledAttempt now } with
            | .error e => return .err e
            | .ok _ => cancelRow now jobId
          else cancelRow now jobId

/-! ## `lease_jobs_batch_with_ordering` -/

/-- The policy gate: the reason to throttle, and the numbers that go into the decision. -/
def policyGate (env : LeaseEnv) (req : LeaseRequest) :
    Option QueuePolicy → Tx (Option (QueuePolicy × Nat × Nat × String))
  | none => return none
  | some policy => do
      let db ← select
      let running := inFlight db.jobs req.queue
      let db ← select
      let attempts := attemptsLastMinute db.attempts db.jobs req.queue env.now
      return (throttleReason policy running attempts).map (fun reasonCode => (policy, running, attempts, reasonCode))

/-- The throttled end of a lease. -/
def throttle (env : LeaseEnv) (req : LeaseRequest) (datasetId : String) (policy : QueuePolicy)
    (running attempts : Nat) (reasonCode : String) : Tx (Outcome Answer) := do
  let locked ← claimJobs (fun rows => candidates rows datasetId req.queue env.now req.ordering 1) { set := id }
  match locked.head? with
  | none => return .ok (.jobs [])
  | some candidate =>
      insertDecision (throttledDecision env.decisionId datasetId req.queue candidate.id policy running attempts
        reasonCode)
      let _ ← updateJobs (fun r => r.id == candidate.id) { set := throttledRow env.now policy.throttleDelayMs }
      return .ok (.jobs [])

/-- `JobsRepo::lease_jobs_batch_with_ordering`; `lease_jobs_batch` is this with `Fifo`. -/
def leaseJobsBatchWithOrdering (env : LeaseEnv) (req : LeaseRequest) : Tx (Outcome Answer) := do
  let _ ← updateJobs (missedDeadline req.queue env.now) { set := deadlineRow env.now }
  let db ← select
  let policy := db.queuePolicies req.queue
  let db ← select
  match pickDataset db.jobs req.queue env.now with
  | none => return .ok (.jobs [])
  | some datasetId =>
      match ← policyGate env req policy with
      | some (policy, running, attempts, reasonCode) =>
          throttle env req datasetId policy running attempts reasonCode
      | none =>
          if FitsInteger req.leaseSeconds then do
            let leased ← claimJobs
              (fun rows => candidates rows datasetId req.queue env.now req.ordering (clampBatch req.batchSize))
              { set := leasedRow env.now req.workerId req.leaseSeconds }
            return .ok (.jobs (leased.insertionSort (OrderLe req.ordering)))
          else return .err "integer out of range"

/-! ## `mark_succeeded`, `reschedule_for_retry` and `mark_dlq` -/

/-- The attempt rows that an acknowledgement selects. -/
def openAttempt (attemptId jobId : Uuid) (r : AttemptRow) : Bool :=
  r.id == attemptId && r.jobId == jobId && r.status == "running"

/-- An attempt that succeeded. -/
def succeededAttempt (now : DateTime) (latencyMs : Int) (r : AttemptRow) : AttemptRow :=
  { r with status := "succeeded", finishedAt := some now, latencyMs := some latencyMs }

/-- A job that succeeded. -/
def succeededRow (now : DateTime) (r : JobRow) : JobRow :=
  { r with status := "succeeded", lockedAt := none, lockedBy := none, lockExpiresAt := none, updatedAt := now }

/-- What a call of `mark_succeeded` reads from its surroundings: the transaction's clock, the id a next occurrence
    would get, and the result of `ensure_dataset_partition`. -/
structure SuccessEnv where
  now : DateTime
  newId : Uuid
  ensured : Except String Unit

/-- The next occurrence of a recurring job, as it is handed to the `INSERT`; `none` where `chrono` panics. -/
def nextOccurrence (completed : JobRow) (interval : Int) : Option NewJob := do
  let runAt ← Chrono.addSeconds completed.runAt (max interval 1)
  let deadlineAt ← match completed.deadlineAt with
    | none => some none
    | some deadline => (Chrono.addSeconds deadline (max interval 1)).map some
  return { queue := completed.queue, jobType := completed.jobType, payloadJson := completed.payload,
           idempotencyKey := none, runAt := runAt, deadlineAt := deadlineAt,
           timeoutSeconds := completed.timeoutSeconds,
           recurringIntervalSeconds := completed.recurringIntervalSeconds, priority := completed.priority,
           maxAttempts := completed.maxAttempts }

/-- The end of `mark_succeeded`: a recurring job gets its next occurrence. -/
def recur (env : SuccessEnv) (completed : JobRow) : Tx (Outcome Answer) :=
  match completed.recurringIntervalSeconds with
  | none => return .ok .unit
  | some interval =>
      match nextOccurrence completed interval with
      | none => return .panic
      | some next =>
          match env.ensured with
          | .error e => return .err e
          | .ok () =>
              if CastsFit next then do
                insertJob { newRow env.now env.newId (datasetIdFor next.queue next.runAt) next with
                  replayOfJobId := some completed.id }
                return .ok .unit
              else return .err "integer out of range"

/-- `PostgresBackend::mark_succeeded`. -/
def markSucceeded (env : SuccessEnv) (jobId attemptId : Uuid) (workerId : String) (latencyMs : Int) :
    Tx (Outcome Answer) := do
  match ← updateAttempts (openAttempt attemptId jobId) (fun _ => true)
      { set := succeededAttempt env.now latencyMs } with
  | .error e => return .err e
  | .ok affected =>
      if affected ≠ 1 then
        return .err (s!"cannot complete attempt {showUuid attemptId}: " ++
          s!"expected running attempt for job {showUuid jobId}")
      else do
        let completed ← updateJobs (heldRow jobId workerId) { set := succeededRow env.now }
        match completed.head? with
        | none =>
            return .err (s!"illegal job state transition to completed for job {showUuid jobId}: " ++
              s!"expected running lease held by {workerId}")
        | some completed => recur env completed

/-- The loop of `mark_succeeded_batch`. -/
def ackEach (now : DateTime) (datasetId workerId : String) : List Completion → Tx (Outcome Answer)
  | [] => return .ok .unit
  | (jobId, attemptId, latencyMs) :: rest => do
      match ← updateAttempts (fun r => r.datasetId == datasetId && openAttempt attemptId jobId r) (fun _ => true)
          { set := succeededAttempt now latencyMs } with
      | .error e => return .err e
      | .ok affected =>
          if affected ≠ 1 then
            return .err (s!"cannot complete attempt {showUuid attemptId}: " ++
              s!"expected running attempt for job {showUuid jobId}")
          else do
            let moved ← updateJobs (fun r => r.datasetId == datasetId && heldRow jobId workerId r)
              { set := succeededRow now }
            if moved.length ≠ 1 then
              return .err (s!"illegal job state transition to completed for job {showUuid jobId}: " ++
                s!"expected running lease held by {workerId}")
            else ackEach now datasetId workerId rest

/-- `PostgresBackend::mark_succeeded_batch`. -/
def markSucceededBatch (now : DateTime) (datasetId : String) (updates : List Completion) (workerId : String) :
    Tx (Outcome Answer) :=
  if updates.isEmpty then return .ok .unit else ackEach now datasetId workerId updates

/-- The two failing acknowledgements: close the attempt, then move the job, each if it is still the caller's. -/
def failWith (now : DateTime) (jobId attemptId : Uuid) (workerId : String) (latencyMs : Int)
    (errorCode errorMessage target : String) (f : Table.Assign JobRow.rowId) : Tx (Outcome Answer) := do
  match ← updateAttempts (openAttempt attemptId jobId) (fun _ => true)
      (failAttempt now latencyMs errorCode errorMessage) with
  | .error e => return .err e
  | .ok affected =>
      if affected ≠ 1 then
        return .err (s!"cannot fail attempt {showUuid attemptId}: " ++
          s!"expected running attempt for job {showUuid jobId}")
      else do
        let moved ← updateJobs (heldRow jobId workerId) f
        if moved.length ≠ 1 then
          return .err (s!"illegal job state transition to {target} for job {showUuid jobId}: " ++
            s!"expected running lease held by {workerId}")
        else return .ok .unit

/-- `PostgresBackend::reschedule_for_retry`. -/
def rescheduleForRetry (now : DateTime) (jobId attemptId : Uuid) (workerId : String) (latencyMs : Int)
    (nextRunAt : DateTime) (errorCode errorMessage : String) : Tx (Outcome Answer) :=
  failWith now jobId attemptId workerId latencyMs errorCode errorMessage "retry_wait"
    { set := retryRow now nextRunAt (some errorCode) (some errorMessage) }

/-- `PostgresBackend::mark_dlq`. -/
def markDlq (now : DateTime) (jobId attemptId : Uuid) (workerId : String) (latencyMs : Int)
    (reasonCode errorCode errorMessage : String) : Tx (Outcome Answer) :=
  failWith now jobId attemptId workerId latencyMs errorCode errorMessage "dlq"
    { set := dlqRow now reasonCode (some errorCode) (some errorMessage) }

/-! ## `reap_expired_locks` -/

/-- The jobs whose lease ran out. -/
def expired (now : DateTime) (r : JobRow) : Bool :=
  r.status == "running" && r.lockExpiresAt.any (fun e => decide (e < now))

/-- `(EXTRACT(EPOCH FROM d) * 1000)::int`: milliseconds, rounded to the nearest. -/
def toMillis (d : Int) : Int := if 0 ≤ d then (d + 500000) / 1000000 else -((-d + 500000) / 1000000)

/-- What the reaper makes of a running attempt. -/
def expiredAttempt (now : DateTime) (r : AttemptRow) : AttemptRow :=
  { r with
    status := "failed"
    finishedAt := some now
    latencyMs := some (r.latencyMs.getD (max 0 (toMillis (now - r.startedAt))))
    errorCode := some "LEASE_EXPIRED"
    errorMessage := some "worker lease expired before ACK" }

/-- A job given back to its queue. -/
def requeuedRow (now : DateTime) (r : JobRow) : JobRow :=
  { r with status := "queued", lockedAt := none, lockedBy := none, lockExpiresAt := none, updatedAt := now }

/-- `JobsRepo::reap_expired_locks`. The last statement selects by the lease again, not by the ids it locked. -/
def reapExpiredLocks (now : DateTime) : Tx (Outcome Answer) := do
  let found ← claimJobs (fun rows => rows.filter (expired now)) { set := id }
  if found.isEmpty then return .ok (.count 0)
  else do
    match ← updateAttempts
        (fun a => decide (a.datasetId ∈ found.map (·.datasetId)) && decide (a.jobId ∈ found.map (·.id)) &&
          a.status == "running")
        (fun a => a.latencyMs.isSome || decide (FitsInteger (toMillis (now - a.startedAt))))
        { set := expiredAttempt now } with
    | .error e => return .err e
    | .ok _ =>
        let requeued ← updateJobs (expired now) { set := requeuedRow now }
        return .ok (.count requeued.length)

end Tx

/-! ## The clients -/

/-- A call, with its arguments and the clocks and ids it is given. -/
inductive Call where
  | cancelJob (now : DateTime) (jobId : Uuid) (workerId : Option String)
  | leaseJobsBatch (env : LeaseEnv) (req : LeaseRequest)
  | markSucceeded (env : Tx.SuccessEnv) (jobId attemptId : Uuid) (workerId : String) (latencyMs : Int)
  | rescheduleForRetry (now : DateTime) (jobId attemptId : Uuid) (workerId : String) (latencyMs : Int)
      (nextRunAt : DateTime) (errorCode errorMessage : String)
  | markDlq (now : DateTime) (jobId attemptId : Uuid) (workerId : String) (latencyMs : Int)
      (reasonCode errorCode errorMessage : String)
  | reapExpiredLocks (now : DateTime)

/-- The transaction a call runs. -/
def Call.tx : Call → Tx (Outcome Answer)
  | .cancelJob now jobId workerId => Tx.cancelJob now jobId workerId
  | .leaseJobsBatch env req => Tx.leaseJobsBatchWithOrdering env req
  | .markSucceeded env jobId attemptId workerId latencyMs =>
      Tx.markSucceeded env jobId attemptId workerId latencyMs
  | .rescheduleForRetry now jobId attemptId workerId latencyMs nextRunAt errorCode errorMessage =>
      Tx.rescheduleForRetry now jobId attemptId workerId latencyMs nextRunAt errorCode errorMessage
  | .markDlq now jobId attemptId workerId latencyMs reasonCode errorCode errorMessage =>
      Tx.markDlq now jobId attemptId workerId latencyMs reasonCode errorCode errorMessage
  | .reapExpiredLocks now => Tx.reapExpiredLocks now

/-- The database server: a call that returns `Ok` has committed, any other end rolls back. -/
def server : Server ClientId Stmt Stmt.Reply (Outcome Answer) Store where
  exec i c s := c.exec i s
  close i outcome s :=
    match outcome with
    | .ok _ => s.commit i
    | .err _ | .panic => s.rollback i
  abandon i s := s.rollback i

/-- Any number of clients, each in one call at a time, over a database that starts with no transaction open. -/
abbrev TxPool := Pool ClientId Call Stmt Stmt.Reply (Outcome Answer) Store

def txSystem : System TxPool (Move ClientId Call) :=
  Pool.system server Call.tx (fun s => ∃ db : Db, s = Store.ofDb db)

end Azums.Postgres
