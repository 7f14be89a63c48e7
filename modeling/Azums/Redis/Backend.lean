import Azums.Core.Model
import Azums.Lib.Prog
import Azums.Lib.System
import Mathlib.Data.List.Dedup

/-!
# `Redis.Backend` — the job operations, command by command

`RedisBackend` keeps a job in three places: its record in the hash `azums:jobs`, its id in at most a few of the lists
`azums:queue:*` and `azums:processing:*`, and its idempotency key in the hash `azums:idempotency`. Nothing ties the
three together but the order in which an operation sends its commands.

Every operation is the program of commands it sends. A command is one atomic step of the server; between two of them
any other client may run, and any client may die. A failed command is the death of the client that sent it.

A record is carried decoded. What this rests on: the JSON that `serde_json` writes for a job parses, and gives the same
job back. It does so unless the payload holds a float that comes back as its neighbour, or is nested 127 deep. A record
that does not parse is taken for one that is missing by every operation; only the error of `cancel_job` and `replay_job`
is another.
-/

namespace Azums.Redis

/-! ## The server -/

/-- What the server holds. `entries` are the members of all lists, each list in its own order: `RPUSH` appends and
    `LPUSH` prepends. -/
structure Store where
  jobs : Uuid → Option Job
  idempotency : String → Option Uuid
  entries : List (String × Uuid)
  attempts : Uuid → Int

/-- A server that has just been started. -/
def Store.empty : Store :=
  { jobs := fun _ => none, idempotency := fun _ => none, entries := [], attempts := fun _ => 0 }

/-- The list under a key. -/
def Store.list (s : Store) (key : String) : List Uuid :=
  (s.entries.filter (fun e => e.1 == key)).map Prod.snd

/-- `azums:queue:{queue}`. -/
def queueKey (queue : String) : String := "azums:queue:" ++ queue

/-- `azums:processing:{queue}:{worker}`. -/
def processingKey (queue workerId : String) : String := "azums:processing:" ++ queue ++ ":" ++ workerId

/-- `KEYS azums:processing:*`, in no particular order. -/
def isProcessing (key : String) : Bool := "azums:processing:".toList.isPrefixOf key.toList

/-- The commands, each with the fixed part of its arguments left out: `hget` and `hset` are about `azums:jobs`, `incr`
    about `azums:attempts:{id}`, `lmove` takes from the left and appends on the right, and `lrem` has count 1. -/
inductive Command where
  | hsetnxIdempotency (key : String) (id : Uuid)
  | hgetIdempotency (key : String)
  | hget (id : Uuid)
  | hset (id : Uuid) (job : Job)
  | rpush (key : String) (id : Uuid)
  | lpush (key : String) (id : Uuid)
  | lrem (key : String) (id : Uuid)
  | lmove (source destination : String)
  | lrange (key : String)
  | keysProcessing
  | incr (id : Uuid)

/-- What a command answers. -/
@[reducible] def Command.Reply : Command → Type
  | .hsetnxIdempotency _ _ => Bool
  | .hgetIdempotency _ | .lmove _ _ => Option Uuid
  | .hget _ => Option Job
  | .hset _ _ | .rpush _ _ | .lpush _ _ | .lrem _ _ => Unit
  | .lrange _ => List Uuid
  | .keysProcessing => List String
  | .incr _ => Int

/-- What a command does. -/
def Command.exec : (c : Command) → Store → c.Reply × Store
  | .hsetnxIdempotency key id, s =>
      match s.idempotency key with
      | some _ => (false, s)
      | none => (true, { s with idempotency := Function.update s.idempotency key (some id) })
  | .hgetIdempotency key, s => (s.idempotency key, s)
  | .hget id, s => (s.jobs id, s)
  | .hset id job, s => ((), { s with jobs := Function.update s.jobs id (some job) })
  | .rpush key id, s => ((), { s with entries := s.entries ++ [(key, id)] })
  | .lpush key id, s => ((), { s with entries := (key, id) :: s.entries })
  | .lrem key id, s => ((), { s with entries := s.entries.erase (key, id) })
  | .lmove source destination, s =>
      match (s.list source).head? with
      | none => (none, s)
      | some id => (some id, { s with entries := s.entries.erase (source, id) ++ [(destination, id)] })
  | .lrange key, s => (s.list key, s)
  | .keysProcessing, s => (((s.entries.map Prod.fst).filter isProcessing).dedup, s)
  | .incr id, s =>
      (s.attempts id + 1, { s with attempts := Function.update s.attempts id (s.attempts id + 1) })

@[simp] theorem Command.exec_hset {s : Store} {id : Uuid} {job : Job} :
    ((Command.hset id job).exec s).2.jobs id = some job := Function.update_self ..

/-- A command other than the `HSET` of a record leaves it alone. -/
theorem Command.exec_jobs {c : Command} {s : Store} {id : Uuid} (h : ∀ job, c ≠ .hset id job) :
    (c.exec s).2.jobs id = s.jobs id := by
  cases c with
  | hset id' job =>
      have hne : id ≠ id' := fun he => h job (by rw [he])
      exact Function.update_of_ne hne ..
  | hsetnxIdempotency key id' =>
      cases hkey : s.idempotency key <;> simp only [Command.exec, hkey]
  | lmove source destination =>
      cases hhead : (s.list source).head? <;> simp only [Command.exec, hhead]
  | _ => rfl

/-! ## Programs -/

/-- What the calls return. -/
inductive Answer where
  | unit
  | id (jobId : Uuid)
  | jobs (leased : List Job)
  | count (reaped : Nat)
  | started (attempts : List (Uuid × Uuid × Int))
  | bool (extended : Bool)

/-- Commands, then a value. -/
abbrev Cmds (α : Type) := Prog Command Command.Reply α

def hsetnxIdempotency (key : String) (id : Uuid) : Cmds Bool := .call (.hsetnxIdempotency key id) .done
def hgetIdempotency (key : String) : Cmds (Option Uuid) := .call (.hgetIdempotency key) .done
def hget (id : Uuid) : Cmds (Option Job) := .call (.hget id) .done
def hset (id : Uuid) (job : Job) : Cmds Unit := .call (.hset id job) .done
def rpush (key : String) (id : Uuid) : Cmds Unit := .call (.rpush key id) .done
def lpush (key : String) (id : Uuid) : Cmds Unit := .call (.lpush key id) .done
def lrem (key : String) (id : Uuid) : Cmds Unit := .call (.lrem key id) .done
def lmove (source destination : String) : Cmds (Option Uuid) := .call (.lmove source destination) .done
def lrange (key : String) : Cmds (List Uuid) := .call (.lrange key) .done
def keysProcessing : Cmds (List String) := .call .keysProcessing .done
def incr (id : Uuid) : Cmds Int := .call (.incr id) .done

/-! ## `enqueue` -/

/-- The record of a new job. -/
def jobEntity (now : DateTime) (jobId : Uuid) (job : NewJob) : Job :=
  { datasetId := "default", replayOfJobId := none, idempotencyKey := job.idempotencyKey, id := jobId,
    queue := job.queue, jobType := job.jobType, payload := job.payloadJson, runAt := job.runAt,
    deadlineAt := job.deadlineAt, timeoutSeconds := job.timeoutSeconds,
    recurringIntervalSeconds := job.recurringIntervalSeconds, status := JobStatus.queued.asStr,
    priority := job.priority, maxAttempts := job.maxAttempts, lockedAt := none, lockedBy := none,
    lockExpiresAt := none, dlqReasonCode := none, dlqAt := none, createdAt := now, updatedAt := now }

/-- The part of `enqueue` that writes: the record, then the list. -/
def storeJob (now : DateTime) (jobId : Uuid) (job : NewJob) : Cmds (Outcome Answer) := do
  hset jobId (jobEntity now jobId job)
  rpush (queueKey job.queue) jobId
  return .ok (.id jobId)

/-- `enqueue`, with the id and the clock reading it takes first. -/
def enqueue (jobId : Uuid) (now : DateTime) (job : NewJob) : Cmds (Outcome Answer) :=
  match job.idempotencyKey with
  | none => storeJob now jobId job
  | some key => do
      let claimed ← hsetnxIdempotency key jobId
      if claimed then storeJob now jobId job
      else
        match ← hgetIdempotency key with
        | some existing => return .ok (.id existing)
        | none => return .err "response was nil"

/-! ## `lease_jobs_batch` -/

/-- A job leased after its deadline. -/
def missedJob (now : DateTime) (job : Job) : Job :=
  { job with
    status := JobStatus.dlq.asStr
    dlqReasonCode := some "DEADLINE_EXCEEDED"
    dlqAt := some now
    updatedAt := now }

/-- A leased job. -/
def leasedJob (now lockExpiresAt : DateTime) (workerId : String) (job : Job) : Job :=
  { job with
    status := JobStatus.running.asStr
    lockedAt := some now
    lockedBy := some workerId
    lockExpiresAt := some lockExpiresAt
    updatedAt := now }

/-- The loop of `lease_jobs_batch`, `n` rounds from its end. -/
def leaseEach (queue workerId : String) (now lockExpiresAt : DateTime) :
    Nat → List Job → Cmds (Outcome Answer)
  | 0, leased => return .ok (.jobs leased)
  | n + 1, leased => do
      match ← lmove (queueKey queue) (processingKey queue workerId) with
      | none => return .ok (.jobs leased)
      | some jobId =>
          match ← hget jobId with
          | none => leaseEach queue workerId now lockExpiresAt n leased
          | some job =>
              if now < job.runAt then do
                -- not due yet: put back at the head
                lpush (queueKey queue) jobId
                lrem (processingKey queue workerId) jobId
                leaseEach queue workerId now lockExpiresAt n leased
              else if job.deadlineAt.any (fun deadline => decide (deadline < now)) then do
                hset jobId (missedJob now job)
                lrem (processingKey queue workerId) jobId
                leaseEach queue workerId now lockExpiresAt n leased
              else do
                hset jobId (leasedJob now lockExpiresAt workerId job)
                leaseEach queue workerId now lockExpiresAt n
                  (leased ++ [leasedJob now lockExpiresAt workerId job])

/-- `lease_jobs_batch`, where the records parse; `lease_jobs_batch_with_ordering` is this for every ordering. -/
def leaseJobsBatch (now : DateTime) (queue workerId : String) (leaseSeconds batchSize : Int) :
    Cmds (Outcome Answer) :=
  match Chrono.addSeconds now leaseSeconds with
  | none => return .panic
  | some lockExpiresAt => leaseEach queue workerId now lockExpiresAt (min (max batchSize 1) 100).toNat []

/-! ## `reap_expired_locks` -/

/-- `str::split(':')`. -/
def splitColon (s : String) : List String := (s.toList.splitOn ':').map String.ofList

/-- The list that the reaper moves the members of a processing list to: the third part of the key names the queue. -/
def reapTarget (procKey : String) : Option String :=
  let parts := splitColon procKey
  if parts.length < 4 then none else parts[2]?.map queueKey

/-- A job whose lock has expired, given back. -/
def requeuedJob (now : DateTime) (job : Job) : Job :=
  { job with
    status := JobStatus.queued.asStr
    lockedAt := none
    lockedBy := none
    lockExpiresAt := none
    updatedAt := now }

/-- The inner loop of `reap_expired_locks`, over the members that a processing list had. -/
def reapList (now : DateTime) (procKey target : String) : List Uuid → Nat → Cmds Nat
  | [], reaped => return reaped
  | jid :: rest, reaped => do
      match ← hget jid with
      | none => reapList now procKey target rest reaped
      | some job =>
          if job.lockExpiresAt.any (fun exp => decide (exp ≤ now)) then do
            hset jid (requeuedJob now job)
            lrem procKey jid
            rpush target jid
            reapList now procKey target rest (reaped + 1)
          else reapList now procKey target rest reaped

/-- The outer loop, over the keys. -/
def reapKeys (now : DateTime) : List String → Nat → Cmds (Outcome Answer)
  | [], reaped => return .ok (.count reaped)
  | procKey :: rest, reaped =>
      match reapTarget procKey with
      | none => reapKeys now rest reaped
      | some target => do
          let jobIds ← lrange procKey
          let reaped ← reapList now procKey target jobIds reaped
          reapKeys now rest reaped

/-- The order in which `KEYS` answers. -/
structure KeyOrder where
  arrange : List String → List String
  perm : ∀ keys, (arrange keys).Perm keys

/-- `reap_expired_locks`; `perform_maintenance` is this with the count dropped. -/
def reapExpiredLocks (order : KeyOrder) (now : DateTime) : Cmds (Outcome Answer) := do
  let keys ← keysProcessing
  reapKeys now (order.arrange keys) 0

/-! ## The calls of a lease holder -/

/-- A running job under the caller's lease. -/
def holdsLease (workerId : String) (job : Job) : Bool :=
  job.status == "running" && job.lockedBy == some workerId

theorem holdsLease_running {workerId : String} {job : Job} (h : holdsLease workerId job = true) :
    job.status = "running" := by
  simp only [holdsLease, Bool.and_eq_true, beq_iff_eq] at h
  exact h.1

/-- Reads a job and goes on with it if it is running under the caller's lease; `missing` and `refused` are what the
    call returns otherwise. -/
def withLease (jobId : Uuid) (workerId : String) (missing refused : Outcome Answer)
    (act : Job → Cmds (Outcome Answer)) : Cmds (Outcome Answer) := do
  match ← hget jobId with
  | none => return missing
  | some job => if holdsLease workerId job then act job else return refused

/-- The error of an acknowledgement whose caller has lost the job. -/
def illegalTransition (target : String) (jobId : Uuid) (workerId : String) : Outcome Answer :=
  .err (s!"illegal job state transition to {target} for job {showUuid jobId}: " ++
    s!"expected running lease held by {workerId}")

/-- `start_attempts_batch`, over the jobs and the attempt ids it makes for them. -/
def startAttemptsBatch (workerId : String) :
    List (Uuid × Uuid) → List (Uuid × Uuid × Int) → Cmds (Outcome Answer)
  | [], results => return .ok (.started results)
  | (jobId, attemptId) :: rest, results =>
      withLease jobId workerId (.err s!"job {showUuid jobId} not found")
        (.err (s!"cannot start attempt for job {showUuid jobId}: " ++
          s!"expected running lease held by {workerId}"))
        (fun _ => do
          let attemptNo ← incr jobId
          startAttemptsBatch workerId rest (results ++ [(jobId, attemptId, attemptNo)]))

/-- A job that succeeded. -/
def succeededJob (now : DateTime) (job : Job) : Job :=
  { job with
    status := JobStatus.succeeded.asStr
    lockedAt := none
    lockedBy := none
    lockExpiresAt := none
    updatedAt := now }

/-- `job.deadline_at.map(|deadline| deadline + interval)`; the outer `none` is the panic. -/
def shiftDeadline (interval : Int) : Option DateTime → Option (Option DateTime)
  | none => some none
  | some deadline => (Chrono.addSeconds deadline interval).map some

/-- The next occurrence of a recurring job that has just succeeded; `none` where `chrono` panics. -/
def nextOccurrence (now : DateTime) (nextId : Uuid) (job : Job) (interval : Int) : Option Job := do
  let runAt ← Chrono.addSeconds job.runAt (max interval 1)
  let deadlineAt ← shiftDeadline (max interval 1) job.deadlineAt
  return { job with
    id := nextId
    replayOfJobId := some job.id
    idempotencyKey := none
    runAt := runAt
    deadlineAt := deadlineAt
    status := JobStatus.queued.asStr
    lockedAt := none
    lockedBy := none
    lockExpiresAt := none
    dlqReasonCode := none
    dlqAt := none
    createdAt := now
    updatedAt := now }

/-- `job.recurring_interval_seconds.map(…)`; the outer `none` is the panic. -/
def nextJob (now : DateTime) (nextId : Uuid) (job : Job) : Option (Option Job) :=
  match job.recurringIntervalSeconds with
  | none => some none
  | some interval => (nextOccurrence now nextId job interval).map some

/-- The next occurrence waits in the same queue, under its own id. -/
theorem nextJob_spec {now : DateTime} {nextId : Uuid} {job next : Job} (h : nextJob now nextId job = some (some next)) :
    next.id = nextId ∧ next.queue = job.queue ∧ next.status = "queued" := by
  unfold nextJob at h
  split at h
  · cases h
  · obtain ⟨next', hnext, heq⟩ := Option.map_eq_some_iff.mp h
    obtain ⟨_, _, hrest⟩ := Option.bind_eq_some_iff.mp hnext
    obtain ⟨_, _, hjob⟩ := Option.bind_eq_some_iff.mp hrest
    cases heq
    cases hjob
    exact ⟨rfl, rfl, rfl⟩

/-- The end of `mark_succeeded`: the next occurrence is stored, if there is one. -/
def recur (nextId : Uuid) : Option Job → Cmds (Outcome Answer)
  | none => return .ok .unit
  | some next => do
      hset nextId next
      rpush (queueKey next.queue) nextId
      return .ok .unit

/-- `mark_succeeded`, with the clock it reads and the id it makes for the next occurrence. -/
def markSucceeded (nextId : Uuid) (now : DateTime) (jobId : Uuid) (workerId : String) : Cmds (Outcome Answer) :=
  withLease jobId workerId (.ok .unit) (illegalTransition "completed" jobId workerId) (fun job =>
    match nextJob now nextId (succeededJob now job) with
    | none => return .panic
    | some next => do
        hset jobId (succeededJob now job)
        lrem (processingKey job.queue workerId) jobId
        recur nextId next)

/-- A job that is to run again. -/
def retryJob (now nextRunAt : DateTime) (job : Job) : Job :=
  { job with
    status := JobStatus.queued.asStr
    runAt := nextRunAt
    lockedAt := none
    lockedBy := none
    lockExpiresAt := none
    updatedAt := now }

/-- `reschedule_for_retry`. -/
def rescheduleForRetry (now : DateTime) (jobId : Uuid) (workerId : String) (nextRunAt : DateTime) :
    Cmds (Outcome Answer) :=
  withLease jobId workerId (.ok .unit) (illegalTransition "retry_wait" jobId workerId) (fun job => do
    hset jobId (retryJob now nextRunAt job)
    lrem (processingKey job.queue workerId) jobId
    rpush (queueKey job.queue) jobId
    return .ok .unit)

/-- A job that `mark_dlq` gives up on. The lock stays on it. -/
def deadJob (dlqAt now : DateTime) (reasonCode : String) (job : Job) : Job :=
  { job with
    status := JobStatus.dlq.asStr
    dlqReasonCode := some reasonCode
    dlqAt := some dlqAt
    updatedAt := now }

/-- `mark_dlq`, which reads the clock twice. -/
def markDlq (dlqAt now : DateTime) (jobId : Uuid) (workerId reasonCode : String) : Cmds (Outcome Answer) :=
  withLease jobId workerId (.ok .unit) (illegalTransition "dlq" jobId workerId) (fun job => do
    hset jobId (deadJob dlqAt now reasonCode job)
    lrem (processingKey job.queue workerId) jobId
    return .ok .unit)

/-- A job whose lease goes on. -/
def extendedJob (now lockExpiresAt : DateTime) (job : Job) : Job :=
  { job with lockExpiresAt := some lockExpiresAt, updatedAt := now }

/-- `extend_lease`. -/
def extendLease (now : DateTime) (jobId : Uuid) (workerId : String) (leaseSeconds : Int) :
    Cmds (Outcome Answer) :=
  withLease jobId workerId (.ok (.bool false)) (.ok (.bool false)) (fun job =>
    match Chrono.addSeconds now leaseSeconds with
    | none => return .panic
    | some lockExpiresAt => do
        hset jobId (extendedJob now lockExpiresAt job)
        return .ok (.bool true))

/-! ## `cancel_job` -/

/-- A cancelled job. -/
def canceledJob (now : DateTime) (job : Job) : Job :=
  { job with
    status := JobStatus.cancelled.asStr
    lockedAt := none
    lockedBy := none
    lockExpiresAt := none
    updatedAt := now }

/-- The last command of `cancel_job`. -/
def cancelRecord (now : DateTime) (jobId : Uuid) (job : Job) : Cmds (Outcome Answer) := do
  hset jobId (canceledJob now job)
  return .ok .unit

/-- `cancel_job`, once it has read the job. A queued job's id stays where it is; a running job leaves the processing
    list before its record changes. -/
def cancelFound (now : DateTime) (jobId : Uuid) (workerId : Option String) (job : Job) : Cmds (Outcome Answer) :=
  match checkCancel jobId job.status job.lockedBy workerId with
  | .error e => return .err e
  | .ok _ =>
      if job.status = "running" then do
        lrem (processingKey job.queue (workerId.getD "")) jobId
        cancelRecord now jobId job
      else cancelRecord now jobId job

/-- `cancel_job`. -/
def cancelJob (now : DateTime) (jobId : Uuid) (workerId : Option String) : Cmds (Outcome Answer) := do
  match ← hget jobId with
  | none => return .err s!"job {showUuid jobId} not found"
  | some job => cancelFound now jobId workerId job

/-! ## The clients -/

/-- A call, with the clock readings and the new ids it is given. -/
inductive Call where
  | enqueue (jobId : Uuid) (now : DateTime) (job : NewJob)
  | leaseJobsBatch (now : DateTime) (queue workerId : String) (leaseSeconds batchSize : Int)
  | reapExpiredLocks (order : KeyOrder) (now : DateTime)
  | startAttemptsBatch (workerId : String) (jobs : List (Uuid × Uuid))
  | markSucceeded (nextId : Uuid) (now : DateTime) (jobId : Uuid) (workerId : String)
  | rescheduleForRetry (now : DateTime) (jobId : Uuid) (workerId : String) (nextRunAt : DateTime)
  | markDlq (dlqAt now : DateTime) (jobId : Uuid) (workerId reasonCode : String)
  | extendLease (now : DateTime) (jobId : Uuid) (workerId : String) (leaseSeconds : Int)
  | cancelJob (now : DateTime) (jobId : Uuid) (workerId : Option String)

/-- The commands that a call sends. -/
def Call.program : Call → Cmds (Outcome Answer)
  | .enqueue jobId now job => Redis.enqueue jobId now job
  | .leaseJobsBatch now queue workerId leaseSeconds batchSize =>
      Redis.leaseJobsBatch now queue workerId leaseSeconds batchSize
  | .reapExpiredLocks order now => Redis.reapExpiredLocks order now
  | .startAttemptsBatch workerId jobs => Redis.startAttemptsBatch workerId jobs []
  | .markSucceeded nextId now jobId workerId => Redis.markSucceeded nextId now jobId workerId
  | .rescheduleForRetry now jobId workerId nextRunAt => Redis.rescheduleForRetry now jobId workerId nextRunAt
  | .markDlq dlqAt now jobId workerId reasonCode => Redis.markDlq dlqAt now jobId workerId reasonCode
  | .extendLease now jobId workerId leaseSeconds => Redis.extendLease now jobId workerId leaseSeconds
  | .cancelJob now jobId workerId => Redis.cancelJob now jobId workerId

/-- The id a call makes with `Uuid::new_v4`, if it makes one for a job. -/
def Call.newId : Call → Option Uuid
  | .enqueue jobId _ _ => some jobId
  | .markSucceeded nextId _ _ _ => some nextId
  | _ => none

/-- The job that a call is asked to act on. -/
def Call.jobId : Call → Option Uuid
  | .markSucceeded _ _ jobId _ | .rescheduleForRetry _ jobId _ _ | .markDlq _ _ jobId _ _
  | .extendLease _ jobId _ _ | .cancelJob _ jobId _ => some jobId
  | _ => none

/-- The Redis server: every command is answered at once, and the end of a client changes nothing. -/
def server : Server Nat Command Command.Reply (Outcome Answer) Store where
  exec _ c s := some (c.exec s)
  close _ _ s := s
  abandon _ s := s

/-- Any number of clients, each in one call at a time. -/
abbrev RedisPool := Pool Nat Call Command Command.Reply (Outcome Answer) Store

/-- `Uuid::new_v4` makes ids that nothing else has: no record, no other call that is running, and not the job that the
    call is about. -/
def NewIds (s : RedisPool) (move : Move Nat Call) (_ : RedisPool) : Prop :=
  ∀ i call id, move = .start i call → call.newId = some id →
    s.store.jobs id = none ∧ call.jobId ≠ some id ∧
      ∀ j call' p, s.client j = some (call', p) → call'.newId ≠ some id

/-- The clients and their server, from a server with nothing in it. -/
def redisSystem : System RedisPool (Move Nat Call) :=
  (Pool.system server Call.program (fun s => s = Store.empty)).restrict NewIds

/-- What a client's next command does to the pool. -/
theorem next_exec {s s' : RedisPool} {i : Nat} (h : s.next server Call.program (.exec i) = some s') :
    ∃ call c k, s.client i = some (call, .call c k) ∧
      s' = s.put i (some (call, k (c.exec s.store).1)) (c.exec s.store).2 := by
  obtain ⟨call, c, k, r, σ', hi, hexec, hs'⟩ := Pool.next_exec h
  have heq : c.exec s.store = (r, σ') := Option.some.inj hexec
  refine ⟨call, c, k, hi, ?_⟩
  rw [heq]
  exact hs'

/-- The move does not start a call that makes an id. -/
def makesNoId : Move Nat Call → Bool
  | .start _ call => call.newId.isNone
  | _ => true

/-- A run that can be computed, and in which no call makes an id, is a run of the system. -/
theorem reachable_moves {s s' : RedisPool} (moves : List (Move Nat Call)) (hs : redisSystem.Reachable s)
    (hnew : moves.all makesNoId = true) (h : s.run server Call.program moves = some s') :
    redisSystem.Reachable s' := by
  induction moves generalizing s with
  | nil =>
      cases h
      exact hs
  | cons move rest ih =>
      obtain ⟨s₁, hnext, hrest⟩ := Option.bind_eq_some_iff.mp h
      obtain ⟨hmove, hnew⟩ := Bool.and_eq_true_iff.mp (List.all_cons.symm.trans hnew)
      refine ih (hs.next (i := move) ⟨hnext, ?_⟩) hnew hrest
      rintro i call id rfl hid
      rw [makesNoId, hid] at hmove
      cases hmove

/-! ### The first job of a server -/

def email : NewJob :=
  { queue := "emails", jobType := "welcome", payloadJson := "{}", idempotencyKey := none, runAt := 0,
    deadlineAt := none, timeoutSeconds := none, recurringIntervalSeconds := none, priority := 0, maxAttempts := 3 }

/-- No client runs yet, and the server is empty. -/
def idlePool : RedisPool := { store := .empty, client := fun _ => none }

/-- On an empty server every id is new. -/
theorem email_newIds (s' : RedisPool) : NewIds idlePool (.start 0 (.enqueue 1 0 email)) s' := by
  intro i call id hmove hid
  cases hmove
  cases hid
  exact ⟨rfl, fun h => (by cases h), fun j call' p hj => (by cases hj)⟩

end Azums.Redis
