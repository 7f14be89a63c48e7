import Azums.Core.Time

/-!
# `Core.Model` — jobs, events and the outcome of a backend call

The records of `azums_core::model`, field by field under the source's names. `status` stays the string the
backends store: which strings can occur is a theorem about each backend, not a fact of the type. A job's
JSON payload is carried as its text (`Value`); no backend looks inside it.
-/

namespace Azums

/-- `uuid::Uuid`: a 128-bit number; `Ord` on UUIDs is the order of these numbers. -/
abbrev Uuid := Nat

/-- The hyphenated lower-case form that `Display` prints. -/
def showUuid (id : Uuid) : String :=
  let digits := Nat.toDigits 16 id
  let hex := List.replicate (32 - digits.length) '0' ++ digits
  String.ofList (hex.take 8 ++ '-' :: (hex.drop 8).take 4 ++ '-' :: (hex.drop 12).take 4
    ++ '-' :: (hex.drop 16).take 4 ++ '-' :: hex.drop 20)

/-- `serde_json::Value`, as a text for it. What becomes of a value that a backend writes as JSON and parses again is said
    where the backend does so. -/
abbrev Value := String

/-- `QueueOrdering`. -/
inductive QueueOrdering where
  | fifo
  | fastest
deriving DecidableEq

/-- `JobStatus`, the aliases `Succeeded` and `Canceled` included. -/
inductive JobStatus where
  | queued
  | running
  | completed
  | succeeded
  | failed
  | dlq
  | cancelled
  | canceled
deriving DecidableEq

/-- The string a backend stores for a status. -/
@[simp] def JobStatus.asStr : JobStatus → String
  | .queued => "queued"
  | .running => "running"
  | .completed | .succeeded => "succeeded"
  | .failed => "failed"
  | .dlq => "dlq"
  | .cancelled | .canceled => "canceled"

/-- `Job`: the stored unit of work. -/
structure Job where
  datasetId : String
  replayOfJobId : Option Uuid
  idempotencyKey : Option String
  id : Uuid
  queue : String
  jobType : String
  payload : Value
  runAt : DateTime
  deadlineAt : Option DateTime
  timeoutSeconds : Option Int
  recurringIntervalSeconds : Option Int
  status : String
  priority : Int
  maxAttempts : Int
  lockedAt : Option DateTime
  lockedBy : Option String
  lockExpiresAt : Option DateTime
  dlqReasonCode : Option String
  dlqAt : Option DateTime
  createdAt : DateTime
  updatedAt : DateTime
deriving DecidableEq

/-- `NewJob`: what a producer asks to enqueue. -/
structure NewJob where
  queue : String
  jobType : String
  payloadJson : Value
  idempotencyKey : Option String
  runAt : DateTime
  deadlineAt : Option DateTime
  timeoutSeconds : Option Int
  recurringIntervalSeconds : Option Int
  priority : Int
  maxAttempts : Int
deriving DecidableEq

/-- `impl From<Job> for NewJob`: the request that a stored job carries. -/
def Job.toNewJob (job : Job) : NewJob :=
  { queue := job.queue
    jobType := job.jobType
    payloadJson := job.payload
    idempotencyKey := job.idempotencyKey
    runAt := job.runAt
    deadlineAt := job.deadlineAt
    timeoutSeconds := job.timeoutSeconds
    recurringIntervalSeconds := job.recurringIntervalSeconds
    priority := job.priority
    maxAttempts := job.maxAttempts }

/-- A status no later operation may leave: the strings for which `cancel_job` says `terminal`. -/
def Terminal (status : String) : Prop :=
  status = "succeeded" ∨ status = "dlq" ∨ status = "canceled"

instance (status : String) : Decidable (Terminal status) := inferInstanceAs (Decidable (_ ∨ _ ∨ _))

/-- The check of every backend's `cancel_job`, on the status and the lock owner it has read. -/
def checkCancel (jobId : Uuid) (status : String) (lockedBy workerId : Option String) :
    Except String Unit :=
  if status = "queued" then .ok ()
  else if status = "running" then
    match workerId with
    | none => .error s!"cannot cancel running job {showUuid jobId}: worker identity is required"
    | some w =>
        if lockedBy ≠ some w then
          .error (s!"illegal job state transition to cancelled for job {showUuid jobId}: " ++
            s!"expected running lease held by {w}")
        else .ok ()
  else if Terminal status then .error s!"cannot cancel terminal job {showUuid jobId}: status={status}"
  else .error s!"cannot cancel job {showUuid jobId}: invalid status={status}"

/-- What a worker may cancel: queued work, and running work under its own lease. -/
def Cancellable (workerId : Option String) (status : String) (lockedBy : Option String) : Prop :=
  status = "queued" ∨ (status = "running" ∧ ∃ w, workerId = some w ∧ lockedBy = some w)

/-- Work that may be cancelled has not reached a terminal status. -/
theorem Cancellable.not_terminal {status : String} {lockedBy workerId : Option String}
    (h : Cancellable workerId status lockedBy) : ¬Terminal status := by
  rcases h with rfl | ⟨rfl, _⟩ <;> decide

theorem checkCancel_ok {jobId : Uuid} {status : String} {lockedBy workerId : Option String}
    (h : checkCancel jobId status lockedBy workerId = .ok ()) : Cancellable workerId status lockedBy := by
  unfold checkCancel at h
  split at h
  · rename_i hq; exact Or.inl hq
  · split at h
    · rename_i hr
      cases workerId with
      | none => cases h
      | some w =>
          simp only at h
          split at h
          · cases h
          · rename_i hby
            exact Or.inr ⟨hr, w, rfl, not_ne_iff.mp hby⟩
    · split at h <;> cases h

/-- `Event`: an entry of a stream's log. -/
structure Event where
  sequenceNo : Int
  streamName : String
  eventType : String
  payloadJson : Value
  createdAt : DateTime
deriving DecidableEq

/-- `NewEvent`: what a publisher hands in. -/
structure NewEvent where
  eventType : String
  payloadJson : Value
deriving DecidableEq

/-- `ConsumerGroupStatus`: a group's offset on a stream. -/
structure ConsumerGroupStatus where
  consumerGroup : String
  streamName : String
  lastAckedSeq : Int
  updatedAt : DateTime
deriving DecidableEq

/-- `n + 1` on an `i32`; `none` is the panic of the overflow check. -/
def succI32 (n : Int) : Option Int := if n < 2147483647 then some (n + 1) else none

/-- What a backend call gives its caller: a value, an `anyhow` error with its text, or a panic. -/
inductive Outcome (α : Type) where
  | ok (a : α)
  | err (message : String)
  | panic
deriving DecidableEq

/-- The text of an error. -/
def Outcome.error {α : Type} : Outcome α → Option String
  | .err message => some message
  | .ok _ | .panic => none

end Azums
