import Azums.Jobs.Retry
import Azums.Memory.Backend

/-!
# `Quickstart.ProcessBatch` — the worker loop of `QuickstartFlow`

`process_batch`, `handle_failure` and `run_until_empty` over the memory backend. A handler is code of the user,
and other tasks run while it does, so a job's `JobEnv` carries what the surroundings decide: how the handler's
task ends and whether the timeout comes first, the clocks and ids its calls draw, and `meanwhile`, what the
heartbeat and everyone else do to the backend before the outcome is recorded.
-/

namespace Azums.Quickstart

open Azums.Jobs Azums.Memory
open Function (update)

/-- How the task that runs a handler ends: with the handler's result, or with a join error. -/
inductive TaskEnd where
  | ok
  | err (message : String)
  | panic (message : String)
  | aborted (message : String)
deriving DecidableEq

/-- What the surroundings decide while one job of a batch is processed. -/
structure JobEnv where
  attemptId : Uuid
  meanwhile : InnerState → InnerState
  timedOut : Bool
  taskEnd : TaskEnd
  latencyMs : Int
  now : DateTime
  clock : DateTime
  delaySecs : Int
  newId : Uuid

/-- The fields of `QuickstartFlow` that the loop reads; of the handlers, which job types have one. -/
structure Flow where
  queue : String
  workerId : String
  leaseSeconds : Int
  ordering : QueueOrdering
  handlers : String → Bool

/-! ## One job -/

/-- `handle_failure`. `env.delaySecs` is what `next_delay_seconds` returns; where that panics instead, at attempt 64, a
    delay that `chrono` cannot add stands for it. -/
def handleFailure (flow : Flow) (env : JobEnv) (s : InnerState) (jobId attemptId : Uuid)
    (errorCode errorMessage : String) (attemptNo maxAttempts : Int) : Outcome Unit × InnerState :=
  if canRetry errorCode attemptNo maxAttempts then
    match Chrono.addSeconds env.clock env.delaySecs with
    | none => (.panic, s)
    | some nextRunAt =>
        rescheduleForRetry s env.now jobId attemptId flow.workerId env.latencyMs nextRunAt errorCode errorMessage
  else
    markDlq s env.now jobId attemptId flow.workerId env.latencyMs (classifyError errorCode).dlqReasonCode
      errorCode errorMessage

/-- `err_str.starts_with("PANIC: ")`. -/
def startsWithPanic : List Char → Bool
  | 'P' :: 'A' :: 'N' :: 'I' :: 'C' :: ':' :: ' ' :: _ => true
  | _ => false

/-- `err_str.trim_start_matches("PANIC: ")`: the prefix goes as often as it occurs. -/
def trimPanic : List Char → List Char
  | 'P' :: 'A' :: 'N' :: 'I' :: 'C' :: ':' :: ' ' :: rest => trimPanic rest
  | s => s

/-- The sleep of `timeout_seconds` wins the `select!`. -/
def timesOut (flow : Flow) (env : JobEnv) (job : Job) : Bool :=
  flow.handlers job.jobType && job.timeoutSeconds.isSome && env.timedOut

/-- `res_outcome`: the handler's result, with join errors and a missing handler turned into messages. -/
def resOutcome (flow : Flow) (env : JobEnv) (job : Job) : Except String Unit :=
  if flow.handlers job.jobType then
    match env.taskEnd with
    | .ok => .ok ()
    | .err message => .error message
    | .panic message => .error s!"PANIC: {message}"
    | .aborted message => .error s!"task join error: {message}"
  else .error s!"no handler registered for job_type={job.jobType}"

/-- The second half of the loop's body: the outcome goes to the backend. -/
def recordOutcome (flow : Flow) (env : JobEnv) (s : InnerState) (job : Job) (attemptId : Uuid)
    (attemptNo : Int) : Outcome Unit × InnerState :=
  match resOutcome flow env job with
  | .ok () => markSucceeded s env.now env.newId job.id attemptId flow.workerId env.latencyMs
  | .error errStr =>
      if startsWithPanic errStr.toList then
        markDlq s env.now job.id attemptId flow.workerId env.latencyMs "PANIC" "PANIC"
          (String.ofList (trimPanic errStr.toList))
      else
        let (errCode, errMsg) :=
          if flow.handlers job.jobType then parseHandlerError errStr else ("UNKNOWN_JOB_TYPE", errStr)
        handleFailure flow env s job.id attemptId errCode errMsg attemptNo job.maxAttempts

/-- What the timeout branch does with a job. -/
def recordTimeout (flow : Flow) (env : JobEnv) (s : InnerState) (job : Job) (attemptId : Uuid)
    (attemptNo : Int) : Outcome Unit × InnerState :=
  handleFailure flow env s job.id attemptId "TIMEOUT" "job attempt exceeded timeout_seconds" attemptNo
    job.maxAttempts

/-! ## The batch -/

/-- `attempts_map`: the started attempts by job. -/
def attemptsMap (started : List (Uuid × Uuid × Int)) : Uuid → Option (Uuid × Int) :=
  started.foldl (fun m (jobId, attemptId, attemptNo) => update m jobId (some (attemptId, attemptNo))) (fun _ => none)

/-- The loop of `process_batch`. -/
def processJobs (flow : Flow) (env : Uuid → JobEnv) :
    List Job → (Uuid → Option (Uuid × Int)) → InnerState → Outcome Unit × InnerState
  | [], _, s => (.ok (), s)
  | job :: rest, attempts, s =>
      match attempts job.id with
      | none => processJobs flow env rest attempts s
      | some (attemptId, attemptNo) =>
          let attempts := update attempts job.id none
          let s := (env job.id).meanwhile s
          if timesOut flow (env job.id) job then
            -- this branch returns from `process_batch`, with the rest of the batch unprocessed
            recordTimeout flow (env job.id) s job attemptId attemptNo
          else
            match recordOutcome flow (env job.id) s job attemptId attemptNo with
            | (.ok (), s) => processJobs flow env rest attempts s
            | (.err message, s) => (.err message, s)
            | (.panic, s) => (.panic, s)

/-- What the surroundings decide while a batch is processed. -/
structure BatchEnv where
  beforeStart : InnerState → InnerState
  startNow : DateTime
  job : Uuid → JobEnv

/-- `start_attempts_batch` over the batch. -/
def startBatch (flow : Flow) (env : BatchEnv) (batch : List Job) (s : InnerState) :
    Outcome (List (Uuid × Uuid × Int)) × InnerState :=
  startAttemptsBatch (env.beforeStart s) env.startNow (batch.map (fun job => (job.id, (env.job job.id).attemptId)))
    flow.workerId

/-- `process_batch`. -/
def processBatch (flow : Flow) (env : BatchEnv) (batch : List Job) (s : InnerState) : Outcome Unit × InnerState :=
  match startBatch flow env batch s with
  | (.ok started, s) => processJobs flow env.job batch (attemptsMap started) s
  | (.err message, s) => (.err message, s)
  | (.panic, s) => (.panic, s)

/-! ## Until the queue is empty -/

/-- What the surroundings decide in one round of `run_until_empty`. -/
structure RoundEnv where
  beforeLease : InnerState → InnerState
  leaseNow : DateTime
  batch : BatchEnv

/-- The lease of a round. -/
def leaseRound (flow : Flow) (round : RoundEnv) (s : InnerState) : Outcome (List Job) × InnerState :=
  leaseJobsBatchWithOrdering (round.beforeLease s) round.leaseNow flow.queue flow.workerId flow.leaseSeconds 32
    flow.ordering

/-- `run_until_empty` for as many rounds as the list has; `none` if the queue was not empty by then. -/
def runUntilEmpty (flow : Flow) : List RoundEnv → InnerState → Nat → Option (Outcome Nat × InnerState)
  | [], _, _ => none
  | round :: rest, s, totalProcessed =>
      match leaseRound flow round s with
      | (.ok batch, s) =>
          if batch.isEmpty then some (.ok totalProcessed, s)
          else
            match processBatch flow round.batch batch s with
            | (.ok (), s) => runUntilEmpty flow rest s (totalProcessed + batch.length)
            | (.err message, s) => some (.err message, s)
            | (.panic, s) => some (.panic, s)
      | (.err message, s) => some (.err message, s)
      | (.panic, s) => some (.panic, s)

end Azums.Quickstart
