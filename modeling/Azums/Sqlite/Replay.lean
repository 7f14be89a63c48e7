import Azums.Lib.Insert
import Azums.Sqlite.Enqueue

/-!
# `Sqlite.Replay` — the `INSERT` statements on `jobs`, and `replay_job`

Three operations insert jobs with a list of columns and a list of values of their own: `enqueue`, `enqueue_in_tx` and
`replay_job`. The statements are here as they are written (`Lib.Insert`), with what each of them binds. The first two
make the rows that `Sqlite.Backend` and `Sqlite.Enqueue` say (`enqueueInTxInsert_row`, `enqueueInsert_row`).

The third names fifteen columns and gives twelve values: no database prepares it, so `replay_job` fails for every job
(`replay_never`).
-/

namespace Azums.Sqlite

variable {texts : Texts} {db : Db} {clock now : DateTime} {newId jobId : Uuid} {job : NewJob} {src : Job}
  {overrideQueue : Option String} {overrideRunAt : Option DateTime}

/-! ## Columns and values -/

/-- The columns of `jobs`. -/
inductive JobColumn where
  | id
  | datasetId
  | replayOfJobId
  | idempotencyKey
  | queue
  | jobType
  | payloadJson
  | runAt
  | deadlineAt
  | timeoutSeconds
  | recurringIntervalSeconds
  | status
  | priority
  | maxAttempts
  | lockedAt
  | lockedBy
  | lockExpiresAt
  | dlqReasonCode
  | dlqAt
  | createdAt
  | updatedAt
deriving DecidableEq

/-- A value that is bound or stored. -/
inductive SqlValue where
  | null
  | blob (id : Uuid)
  | text (s : String)
  | integer (n : Int)
  | time (t : DateTime)
deriving DecidableEq

namespace SqlValue

/-- An `Option` binds as `NULL` where it is `None`. -/
def ofOption {α : Type} (f : α → SqlValue) : Option α → SqlValue
  | none => null
  | some a => f a

def toId : SqlValue → Option Uuid
  | blob id => some id
  | _ => none

def toText : SqlValue → Option String
  | text s => some s
  | _ => none

def toInteger : SqlValue → Option Int
  | integer n => some n
  | _ => none

def toTime : SqlValue → Option DateTime
  | time t => some t
  | _ => none

/-- A column that may be `NULL`. -/
def nullable {α : Type} (f : SqlValue → Option α) : SqlValue → Option (Option α)
  | null => some none
  | v => (f v).map some

end SqlValue

open SqlValue

/-- The `DEFAULT` of a column. -/
def columnDefault : JobColumn → SqlValue
  | .datasetId => text "default"
  | .queue => text "default"
  | .payloadJson => text "{}"
  | .status => text "queued"
  | .priority => integer 0
  | .maxAttempts => integer 25
  | _ => null

/-- The row of the values; `none` where a column that is `NOT NULL` has no value. -/
def rowOf (v : JobColumn → SqlValue) : Option Job := do
  return {
    datasetId := ← toText (v .datasetId)
    replayOfJobId := ← nullable toId (v .replayOfJobId)
    idempotencyKey := ← nullable toText (v .idempotencyKey)
    id := ← toId (v .id)
    queue := ← toText (v .queue)
    jobType := ← toText (v .jobType)
    payload := ← toText (v .payloadJson)
    runAt := ← toTime (v .runAt)
    deadlineAt := ← nullable toTime (v .deadlineAt)
    timeoutSeconds := ← nullable toInteger (v .timeoutSeconds)
    recurringIntervalSeconds := ← nullable toInteger (v .recurringIntervalSeconds)
    status := ← toText (v .status)
    priority := ← toInteger (v .priority)
    maxAttempts := ← toInteger (v .maxAttempts)
    lockedAt := ← nullable toTime (v .lockedAt)
    lockedBy := ← nullable toText (v .lockedBy)
    lockExpiresAt := ← nullable toTime (v .lockExpiresAt)
    dlqReasonCode := ← nullable toText (v .dlqReasonCode)
    dlqAt := ← nullable toTime (v .dlqAt)
    createdAt := ← toTime (v .createdAt)
    updatedAt := ← toTime (v .updatedAt) }

/-- The row that a statement makes of its parameters. -/
def insertedRow (stmt : InsertInto JobColumn SqlValue) (params : List SqlValue) : Except String Job :=
  match stmt.prepare null params with
  | .error message => .error message
  | .ok given =>
      match rowOf (fun column => (given column).getD (columnDefault column)) with
      | none => .error "NOT NULL constraint failed"
      | some row => .ok row

/-- `execute`, for a statement without `ON CONFLICT`. -/
def execute (db : Db) (stmt : InsertInto JobColumn SqlValue) (params : List SqlValue) : Outcome Unit × Db :=
  match insertedRow stmt params with
  | .error message => (.err message, db)
  | .ok row =>
      match insertJob db row with
      | none => (.err "UNIQUE constraint failed: jobs.id", db)
      | some db => (.ok (), db)

/-! ## The statements -/

/-- The `INSERT` of `enqueue_in_tx`. -/
def enqueueInTxInsert : InsertInto JobColumn SqlValue :=
  { columns := [.id, .datasetId, .replayOfJobId, .idempotencyKey, .queue, .jobType, .payloadJson,
      .runAt, .deadlineAt, .timeoutSeconds, .recurringIntervalSeconds,
      .status, .priority, .maxAttempts,
      .createdAt, .updatedAt]
    values := [none, text "default", null, none, none, none, none, none, none, none, none, text "queued", none, none,
      none, none] }

/-- What it binds. -/
def enqueueInTxParams (now : DateTime) (jobId : Uuid) (job : NewJob) : List SqlValue :=
  [blob jobId, ofOption text job.idempotencyKey, text job.queue, text job.jobType, text job.payloadJson,
    time job.runAt, ofOption time job.deadlineAt, ofOption integer job.timeoutSeconds,
    ofOption integer job.recurringIntervalSeconds, integer job.priority, integer job.maxAttempts, time now, time now]

/-- The `INSERT` of `enqueue`. -/
def enqueueInsert : InsertInto JobColumn SqlValue :=
  { columns := [.id, .datasetId, .replayOfJobId, .idempotencyKey, .queue, .jobType, .payloadJson,
      .runAt, .status, .priority, .maxAttempts,
      .createdAt, .updatedAt]
    values := [none, text "default", null, none, none, none, none, none, text "queued", none, none, none, none] }

/-- What it binds. -/
def enqueueParams (now : DateTime) (jobId : Uuid) (job : NewJob) : List SqlValue :=
  [blob jobId, ofOption text job.idempotencyKey, text job.queue, text job.jobType, text job.payloadJson,
    time job.runAt, integer job.priority, integer job.maxAttempts, time now, time now]

/-- The `INSERT` of `replay_job`. -/
def replayInsert : InsertInto JobColumn SqlValue :=
  { columns := [.id, .datasetId, .replayOfJobId, .queue, .jobType,
      .payloadJson, .runAt, .deadlineAt, .timeoutSeconds, .recurringIntervalSeconds, .status, .priority, .maxAttempts,
      .createdAt, .updatedAt]
    values := [none, text "default", none, none, none, none, none, text "queued", none, none, none, none] }

/-- What it binds. -/
def replayParams (clock now : DateTime) (newId jobId : Uuid) (src : Job) (overrideQueue : Option String)
    (overrideRunAt : Option DateTime) : List SqlValue :=
  [blob newId, blob jobId, text (overrideQueue.getD src.queue), text src.jobType, text src.payload,
    time (overrideRunAt.getD clock), integer src.priority, integer src.maxAttempts, time now, time now]

/-- The statement of `enqueue_in_tx` makes the row of a new job. -/
theorem enqueueInTxInsert_row :
    insertedRow enqueueInTxInsert (enqueueInTxParams now jobId job) = .ok (newRow now jobId job) := by
  obtain ⟨queue, jobType, payloadJson, key, runAt, deadline, timeout, interval, priority, maxAttempts⟩ := job
  cases key <;> cases deadline <;> cases timeout <;> cases interval <;> rfl

/-- The statement of `enqueue` makes the row without the three columns it does not name. -/
theorem enqueueInsert_row :
    insertedRow enqueueInsert (enqueueParams now jobId job) = .ok (enqueuedRow now jobId job) := by
  obtain ⟨queue, jobType, payloadJson, key, runAt, deadline, timeout, interval, priority, maxAttempts⟩ := job
  cases key <;> rfl

/-! ## Replay -/

/-- `replay_job`. It reads the clock twice: `clock` where no `run_at` is given, and `now` for the timestamps. -/
def replayJob (texts : Texts) (db : Db) (clock now : DateTime) (newId jobId : Uuid) (overrideQueue : Option String)
    (overrideRunAt : Option DateTime) : Outcome Uuid × Db :=
  transaction db (
    match db.jobs.lookup (·.id) jobId with
    | none => (.err "no rows returned by a query that expected to return at least one row", db)
    | some row =>
        match texts.readRow row with
        | .error message => (.err message, db)
        | .ok src =>
            match execute db replayInsert (replayParams clock now newId jobId src overrideQueue overrideRunAt) with
            | (.ok (), db) => (.ok newId, db)
            | (.err message, db) => (.err message, db)
            | (.panic, db) => (.panic, db))

/-- What the copy of a job is to be. -/
structure CopyOf (clock : DateTime) (newId : Uuid) (src : Job) (overrideQueue : Option String)
    (overrideRunAt : Option DateTime) (row : Job) : Prop where
  id : row.id = newId
  status : row.status = "queued"
  replayOfJobId : row.replayOfJobId = some src.id
  idempotencyKey : row.idempotencyKey = none
  queue : row.queue = overrideQueue.getD src.queue
  runAt : row.runAt = overrideRunAt.getD clock
  jobType : row.jobType = src.jobType
  payload : row.payload = src.payload
  deadlineAt : row.deadlineAt = src.deadlineAt
  timeoutSeconds : row.timeoutSeconds = src.timeoutSeconds
  recurringIntervalSeconds : row.recurringIntervalSeconds = src.recurringIntervalSeconds
  priority : row.priority = src.priority
  maxAttempts : row.maxAttempts = src.maxAttempts

/-- The call has returned the new id, has inserted the copy and nothing else, and has left the source alone. -/
structure Replayed (db : Db) (clock : DateTime) (newId : Uuid) (src : Job) (overrideQueue : Option String)
    (overrideRunAt : Option DateTime) (result : Outcome Uuid × Db) : Prop where
  returned : result.1 = .ok newId
  inserted : ∃ row, result.2.jobs.rows = db.jobs.rows ++ [row] ∧
    CopyOf clock newId src overrideQueue overrideRunAt row
  source : result.2.jobs.lookup (·.id) src.id = some src

/-- The statement is not accepted, whatever is bound. -/
theorem replayInsert_rejected (db : Db) (params : List SqlValue) :
    execute db replayInsert params = (.err "12 values for 15 columns", db) := by
  have hprep : replayInsert.prepare null params = .error _ := InsertInto.prepare_unbalanced (by decide) null params
  simp only [execute, insertedRow, hprep]
  rfl

/-- **`replay_job` never replays.** For every stored job and all overrides it returns an error and changes nothing. The
    error is that of the statement, unless the payload of the source does not even decode. -/
theorem replay_never (hsrc : src ∈ db.jobs.rows) (clock now : DateTime) (newId : Uuid) (overrideQueue : Option String)
    (overrideRunAt : Option DateTime) :
    (∃ message, replayJob texts db clock now newId src.id overrideQueue overrideRunAt = (.err message, db)) ∧
      (∀ job, texts.readRow src = .ok job →
        replayJob texts db clock now newId src.id overrideQueue overrideRunAt =
          (.err "12 values for 15 columns", db)) ∧
      ¬Replayed db clock newId src overrideQueue overrideRunAt
        (replayJob texts db clock now newId src.id overrideQueue overrideRunAt) := by
  have hfound : db.jobs.lookup (·.id) src.id = some src := Table.lookup_of_mem (jobIds db) hsrc
  have hrun : ∃ message, replayJob texts db clock now newId src.id overrideQueue overrideRunAt =
      (.err message, db) := by
    cases hread : texts.readRow src with
    | error message => exact ⟨message, by simp only [replayJob, hfound, hread, transaction]⟩
    | ok job =>
        exact ⟨"12 values for 15 columns", by
          simp only [replayJob, hfound, hread, replayInsert_rejected, transaction]⟩
  refine ⟨hrun, fun job hread => ?_, fun h => ?_⟩
  · simp only [replayJob, hfound, hread, replayInsert_rejected, transaction]
  · obtain ⟨message, hmessage⟩ := hrun
    have hok := h.returned
    rw [hmessage] at hok
    cases hok

/-- A database with one job. -/
def oneResize : Db := (enqueueInTx Db.empty 0 1 resize).2

theorem oneResize_stored : newRow 0 1 resize ∈ oneResize.jobs.rows := List.mem_singleton.mpr rfl

/-- The law on that database, with another queue. -/
theorem replay_never_resize : replayJob .plain oneResize 9 9 2 1 (some "again") none =
    (.err "12 values for 15 columns", oneResize) :=
  (replay_never oneResize_stored 9 9 2 (some "again") none).2.1 _ rfl

/-- A replay without overrides fails. -/
theorem replay_fails : getJob .plain oneResize 1 = .ok (some (newRow 0 1 resize)) ∧
    (replayJob .plain oneResize 9 9 2 1 none none).1 = .err "12 values for 15 columns" ∧
    ¬Replayed oneResize 9 2 (newRow 0 1 resize) none none (replayJob .plain oneResize 9 9 2 1 none none) := by
  refine ⟨by decide, by decide, fun h => ?_⟩
  have hok := h.returned
  revert hok
  decide

end Azums.Sqlite
