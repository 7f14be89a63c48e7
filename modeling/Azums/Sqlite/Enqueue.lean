import Azums.Sqlite.Rows

/-!
# `Sqlite.Enqueue` — what the two ways to enqueue store

`SqliteBackend` enqueues through `enqueue` and, within a caller's transaction, through `enqueue_in_tx`. Each has its own
`INSERT`, with its own list of columns and of values. The list of `enqueue` lacks three columns: the deadline, the
timeout and the interval of recurrence stay `NULL`, whatever the caller asked for.

`enqueue_eq_enqueueInTx` says so once for all databases: `enqueue` is `enqueue_in_tx` of the job without the three.
`enqueue_lossless_iff` says for which jobs this makes no difference. Either way the payload goes through its text, and
has to come back.
-/

namespace Azums.Sqlite

variable {texts : Texts} {db : Db} {now : DateTime} {jobId : Uuid} {job : NewJob}

/-! ## The operations -/

/-- The row that the `INSERT` of `enqueue` makes. It names neither `deadline_at` nor `timeout_seconds` nor
    `recurring_interval_seconds`, and none of them has a default. -/
def enqueuedRow (now : DateTime) (jobId : Uuid) (job : NewJob) : Job :=
  { datasetId := "default"
    replayOfJobId := none
    idempotencyKey := job.idempotencyKey
    id := jobId
    queue := job.queue
    jobType := job.jobType
    payload := job.payloadJson
    runAt := job.runAt
    deadlineAt := none
    timeoutSeconds := none
    recurringIntervalSeconds := none
    status := "queued"
    priority := job.priority
    maxAttempts := job.maxAttempts
    lockedAt := none
    lockedBy := none
    lockExpiresAt := none
    dlqReasonCode := none
    dlqAt := none
    createdAt := now
    updatedAt := now }

/-- `enqueue`. -/
def enqueue (db : Db) (now : DateTime) (jobId : Uuid) (job : NewJob) : Outcome Uuid × Db :=
  match job.idempotencyKey.bind (fun key => db.jobs.rows.find? (fun r => r.idempotencyKey == some key)) with
  | some existing => (.ok existing.id, db)
  | none =>
      match insertJob db (enqueuedRow now jobId job) with
      | some db' => (.ok jobId, db')
      | none => (.err "UNIQUE constraint failed: jobs.id", db)

/-- `get_job`. -/
def getJob (texts : Texts) (db : Db) (jobId : Uuid) : Outcome (Option Job) :=
  match db.jobs.lookup (·.id) jobId with
  | none => .ok none
  | some r =>
      match texts.readRow r with
      | .error message => .err message
      | .ok job => .ok (some job)

/-! ## What is stored -/

/-- A job without what `enqueue` drops. -/
def undated (job : NewJob) : NewJob :=
  { job with deadlineAt := none, timeoutSeconds := none, recurringIntervalSeconds := none }

/-- **`enqueue` is `enqueue_in_tx` of the job without its deadline, timeout and interval.** -/
theorem enqueue_eq_enqueueInTx : enqueue db now jobId job = enqueueInTx db now jobId (undated job) := rfl

theorem undated_eq_self :
    undated job = job ↔
      job.deadlineAt = none ∧ job.timeoutSeconds = none ∧ job.recurringIntervalSeconds = none := by
  cases job
  simp [undated, eq_comm]

/-- The job's idempotency key, if it has one, is not taken. -/
def KeyFree (db : Db) (job : NewJob) : Prop :=
  ∀ key, job.idempotencyKey = some key → ∀ r ∈ db.jobs.rows, r.idempotencyKey ≠ some key

/-- With a free key and a new id, `enqueue_in_tx` stores the new row, and returns its id. -/
theorem enqueueInTx_stores (now : DateTime) (hid : db.jobs.lookup (·.id) jobId = none) (hkey : KeyFree db job) :
    (enqueueInTx db now jobId job).1 = .ok jobId ∧
      (enqueueInTx db now jobId job).2.jobs.lookup (·.id) jobId = some (newRow now jobId job) := by
  have hnone : job.idempotencyKey.bind
      (fun key => db.jobs.rows.find? (fun r => r.idempotencyKey == some key)) = none := by
    rw [Option.bind_eq_none_iff]
    intro key hk
    rw [List.find?_eq_none]
    intro r hr
    simpa using hkey key hk r hr
  obtain ⟨hvalid, hins⟩ := insertJob_some (newRow now jobId job) hid hkey
  simp only [enqueueInTx, hnone, hins]
  refine ⟨trivial, ?_⟩
  show (db.jobs.insert (newRow now jobId job) hvalid).lookup (·.id) jobId = _
  rw [Table.lookup_insert, hid, Option.none_or]
  exact if_pos rfl

/-! ## Nothing is lost -/

/-- A row without its id and its timestamps. -/
def anonymous (r : Job) : Job := { r with id := 0, createdAt := 0, updatedAt := 0 }

/-- What `get_job` finds under the id that a call has returned. -/
def readBack (texts : Texts) (result : Outcome Uuid × Db) : Option Job :=
  match result with
  | (.ok jobId, db) =>
      match getJob texts db jobId with
      | .ok found => found
      | .err _ | .panic => none
  | (.err _, _) | (.panic, _) => none

/-- The job read back after `enqueue` asks for what the caller asked for, and is the job read back after
    `enqueue_in_tx` but for the id and the timestamps. -/
structure Lossless (texts : Texts) (db : Db) (now : DateTime) (jobId : Uuid) (txNow : DateTime) (txJobId : Uuid)
    (job : NewJob) : Prop where
  carries : (readBack texts (enqueue db now jobId job)).map Job.toNewJob = some job
  agrees : (readBack texts (enqueue db now jobId job)).map anonymous =
    (readBack texts (enqueueInTx db txNow txJobId job)).map anonymous

/-- What is read back of a new job is its row, with the payload that comes back. -/
theorem readBack_enqueueInTx (hid : db.jobs.lookup (·.id) jobId = none) (hkey : KeyFree db job) :
    readBack texts (enqueueInTx db now jobId job) = (texts.readRow (newRow now jobId job)).toOption := by
  obtain ⟨hok, hrow⟩ := enqueueInTx_stores now hid hkey
  show readBack texts ((enqueueInTx db now jobId job).1, (enqueueInTx db now jobId job).2) = _
  rw [hok]
  simp only [readBack, getJob, hrow]
  cases texts.readRow (newRow now jobId job) <;> rfl

theorem readBack_enqueue (hid : db.jobs.lookup (·.id) jobId = none) (hkey : KeyFree db job) :
    readBack texts (enqueue db now jobId job) = (texts.readRow (newRow now jobId (undated job))).toOption := by
  rw [enqueue_eq_enqueueInTx]
  exact readBack_enqueueInTx hid hkey

/-- A row that was made from a request gives that request back exactly if the payload comes back. -/
theorem readRow_carries_iff {job' : NewJob} :
    (texts.readRow (newRow now jobId job)).toOption.map Job.toNewJob = some job' ↔
      ∃ payload, texts.reread job.payloadJson = .ok payload ∧ { job with payloadJson := payload } = job' := by
  unfold Texts.readRow Texts.readPayload
  rw [show (newRow now jobId job).payload = job.payloadJson from rfl]
  cases texts.reread job.payloadJson with
  | error message => simp [Except.toOption]
  | ok payload => simp [Except.toOption, newRow, Job.toNewJob]

/-- **When `enqueue` is lossless.** Under new ids and a free key, it is exactly for the jobs that have no deadline, no
    timeout and no interval of recurrence, and whose payload comes back as it was bound. -/
theorem enqueue_lossless_iff {txNow : DateTime} {txJobId : Uuid} (hid : db.jobs.lookup (·.id) jobId = none)
    (htx : db.jobs.lookup (·.id) txJobId = none) (hkey : KeyFree db job) :
    Lossless texts db now jobId txNow txJobId job ↔
      (job.deadlineAt = none ∧ job.timeoutSeconds = none ∧ job.recurringIntervalSeconds = none) ∧
        texts.Keeps job.payloadJson := by
  rw [← undated_eq_self]
  have hback : readBack texts (enqueue db now jobId job) = _ := readBack_enqueue hid hkey
  constructor
  · intro h
    have hcarries := h.carries
    rw [hback, readRow_carries_iff] at hcarries
    obtain ⟨payload, hread, heq⟩ := hcarries
    have hpayload : payload = job.payloadJson := congrArg NewJob.payloadJson heq
    rw [hpayload] at hread heq
    exact ⟨heq, hread⟩
  · rintro ⟨hnone, hkeeps⟩
    constructor
    · rw [hback, readRow_carries_iff, hnone]
      exact ⟨job.payloadJson, hkeeps, rfl⟩
    · rw [hback, readBack_enqueueInTx htx hkey, hnone, readRow_of_keeps hkeeps, readRow_of_keeps hkeeps]
      rfl

/-- A job that times out after a minute. -/
def resize : NewJob :=
  { queue := "images", jobType := "resize", payloadJson := "{}", idempotencyKey := some "resize-7", runAt := 0,
    deadlineAt := none, timeoutSeconds := some 60, recurringIntervalSeconds := none, priority := 0, maxAttempts := 3 }

/-- The law on an empty database, for a job that has none of the three. -/
theorem resize_undated_lossless : Lossless .plain Db.empty 0 1 0 2 (undated resize) :=
  (enqueue_lossless_iff rfl rfl (fun _ _ _ h => absurd h List.not_mem_nil)).mpr ⟨⟨rfl, rfl, rfl⟩, Texts.plain_keeps _⟩

/-- **A timeout that is lost.** -/
theorem resize_not_lossless : ¬Lossless .plain Db.empty 0 1 0 2 resize := by
  intro h
  have htimeout := congrArg (Option.map NewJob.timeoutSeconds) h.carries
  revert htimeout
  decide

end Azums.Sqlite
