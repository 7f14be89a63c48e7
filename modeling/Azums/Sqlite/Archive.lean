import Azums.Lib.System
import Azums.Sqlite.Replay

/-!
# `Sqlite.Archive` — archiving, and what becomes of the attempts

`archive_succeeded_older_than` copies succeeded jobs into `jobs_archive` and deletes them from `jobs`. The table
`job_attempts` refers to `jobs` with `ON DELETE CASCADE`, so the attempts of these jobs go with them.
`delete_history_for_succeeded_older_than`, which is there to remove the attempts of archived jobs, looks for them in
`jobs_archive`.

`attempts_kept_iff` says for every call of the backend when it removes an attempt: besides the pruning of the history
it is exactly an archiving that goes through and that takes a job with attempts.
-/

namespace Azums.Sqlite

/-! ## The archive -/

/-- A row of `jobs_archive`. -/
structure ArchiveRow where
  id : Uuid
  datasetId : String
  replayOfJobId : Option Uuid
  queue : String
  jobType : String
  payload : Value
  runAt : DateTime
  deadlineAt : Option DateTime
  timeoutSeconds : Option Int
  recurringIntervalSeconds : Option Int
  status : String
  priority : Int
  maxAttempts : Int
  dlqReasonCode : Option String
  dlqAt : Option DateTime
  createdAt : DateTime
  updatedAt : DateTime
deriving DecidableEq

/-- `jobs_archive`, with its primary key. -/
abbrev ArchiveTable := Table ArchiveRow ArchiveRow.id List.Nodup

/-- The database with its archive. -/
structure Database extends Db where
  archive : ArchiveTable

/-- The database after the migrations. -/
def Database.empty : Database := { Db.empty with archive := ⟨[], List.nodup_nil⟩ }

/-- A call on the tables of the execution core. -/
def Database.core {α : Type} (d : Database) (r : Outcome α × Db) : Outcome α × Database :=
  (r.1, { d with toDb := r.2 })

/-- A transaction on the database: it is rolled back where it does not return `Ok`. -/
def Database.transaction {α : Type} (d : Database) : Outcome α × Database → Outcome α × Database
  | (.ok a, d') => (.ok a, d')
  | (.err message, _) => (.err message, d)
  | (.panic, _) => (.panic, d)

/-- The constraints of `jobs` allow a `DELETE`. -/
theorem jobsConstraint_shrinks : Table.Shrinks JobsConstraint := fun _ _ hsub h =>
  ⟨h.primaryKey.sublist (hsub.map _), h.idempotencyKey.sublist (hsub.filterMap _)⟩

/-- `DELETE FROM jobs WHERE id = ?`, with the `ON DELETE CASCADE` of `job_attempts`. -/
def deleteJob (db : Db) (jobId : Uuid) : Db :=
  { jobs := db.jobs.deleteRows jobsConstraint_shrinks (fun r => r.id == jobId)
    attempts := db.attempts.delete (fun a => a.jobId == jobId) }

/-- The copy of a job that is archived. -/
def archivedRow (j : Job) : ArchiveRow :=
  { id := j.id
    datasetId := j.datasetId
    replayOfJobId := j.replayOfJobId
    queue := j.queue
    jobType := j.jobType
    payload := j.payload
    runAt := j.runAt
    deadlineAt := j.deadlineAt
    timeoutSeconds := j.timeoutSeconds
    recurringIntervalSeconds := j.recurringIntervalSeconds
    status := j.status
    priority := j.priority
    maxAttempts := j.maxAttempts
    dlqReasonCode := j.dlqReasonCode
    dlqAt := j.dlqAt
    createdAt := j.createdAt
    updatedAt := j.updatedAt }

/-- `INSERT INTO jobs_archive`. -/
def insertArchive (d : Database) (row : ArchiveRow) : Option Database :=
  if h : ((d.archive.rows ++ [row]).map ArchiveRow.id).Nodup then some { d with archive := d.archive.insert row h }
  else none

/-- The loop of `archive_succeeded_older_than`. -/
def archiveEach : List Job → Database → Outcome Unit × Database
  | [], d => (.ok (), d)
  | j :: rest, d =>
      match insertArchive d (archivedRow j) with
      | none => (.err "UNIQUE constraint failed: jobs_archive.id", d)
      | some d => archiveEach rest { d with toDb := deleteJob d.toDb j.id }

/-- `WHERE status = 'succeeded' AND updated_at < ? LIMIT ?`. -/
def selected (texts : Texts) (d : Database) (cutoff : DateTime) (limit : Int) : List Job :=
  Sqlite.limit limit (d.jobs.rows.filter (fun r => r.status == "succeeded" && texts.timeLt r.updatedAt cutoff))

/-- `archive_succeeded_older_than`. -/
def archiveSucceededOlderThan (texts : Texts) (d : Database) (cutoff : DateTime) (limit : Int) :
    Outcome Nat × Database :=
  d.transaction (
    match fetchAll texts.readRow (selected texts d cutoff limit) with
    | .error message => (.err message, d)
    | .ok jobs =>
        if jobs.isEmpty then (.ok 0, d)
        else
          match archiveEach jobs d with
          | (.ok (), d) => (.ok jobs.length, d)
          | (.err message, d) => (.err message, d)
          | (.panic, d) => (.panic, d))

/-- `SELECT id FROM jobs_archive WHERE updated_at < ? LIMIT ?`. -/
def archivedIds (texts : Texts) (d : Database) (cutoff : DateTime) (limit : Int) : List Uuid :=
  (Sqlite.limit limit (d.archive.rows.filter (fun r => texts.timeLt r.updatedAt cutoff))).map (·.id)

/-- `WHERE started_at < ? AND job_id IN (…)`. -/
def historyRow (texts : Texts) (d : Database) (cutoff : DateTime) (limit : Int) (a : AttemptRow) : Bool :=
  texts.timeLt a.startedAt cutoff && (archivedIds texts d cutoff limit).contains a.jobId

/-- `delete_history_for_succeeded_older_than`. -/
def deleteHistoryForSucceededOlderThan (texts : Texts) (d : Database) (cutoff : DateTime) (limit : Int) :
    Outcome (Nat × Nat) × Database :=
  (.ok (d.attempts.affected (historyRow texts d cutoff limit), 0),
    { d with attempts := d.attempts.delete (historyRow texts d cutoff limit) })

/-- `mark_succeeded_batch`: one `mark_succeeded` after the other, up to the first error. Each update has the clock
    reading and the fresh id of its call. -/
def markSucceededBatch (texts : Texts) (workerId : String) :
    List (DateTime × Uuid × Uuid × Uuid × Int) → Db → Outcome Unit × Db
  | [], db => (.ok (), db)
  | (now, nextId, jobId, attemptId, latencyMs) :: rest, db =>
      match markSucceeded texts db now nextId jobId attemptId workerId latencyMs with
      | (.ok (), db) => markSucceededBatch texts workerId rest db
      | (.err message, db) => (.err message, db)
      | (.panic, db) => (.panic, db)

/-! ## The attempts that a call leaves alone -/

variable {texts : Texts} {db : Db} {d : Database} {now : DateTime} {jobId : Uuid}

/-- The columns of an attempt that no `UPDATE` sets. -/
def stub (a : AttemptRow) : Uuid × Uuid × DateTime := (a.id, a.jobId, a.startedAt)

/-- No attempt of the first database is missing in the second. -/
def Keeps (db db' : Db) : Prop := Table.Retains stub db.attempts db'.attempts

theorem Keeps.refl : Keeps db db := Table.Retains.refl

theorem Keeps.trans {db' db'' : Db} (h : Keeps db db') (h' : Keeps db' db'') : Keeps db db'' :=
  Table.Retains.trans h h'

/-- A statement that does not touch `job_attempts`. -/
theorem Keeps.of_attempts {db' : Db} (h : db'.attempts = db.attempts) : Keeps db db' := by
  rw [Keeps, h]

theorem Keeps.transaction {α : Type} {r : Outcome α × Db} (h : Keeps db r.2) : Keeps db (transaction db r).2 := by
  obtain ⟨outcome, db'⟩ := r
  cases outcome with
  | ok a => exact h
  | err message => exact .refl
  | panic => exact .refl

theorem insertJob_keeps {db' : Db} {row : Job} (h : insertJob db row = some db') : Keeps db db' := by
  unfold insertJob at h
  split at h
  · cases h
    exact .of_attempts rfl
  · cases h

theorem enqueueInTx_keeps (jobId : Uuid) (job : NewJob) : Keeps db (enqueueInTx db now jobId job).2 := by
  unfold enqueueInTx
  split
  · exact .refl
  · split
    · rename_i hins
      exact insertJob_keeps hins
    · exact .refl

theorem leaseJobsBatch_keeps (queue workerId : String) (leaseSeconds batchSize : Int) (ordering : QueueOrdering) :
    Keeps db (leaseJobsBatchWithOrdering texts db now queue workerId leaseSeconds batchSize ordering).2 := by
  unfold leaseJobsBatchWithOrdering
  simp only
  split
  · exact .refl
  · split
    · exact .of_attempts rfl
    · split <;> exact .of_attempts rfl

theorem extendLease_keeps (jobId : Uuid) (workerId : String) (leaseSeconds : Int) :
    Keeps db (extendLease db now jobId workerId leaseSeconds).2 := by
  unfold extendLease
  split <;> exact .of_attempts rfl

theorem startEach_keeps (workerId : String) (requests : List (Uuid × Uuid)) :
    ∀ db : Db, Keeps db (startEach now workerId requests db).2 := by
  induction requests with
  | nil => intro db; exact .refl
  | cons request rest ih =>
      intro db
      unfold startEach
      split
      · exact .refl
      · cases succI32 ((maxAttempt db request.1).getD 0) with
        | none => exact .refl
        | some nextAttemptNo =>
            simp only
            cases hins : insertAttempt db (startedRow now request.2 request.1 nextAttemptNo workerId) with
            | none => exact .refl
            | some db' =>
                have hone : Keeps db db' := by
                  unfold insertAttempt at hins
                  split at hins
                  · cases hins
                    exact Table.retains_insert
                  · cases hins
                have hrest := hone.trans (ih db')
                simp only
                split <;> (rename_i heq; rw [heq] at hrest; exact hrest)

/-- Closing an attempt. -/
theorem close_keeps (db : Db) (p : AttemptRow → Bool) (f : Table.Assign AttemptRow.id)
    (hf : ∀ a, stub (f.set a) = stub a) (jobs : JobsTable) :
    Keeps db { jobs := jobs, attempts := db.attempts.update p f } :=
  Table.retains_update hf

theorem insertNext_keeps (nextId : Uuid) (completed : Job) : Keeps db (insertNext db now nextId completed).2 := by
  unfold insertNext
  split
  · exact .refl
  · split
    · exact .refl
    · split
      · rename_i hins
        exact insertJob_keeps hins
      · exact .refl

theorem markSucceeded_keeps (nextId jobId attemptId : Uuid) (workerId : String) (latencyMs : Int) :
    Keeps db (markSucceeded texts db now nextId jobId attemptId workerId latencyMs).2 := by
  have hclose := close_keeps db (openRow attemptId jobId) { set := succeededRow now latencyMs } fun _ => rfl
  refine Keeps.transaction ?_
  simp only
  split
  · exact hclose _
  · split
    · exact hclose _
    · split
      · exact hclose _
      · exact (hclose _).trans (insertNext_keeps nextId _)

theorem markSucceededBatch_keeps (workerId : String) (updates : List (DateTime × Uuid × Uuid × Uuid × Int)) :
    ∀ db : Db, Keeps db (markSucceededBatch texts workerId updates db).2 := by
  induction updates with
  | nil => intro db; exact .refl
  | cons u rest ih =>
      intro db
      obtain ⟨now, nextId, jobId, attemptId, latencyMs⟩ := u
      have hone : Keeps db (markSucceeded texts db now nextId jobId attemptId workerId latencyMs).2 :=
        markSucceeded_keeps nextId jobId attemptId workerId latencyMs
      unfold markSucceededBatch
      split
      · rename_i db' heq
        rw [heq] at hone
        exact hone.trans (ih db')
      · rename_i heq
        rwa [heq] at hone
      · rename_i heq
        rwa [heq] at hone

theorem failWith_keeps (jobId attemptId : Uuid) (workerId : String) (latencyMs : Int)
    (errorCode errorMessage target : String) (set : Table.Assign jobKey) :
    Keeps db (failWith db now jobId attemptId workerId latencyMs errorCode errorMessage target set).2 := by
  have hclose := close_keeps db (openRow attemptId jobId)
    { set := failedRow now latencyMs errorCode errorMessage } fun _ => rfl
  refine Keeps.transaction ?_
  simp only
  split
  · exact hclose _
  · split <;> exact hclose _

theorem cancelJob_keeps (jobId : Uuid) (workerId : Option String) :
    Keeps db (cancelJob db now jobId workerId).2 := by
  unfold cancelJob
  split
  · exact .refl
  · split
    · exact .refl
    · simp only
      split
      · exact close_keeps _ _ _ (fun _ => rfl) _
      · exact .of_attempts rfl

theorem closeAttempts_retains (expired : List (String × Uuid)) :
    ∀ t : AttemptsTable, Table.Retains stub t (expired.foldl (closeAttempts now) t) := by
  induction expired with
  | nil => intro t; exact .refl
  | cons job rest ih =>
      intro t
      have hone : Table.Retains stub t (closeAttempts now t job) := Table.retains_update fun _ => rfl
      exact hone.trans (ih _)

theorem reapExpiredLocks_keeps : Keeps db (reapExpiredLocks texts db now).2 :=
  closeAttempts_retains _ db.attempts

theorem replayJob_keeps (clock : DateTime) (newId jobId : Uuid) (overrideQueue : Option String)
    (overrideRunAt : Option DateTime) :
    Keeps db (replayJob texts db clock now newId jobId overrideQueue overrideRunAt).2 := by
  refine Keeps.transaction ?_
  split
  · exact .refl
  · split
    · exact .refl
    · rw [replayInsert_rejected]
      exact .refl

/-! ## What an archiving does -/

/-- An archiving that goes through has copied the jobs into the archive, and their attempts are gone. -/
theorem archiveEach_ok {d' : Database} (jobs : List Job) : ∀ d : Database, archiveEach jobs d = (.ok (), d') →
    d'.archive.rows = d.archive.rows ++ jobs.map archivedRow ∧
      d'.attempts.rows = d.attempts.rows.filter (fun a => !(jobs.map (·.id)).contains a.jobId) := by
  induction jobs with
  | nil =>
      intro d h
      cases h
      simp
  | cons j rest ih =>
      intro d h
      unfold archiveEach insertArchive at h
      by_cases hvalid : ((d.archive.rows ++ [archivedRow j]).map ArchiveRow.id).Nodup
      · rw [dif_pos hvalid] at h
        obtain ⟨harchive, hattempts⟩ := ih _ h
        refine ⟨by simpa using harchive, ?_⟩
        rw [hattempts]
        simp only [deleteJob, Table.delete_rows, List.filter_filter]
        refine List.filter_congr fun a _ => ?_
        rw [List.map_cons, List.contains_cons, Bool.not_or, Bool.and_comm]
      · rw [dif_neg hvalid] at h
        cases h

/-- A row can be archived exactly if its id is not. -/
theorem archive_valid_iff (row : ArchiveRow) :
    ((d.archive.rows ++ [row]).map ArchiveRow.id).Nodup ↔ ∀ r ∈ d.archive.rows, r.id ≠ row.id := by
  have hold : (d.archive.rows.map ArchiveRow.id).Nodup := d.archive.valid
  simp [List.nodup_append, hold]

/-- It goes through exactly if none of the jobs is archived already. -/
theorem archiveEach_ok_iff (jobs : List Job) : ∀ d : Database, (jobs.map (·.id)).Nodup →
    ((∃ d', archiveEach jobs d = (.ok (), d')) ↔ ∀ j ∈ jobs, ∀ r ∈ d.archive.rows, r.id ≠ j.id) := by
  induction jobs with
  | nil => intro d _; simp [archiveEach]
  | cons j rest ih =>
      intro d hnd
      rw [List.map_cons, List.nodup_cons] at hnd
      unfold archiveEach insertArchive
      by_cases hvalid : ((d.archive.rows ++ [archivedRow j]).map ArchiveRow.id).Nodup
      · rw [dif_pos hvalid]
        have hnew : ∀ r ∈ d.archive.rows, r.id ≠ j.id := (archive_valid_iff _).mp hvalid
        have hlast : ∀ j' ∈ rest, j.id ≠ j'.id := fun j' hj' heq => hnd.1 (heq ▸ List.mem_map_of_mem hj')
        simp only [ih _ hnd.2, Table.insert_rows, List.forall_mem_append, List.forall_mem_singleton,
          List.forall_mem_cons]
        constructor
        · intro h
          exact ⟨hnew, fun j' hj' => (h j' hj').1⟩
        · rintro ⟨_, h⟩ j' hj'
          exact ⟨h j' hj', hlast j' hj'⟩
      · rw [dif_neg hvalid]
        constructor
        · rintro ⟨d', h⟩
          cases h
        · intro h
          exact absurd ((archive_valid_iff _).mpr (h j (List.mem_cons_self ..))) hvalid

/-- An archiving is rolled back: some row that it selects does not decode, or is in the archive already. -/
def Refused (texts : Texts) (d : Database) (cutoff : DateTime) (limit : Int) : Prop :=
  texts.Unreadable (selected texts d cutoff limit) ∨
    ∃ j ∈ selected texts d cutoff limit, ∃ r ∈ d.archive.rows, r.id = j.id

/-- The selected jobs are distinct. -/
theorem selected_nodup (texts : Texts) (d : Database) (cutoff : DateTime) (limit : Int) :
    ((selected texts d cutoff limit).map (·.id)).Nodup := by
  refine (jobIds d.toDb).sublist (List.Sublist.map _ ?_)
  unfold selected Sqlite.limit
  split
  · exact List.filter_sublist
  · exact (List.take_sublist _ _).trans List.filter_sublist

/-- The jobs that are read go through exactly if the archiving is not rolled back. -/
theorem archiveEach_selected_iff {cutoff : DateTime} {limit : Int} {jobs : List Job}
    (hread : fetchAll texts.readRow (selected texts d cutoff limit) = .ok jobs) :
    (∃ d', archiveEach jobs d = (.ok (), d')) ↔ ¬Refused texts d cutoff limit := by
  have hids := fetchAll_ids hread
  have hnd : (jobs.map (·.id)).Nodup := hids ▸ selected_nodup texts d cutoff limit
  have hdecoded : ¬texts.Unreadable (selected texts d cutoff limit) := by
    rw [← fetchAll_error_iff, hread]
    simp
  rw [archiveEach_ok_iff jobs d hnd, Refused, or_iff_right hdecoded]
  -- both speak of the ids alone
  have hjobs : (∀ j ∈ jobs, ∀ r ∈ d.archive.rows, r.id ≠ j.id) ↔
      ∀ id ∈ jobs.map (·.id), ∀ r ∈ d.archive.rows, r.id ≠ id := by rw [List.forall_mem_map]
  rw [hjobs, hids, List.forall_mem_map]
  push Not
  rfl

/-- An archiving that is refused changes nothing. -/
theorem archive_refused {cutoff : DateTime} {limit : Int} (h : Refused texts d cutoff limit) :
    (archiveSucceededOlderThan texts d cutoff limit).2 = d := by
  unfold archiveSucceededOlderThan
  cases hread : fetchAll texts.readRow (selected texts d cutoff limit) with
  | error message => rfl
  | ok jobs =>
      simp only
      split
      · rfl
      · split
        · rename_i d' hok
          exact absurd h ((archiveEach_selected_iff hread).mp ⟨d', hok⟩)
        · rfl
        · rfl

/-- If it is not, the attempts of the selected jobs are removed, and no others. -/
theorem archive_attempts {cutoff : DateTime} {limit : Int} (h : ¬Refused texts d cutoff limit) :
    (archiveSucceededOlderThan texts d cutoff limit).2.attempts.rows =
      d.attempts.rows.filter (fun a => !((selected texts d cutoff limit).map (·.id)).contains a.jobId) := by
  unfold archiveSucceededOlderThan
  cases hread : fetchAll texts.readRow (selected texts d cutoff limit) with
  | error message => exact absurd (Or.inl (fetchAll_error_iff.mp ⟨message, hread⟩)) h
  | ok jobs =>
      obtain ⟨d', hok⟩ := (archiveEach_selected_iff hread).mpr h
      rw [← fetchAll_ids hread]
      simp only
      split
      · rename_i hnil
        rw [List.isEmpty_iff.mp hnil]
        simp [Database.transaction]
      · rw [hok]
        exact (archiveEach_ok _ d hok).2

/-! ## Calls -/

/-- A call of the backend that writes to the tables of jobs and attempts. -/
inductive BackendCall where
  | enqueue (now : DateTime) (jobId : Uuid) (job : NewJob)
  | enqueueInTx (now : DateTime) (jobId : Uuid) (job : NewJob)
  | lease (now : DateTime) (queue workerId : String) (leaseSeconds batchSize : Int) (ordering : QueueOrdering)
  | extendLease (now : DateTime) (jobId : Uuid) (workerId : String) (leaseSeconds : Int)
  | startAttempts (now : DateTime) (requests : List (Uuid × Uuid)) (workerId : String)
  | markSucceeded (now : DateTime) (nextId jobId attemptId : Uuid) (workerId : String) (latencyMs : Int)
  | markSucceededBatch (updates : List (DateTime × Uuid × Uuid × Uuid × Int)) (workerId : String)
  | reschedule (now : DateTime) (jobId attemptId : Uuid) (workerId : String) (latencyMs : Int)
      (nextRunAt : DateTime) (errorCode errorMessage : String)
  | markDlq (now : DateTime) (jobId attemptId : Uuid) (workerId : String) (latencyMs : Int)
      (reasonCode errorCode errorMessage : String)
  | cancel (now : DateTime) (jobId : Uuid) (workerId : Option String)
  | reap (now : DateTime)
  | replay (clock now : DateTime) (newId jobId : Uuid) (overrideQueue : Option String) (overrideRunAt : Option DateTime)
  | archive (cutoff : DateTime) (limit : Int)
  | deleteHistory (cutoff : DateTime) (limit : Int)

namespace BackendCall

/-- The database that a call leaves. -/
def after (texts : Texts) (d : Database) : BackendCall → Database
  | enqueue now jobId job => (d.core (Sqlite.enqueue d.toDb now jobId job)).2
  | enqueueInTx now jobId job => (d.core (Sqlite.enqueueInTx d.toDb now jobId job)).2
  | lease now queue workerId leaseSeconds batchSize ordering =>
      (d.core (leaseJobsBatchWithOrdering texts d.toDb now queue workerId leaseSeconds batchSize ordering)).2
  | extendLease now jobId workerId leaseSeconds =>
      (d.core (Sqlite.extendLease d.toDb now jobId workerId leaseSeconds)).2
  | startAttempts now requests workerId => (d.core (startAttemptsBatch d.toDb now requests workerId)).2
  | markSucceeded now nextId jobId attemptId workerId latencyMs =>
      (d.core (Sqlite.markSucceeded texts d.toDb now nextId jobId attemptId workerId latencyMs)).2
  | markSucceededBatch updates workerId => (d.core (Sqlite.markSucceededBatch texts workerId updates d.toDb)).2
  | reschedule now jobId attemptId workerId latencyMs nextRunAt errorCode errorMessage =>
      (d.core (rescheduleForRetry d.toDb now jobId attemptId workerId latencyMs nextRunAt errorCode errorMessage)).2
  | markDlq now jobId attemptId workerId latencyMs reasonCode errorCode errorMessage =>
      (d.core (Sqlite.markDlq d.toDb now jobId attemptId workerId latencyMs reasonCode errorCode errorMessage)).2
  | cancel now jobId workerId => (d.core (cancelJob d.toDb now jobId workerId)).2
  | reap now => (d.core (reapExpiredLocks texts d.toDb now)).2
  | replay clock now newId jobId overrideQueue overrideRunAt =>
      (d.core (replayJob texts d.toDb clock now newId jobId overrideQueue overrideRunAt)).2
  | archive cutoff limit => (archiveSucceededOlderThan texts d cutoff limit).2
  | deleteHistory cutoff limit => (deleteHistoryForSucceededOlderThan texts d cutoff limit).2

/-- The database that a list of calls leaves. -/
def run (texts : Texts) (calls : List BackendCall) (d : Database) : Database := calls.foldl (after texts) d

/-- The attempt is still in the database. -/
def Holds (d : Database) (a : AttemptRow) : Prop := stub a ∈ d.attempts.rows.map stub

/-- The history has been pruned: attempts from before the cutoff, of jobs that are in the archive and were last updated
    before the cutoff as the texts of the two times sort. -/
def Prunes (texts : Texts) (call : BackendCall) (d : Database) (a : AttemptRow) : Prop :=
  ∃ cutoff limit, call = .deleteHistory cutoff limit ∧ a.startedAt < cutoff ∧
    ∃ r ∈ d.archive.rows, r.id = a.jobId ∧ texts.timeLt r.updatedAt cutoff = true

/-- An attempt that the call removes is one that it prunes. -/
def KeepsHistory (texts : Texts) (call : BackendCall) (d : Database) : Prop :=
  ∀ a ∈ d.attempts.rows, ¬Holds (call.after texts d) a → call.Prunes texts d a

/-- The call is no archiving that goes through and selects a job with attempts; and no pruning to which the text of a
    time makes an attempt of an archived job look older than it is. -/
structure Harmless (texts : Texts) (call : BackendCall) (d : Database) : Prop where
  archives : ∀ cutoff limit, call = .archive cutoff limit →
    Refused texts d cutoff limit ∨ ∀ j ∈ selected texts d cutoff limit, ∀ a ∈ d.attempts.rows, a.jobId ≠ j.id
  prunes : ∀ cutoff limit, call = .deleteHistory cutoff limit → ∀ a ∈ d.attempts.rows,
    a.jobId ∈ archivedIds texts d cutoff limit → texts.timeLt a.startedAt cutoff = true → a.startedAt < cutoff

/-- A call that keeps all attempts. -/
theorem keepsHistory_of_keeps {call : BackendCall} (h : Keeps d.toDb (call.after texts d).toDb) :
    call.KeepsHistory texts d :=
  fun _ ha hgone => absurd (h (List.mem_map_of_mem ha)) hgone

/-- Nothing but an archiving and the pruning removes attempts. -/
theorem after_keeps (call : BackendCall) (harchive : ∀ cutoff limit, call ≠ .archive cutoff limit)
    (hprune : ∀ cutoff limit, call ≠ .deleteHistory cutoff limit) : Keeps d.toDb (call.after texts d).toDb := by
  cases call with
  | enqueue now jobId job =>
      show Keeps d.toDb (Sqlite.enqueue d.toDb now jobId job).2
      rw [enqueue_eq_enqueueInTx]
      exact enqueueInTx_keeps jobId _
  | enqueueInTx now jobId job => exact enqueueInTx_keeps jobId job
  | lease now queue workerId leaseSeconds batchSize ordering =>
      exact leaseJobsBatch_keeps queue workerId leaseSeconds batchSize ordering
  | extendLease now jobId workerId leaseSeconds => exact extendLease_keeps jobId workerId leaseSeconds
  | startAttempts now requests workerId => exact (startEach_keeps workerId requests d.toDb).transaction
  | markSucceeded now nextId jobId attemptId workerId latencyMs =>
      exact markSucceeded_keeps nextId jobId attemptId workerId latencyMs
  | markSucceededBatch updates workerId => exact markSucceededBatch_keeps workerId updates d.toDb
  | reschedule now jobId attemptId workerId latencyMs nextRunAt errorCode errorMessage =>
      exact failWith_keeps jobId attemptId workerId latencyMs errorCode errorMessage _ _
  | markDlq now jobId attemptId workerId latencyMs reasonCode errorCode errorMessage =>
      exact failWith_keeps jobId attemptId workerId latencyMs errorCode errorMessage _ _
  | cancel now jobId workerId => exact cancelJob_keeps jobId workerId
  | reap now => exact reapExpiredLocks_keeps
  | replay clock now newId jobId overrideQueue overrideRunAt =>
      exact replayJob_keeps clock newId jobId overrideQueue overrideRunAt
  | archive cutoff limit => exact absurd rfl (harchive cutoff limit)
  | deleteHistory cutoff limit => exact absurd rfl (hprune cutoff limit)

/-- A pruning removes the rows that its `WHERE` selects. -/
theorem deleteHistory_removes {cutoff : DateTime} {limit : Int} {a : AttemptRow} (ha : a ∈ d.attempts.rows) :
    ¬Holds ((deleteHistory cutoff limit).after texts d) a ↔ historyRow texts d cutoff limit a = true := by
  constructor
  · intro hgone
    by_contra hrow
    refine hgone (List.mem_map_of_mem ?_)
    exact List.mem_filter.mpr ⟨ha, by simpa using hrow⟩
  · intro hrow hin
    obtain ⟨a', ha', hstub⟩ := List.mem_map.mp hin
    obtain ⟨hmem, hkept⟩ := List.mem_filter.mp ha'
    have hid : a'.id = a.id := congrArg Prod.fst hstub
    rw [List.inj_on_of_nodup_map (attemptIds d.toDb) hmem ha hid, hrow] at hkept
    cases hkept

/-- The pruning of the history removes what it says exactly if no text of a time misleads it. -/
theorem deleteHistory_keepsHistory_iff (d : Database) (cutoff : DateTime) (limit : Int) :
    (deleteHistory cutoff limit).KeepsHistory texts d ↔ ∀ a ∈ d.attempts.rows,
      a.jobId ∈ archivedIds texts d cutoff limit → texts.timeLt a.startedAt cutoff = true → a.startedAt < cutoff := by
  constructor
  · intro h a ha hjob hlt
    have hrow : historyRow texts d cutoff limit a = true := by simp [historyRow, hlt, hjob]
    obtain ⟨_, _, heq, hbefore, _⟩ := h a ha ((deleteHistory_removes ha).mpr hrow)
    cases heq
    exact hbefore
  · intro h a ha hgone
    have hrow := (deleteHistory_removes ha).mp hgone
    simp only [historyRow, Bool.and_eq_true, List.contains_eq_mem, decide_eq_true_eq] at hrow
    obtain ⟨hlt, hjob⟩ := hrow
    obtain ⟨r, hr, hid⟩ := List.mem_map.mp hjob
    have hsel : r ∈ d.archive.rows.filter (fun r => texts.timeLt r.updatedAt cutoff) := by
      unfold Sqlite.limit at hr
      split at hr
      · exact hr
      · exact List.mem_of_mem_take hr
    obtain ⟨hmem, hold⟩ := List.mem_filter.mp hsel
    exact ⟨cutoff, limit, rfl, h a ha hjob hlt, r, hmem, hid, hold⟩

/-- An archiving removes no attempt exactly if it is rolled back or selects no job with attempts. -/
theorem archive_keepsHistory_iff (d : Database) (cutoff : DateTime) (limit : Int) :
    (archive cutoff limit).KeepsHistory texts d ↔
      Refused texts d cutoff limit ∨ ∀ j ∈ selected texts d cutoff limit, ∀ a ∈ d.attempts.rows, a.jobId ≠ j.id := by
  by_cases hrefused : Refused texts d cutoff limit
  · have hsame : (archive cutoff limit).after texts d = d := archive_refused hrefused
    refine ⟨fun _ => Or.inl hrefused, fun _ => keepsHistory_of_keeps ?_⟩
    rw [hsame]
    exact .refl
  · have hrows := archive_attempts hrefused
    constructor
    · intro h
      refine Or.inr fun j hj a ha heq => ?_
      -- the attempt would have been pruned, and an archiving prunes nothing
      have hgone : ¬Holds ((archive cutoff limit).after texts d) a := by
        intro hin
        obtain ⟨a', ha', hstub⟩ := List.mem_map.mp hin
        have ha'' : a' ∈ d.attempts.rows.filter
            (fun a => !((selected texts d cutoff limit).map (·.id)).contains a.jobId) := hrows ▸ ha'
        have hjob : a'.jobId = a.jobId := congrArg (fun x => x.2.1) hstub
        have hout := (List.mem_filter.mp ha'').2
        rw [hjob, heq] at hout
        simp only [Bool.not_eq_true', List.contains_eq_mem, decide_eq_false_iff_not] at hout
        exact hout (List.mem_map_of_mem hj)
      obtain ⟨_, _, hcall, _⟩ := h a ha hgone
      cases hcall
    · rintro (hc | hnone)
      · exact absurd hc hrefused
      · refine keepsHistory_of_keeps (Keeps.of_attempts (Table.ext_rows ?_))
        show (archiveSucceededOlderThan texts d cutoff limit).2.attempts.rows = d.attempts.rows
        rw [hrows, List.filter_eq_self]
        intro a ha
        simp only [Bool.not_eq_true', List.contains_eq_mem, decide_eq_false_iff_not, List.mem_map, not_exists, not_and]
        exact fun j hj heq => hnone j hj a ha heq.symm

/-- **When a call keeps the history.** In every database, a call removes no other attempts than those it prunes
    exactly if it is harmless. -/
theorem keepsHistory_iff (call : BackendCall) (d : Database) : call.KeepsHistory texts d ↔ call.Harmless texts d := by
  by_cases harchive : ∃ cutoff limit, call = archive cutoff limit
  · obtain ⟨cutoff, limit, rfl⟩ := harchive
    rw [archive_keepsHistory_iff]
    constructor
    · intro h
      constructor
      · rintro _ _ ⟨⟩
        exact h
      · rintro _ _ ⟨⟩
    · intro h
      exact h.archives cutoff limit rfl
  · by_cases hprune : ∃ cutoff limit, call = deleteHistory cutoff limit
    · obtain ⟨cutoff, limit, rfl⟩ := hprune
      rw [deleteHistory_keepsHistory_iff]
      constructor
      · intro h
        constructor
        · rintro _ _ ⟨⟩
        · rintro _ _ ⟨⟩
          exact h
      · intro h
        exact h.prunes cutoff limit rfl
    · have hother : call.Harmless texts d := ⟨fun cutoff limit heq => absurd ⟨cutoff, limit, heq⟩ harchive,
        fun cutoff limit heq => absurd ⟨cutoff, limit, heq⟩ hprune⟩
      refine ⟨fun _ => hother, fun _ => ?_⟩
      exact keepsHistory_of_keeps (after_keeps call (fun cutoff limit heq => harchive ⟨cutoff, limit, heq⟩)
        fun cutoff limit heq => hprune ⟨cutoff, limit, heq⟩)

/-! ### Runs -/

/-- What is pruned of an attempt is told by the columns that stay. -/
theorem Prunes.congr {call : BackendCall} {a a' : AttemptRow} (hstub : stub a' = stub a)
    (h : call.Prunes texts d a') : call.Prunes texts d a := by
  have hjob : a'.jobId = a.jobId := congrArg (fun x => x.2.1) hstub
  have hstart : a'.startedAt = a.startedAt := congrArg (fun x => x.2.2) hstub
  obtain ⟨cutoff, limit, hcall, hbefore, r, hr, hid, hold⟩ := h
  exact ⟨cutoff, limit, hcall, hstart ▸ hbefore, r, hr, hid.trans hjob, hold⟩

/-- An attempt that is missing after a run of harmless calls was pruned by one of them. -/
theorem run_prunes (calls : List BackendCall) : ∀ d : Database,
    Meets (fun call d => ((), after texts d call)) (Harmless texts) calls d →
      ∀ a ∈ d.attempts.rows, ¬Holds (run texts calls d) a →
        ∃ earlier call later, calls = earlier ++ call :: later ∧ call.Prunes texts (run texts earlier d) a := by
  induction calls with
  | nil => intro d _ a ha hgone; exact absurd (List.mem_map_of_mem ha) hgone
  | cons call rest ih =>
      rintro d ⟨hone, hrest⟩ a ha hgone
      by_cases hin : Holds (after texts d call) a
      · obtain ⟨a', ha', hstub⟩ := List.mem_map.mp hin
        have hgone' : ¬Holds (run texts rest (after texts d call)) a' := by
          intro h
          exact hgone (show stub a ∈ _ from hstub ▸ h)
        obtain ⟨earlier, next, later, heq, hprunes⟩ := ih (after texts d call) hrest a' ha' hgone'
        exact ⟨call :: earlier, next, later, by rw [heq, List.cons_append], hprunes.congr hstub⟩
      · exact ⟨[], call, rest, rfl, (keepsHistory_iff call d).mpr hone a ha hin⟩

/-- **Attempts outlive their jobs, unless they are archived.** In every database, a call removes only attempts that it
    prunes exactly if it is no archiving that goes through and selects a job with attempts, and no pruning that the
    text of a time misleads. And whatever is missing after a run of such calls was pruned: by a call whose cutoff lies
    after the start of the attempt, whose job was in the archive by then. -/
theorem attempts_kept_iff (texts : Texts) (d : Database) :
    (∀ call : BackendCall, call.KeepsHistory texts d ↔ call.Harmless texts d) ∧
    ∀ calls : List BackendCall, Meets (fun call d => ((), after texts d call)) (Harmless texts) calls d →
      ∀ a ∈ d.attempts.rows, ¬Holds (run texts calls d) a →
        ∃ earlier call later, calls = earlier ++ call :: later ∧ call.Prunes texts (run texts earlier d) a :=
  ⟨fun call => keepsHistory_iff call d, fun calls => run_prunes calls d⟩

/-- A job is run to its end. -/
def resized : Database :=
  run .plain [.enqueueInTx 0 1 resize, .lease 5 "images" "w1" 30 10 .fifo, .startAttempts 6 [(1, 9)] "w1",
    .markSucceeded 8 11 1 9 "w1" 2] .empty

/-- Job 2 is archived, and a job under its id is retried; job 1 is another that has succeeded, and has no attempts. -/
def reused : Database :=
  let d := run .plain [.enqueueInTx 0 2 resize, .lease 1 "images" "w1" 30 10 .fifo, .startAttempts 2 [(2, 7)] "w1",
    .markSucceeded 3 99 2 7 "w1" 1, .archive 5 10, .enqueueInTx 6 2 resize, .lease 7 "images" "w1" 30 10 .fifo,
    .startAttempts 8 [(2, 9)] "w1", .reschedule 9 2 9 "w1" 1 10 "TIMEOUT" "too slow",
    .lease 12 "images" "w1" 30 10 .fifo, .startAttempts 30 [(2, 10)] "w1",
    .enqueueInTx 13 1 { resize with idempotencyKey := none }] .empty
  { d with jobs := d.jobs.update (fun r => r.id == 1) { set := completedRow 14 } }

/-- The first attempt of the retried job. -/
def retriedAttempt : AttemptRow :=
  { id := 9, datasetId := "default", jobId := 2, attemptNo := 1, status := "failed", workerId := "w1"
    startedAt := 8, finishedAt := some 9, latencyMs := some 1, errorCode := some "TIMEOUT"
    errorMessage := some "too slow" }

/-- Archiving takes job 1 and keeps the attempts; the pruning then takes the one from before its cutoff. -/
theorem attempts_kept_iff_older :
    (run .plain [.archive 20 10] reused).archive.rows.map (·.id) = [2, 1] ∧
    (run .plain [.archive 20 10] reused).attempts.rows.map (·.id) = [9, 10] ∧
    (run .plain [.archive 20 10, .deleteHistory 25 10] reused).attempts.rows.map (·.id) = [10] ∧
    ∃ earlier call later, [archive 20 10, deleteHistory 25 10] = earlier ++ call :: later ∧
      call.Prunes .plain (run .plain earlier reused) retriedAttempt := by
  refine ⟨by decide, by decide, by decide, (attempts_kept_iff .plain reused).2 [archive 20 10, deleteHistory 25 10]
    ⟨?_, ?_, trivial⟩ _ (by decide) ?_⟩
  · constructor
    · rintro _ _ ⟨⟩
      exact Or.inr (by decide)
    · rintro _ _ ⟨⟩
  · constructor
    · rintro _ _ ⟨⟩
    · rintro _ _ ⟨⟩ a _ _ hlt
      exact (Texts.timeLt_iff Texts.plain_compareAsTime _ _).mp hlt
  · rw [Holds]
    decide

/-- **Archiving a job removes its attempts**, although no history was pruned. -/
theorem archive_loses_attempts : resized.attempts.rows.map (·.id) = [9] ∧
    (run .plain [.archive 20 10] resized).archive.rows.map (·.id) = [1] ∧
    (run .plain [.archive 20 10] resized).attempts.rows = [] ∧ ¬(archive 20 10).KeepsHistory .plain resized := by
  have hgone : (after .plain resized (archive 20 10)).attempts.rows = [] := by decide
  refine ⟨by decide, by decide, hgone, fun h => ?_⟩
  obtain ⟨a, ha⟩ := List.exists_mem_of_ne_nil resized.attempts.rows (by decide)
  have hnot : ¬Holds ((archive 20 10).after .plain resized) a := by
    rw [Holds, hgone]
    exact List.not_mem_nil
  obtain ⟨_, _, hcall, _⟩ := h a ha hnot
  cases hcall

end BackendCall

end Azums.Sqlite
