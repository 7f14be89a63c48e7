import Azums.Sqlite.Backend
import Mathlib.Data.List.Pairwise

/-!
# `Sqlite.Rows` — what the rows of the execution core satisfy

The statements of `Sqlite.Backend` rely on more than the constraints of the tables. Every row is in the `default`
dataset, a recurring job recurs after a second or more, a payload comes back as it was bound, and an attempt gets its
latency when it is closed: so `COALESCE(latency_ms, 0)` is 0 wherever the code evaluates it. `RowsOk` says this of a
database, and every operation keeps it.
-/

namespace Azums.Sqlite

variable {texts : Texts} {db : Db} {now : DateTime}

/-! ## Reading -/

/-- A row whose payload comes back is read as it is. -/
theorem readRow_of_keeps {r : Job} (h : texts.Keeps r.payload) : texts.readRow r = .ok r := by
  unfold Texts.readRow
  rw [Texts.readPayload_of_keeps h]

/-- What is read of a row has its id. -/
theorem readRow_id {r job : Job} (h : texts.readRow r = .ok job) : job.id = r.id := by
  unfold Texts.readRow at h
  split at h
  · cases h
  · cases h
    rfl

/-- The ids of the jobs read are those of the rows. -/
theorem fetchAll_ids {rows jobs : List Job} (h : fetchAll texts.readRow rows = .ok jobs) :
    jobs.map (·.id) = rows.map (·.id) :=
  fetchAll_map (·.id) (fun _ _ => readRow_id) h

/-- Some row does not decode. -/
def Texts.Unreadable (texts : Texts) (rows : List Job) : Prop :=
  ∃ r ∈ rows, ∀ payload, texts.reread r.payload ≠ .ok payload

/-- `fetch_all` fails exactly if some row does not decode. -/
theorem fetchAll_error_iff {rows : List Job} :
    (∃ message, fetchAll texts.readRow rows = .error message) ↔ texts.Unreadable rows := by
  rw [fetchAll_fails_iff, Texts.Unreadable]
  refine exists_congr fun r => and_congr_right fun _ => ?_
  unfold Texts.readRow Texts.readPayload
  cases texts.reread r.payload <;> simp

/-! ## Keys -/

theorem jobIds (db : Db) : (db.jobs.rows.map (·.id)).Nodup := by
  have hnd := db.jobs.valid.primaryKey
  rw [List.map_map] at hnd
  exact hnd

theorem attemptIds (db : Db) : (db.attempts.rows.map (·.id)).Nodup := db.attempts.valid

/-- Two rows with one idempotency key are one row. -/
theorem eq_of_idempotencyKey {r r' : Job} {key : String} (hr : r ∈ db.jobs.rows) (hr' : r' ∈ db.jobs.rows)
    (hkey : r.idempotencyKey = some key) (hkey' : r'.idempotencyKey = some key) : r = r' := by
  have hnd := db.jobs.valid.idempotencyKey
  rw [List.filterMap_map] at hnd
  have happart := List.pairwise_filterMap.mp hnd
  by_contra hne
  have hsymm : Std.Symm (fun x y : Job => ∀ a, ((fun k : JobKey => k.idempotencyKey) ∘ jobKey) x = some a →
      ∀ b, ((fun k : JobKey => k.idempotencyKey) ∘ jobKey) y = some b → a ≠ b) :=
    ⟨fun x y h a ha b hb => (h b hb a ha).symm⟩
  exact happart.forall hr hr' hne key hkey key hkey' rfl

/-- A row under a new id and without a key there is can be inserted. -/
theorem insertJob_some (row : Job) (hid : db.jobs.lookup (·.id) row.id = none)
    (hkey : ∀ key, row.idempotencyKey = some key → ∀ r ∈ db.jobs.rows, r.idempotencyKey ≠ some key) :
    ∃ h, insertJob db row = some { db with jobs := db.jobs.insert row h } := by
  have hvalid : JobsConstraint ((db.jobs.rows ++ [row]).map jobKey) := by
    rw [List.map_append]
    constructor
    · rw [List.map_append, List.nodup_append']
      refine ⟨db.jobs.valid.primaryKey, List.nodup_singleton _, ?_⟩
      rw [List.disjoint_comm]
      refine List.singleton_disjoint.mpr fun hin => ?_
      rw [List.map_map] at hin
      obtain ⟨r, hr, heq⟩ := List.mem_map.mp hin
      exact Table.lookup_eq_none.mp hid r hr heq
    · rw [List.filterMap_append, List.nodup_append']
      refine ⟨db.jobs.valid.idempotencyKey, ?_, ?_⟩
      · show ([row.idempotencyKey].filterMap id).Nodup
        cases row.idempotencyKey <;> simp
      · intro key hin hin'
        rw [List.filterMap_map] at hin
        obtain ⟨r, hr, hrk⟩ := List.mem_filterMap.mp hin
        obtain ⟨k, hk, hrow⟩ := List.mem_filterMap.mp hin'
        obtain rfl := List.mem_singleton.mp hk
        exact hkey key hrow r hr hrk
  exact ⟨hvalid, dif_pos hvalid⟩

theorem insertAttempt_some (row : AttemptRow) (hid : db.attempts.lookup (·.id) row.id = none) :
    ∃ h, insertAttempt db row = some { db with attempts := db.attempts.insert row h } := by
  have hvalid : ((db.attempts.rows ++ [row]).map AttemptRow.id).Nodup := by
    rw [List.map_append, List.nodup_append']
    refine ⟨attemptIds db, List.nodup_singleton _, ?_⟩
    rw [List.disjoint_comm]
    refine List.singleton_disjoint.mpr fun hin => ?_
    obtain ⟨r, hr, heq⟩ := List.mem_map.mp hin
    exact Table.lookup_eq_none.mp hid r hr heq
  exact ⟨hvalid, dif_pos hvalid⟩

/-! ## Rows in order -/

/-- What holds of a row of `jobs`. -/
structure JobRowOk (texts : Texts) (r : Job) : Prop where
  datasetId : r.datasetId = "default"
  recurring : ∀ interval, r.recurringIntervalSeconds = some interval → 1 ≤ interval
  payload : texts.Keeps r.payload

/-- What holds of a row of `job_attempts`. -/
structure AttemptRowOk (a : AttemptRow) : Prop where
  datasetId : a.datasetId = "default"
  latencyMs : a.status = "running" → a.latencyMs = none

/-- What holds of the rows of the execution core. -/
structure RowsOk (texts : Texts) (db : Db) : Prop where
  jobs : ∀ r ∈ db.jobs.rows, JobRowOk texts r
  attempts : ∀ a ∈ db.attempts.rows, AttemptRowOk a

theorem RowsOk.empty : RowsOk texts Db.empty :=
  ⟨fun _ h => absurd h List.not_mem_nil, fun _ h => absurd h List.not_mem_nil⟩

/-- A job whose dataset, interval and payload do not change. -/
theorem JobRowOk.congr {r r' : Job} (h : JobRowOk texts r) (hds : r'.datasetId = r.datasetId)
    (hrec : r'.recurringIntervalSeconds = r.recurringIntervalSeconds) (hpayload : r'.payload = r.payload) :
    JobRowOk texts r' :=
  ⟨hds.trans h.datasetId, fun interval hi => h.recurring interval (hrec ▸ hi), hpayload ▸ h.payload⟩

/-- An attempt that is closed. -/
theorem AttemptRowOk.close {a a' : AttemptRow} (h : AttemptRowOk a) (hds : a'.datasetId = a.datasetId)
    (hst : a'.status = "succeeded" ∨ a'.status = "failed") : AttemptRowOk a' := by
  refine ⟨hds.trans h.datasetId, fun hrun => ?_⟩
  rw [hrun] at hst
  simp at hst

namespace RowsOk

theorem updateJobs (h : RowsOk texts db) (p : Job → Bool) (f : Table.Assign jobKey)
    (hf : ∀ r, JobRowOk texts r → JobRowOk texts (f.set r)) :
    RowsOk texts { db with jobs := db.jobs.update p f } := by
  refine ⟨?_, h.attempts⟩
  intro r hr
  obtain ⟨r₀, hr₀, rfl⟩ := List.mem_map.mp hr
  split
  · exact hf r₀ (h.jobs r₀ hr₀)
  · exact h.jobs r₀ hr₀

theorem updateAttempts (h : RowsOk texts db) (p : AttemptRow → Bool) (f : Table.Assign AttemptRow.id)
    (hf : ∀ a, AttemptRowOk a → AttemptRowOk (f.set a)) :
    RowsOk texts { db with attempts := db.attempts.update p f } := by
  refine ⟨h.jobs, ?_⟩
  intro a ha
  obtain ⟨a₀, ha₀, rfl⟩ := List.mem_map.mp ha
  split
  · exact hf a₀ (h.attempts a₀ ha₀)
  · exact h.attempts a₀ ha₀

theorem insertJob {db' : Db} {row : Job} (h : RowsOk texts db) (hrow : JobRowOk texts row)
    (hins : Sqlite.insertJob db row = some db') : RowsOk texts db' := by
  unfold Sqlite.insertJob at hins
  split at hins
  · cases hins
    refine ⟨fun r hr => ?_, h.attempts⟩
    rcases List.mem_append.mp hr with hr | hr
    · exact h.jobs r hr
    · rw [List.mem_singleton.mp hr]
      exact hrow
  · cases hins

theorem insertAttempt {db' : Db} {row : AttemptRow} (h : RowsOk texts db) (hrow : AttemptRowOk row)
    (hins : Sqlite.insertAttempt db row = some db') : RowsOk texts db' := by
  unfold Sqlite.insertAttempt at hins
  split at hins
  · cases hins
    refine ⟨h.jobs, fun a ha => ?_⟩
    rcases List.mem_append.mp ha with ha | ha
    · exact h.attempts a ha
    · rw [List.mem_singleton.mp ha]
      exact hrow
  · cases hins

theorem transaction {α : Type} {r : Outcome α × Db} (h : RowsOk texts db) (hr : RowsOk texts r.2) :
    RowsOk texts (Sqlite.transaction db r).2 := by
  obtain ⟨outcome, db'⟩ := r
  cases outcome with
  | ok a => exact hr
  | err message => exact h
  | panic => exact h

end RowsOk

/-! ### The operations -/

theorem enqueueInTx_rowsOk (h : RowsOk texts db) (jobId : Uuid) {job : NewJob}
    (hrec : ∀ interval, job.recurringIntervalSeconds = some interval → 1 ≤ interval)
    (hpayload : texts.Keeps job.payloadJson) : RowsOk texts (enqueueInTx db now jobId job).2 := by
  unfold enqueueInTx
  split
  · exact h
  · cases hins : insertJob db (newRow now jobId job) with
    | none => exact h
    | some db' =>
        have hrow : JobRowOk texts (newRow now jobId job) := ⟨rfl, hrec, hpayload⟩
        exact h.insertJob hrow hins

theorem leaseEach_rowsOk (lockExpiresAt : DateTime) (workerId : String) (taken : List Job) :
    ∀ db : Db, RowsOk texts db →
      RowsOk texts { db with jobs := (leaseEach now lockExpiresAt workerId taken db.jobs).2 } := by
  induction taken with
  | nil => intro db h; exact h
  | cons job rest ih =>
      intro db h
      exact ih _ (h.updateJobs (fun r => r.id == job.id) { set := leasedRow now lockExpiresAt workerId }
        fun r hr => hr.congr rfl rfl rfl)

theorem leaseJobsBatch_rowsOk (h : RowsOk texts db) (queue workerId : String) (leaseSeconds batchSize : Int) :
    RowsOk texts (leaseJobsBatch texts db now queue workerId leaseSeconds batchSize).2 := by
  have hswept := h.updateJobs (missedDeadline texts queue now) { set := deadlineRow now }
    fun r hr => hr.congr rfl rfl rfl
  unfold leaseJobsBatch leaseJobsBatchWithOrdering
  simp only
  split
  · exact h
  · split
    · exact hswept
    · cases Chrono.addSeconds now leaseSeconds with
      | none => exact h
      | some lockExpiresAt => exact leaseEach_rowsOk lockExpiresAt workerId _ _ hswept

theorem extendLease_rowsOk (h : RowsOk texts db) (jobId : Uuid) (workerId : String) (leaseSeconds : Int) :
    RowsOk texts (extendLease db now jobId workerId leaseSeconds).2 := by
  unfold extendLease
  cases Chrono.addSeconds now leaseSeconds with
  | none => exact h
  | some lockExpiresAt => exact h.updateJobs _ _ fun r hr => hr.congr rfl rfl rfl

theorem startEach_rowsOk (workerId : String) (requests : List (Uuid × Uuid)) :
    ∀ db : Db, RowsOk texts db → RowsOk texts (startEach now workerId requests db).2 := by
  induction requests with
  | nil => intro db h; exact h
  | cons request rest ih =>
      intro db h
      unfold startEach
      split
      · exact h
      · cases succI32 ((maxAttempt db request.1).getD 0) with
        | none => exact h
        | some nextAttemptNo =>
            simp only
            cases hins : insertAttempt db (startedRow now request.2 request.1 nextAttemptNo workerId) with
            | none => exact h
            | some db' =>
                have hrow : AttemptRowOk (startedRow now request.2 request.1 nextAttemptNo workerId) :=
                  ⟨rfl, fun _ => rfl⟩
                have hrest := ih db' (h.insertAttempt hrow hins)
                simp only
                split <;> (rename_i heq; rw [heq] at hrest; exact hrest)

theorem startAttemptsBatch_rowsOk (h : RowsOk texts db) (requests : List (Uuid × Uuid)) (workerId : String) :
    RowsOk texts (startAttemptsBatch db now requests workerId).2 :=
  h.transaction (startEach_rowsOk workerId requests db h)

/-- The next occurrence recurs as the completed job does. -/
theorem nextRow_rowOk {nextId : Uuid} {completed next : Job} {interval : Int} (h : JobRowOk texts completed)
    (hnext : nextRow now nextId completed interval = some next) : JobRowOk texts next := by
  unfold nextRow at hnext
  simp only [bind, Option.bind_eq_some_iff, pure, Option.some.injEq] at hnext
  obtain ⟨runAt, _, deadlineAt, _, rfl⟩ := hnext
  exact ⟨rfl, h.recurring, h.payload⟩

theorem insertNext_rowsOk (h : RowsOk texts db) (nextId : Uuid) {completed : Job}
    (hcompleted : JobRowOk texts completed) :
    RowsOk texts (insertNext db now nextId completed).2 := by
  unfold insertNext
  split
  · exact h
  · split
    · exact h
    · rename_i next hnext
      cases hins : insertJob db next with
      | none => exact h
      | some db' => exact h.insertJob (nextRow_rowOk hcompleted hnext) hins

theorem markSucceeded_rowsOk (h : RowsOk texts db) (nextId jobId attemptId : Uuid) (workerId : String)
    (latencyMs : Int) :
    RowsOk texts (markSucceeded texts db now nextId jobId attemptId workerId latencyMs).2 := by
  have hclosed := h.updateAttempts (openRow attemptId jobId) { set := succeededRow now latencyMs }
    fun a ha => ha.close rfl (Or.inl rfl)
  have hdone := hclosed.updateJobs (heldRow jobId workerId) { set := completedRow now } fun r hr => hr.congr rfl rfl rfl
  refine h.transaction ?_
  simp only
  split
  · exact hclosed
  · cases hfound : db.jobs.rows.find? (heldRow jobId workerId) with
    | none => exact hdone
    | some r =>
        have hr : JobRowOk texts (completedRow now r) :=
          (h.jobs r (List.mem_of_find?_eq_some hfound)).congr rfl rfl rfl
        simp only [Option.map_some, readRow_of_keeps hr.payload]
        exact insertNext_rowsOk hdone nextId hr

theorem failWith_rowsOk (h : RowsOk texts db) (jobId attemptId : Uuid) (workerId : String) (latencyMs : Int)
    (errorCode errorMessage target : String) {set : Table.Assign jobKey}
    (hset : ∀ r, JobRowOk texts r → JobRowOk texts (set.set r)) :
    RowsOk texts (failWith db now jobId attemptId workerId latencyMs errorCode errorMessage target set).2 := by
  have hclosed := h.updateAttempts (openRow attemptId jobId)
    { set := failedRow now latencyMs errorCode errorMessage } fun a ha => ha.close rfl (Or.inr rfl)
  have hdone := hclosed.updateJobs (heldRow jobId workerId) set hset
  refine h.transaction ?_
  simp only
  split
  · exact hclosed
  · split
    · exact hdone
    · exact hdone

/-- An attempt that is given up keeps its dataset. -/
theorem abandonedRow_rowOk {a : AttemptRow} (h : AttemptRowOk a) (errorCode errorMessage : String) :
    AttemptRowOk (abandonedRow now errorCode errorMessage a) :=
  h.close rfl (Or.inr rfl)

theorem cancelJob_rowsOk (h : RowsOk texts db) (jobId : Uuid) (workerId : Option String) :
    RowsOk texts (cancelJob db now jobId workerId).2 := by
  have hcanceled := h.updateJobs (fun r => r.id == jobId) { set := canceledRow now } fun r hr => hr.congr rfl rfl rfl
  unfold cancelJob
  cases db.jobs.lookup (·.id) jobId with
  | none => exact h
  | some current =>
      simp only
      cases checkCancel jobId current.status current.lockedBy workerId with
      | error e => exact h
      | ok u =>
          simp only
          split
          · exact hcanceled.updateAttempts _ _ fun a ha => abandonedRow_rowOk ha _ _
          · exact hcanceled

theorem closeAttempts_rowsOk (expired : List (String × Uuid)) :
    ∀ db : Db, RowsOk texts db →
      RowsOk texts { db with attempts := expired.foldl (closeAttempts now) db.attempts } := by
  induction expired with
  | nil => intro db h; exact h
  | cons job rest ih =>
      intro db h
      exact ih _ (h.updateAttempts _ _ fun a ha => abandonedRow_rowOk ha _ _)

theorem reapExpiredLocks_rowsOk (h : RowsOk texts db) : RowsOk texts (reapExpiredLocks texts db now).2 :=
  closeAttempts_rowsOk _ _ (h.updateJobs _ _ fun _ hr => hr.congr rfl rfl rfl)

end Azums.Sqlite
