import Azums.Postgres.Transactions

/-!
# `Postgres.Acks` — the lease checks of statements that commit on their own

`JobRunner::on_success`, `JobRunner::on_success_batch` and `AttemptsRepo::start_attempts_batch` run their statements
on the pool, so each statement commits by itself. All three ask for the caller's lease, and all three ask too late:
the attempt rows are already written when the job update finds no row, and a batch looks at its row count only
after the jobs that did qualify have been written.

`refusal_keeps_rows_iff` says for every state and call when a refusal for want of a lease leaves no trace.
-/

namespace Azums.Postgres

/-! ## The statements -/

/-- The order in which the engine scans an array that it has unnested. -/
structure ScanOrder {α : Type} (input : List α) where
  rows : List α
  perm : rows.Perm input

theorem succeededAttempt_id (now : DateTime) (latencyMs : Int) (r : AttemptRow) :
    (Tx.succeededAttempt now latencyMs r).id = r.id := rfl

/-- `AttemptsRepo::finish_succeeded`. -/
def finishSucceeded (t : AttemptsTable) (now : DateTime) (attemptId : Uuid) (latencyMs : Int) : AttemptsTable :=
  t.update (fun r => r.id == attemptId)
    { set := Tx.succeededAttempt now latencyMs, keeps := succeededAttempt_id now latencyMs }

/-- What `finish_succeeded_batch` makes of an attempt row: the first entry that joins it is the one that is used. -/
def finishedRow (now : DateTime) (data : List (Uuid × Int)) (r : AttemptRow) : AttemptRow :=
  (data.find? (fun d => d.1 == r.id)).elim r (fun d => Tx.succeededAttempt now d.2 r)

theorem finishedRow_id (now : DateTime) (data : List (Uuid × Int)) (r : AttemptRow) :
    (finishedRow now data r).id = r.id := by
  unfold finishedRow
  cases data.find? (fun d => d.1 == r.id) <;> rfl

/-- `AttemptsRepo::finish_succeeded_batch`. -/
def finishSucceededBatch (t : AttemptsTable) (now : DateTime) (data : List (Uuid × Int)) : AttemptsTable :=
  if data.isEmpty then t
  else
    t.update (fun r => data.any (fun d => d.1 == r.id))
      { set := finishedRow now data, keeps := finishedRow_id now data }

/-- `JobsRepo::mark_succeeded`. -/
def markSucceeded (t : JobsTable) (now : DateTime) (jobId : Uuid) (workerId : String) : Outcome Unit × JobsTable :=
  let t' := t.update (heldRow jobId workerId) { set := Tx.succeededRow now }
  if t.affected (heldRow jobId workerId) ≠ 1 then
    (.err (s!"illegal job state transition to completed for job {showUuid jobId}: " ++
      s!"expected running lease held by {workerId}"), t')
  else (.ok (), t')

/-- The rows that a batch selects in a dataset. -/
def heldAmong (datasetId : String) (jobIds : List Uuid) (workerId : String) (r : JobRow) : Bool :=
  r.datasetId == datasetId && decide (r.id ∈ jobIds) && r.lockedBy == some workerId && r.status == "running"

/-- `JobsRepo::mark_succeeded_batch_for_dataset`. -/
def markSucceededBatchForDataset (t : JobsTable) (now : DateTime) (datasetId : String) (jobIds : List Uuid)
    (workerId : String) : Outcome Nat × JobsTable :=
  if jobIds.isEmpty then (.ok 0, t)
  else
    let t' := t.update (heldAmong datasetId jobIds workerId) { set := Tx.succeededRow now }
    let changed := t.affected (heldAmong datasetId jobIds workerId)
    if changed ≠ jobIds.length then
      (.err (s!"illegal job state transition to completed: expected {jobIds.length} running jobs in dataset " ++
        s!"{datasetId} leased by {workerId}, updated {changed}"), t')
    else (.ok changed, t')

/-! ## `JobRunner` -/

/-- `JobRunner::on_success`. -/
def onSuccess (db : Db) (finishNow now : DateTime) (jobId attemptId : Uuid) (workerId : String) (latencyMs : Int) :
    Outcome Unit × Db :=
  let db := { db with attempts := finishSucceeded db.attempts finishNow attemptId latencyMs }
  let (outcome, jobs) := markSucceeded db.jobs now jobId workerId
  (outcome, { db with jobs := jobs })

/-- What the attempts statement is given. -/
def attemptUpdates (updates : List Completion) : List (Uuid × Int) := updates.map (·.2)

/-- `JobRunner::on_success_batch`. -/
def onSuccessBatch (db : Db) (finishNow now : DateTime) (datasetId : String) (updates : List Completion)
    (scan : ScanOrder (attemptUpdates updates)) (workerId : String) : Outcome Unit × Db :=
  if updates.isEmpty then (.ok (), db)
  else
    let db := { db with attempts := finishSucceededBatch db.attempts finishNow scan.rows }
    let (outcome, jobs) := markSucceededBatchForDataset db.jobs now datasetId (updates.map (·.1)) workerId
    match outcome with
    | .ok _ => (.ok (), { db with jobs := jobs })
    | .err e => (.err e, { db with jobs := jobs })
    | .panic => (.panic, { db with jobs := jobs })

/-! ## `AttemptsRepo::start_attempts_batch` -/

/-- The number of a job's next attempt. -/
def nextAttemptNo (attempts : List AttemptRow) (datasetId : String) (jobId : Uuid) : Int :=
  (((attempts.filter (fun a => a.datasetId == datasetId && a.jobId == jobId)).map (·.attemptNo)).max?).getD 0 + 1

/-- The row that starts an attempt. -/
def runningAttempt (now : DateTime) (id : Uuid) (datasetId : String) (jobId : Uuid) (attemptNo : Int)
    (workerId : String) : AttemptRow :=
  { id := id, datasetId := datasetId, jobId := jobId, attemptNo := attemptNo, status := "running",
    workerId := workerId, startedAt := now, finishedAt := none, latencyMs := none, errorCode := none,
    errorMessage := none }

/-- The worker holds the running lease of the job in the dataset. -/
def LeasedIn (t : JobsTable) (datasetId : String) (jobId : Uuid) (workerId : String) : Prop :=
  ∃ r ∈ t.rows, r.datasetId = datasetId ∧ r.id = jobId ∧ r.status = "running" ∧ r.lockedBy = some workerId

instance (t : JobsTable) (datasetId : String) (jobId : Uuid) (workerId : String) :
    Decidable (LeasedIn t datasetId jobId workerId) := inferInstanceAs (Decidable (∃ r ∈ t.rows, _))

/-- The rows of the `INSERT … SELECT`: one for each input that joins a leased job. `(dataset_id, id)` is a key of
    `jobs`, so an input joins at most one row, and every number is read before the first row is written. -/
def startRows (db : Db) (now : DateTime) (newId : Nat → Uuid) (input : List (String × Uuid)) (workerId : String) :
    List AttemptRow :=
  (input.filter (fun i => decide (LeasedIn db.jobs i.1 i.2 workerId))).mapIdx (fun n i =>
    runningAttempt now (newId n) i.1 i.2 (nextAttemptNo db.attempts.rows i.1 i.2) workerId)

/-- The constraints of `job_attempts`: `attempt_no` is an `integer`, ids and `(job_id, attempt_no)` are unique. -/
def Insertable (t : AttemptsTable) (rows : List AttemptRow) : Prop :=
  (∀ r ∈ rows, FitsInteger r.attemptNo) ∧ ((t.rows ++ rows).map (·.id)).Nodup ∧
    ((t.rows ++ rows).map (fun r => (r.jobId, r.attemptNo))).Nodup

instance (t : AttemptsTable) (rows : List AttemptRow) : Decidable (Insertable t rows) :=
  inferInstanceAs (Decidable (_ ∧ _ ∧ _))

/-- `AttemptsRepo::start_attempts_batch`. -/
def startAttemptsBatch (db : Db) (now : DateTime) (newId : Nat → Uuid) (datasetIds : List String)
    (jobIds : List Uuid) (workerId : String) : Outcome (List (Uuid × Uuid × Int)) × Db :=
  if datasetIds.isEmpty || jobIds.isEmpty then (.ok [], db)
  else if datasetIds.length ≠ jobIds.length then (.err "dataset_ids and job_ids length mismatch", db)
  else
    let rows := startRows db now newId (datasetIds.zip jobIds) workerId
    if h : Insertable db.attempts rows then
      let db := { db with attempts := ⟨db.attempts.rows ++ rows, h.2.1⟩ }
      if rows.length ≠ jobIds.length then
        (.err ("cannot start attempts: every job must be running under lease held by " ++ workerId), db)
      else (.ok (rows.map (fun r => (r.jobId, r.id, r.attemptNo))), db)
    else (.err "the INSERT violates a constraint of job_attempts", db)

/-! ## The calls -/

/-- A call of one of the three, with the clocks of its statements, the ids it is given and the order in which an
    unnested array is scanned. -/
inductive LeaseCall where
  | onSuccess (finishNow now : DateTime) (jobId attemptId : Uuid) (workerId : String) (latencyMs : Int)
  | onSuccessBatch (finishNow now : DateTime) (datasetId : String) (updates : List Completion)
      (scan : ScanOrder (attemptUpdates updates)) (workerId : String)
  | startAttemptsBatch (now : DateTime) (newId : Nat → Uuid) (datasetIds : List String) (jobIds : List Uuid)
      (workerId : String)

namespace LeaseCall

/-- The error a call returns, and the database after it. -/
def run (db : Db) : LeaseCall → Option String × Db
  | onSuccess finishNow now jobId attemptId workerId latencyMs =>
      let (outcome, db') := Postgres.onSuccess db finishNow now jobId attemptId workerId latencyMs
      (outcome.error, db')
  | onSuccessBatch finishNow now datasetId updates scan workerId =>
      let (outcome, db') := Postgres.onSuccessBatch db finishNow now datasetId updates scan workerId
      (outcome.error, db')
  | startAttemptsBatch now newId datasetIds jobIds workerId =>
      let (outcome, db') := Postgres.startAttemptsBatch db now newId datasetIds jobIds workerId
      (outcome.error, db')

/-- Some job of the call is not running under the caller's lease. -/
def Unleased (db : Db) : LeaseCall → Prop
  | onSuccess _ _ jobId _ workerId _ => ¬HoldsLease db.jobs jobId workerId
  | onSuccessBatch _ _ datasetId updates _ workerId => ∃ u ∈ updates, ¬LeasedIn db.jobs datasetId u.1 workerId
  | startAttemptsBatch _ _ datasetIds jobIds workerId =>
      ∃ i ∈ datasetIds.zip jobIds, ¬LeasedIn db.jobs i.1 i.2 workerId

/-- An error for want of a lease leaves every row of `jobs` and `job_attempts` as it was. -/
def KeepsRows (db : Db) (call : LeaseCall) : Prop :=
  (call.run db).1.isSome → call.Unleased db →
    (call.run db).2.jobs = db.jobs ∧ (call.run db).2.attempts = db.attempts

/-- What is left to go wrong: the lease is there for all of the call, or for none of it and the attempt rows it names
    already read as it would leave them. An `INSERT` that a constraint turns away writes nothing either. -/
def Traceless (db : Db) : LeaseCall → Prop
  | onSuccess finishNow _ jobId attemptId workerId latencyMs =>
      HoldsLease db.jobs jobId workerId ∨
        ∀ r ∈ db.attempts.rows, r.id = attemptId → Tx.succeededAttempt finishNow latencyMs r = r
  | onSuccessBatch finishNow _ datasetId updates scan workerId =>
      (∀ u ∈ updates, LeasedIn db.jobs datasetId u.1 workerId) ∨
        ((∀ u ∈ updates, ¬LeasedIn db.jobs datasetId u.1 workerId) ∧
          ∀ r ∈ db.attempts.rows, finishedRow finishNow scan.rows r = r)
  | startAttemptsBatch now newId datasetIds jobIds workerId =>
      (∀ i ∈ datasetIds.zip jobIds, LeasedIn db.jobs i.1 i.2 workerId) ∨
        (∀ i ∈ datasetIds.zip jobIds, ¬LeasedIn db.jobs i.1 i.2 workerId) ∨
        datasetIds.length ≠ jobIds.length ∨
        ¬Insertable db.attempts (startRows db now newId (datasetIds.zip jobIds) workerId)

end LeaseCall

/-! ## Which statements write -/

section Statements

variable {t : JobsTable} {now : DateTime} {jobId : Uuid} {workerId : String}

theorem finishSucceeded_eq_self {t : AttemptsTable} {attemptId : Uuid} {latencyMs : Int} :
    finishSucceeded t now attemptId latencyMs = t ↔
      ∀ r ∈ t.rows, r.id = attemptId → Tx.succeededAttempt now latencyMs r = r := by
  unfold finishSucceeded
  rw [Table.update_eq_self]
  simp only [beq_iff_eq]

theorem finishSucceededBatch_eq_self {t : AttemptsTable} {data : List (Uuid × Int)} :
    finishSucceededBatch t now data = t ↔ ∀ r ∈ t.rows, finishedRow now data r = r := by
  unfold finishSucceededBatch
  -- the `UPDATE … FROM` leaves a row alone whose id is not in the data
  have hmiss : ∀ r : AttemptRow, data.any (fun d => d.1 == r.id) = false → finishedRow now data r = r := by
    intro r hr
    have hnone : data.find? (fun d => d.1 == r.id) = none := by
      rw [List.find?_eq_none]
      intro d hd hid
      rw [List.any_eq_false] at hr
      exact hr d hd hid
    rw [finishedRow, hnone, Option.elim_none]
  by_cases hempty : data.isEmpty = true
  · rw [if_pos hempty]
    rw [List.isEmpty_iff] at hempty
    subst hempty
    exact ⟨fun _ r _ => hmiss r rfl, fun _ => rfl⟩
  · rw [if_neg hempty, Table.update_eq_self]
    constructor
    · intro h r hr
      by_cases hsel : data.any (fun d => d.1 == r.id) = true
      · exact h r hr hsel
      · exact hmiss r (Bool.not_eq_true _ ▸ hsel)
    · intro h r hr _
      exact h r hr

/-- Without the lease the job update selects no row. -/
theorem markSucceeded_of_not_holds (h : ¬HoldsLease t jobId workerId) :
    (markSucceeded t now jobId workerId).1.error.isSome ∧ (markSucceeded t now jobId workerId).2 = t := by
  have hzero := affected_held_eq_zero h
  unfold markSucceeded
  simp only [hzero, ne_eq, zero_ne_one, not_false_eq_true, if_true]
  exact ⟨rfl, Table.update_of_affected_zero hzero⟩

theorem onSuccess_keepsRows (db : Db) (finishNow now : DateTime) (attemptId : Uuid) (latencyMs : Int)
    (h : ¬HoldsLease db.jobs jobId workerId) :
    ((onSuccess db finishNow now jobId attemptId workerId latencyMs).2.jobs = db.jobs ∧
      (onSuccess db finishNow now jobId attemptId workerId latencyMs).2.attempts = db.attempts) ↔
      ∀ r ∈ db.attempts.rows, r.id = attemptId → Tx.succeededAttempt finishNow latencyMs r = r := by
  rw [← finishSucceeded_eq_self]
  exact ⟨And.right, fun hatt => ⟨(markSucceeded_of_not_holds h).2, hatt⟩⟩

variable {datasetId : String} {jobIds : List Uuid}

/-- A batch selects a row for each job it holds. -/
theorem heldAmong_iff {r : JobRow} :
    heldAmong datasetId jobIds workerId r = true ↔
      r.id ∈ jobIds ∧ r.datasetId = datasetId ∧ r.status = "running" ∧ r.lockedBy = some workerId := by
  simp only [heldAmong, Bool.and_eq_true, beq_iff_eq, decide_eq_true_eq]
  constructor
  · rintro ⟨⟨⟨hds, hid⟩, hby⟩, hst⟩
    exact ⟨hid, hds, hst, hby⟩
  · rintro ⟨hid, hds, hst, hby⟩
    exact ⟨⟨⟨hds, hid⟩, hby⟩, hst⟩

/-- One job that is not leased makes the row count of a batch too small. -/
theorem affected_lt_of_unleased {id : Uuid} (hid : id ∈ jobIds) (h : ¬LeasedIn t datasetId id workerId) :
    t.affected (heldAmong datasetId jobIds workerId) < jobIds.length := by
  have hnodup : ((t.rows.filter (heldAmong datasetId jobIds workerId)).map (·.id)).Nodup :=
    t.ids_nodup.sublist (List.filter_sublist.map _)
  have hsub : (t.rows.filter (heldAmong datasetId jobIds workerId)).map (·.id) ⊆ jobIds.erase id := by
    intro x hx
    obtain ⟨r, hr, rfl⟩ := List.mem_map.mp hx
    rw [List.mem_filter, heldAmong_iff] at hr
    obtain ⟨hrow, hmem, hleased⟩ := hr
    refine (List.mem_erase_of_ne ?_).mpr hmem
    rintro rfl
    exact h ⟨r, hrow, hleased.1, rfl, hleased.2⟩
  have hle := (List.subperm_of_subset hnodup hsub).length_le
  have hpos := List.length_pos_of_mem hid
  rw [List.length_map, List.length_erase_of_mem hid, ← List.countP_eq_length_filter] at hle
  show t.rows.countP _ < _
  omega

/-- The job update of a batch changes nothing exactly when it holds none of the jobs. -/
theorem update_heldAmong_eq_self :
    t.update (heldAmong datasetId jobIds workerId) { set := Tx.succeededRow now } = t ↔
      ∀ id ∈ jobIds, ¬LeasedIn t datasetId id workerId := by
  rw [Table.update_eq_self]
  constructor
  · rintro h id hid ⟨r, hr, hds, rfl, hst, hby⟩
    have hset := congrArg (fun r : JobRow => r.status) (h r hr (heldAmong_iff.mpr ⟨hid, hds, hst, hby⟩))
    have hsame : "succeeded" = r.status := hset
    rw [hst] at hsame
    exact absurd hsame (by decide)
  · intro h r hr hsel
    obtain ⟨hid, hds, hst, hby⟩ := heldAmong_iff.mp hsel
    exact absurd ⟨r, hr, hds, rfl, hst, hby⟩ (h r.id hid)

/-- A batch that misses a job returns an error, after its update. -/
theorem markSucceededBatchForDataset_of_unleased (now : DateTime) {id : Uuid} (hid : id ∈ jobIds)
    (h : ¬LeasedIn t datasetId id workerId) :
    ∃ e, markSucceededBatchForDataset t now datasetId jobIds workerId =
      (.err e, t.update (heldAmong datasetId jobIds workerId) { set := Tx.succeededRow now }) := by
  have hne : jobIds.isEmpty = false := List.isEmpty_eq_false_iff_exists_mem.mpr ⟨id, hid⟩
  have hlt := affected_lt_of_unleased hid h
  unfold markSucceededBatchForDataset
  simp only [hne, Bool.false_eq_true, if_false, ne_eq, hlt.ne, not_false_eq_true, if_true]
  exact ⟨_, rfl⟩

/-- `on_success_batch` with a job that is not leased: an error, after both its updates. -/
theorem onSuccessBatch_of_unleased (db : Db) (finishNow now : DateTime) (updates : List Completion)
    (scan : ScanOrder (attemptUpdates updates)) (h : ∃ u ∈ updates, ¬LeasedIn db.jobs datasetId u.1 workerId) :
    ∃ e, onSuccessBatch db finishNow now datasetId updates scan workerId = (.err e, { db with
      jobs := db.jobs.update (heldAmong datasetId (updates.map (·.1)) workerId) { set := Tx.succeededRow now }
      attempts := finishSucceededBatch db.attempts finishNow scan.rows }) := by
  obtain ⟨u, hu, hnot⟩ := h
  have hne : updates.isEmpty = false := List.isEmpty_eq_false_iff_exists_mem.mpr ⟨u, hu⟩
  have hjob : u.1 ∈ updates.map (·.1) := List.mem_map_of_mem hu
  obtain ⟨e, hmark⟩ := markSucceededBatchForDataset_of_unleased now hjob hnot
  refine ⟨e, ?_⟩
  unfold onSuccessBatch
  simp only [hne, Bool.false_eq_true, if_false, hmark]

theorem onSuccessBatch_keepsRows (db : Db) (finishNow now : DateTime) (updates : List Completion)
    (scan : ScanOrder (attemptUpdates updates)) (h : ∃ u ∈ updates, ¬LeasedIn db.jobs datasetId u.1 workerId) :
    ((onSuccessBatch db finishNow now datasetId updates scan workerId).2.jobs = db.jobs ∧
      (onSuccessBatch db finishNow now datasetId updates scan workerId).2.attempts = db.attempts) ↔
      (∀ u ∈ updates, ¬LeasedIn db.jobs datasetId u.1 workerId) ∧
        ∀ r ∈ db.attempts.rows, finishedRow finishNow scan.rows r = r := by
  obtain ⟨e, heq⟩ := onSuccessBatch_of_unleased db finishNow now updates scan h
  rw [heq]
  simp only
  rw [update_heldAmong_eq_self, finishSucceededBatch_eq_self]
  simp only [List.mem_map, forall_exists_index, and_imp, forall_apply_eq_imp_iff₂]

theorem onSuccessBatch_refused (db : Db) (finishNow now : DateTime) (updates : List Completion)
    (scan : ScanOrder (attemptUpdates updates)) (h : ∃ u ∈ updates, ¬LeasedIn db.jobs datasetId u.1 workerId) :
    (onSuccessBatch db finishNow now datasetId updates scan workerId).1.error.isSome := by
  obtain ⟨e, heq⟩ := onSuccessBatch_of_unleased db finishNow now updates scan h
  rw [heq]
  rfl

/-- One input that is not leased makes the row count of the `INSERT` too small. -/
theorem startRows_length_lt {db : Db} (now : DateTime) (newId : Nat → Uuid) {input : List (String × Uuid)}
    (h : ∃ i ∈ input, ¬LeasedIn db.jobs i.1 i.2 workerId) :
    (startRows db now newId input workerId).length < input.length := by
  obtain ⟨i, hi, hnot⟩ := h
  rw [startRows, List.length_mapIdx]
  refine List.length_filter_lt_length_iff_exists.mpr ⟨i, hi, ?_⟩
  rwa [decide_eq_true_eq]

/-- The `INSERT` writes nothing exactly when no input is leased. -/
theorem startRows_eq_nil {db : Db} (now : DateTime) (newId : Nat → Uuid) {input : List (String × Uuid)} :
    startRows db now newId input workerId = [] ↔ ∀ i ∈ input, ¬LeasedIn db.jobs i.1 i.2 workerId := by
  rw [startRows, List.mapIdx_eq_nil_iff, List.filter_eq_nil_iff]
  simp only [decide_eq_true_eq]

theorem startAttemptsBatch_keepsRows (db : Db) (now : DateTime) (newId : Nat → Uuid) (datasetIds : List String)
    (h : ∃ i ∈ datasetIds.zip jobIds, ¬LeasedIn db.jobs i.1 i.2 workerId) :
    (startAttemptsBatch db now newId datasetIds jobIds workerId).1.error.isSome ∧
      (((startAttemptsBatch db now newId datasetIds jobIds workerId).2.jobs = db.jobs ∧
        (startAttemptsBatch db now newId datasetIds jobIds workerId).2.attempts = db.attempts) ↔
        (∀ i ∈ datasetIds.zip jobIds, ¬LeasedIn db.jobs i.1 i.2 workerId) ∨
          datasetIds.length ≠ jobIds.length ∨
          ¬Insertable db.attempts (startRows db now newId (datasetIds.zip jobIds) workerId)) := by
  have hlt := startRows_length_lt now newId h
  obtain ⟨⟨ds, id⟩, hi, _⟩ := h
  have hds : datasetIds.isEmpty = false := List.isEmpty_eq_false_iff_exists_mem.mpr ⟨ds, (List.of_mem_zip hi).1⟩
  have hid : jobIds.isEmpty = false := List.isEmpty_eq_false_iff_exists_mem.mpr ⟨id, (List.of_mem_zip hi).2⟩
  rw [List.length_zip] at hlt
  unfold startAttemptsBatch
  simp only [hds, hid, Bool.or_self, Bool.false_eq_true, if_false]
  by_cases hlen : datasetIds.length = jobIds.length
  · rw [if_neg (not_not.mpr hlen)]
    by_cases hins : Insertable db.attempts (startRows db now newId (datasetIds.zip jobIds) workerId)
    · -- the rows inserted are fewer than the ids asked for: they are committed, and then the call fails
      have hrows : (startRows db now newId (datasetIds.zip jobIds) workerId).length ≠ jobIds.length := by omega
      rw [dif_pos hins, if_pos hrows]
      refine ⟨rfl, ?_⟩
      rw [← startRows_eq_nil now newId]
      constructor
      · rintro ⟨_, hatt⟩
        have happ : db.attempts.rows ++ startRows db now newId (datasetIds.zip jobIds) workerId =
            db.attempts.rows := congrArg Table.rows hatt
        exact Or.inl (List.append_right_eq_self.mp happ)
      · rintro (hnil | hne | hnot)
        · refine ⟨rfl, Table.ext_rows ?_⟩
          show db.attempts.rows ++ _ = _
          rw [hnil, List.append_nil]
        · exact absurd hlen hne
        · exact absurd hins hnot
    · rw [dif_neg hins]
      exact ⟨rfl, fun _ => Or.inr (Or.inr hins), fun _ => ⟨rfl, rfl⟩⟩
  · rw [if_pos hlen]
    exact ⟨rfl, fun _ => Or.inr (Or.inl hlen), fun _ => ⟨rfl, rfl⟩⟩

end Statements

/-- **When a refusal leaves no trace.** For every state and call: an error for want of a lease leaves the rows of
    `jobs` and `job_attempts` as they were, exactly when the call is `Traceless`. -/
theorem refusal_keeps_rows_iff (db : Db) (call : LeaseCall) : call.KeepsRows db ↔ call.Traceless db := by
  cases call with
  | onSuccess finishNow now jobId attemptId workerId latencyMs =>
      by_cases h : HoldsLease db.jobs jobId workerId
      · exact ⟨fun _ => Or.inl h, fun _ _ hnot => absurd h hnot⟩
      · have hkeep := onSuccess_keepsRows db finishNow now attemptId latencyMs h
        have herr : ((LeaseCall.onSuccess finishNow now jobId attemptId workerId latencyMs).run db).1.isSome :=
          (markSucceeded_of_not_holds h).1
        constructor
        · intro hall
          exact Or.inr (hkeep.mp (hall herr h))
        · rintro (hheld | hsame)
          · exact absurd hheld h
          · exact fun _ _ => hkeep.mpr hsame
  | onSuccessBatch finishNow now datasetId updates scan workerId =>
      by_cases h : ∃ u ∈ updates, ¬LeasedIn db.jobs datasetId u.1 workerId
      · have hkeep := onSuccessBatch_keepsRows db finishNow now updates scan h
        constructor
        · intro hall
          exact Or.inr (hkeep.mp (hall (onSuccessBatch_refused db finishNow now updates scan h) h))
        · rintro (hleased | hsame)
          · obtain ⟨u, hu, hnot⟩ := h
            exact absurd (hleased u hu) hnot
          · exact fun _ _ => hkeep.mpr hsame
      · have hleased : ∀ u ∈ updates, LeasedIn db.jobs datasetId u.1 workerId := by
          intro u hu
          by_contra hnot
          exact h ⟨u, hu, hnot⟩
        exact ⟨fun _ => Or.inl hleased, fun _ _ hun => absurd hun h⟩
  | startAttemptsBatch now newId datasetIds jobIds workerId =>
      by_cases h : ∃ i ∈ datasetIds.zip jobIds, ¬LeasedIn db.jobs i.1 i.2 workerId
      · obtain ⟨herr, hkeep⟩ := startAttemptsBatch_keepsRows db now newId datasetIds h
        constructor
        · intro hall
          exact Or.inr (hkeep.mp (hall herr h))
        · rintro (hleased | hsame)
          · obtain ⟨i, hi, hnot⟩ := h
            exact absurd (hleased i hi) hnot
          · exact fun _ _ => hkeep.mpr hsame
      · have hleased : ∀ i ∈ datasetIds.zip jobIds, LeasedIn db.jobs i.1 i.2 workerId := by
          intro i hi
          by_contra hnot
          exact h ⟨i, hi, hnot⟩
        exact ⟨fun _ => Or.inl hleased, fun _ _ hun => absurd hun h⟩

/-! ### Half a batch -/

/-- `w1` still runs job 2, and has lost job 1 to `w2`. -/
def halfLeasedDb : Db :=
  { releasedDb with
    jobs := ⟨[releasedJob, { releasedJob with id := 2, lockedBy := some "w1" }], by decide⟩
    attempts := ⟨[reapedAttempt, runningAttempt 100 11 "emails_19700101_00" 2 1 "w1"], by decide⟩ }

/-- A late `on_success` turns the reaped attempt into a success; a batch completes the job that is still held; a batch
    of starts leaves a running attempt. All three return an error. -/
theorem refused_calls_write :
    ¬(LeaseCall.onSuccess 150 151 1 10 "w1" 20).KeepsRows halfLeasedDb ∧
    ¬(LeaseCall.onSuccessBatch 150 151 "emails_19700101_00" [(1, 10, 20), (2, 11, 30)]
      ⟨[(10, 20), (11, 30)], .refl _⟩ "w1").KeepsRows halfLeasedDb ∧
    ¬(LeaseCall.startAttemptsBatch 150 (fun n => 20 + n) ["emails_19700101_00", "emails_19700101_00"] [1, 2]
      "w1").KeepsRows halfLeasedDb := by
  have hjob : ¬LeasedIn halfLeasedDb.jobs "emails_19700101_00" 1 "w1" := by decide
  refine ⟨fun h => ?_, fun h => ?_, fun h => ?_⟩
  · have hlost : ¬HoldsLease halfLeasedDb.jobs 1 "w1" := by
      unfold HoldsLease
      decide
    have hatt := (h (by decide) hlost).2
    exact absurd (congrArg (fun t : AttemptsTable => t.rows.map (·.status)) hatt) (by decide)
  · have hjobs := (h (by decide) ⟨(1, 10, 20), by simp, hjob⟩).1
    exact absurd (congrArg (fun t : JobsTable => t.rows.map (·.status)) hjobs) (by decide)
  · have hatt := (h (by decide) ⟨("emails_19700101_00", 1), by simp, hjob⟩).2
    exact absurd (congrArg (fun t : AttemptsTable => t.rows.length) hatt) (by decide)

end Azums.Postgres
