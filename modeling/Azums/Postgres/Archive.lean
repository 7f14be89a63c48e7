import Mathlib.Data.List.Sort
import Azums.Postgres.Tables

/-!
# `Postgres.Archive` — what an archived job loses

`archive_succeeded_older_than` copies succeeded jobs into `jobs_archive` and deletes them from `jobs`. The `INSERT` takes
a batch, without the rows that somebody else has locked and the jobs that are in the archive already; the `DELETE`
takes every old succeeded job that has a row in the archive, whatever that row says. The columns of the `INSERT` are
those of the first `jobs_archive`: `deadline_at`, `timeout_seconds` and `recurring_interval_seconds`, which both tables
were given later, are not among them.

`lossless_iff` says for which states a job survives its archiving: those in which a job to be inserted has none of the
three, and a job that has a row in the archive has just one that is a copy of it.
-/

namespace Azums.Postgres

/-! ## The archive -/

/-- The columns that `jobs` and `jobs_archive` have in common. -/
structure CommonColumns where
  id : Uuid
  replayOfJobId : Option Uuid
  queue : String
  jobType : String
  payloadJson : Value
  runAt : DateTime
  status : String
  priority : Int
  maxAttempts : Int
  dlqReasonCode : Option String
  dlqAt : Option DateTime
  createdAt : DateTime
  updatedAt : DateTime
  deadlineAt : Option DateTime
  timeoutSeconds : Option Int
  recurringIntervalSeconds : Option Int
deriving DecidableEq

/-- A row of `jobs_archive`. The table is partitioned by `archived_at` and has no key; its index on `id` is not unique. -/
structure ArchiveRow extends CommonColumns where
  archivedAt : DateTime
deriving DecidableEq

/-- These columns of a row of `jobs`. -/
def JobRow.common (r : JobRow) : CommonColumns :=
  { id := r.id
    replayOfJobId := r.replayOfJobId
    queue := r.queue
    jobType := r.jobType
    payloadJson := r.payload
    runAt := r.runAt
    status := r.status
    priority := r.priority
    maxAttempts := r.maxAttempts
    dlqReasonCode := r.dlqReasonCode
    dlqAt := r.dlqAt
    createdAt := r.createdAt
    updatedAt := r.updatedAt
    deadlineAt := r.deadlineAt
    timeoutSeconds := r.timeoutSeconds
    recurringIntervalSeconds := r.recurringIntervalSeconds }

/-- The database with its archive. -/
structure Database extends Db where
  archive : List ArchiveRow

/-- The constraints of `jobs` allow a `DELETE`. -/
theorem jobsConstraint_shrinks : Table.Shrinks JobsConstraint := fun _ _ hsub h =>
  ⟨h.ids.sublist (hsub.map _), h.idempotencyKeyUq.sublist hsub⟩

/-- `DELETE FROM jobs WHERE p`, with the `ON DELETE CASCADE` of `job_attempts` and `policy_decisions`. -/
def deleteJobs (db : Db) (p : JobRow → Bool) : Db :=
  { db with
    jobs := db.jobs.deleteRows jobsConstraint_shrinks p
    attempts := db.attempts.delete (fun a =>
      db.jobs.rows.any (fun r => p r && r.datasetId == a.datasetId && r.id == a.jobId))
    policyDecisions := db.policyDecisions.filter (fun d =>
      !db.jobs.rows.any (fun r => p r && r.datasetId == d.datasetId && r.id == d.jobId)) }

/-! ## `archive_succeeded_older_than` -/

/-- `WHERE status = 'succeeded' AND updated_at < $1`; `cutoff` is the bound value, in whole microseconds. -/
def archivable (cutoff : DateTime) (r : JobRow) : Bool := r.status == "succeeded" && decide (r.updatedAt < cutoff)

/-- `ORDER BY updated_at ASC`. -/
def UpdatedAsc (a b : JobRow) : Prop := a.updatedAt ≤ b.updatedAt

instance : DecidableRel UpdatedAsc := fun a b => inferInstanceAs (Decidable (a.updatedAt ≤ b.updatedAt))

/-- `candidates`: `FOR UPDATE SKIP LOCKED LIMIT $2`, where other transactions have locked the rows `locked`. -/
def archiveCandidates (rows : List JobRow) (locked : JobRow → Bool) (cutoff : DateTime) (batch : Nat) : List JobRow :=
  (((rows.filter (archivable cutoff)).insertionSort UpdatedAsc).filter (fun r => !locked r)).take batch

/-- `EXISTS (SELECT 1 FROM jobs_archive a WHERE a.id = $1)`. -/
def inArchive (archive : List ArchiveRow) (id : Uuid) : Bool := archive.any (fun a => a.id == id)

/-- The row that the `INSERT` writes. It names thirteen columns: `archived_at` has its default `now()`, and the columns
    that it does not name are `NULL`. -/
def archivedRow (now : DateTime) (c : JobRow) : ArchiveRow :=
  { id := c.id
    replayOfJobId := c.replayOfJobId
    queue := c.queue
    jobType := c.jobType
    payloadJson := c.payload
    runAt := c.runAt
    status := c.status
    priority := c.priority
    maxAttempts := c.maxAttempts
    dlqReasonCode := c.dlqReasonCode
    dlqAt := c.dlqAt
    createdAt := c.createdAt
    updatedAt := c.updatedAt
    deadlineAt := none
    timeoutSeconds := none
    recurringIntervalSeconds := none
    archivedAt := now }

/-- `jobs_archive` after the `INSERT`. -/
def insertCandidates (archive : List ArchiveRow) (now : DateTime) (candidates : List JobRow) : List ArchiveRow :=
  archive ++ (candidates.filter (fun c => !inArchive archive c.id)).map (archivedRow now)

/-- `DELETE FROM jobs j USING jobs_archive a WHERE j.id = a.id AND …`. -/
def archived (archive : List ArchiveRow) (cutoff : DateTime) (r : JobRow) : Bool :=
  archivable cutoff r && inArchive archive r.id

/-- `archive_succeeded_older_than` with the bound value `cutoff`: the number of deleted jobs, and what the transaction
    leaves when it commits. -/
def archiveSucceededOlderThan (db : Database) (now : DateTime) (locked : JobRow → Bool) (cutoff : DateTime)
    (batch : Int) : Outcome Nat × Database :=
  if batch < 0 then (.err "LIMIT must not be negative", db)
  else
    let archive := insertCandidates db.archive now (archiveCandidates db.jobs.rows locked cutoff batch.toNat)
    (.ok (db.jobs.affected (archived archive cutoff)),
      { toDb := deleteJobs db.toDb (archived archive cutoff), archive := archive })

/-- The rows of an archive that are a copy of the job, column by column. -/
def copies (archive : List ArchiveRow) (r : JobRow) : Nat :=
  archive.countP (fun a => decide (a.toCommonColumns = r.common))

/-- A job that is deleted was succeeded and old, and there is exactly one copy of it in the archive; the other jobs
    stay, and nothing is added. -/
structure Lossless (cutoff : DateTime) (db db' : Database) : Prop where
  deleted : ∀ r ∈ db.jobs.rows, r ∉ db'.jobs.rows →
    r.status = "succeeded" ∧ r.updatedAt < cutoff ∧ copies db'.archive r = 1
  kept : db'.jobs.rows.Sublist db.jobs.rows

/-- The job has none of the columns that came later. -/
def Untimed (r : JobRow) : Prop :=
  r.deadlineAt = none ∧ r.timeoutSeconds = none ∧ r.recurringIntervalSeconds = none

/-- Archiving loses nothing in this state: a job that is in the archive already has one copy there, and a candidate that
    is not has none of the columns that came later. -/
def NothingToLose (db : Database) (locked : JobRow → Bool) (cutoff : DateTime) (batch : Int) : Prop :=
  ∀ r ∈ db.jobs.rows, archivable cutoff r = true →
    (inArchive db.archive r.id = true → copies db.archive r = 1) ∧
      (inArchive db.archive r.id = false → r ∈ archiveCandidates db.jobs.rows locked cutoff batch.toNat → Untimed r)

/-! ## The rows of the archive -/

variable {db : Database} {archive : List ArchiveRow} {now cutoff : DateTime} {locked : JobRow → Bool} {r : JobRow}

theorem inArchive_iff {id : Uuid} : inArchive archive id = true ↔ ∃ a ∈ archive, a.id = id := by
  simp [inArchive]

/-- The row of the `INSERT` is a copy of a job without the later columns, and of no other. -/
theorem archivedRow_common_iff {c : JobRow} : (archivedRow now c).toCommonColumns = c.common ↔ Untimed c := by
  simp [archivedRow, JobRow.common, Untimed, eq_comm]

/-- A job that is not in the archive has no copy there. -/
theorem copies_of_not_inArchive (h : inArchive archive r.id = false) : copies archive r = 0 := by
  refine List.countP_eq_zero.mpr fun a ha heq => ?_
  have hid : a.id = r.id := congrArg CommonColumns.id (of_decide_eq_true heq)
  rw [inArchive_iff.mpr ⟨a, ha, hid⟩] at h
  cases h

/-- A list without repetitions, in which nothing but `r` has a property, has it as often as `r` is there with it. -/
theorem countP_of_unique {α : Type} [DecidableEq α] {l : List α} (hnd : l.Nodup) {p : α → Bool} {a : α}
    (honly : ∀ b ∈ l, p b = true → b = a) : l.countP p = 1 ↔ a ∈ l ∧ p a = true := by
  have hcount : l.countP p = if p a = true then l.count a else 0 := by
    split
    · rename_i hp
      refine List.countP_congr fun b hb => ?_
      rw [beq_iff_eq]
      exact ⟨honly b hb, fun heq => heq ▸ hp⟩
    · rename_i hp
      exact List.countP_eq_zero.mpr fun b hb hpb => hp (honly b hb hpb ▸ hpb)
  rw [hcount]
  split
  · rename_i hp
    refine ⟨fun h1 => ⟨List.count_pos_iff.mp (by omega), hp⟩, fun h1 => List.count_eq_one_of_mem hnd h1.1⟩
  · rename_i hp
    simp [hp]

theorem archiveCandidates_subset {rows : List JobRow} {batch : Nat} :
    ∀ c ∈ archiveCandidates rows locked cutoff batch, c ∈ rows ∧ archivable cutoff c = true := by
  intro c hc
  exact List.mem_filter.mp ((List.mem_insertionSort _).mp (List.mem_of_mem_filter (List.mem_of_mem_take hc)))

theorem archiveCandidates_nodup {rows : List JobRow} (hnd : rows.Nodup) (batch : Nat) :
    (archiveCandidates rows locked cutoff batch).Nodup := by
  have hsorted := ((List.perm_insertionSort UpdatedAsc (rows.filter (archivable cutoff))).nodup_iff).mpr (hnd.filter _)
  exact (hsorted.filter _).sublist (List.take_sublist _ _)

section Insert

variable {cands : List JobRow}

/-- After the `INSERT` a job is in the archive if it was, or is a candidate. -/
theorem inArchive_insert (hcands : ∀ c ∈ cands, c ∈ db.jobs.rows) (hr : r ∈ db.jobs.rows) :
    inArchive (insertCandidates archive now cands) r.id = true ↔ inArchive archive r.id = true ∨ r ∈ cands := by
  rw [inArchive_iff]
  constructor
  · rintro ⟨a, ha, hid⟩
    rcases List.mem_append.mp ha with ha | ha
    · exact Or.inl (inArchive_iff.mpr ⟨a, ha, hid⟩)
    · obtain ⟨c, hc, rfl⟩ := List.mem_map.mp ha
      have hin := List.mem_of_mem_filter hc
      right
      rwa [← JobsTable.eq_of_id (hcands c hin) hr hid]
  · intro h
    by_cases hbefore : inArchive archive r.id = true
    · obtain ⟨a, ha, hid⟩ := inArchive_iff.mp hbefore
      exact ⟨a, List.mem_append_left _ ha, hid⟩
    · have hin := h.resolve_left hbefore
      refine ⟨archivedRow now r, List.mem_append_right _ (List.mem_map_of_mem ?_), rfl⟩
      exact List.mem_filter.mpr ⟨hin, by simpa using hbefore⟩

/-- A job that was in the archive gets no further copy. -/
theorem copies_insert_archived (h : inArchive archive r.id = true) :
    copies (insertCandidates archive now cands) r = copies archive r := by
  rw [copies, copies, insertCandidates, List.countP_append, Nat.add_eq_left, List.countP_eq_zero]
  intro a ha heq
  obtain ⟨c, hc, rfl⟩ := List.mem_map.mp ha
  have hid : c.id = r.id := congrArg CommonColumns.id (of_decide_eq_true heq)
  have hnot := (List.mem_filter.mp hc).2
  rw [hid, h] at hnot
  cases hnot

/-- A job that was not has a copy afterwards if it is a candidate without the later columns. -/
theorem copies_insert_new (hcands : ∀ c ∈ cands, c ∈ db.jobs.rows) (hnd : cands.Nodup) (hr : r ∈ db.jobs.rows)
    (h : inArchive archive r.id = false) :
    copies (insertCandidates archive now cands) r = 1 ↔ r ∈ cands ∧ Untimed r := by
  have hold := copies_of_not_inArchive h
  rw [copies] at hold
  rw [copies, insertCandidates, List.countP_append, hold, Nat.zero_add, List.countP_map]
  rw [countP_of_unique (hnd.filter _) (a := r)]
  · rw [List.mem_filter, Function.comp_apply, decide_eq_true_eq, archivedRow_common_iff]
    simp [h]
  · intro c hc heq
    rw [Function.comp_apply, decide_eq_true_eq] at heq
    exact JobsTable.eq_of_id (hcands c (List.mem_of_mem_filter hc)) hr (congrArg CommonColumns.id heq)

end Insert

/-! ## Exactly when nothing is lost -/

/-- The jobs that a `DELETE` takes. -/
theorem mem_deleted {p : JobRow → Bool} (hr : r ∈ db.jobs.rows) :
    r ∉ (deleteJobs db.toDb p).jobs.rows ↔ p r = true := by
  rw [deleteJobs, Table.deleteRows_rows, List.mem_filter, not_and]
  simp [hr]

/-- **Archiving is lossless exactly if there is nothing to lose.** Whatever the tables, the cutoff, the batch and the
    rows that others have locked: a job that is deleted was succeeded and old and has exactly one copy in the archive,
    if and only if the batch is negative (the `INSERT` is then an error) or no candidate has a deadline, a timeout or
    an interval and the jobs that were in the archive before have one copy there. -/
theorem lossless_iff (db : Database) (now : DateTime) (locked : JobRow → Bool) (cutoff : DateTime) (batch : Int) :
    Lossless cutoff db (archiveSucceededOlderThan db now locked cutoff batch).2 ↔
      batch < 0 ∨ NothingToLose db locked cutoff batch := by
  unfold archiveSucceededOlderThan
  split
  · rename_i hneg
    refine iff_of_true ⟨fun r hr hout => absurd hr hout, List.Sublist.refl _⟩ (Or.inl hneg)
  · rename_i hpos
    have hcands : ∀ c ∈ archiveCandidates db.jobs.rows locked cutoff batch.toNat, c ∈ db.jobs.rows :=
      fun c hc => (archiveCandidates_subset c hc).1
    have hnd : (archiveCandidates db.jobs.rows locked cutoff batch.toNat).Nodup :=
      archiveCandidates_nodup db.jobs.ids_nodup.of_map _
    rw [or_iff_right hpos]
    constructor
    · intro h r hr harch
      -- a job that is in the archive after the `INSERT` is deleted
      have hone (hin : inArchive db.archive r.id = true ∨
          r ∈ archiveCandidates db.jobs.rows locked cutoff batch.toNat) :
          copies (insertCandidates db.archive now
            (archiveCandidates db.jobs.rows locked cutoff batch.toNat)) r = 1 := by
        refine (h.deleted r hr ((mem_deleted hr).mpr ?_)).2.2
        rw [archived, harch, (inArchive_insert hcands hr).mpr hin]
        rfl
      constructor
      · intro hin
        rw [← copies_insert_archived hin]
        exact hone (Or.inl hin)
      · intro hnot hin
        exact ((copies_insert_new hcands hnd hr hnot).mp (hone (Or.inr hin))).2
    · intro h
      refine ⟨fun r hr hout => ?_, List.filter_sublist⟩
      have hgone := (mem_deleted hr).mp hout
      rw [archived, Bool.and_eq_true, inArchive_insert hcands hr] at hgone
      obtain ⟨harch, hin⟩ := hgone
      obtain ⟨hbefore, hnew⟩ := h r hr harch
      have hold := harch
      rw [archivable, Bool.and_eq_true, beq_iff_eq, decide_eq_true_eq] at hold
      refine ⟨hold.1, hold.2, ?_⟩
      cases harchive : inArchive db.archive r.id with
      | true =>
          rw [copies_insert_archived harchive]
          exact hbefore harchive
      | false =>
          have hcand := hin.resolve_left (by rw [harchive]; exact Bool.false_ne_true)
          exact (copies_insert_new hcands hnd hr harchive).mpr ⟨hcand, hnew harchive hcand⟩

/-- A report that was to be made within thirty seconds, and was. -/
def timedReport : JobRow :=
  { datasetId := "reports_19700101_00", replayOfJobId := none, idempotencyKey := none, id := 7, queue := "reports",
    jobType := "report", payload := "{}", runAt := 0, deadlineAt := none, timeoutSeconds := some 30,
    recurringIntervalSeconds := none, status := "succeeded", priority := 0, maxAttempts := 3, lockedAt := none,
    lockedBy := none, lockExpiresAt := none, dlqReasonCode := none, dlqAt := none, createdAt := 0, updatedAt := 100,
    lastErrorCode := none, lastErrorMessage := none }

/-- The store with this one job, and an empty archive. -/
def oneReport : Database :=
  { jobs := ⟨[timedReport], by decide⟩, attempts := ⟨[], List.nodup_nil⟩, queuePolicies := fun _ => none,
    policyDecisions := [], archive := [] }

/-- The report is archived without its timeout. -/
theorem archive_drops_timeout :
    (archiveSucceededOlderThan oneReport 500 (fun _ => false) 200 10).2.archive.map (·.timeoutSeconds) = [none] ∧
      ¬Lossless 200 oneReport (archiveSucceededOlderThan oneReport 500 (fun _ => false) 200 10).2 := by
  refine ⟨by decide, fun h => ?_⟩
  exact absurd (h.deleted timedReport (by decide) (by decide)).2.2 (by decide)

end Azums.Postgres
