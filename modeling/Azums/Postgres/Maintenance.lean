import Azums.Lib.OrderBy
import Azums.Lib.System
import Azums.Postgres.Archive
import Azums.Postgres.History

/-!
# `Postgres.Maintenance` — what the maintenance of the workers makes of a database

A worker process archives and prunes, in a loop: `archive_succeeded_older_than` moves old succeeded jobs into the
archive, `delete_history_for_succeeded_older_than` deletes the attempts and the decisions of old succeeded jobs that are
still in `jobs`. Any number of workers do so, with clocks and settings of their own, while jobs are enqueued and run.
Each transaction of the maintenance here is one that commits; one that is rolled back leaves nothing. A cutoff is the
value as it is bound, a `timestamptz` of whole microseconds.

* `maintenance_law` — a job is in `jobs` or in the archive, once, and as it was asked for; and an attempt or a decision
  is gone only if its job was succeeded and old, and was archived or among the first of the batch.
* `backlog_drains` — the archiving takes the oldest first: jobs that succeed later do not keep it from what is there.
-/

namespace Azums.Postgres

/-! ## `delete_history_for_succeeded_older_than` -/

/-- `SELECT id … WHERE status = 'succeeded' AND updated_at < $1 ORDER BY updated_at ASC LIMIT $2`. -/
def oldSucceeded (rows : List JobRow) (cutoff : DateTime) (batch : Nat) : List JobRow :=
  ((rows.filter (archivable cutoff)).insertionSort UpdatedAsc).take batch

/-- `job_id = ANY($1)`. -/
def amongJobs (jobIds : List Uuid) (jobId : Uuid) : Bool := decide (jobId ∈ jobIds)

/-- `delete_history_for_succeeded_older_than` with the bound value `cutoff`: the numbers of deleted attempts and
    decisions, and what the transaction leaves when it commits. -/
def deleteHistoryForSucceededOlderThan (db : Database) (cutoff : DateTime) (batch : Int) :
    Outcome (Nat × Nat) × Database :=
  if batch < 0 then (.err "LIMIT must not be negative", db)
  else
    let jobIds := (oldSucceeded db.jobs.rows cutoff batch.toNat).map (·.id)
    if jobIds.isEmpty then (.ok (0, 0), db)
    else
      (.ok (db.attempts.affected (fun a => amongJobs jobIds a.jobId),
          db.policyDecisions.countP (fun d => amongJobs jobIds d.jobId)),
        { db with
          attempts := db.attempts.delete (fun a => amongJobs jobIds a.jobId)
          policyDecisions := db.policyDecisions.filter (fun d => !amongJobs jobIds d.jobId) })

/-! ## The system -/

/-- What happens to the database: a transaction of the maintenance that commits, or others between two of them. -/
inductive MaintenanceMove where
  | archive (now : DateTime) (locked : JobRow → Bool) (cutoff : DateTime) (batch : Int)
  | prune (cutoff : DateTime) (batch : Int)
  | work

/-- What the other transactions leave: jobs as they were asked for, attempts as they started, and decisions. They do not
    touch the archive, and a new job has an id that was not given out before. -/
structure Worked (db db' : Database) : Prop where
  jobs : ∀ r ∈ db.jobs.rows, ∃ r' ∈ db'.jobs.rows, r'.request = r.request
  attempts : ∀ a ∈ db.attempts.rows, ∃ a' ∈ db'.attempts.rows, a'.start = a.start
  decisions : ∀ d ∈ db.policyDecisions, d ∈ db'.policyDecisions
  archive : db'.archive = db.archive
  fresh : ∀ r' ∈ db'.jobs.rows, (∃ r ∈ db.jobs.rows, r.id = r'.id) ∨ inArchive db.archive r'.id = false

/-- The database after a move. -/
def maintenanceStep (db : Database) : MaintenanceMove → Database → Prop
  | .archive now locked cutoff batch, db' => db' = (archiveSucceededOlderThan db now locked cutoff batch).2
  | .prune cutoff batch, db' => db' = (deleteHistoryForSucceededOlderThan db cutoff batch).2
  | .work, db' => Worked db db'

/-- No job is in the archive and in `jobs`, and none is in the archive twice. -/
structure Apart (db : Database) : Prop where
  jobs : ∀ r ∈ db.jobs.rows, inArchive db.archive r.id = false
  archive : (db.archive.map (·.id)).Nodup

/-- Workers that maintain a database in which that is so. -/
def maintenanceSystem : System Database MaintenanceMove := { init := Apart, step := maintenanceStep }

/-! ### Other transactions -/

/-- The store has committed what is in the database. -/
structure Shows (db : Db) (s : Store) : Prop where
  jobs : ∀ r, r ∈ db.jobs.rows ↔ (s.jobs.cell r.rowId).committed = some r
  attempts : ∀ a, a ∈ db.attempts.rows ↔ (s.attempts.cell a.id).committed = some a
  decisions : ∀ d, d ∈ db.policyDecisions ↔ (s.policyDecisions.cell d.id).committed = some d

/-- Transactions that keep the history work as `Worked` says, where the ids of new jobs are new. -/
theorem Worked.of_history {s s' : HistoryPool} {moves : List (Move ClientId HistoryTx)} {db db' : Database}
    (hs : historySystem.Reachable s) (hrun : historySystem.Run s moves s') (hdb : Shows db.toDb s.store)
    (hdb' : Shows db'.toDb s'.store) (harchive : db'.archive = db.archive)
    (hfresh : ∀ r' ∈ db'.jobs.rows, (∃ r ∈ db.jobs.rows, r.id = r'.id) ∨ inArchive db.archive r'.id = false) :
    Worked db db' where
  jobs r hr := by
    obtain ⟨r', hr', hsame⟩ := (history_kept hs hrun).jobs r.rowId r ((hdb.jobs r).mp hr)
    refine ⟨r', (hdb'.jobs r').mpr ?_, hsame⟩
    rw [s'.store.jobs.keyed r.rowId r' hr']
    exact hr'
  attempts a ha := by
    obtain ⟨a', ha', hsame⟩ := (history_kept hs hrun).attempts a.id a ((hdb.attempts a).mp ha)
    refine ⟨a', (hdb'.attempts a').mpr ?_, hsame⟩
    rw [s'.store.attempts.keyed a.id a' ha']
    exact ha'
  decisions d hd := (hdb'.decisions d).mpr ((history_kept hs hrun).decisions d.id d ((hdb.decisions d).mp hd))
  archive := harchive
  fresh := hfresh

/-! ## What a move does -/

/-- The archive has the job as it was asked for, but for the columns that its `INSERT` does not name. -/
structure ArchivedAs (r : JobRow) (a : ArchiveRow) : Prop where
  id : a.id = r.id
  replayOfJobId : a.replayOfJobId = r.replayOfJobId
  queue : a.queue = r.queue
  jobType : a.jobType = r.jobType
  payloadJson : a.payloadJson = r.payload
  status : a.status = "succeeded"
  priority : a.priority = r.priority
  maxAttempts : a.maxAttempts = r.maxAttempts
  createdAt : a.createdAt = r.createdAt

/-- How many of the jobs that a move may take were updated before `r`. -/
def rank (rows : List JobRow) (locked : JobRow → Bool) (cutoff : DateTime) (r : JobRow) : Nat :=
  rows.countP (fun b => archivable cutoff b && !locked b && decide (b.updatedAt < r.updatedAt))

/-- A move takes the job: it was succeeded and old, and fewer jobs than the batch has room for were older. -/
def MaintenanceMove.Takes (db : Database) (r : JobRow) : MaintenanceMove → Prop
  | .archive _ locked cutoff batch =>
      r ∈ db.jobs.rows ∧ archivable cutoff r = true ∧ (rank db.jobs.rows locked cutoff r : Int) < batch
  | .prune cutoff batch =>
      r ∈ db.jobs.rows ∧ archivable cutoff r = true ∧ (rank db.jobs.rows (fun _ => false) cutoff r : Int) < batch
  | .work => False

section Moves

variable {db db' : Database} {now cutoff : DateTime} {locked : JobRow → Bool} {batch : Int} {r : JobRow}

instance : Std.Total UpdatedAsc where
  total a b := by
    simp only [UpdatedAsc, DateTime]
    omega

instance : IsTrans JobRow UpdatedAsc where
  trans a b c hab hbc := by
    simp only [UpdatedAsc, DateTime] at hab hbc ⊢
    omega

/-- The candidates are the first of those that are not locked. -/
theorem rank_lt_of_mem_candidates {rows : List JobRow} {n : Nat} (h : r ∈ archiveCandidates rows locked cutoff n) :
    rank rows locked cutoff r < n := by
  have hsorted : (((rows.filter (archivable cutoff)).insertionSort UpdatedAsc).filter
      (fun r => !locked r)).Pairwise UpdatedAsc := (List.pairwise_insertionSort ..).filter _
  have hlt := OrderBy.countP_before_lt hsorted h
  rw [List.countP_filter, (List.perm_insertionSort _ _).countP_eq, List.countP_filter] at hlt
  refine lt_of_eq_of_lt (List.countP_congr fun b _ => ?_) hlt
  have hbefore : ¬UpdatedAsc r b ↔ b.updatedAt < r.updatedAt := not_le
  simp only [Bool.and_eq_true, Bool.not_eq_true', decide_eq_false_iff_not, decide_eq_true_eq, hbefore]
  exact ⟨fun h => ⟨⟨h.2, h.1.2⟩, h.1.1⟩, fun h => ⟨⟨h.2, h.1.2⟩, h.1.1⟩⟩

theorem archiveCandidates_unlocked {rows : List JobRow} {n : Nat} :
    archiveCandidates rows (fun _ => false) cutoff n = oldSucceeded rows cutoff n := by
  simp [archiveCandidates, oldSucceeded]

/-- A batch that is not negative is a number. -/
theorem lt_of_lt_toNat {n : Nat} (h : n < batch.toNat) : (n : Int) < batch := by omega

/-- What a `DELETE` of jobs takes of their history. -/
theorem deleteJobs_history (db : Db) (p : JobRow → Bool) :
    (∀ a ∈ db.attempts.rows, a ∈ (deleteJobs db p).attempts.rows ∨ ∃ r ∈ db.jobs.rows, p r = true ∧ r.id = a.jobId) ∧
      ∀ d ∈ db.policyDecisions, d ∈ (deleteJobs db p).policyDecisions ∨
        ∃ r ∈ db.jobs.rows, p r = true ∧ r.id = d.jobId := by
  have howner : ∀ datasetId jobId,
      (db.jobs.rows.any (fun r => p r && r.datasetId == datasetId && r.id == jobId)) = true →
        ∃ r ∈ db.jobs.rows, p r = true ∧ r.id = jobId := by
    intro datasetId jobId hany
    obtain ⟨r, hr, hmatch⟩ := List.any_eq_true.mp hany
    rw [Bool.and_eq_true, Bool.and_eq_true, beq_iff_eq, beq_iff_eq] at hmatch
    exact ⟨r, hr, hmatch.1.1, hmatch.2⟩
  constructor
  · intro a ha
    by_cases hany : (db.jobs.rows.any (fun r => p r && r.datasetId == a.datasetId && r.id == a.jobId)) = true
    · exact Or.inr (howner _ _ hany)
    · exact Or.inl (List.mem_filter.mpr ⟨ha, (Bool.not_eq_true' _).mpr (Bool.eq_false_iff.mpr hany)⟩)
  · intro d hd
    by_cases hany : (db.jobs.rows.any (fun r => p r && r.datasetId == d.datasetId && r.id == d.jobId)) = true
    · exact Or.inr (howner _ _ hany)
    · exact Or.inl (List.mem_filter.mpr ⟨hd, (Bool.not_eq_true' _).mpr (Bool.eq_false_iff.mpr hany)⟩)

/-- Of a database whose jobs are not archived yet, the `INSERT` archives the candidates, and the `DELETE` takes them. -/
theorem archive_spec (h : Apart db) (now : DateTime) (locked : JobRow → Bool) (cutoff : DateTime) (batch : Int) :
    let cands := archiveCandidates db.jobs.rows locked cutoff batch.toNat
    let after := (archiveSucceededOlderThan db now locked cutoff batch).2
    after.archive = db.archive ++ cands.map (archivedRow now) ∧
      after.jobs.rows = db.jobs.rows.filter (fun r => decide (r ∉ cands)) ∧
      (∀ a ∈ db.attempts.rows, a ∈ after.attempts.rows ∨ ∃ r ∈ cands, r.id = a.jobId) ∧
      ∀ d ∈ db.policyDecisions, d ∈ after.policyDecisions ∨ ∃ r ∈ cands, r.id = d.jobId := by
  intro cands after
  have hcands : ∀ c ∈ cands, c ∈ db.jobs.rows ∧ archivable cutoff c = true := archiveCandidates_subset
  by_cases hneg : batch < 0
  · have hnil : cands = [] := by
      show List.take batch.toNat _ = []
      rw [Int.toNat_of_nonpos (le_of_lt hneg), List.take_zero]
    have hafter : after = db := by
      show (archiveSucceededOlderThan db now locked cutoff batch).2 = db
      rw [archiveSucceededOlderThan, if_pos hneg]
    rw [hafter, hnil]
    exact ⟨by simp, by simp, fun a ha => Or.inl ha, fun d hd => Or.inl hd⟩
  · have hinsert : insertCandidates db.archive now cands = db.archive ++ cands.map (archivedRow now) := by
      refine congrArg (fun l => db.archive ++ l.map (archivedRow now)) (List.filter_eq_self.mpr fun c hc => ?_)
      rw [h.jobs c (hcands c hc).1]
      rfl
    have hgone : ∀ r ∈ db.jobs.rows,
        archived (insertCandidates db.archive now cands) cutoff r = true ↔ r ∈ cands := by
      intro r hr
      rw [archived, Bool.and_eq_true, inArchive_insert (fun c hc => (hcands c hc).1) hr, h.jobs r hr]
      simp only [Bool.false_eq_true, false_or]
      exact ⟨And.right, fun hin => ⟨(hcands r hin).2, hin⟩⟩
    have hafter : after = { toDb := deleteJobs db.toDb (archived (insertCandidates db.archive now cands) cutoff)
                            archive := insertCandidates db.archive now cands } := by
      show (archiveSucceededOlderThan db now locked cutoff batch).2 = _
      rw [archiveSucceededOlderThan, if_neg hneg]
    obtain ⟨hattempts, hdecisions⟩ :=
      deleteJobs_history db.toDb (archived (insertCandidates db.archive now cands) cutoff)
    rw [hafter]
    refine ⟨hinsert, ?_, fun a ha => ?_, fun d hd => ?_⟩
    · show (deleteJobs _ _).jobs.rows = _
      rw [deleteJobs, Table.deleteRows_rows]
      refine List.filter_congr fun r hr => ?_
      rw [Bool.eq_iff_iff, Bool.not_eq_true', ← Bool.not_eq_true, hgone r hr, decide_eq_true_iff]
    · refine (hattempts a ha).imp_right ?_
      rintro ⟨r, hr, hp, hid⟩
      exact ⟨r, (hgone r hr).mp hp, hid⟩
    · refine (hdecisions d hd).imp_right ?_
      rintro ⟨r, hr, hp, hid⟩
      exact ⟨r, (hgone r hr).mp hp, hid⟩

/-- Pruning takes attempts and decisions of old succeeded jobs, and nothing else. -/
theorem prune_spec (db : Database) (cutoff : DateTime) (batch : Int) :
    let old := oldSucceeded db.jobs.rows cutoff batch.toNat
    let after := (deleteHistoryForSucceededOlderThan db cutoff batch).2
    after.jobs = db.jobs ∧ after.archive = db.archive ∧
      (∀ a ∈ db.attempts.rows, a ∈ after.attempts.rows ∨ ∃ r ∈ old, r.id = a.jobId) ∧
      ∀ d ∈ db.policyDecisions, d ∈ after.policyDecisions ∨ ∃ r ∈ old, r.id = d.jobId := by
  intro old after
  show (deleteHistoryForSucceededOlderThan db cutoff batch).2.jobs = _ ∧
    (deleteHistoryForSucceededOlderThan db cutoff batch).2.archive = _ ∧
    (∀ a ∈ db.attempts.rows, a ∈ (deleteHistoryForSucceededOlderThan db cutoff batch).2.attempts.rows ∨ _) ∧
    ∀ d ∈ db.policyDecisions, d ∈ (deleteHistoryForSucceededOlderThan db cutoff batch).2.policyDecisions ∨ _
  unfold deleteHistoryForSucceededOlderThan
  split
  · exact ⟨rfl, rfl, fun a ha => Or.inl ha, fun d hd => Or.inl hd⟩
  · simp only
    split
    · exact ⟨rfl, rfl, fun a ha => Or.inl ha, fun d hd => Or.inl hd⟩
    · refine ⟨rfl, rfl, fun a ha => ?_, fun d hd => ?_⟩
      · by_cases hin : a.jobId ∈ old.map (·.id)
        · exact Or.inr (List.mem_map.mp hin)
        · exact Or.inl (List.mem_filter.mpr ⟨ha, by simpa [amongJobs] using hin⟩)
      · by_cases hin : d.jobId ∈ old.map (·.id)
        · exact Or.inr (List.mem_map.mp hin)
        · exact Or.inl (List.mem_filter.mpr ⟨hd, by simpa [amongJobs] using hin⟩)

/-- What an archiving takes, it takes in its turn. -/
theorem takes_of_candidate (h : r ∈ archiveCandidates db.jobs.rows locked cutoff batch.toNat) :
    (MaintenanceMove.archive now locked cutoff batch).Takes db r := by
  obtain ⟨hr, harch⟩ := archiveCandidates_subset r h
  exact ⟨hr, harch, lt_of_lt_toNat (rank_lt_of_mem_candidates h)⟩

theorem takes_of_old (h : r ∈ oldSucceeded db.jobs.rows cutoff batch.toNat) :
    (MaintenanceMove.prune cutoff batch).Takes db r := by
  rw [← archiveCandidates_unlocked] at h
  obtain ⟨hr, harch⟩ := archiveCandidates_subset r h
  exact ⟨hr, harch, lt_of_lt_toNat (rank_lt_of_mem_candidates h)⟩

theorem candidate_ids_nodup (db : Database) (locked : JobRow → Bool) (cutoff : DateTime) (n : Nat) :
    ((archiveCandidates db.jobs.rows locked cutoff n).map (·.id)).Nodup := by
  refine (List.nodup_map_iff_inj_on (archiveCandidates_nodup db.jobs.ids_nodup.of_map n)).mpr fun c hc c' hc' hid => ?_
  exact JobsTable.eq_of_id (archiveCandidates_subset c hc).1 (archiveCandidates_subset c' hc').1 hid

theorem Apart.archive_step (h : Apart db)
    (hstep : maintenanceStep db (.archive now locked cutoff batch) db') : Apart db' := by
  obtain ⟨harchive, hjobs, _, _⟩ := archive_spec h now locked cutoff batch
  rw [maintenanceStep] at hstep
  rw [← hstep] at harchive hjobs
  constructor
  · intro r hr
    rw [hjobs, List.mem_filter, decide_eq_true_iff] at hr
    by_contra hin
    rw [Bool.not_eq_false, inArchive_iff] at hin
    obtain ⟨a, ha, hid⟩ := hin
    rw [harchive] at ha
    rcases List.mem_append.mp ha with ha | ha
    · have hout := h.jobs r hr.1
      rw [inArchive_iff.mpr ⟨a, ha, hid⟩] at hout
      cases hout
    · obtain ⟨c, hc, rfl⟩ := List.mem_map.mp ha
      refine hr.2 ?_
      rw [← JobsTable.eq_of_id (archiveCandidates_subset c hc).1 hr.1 hid]
      exact hc
  · rw [harchive, List.map_append, List.map_map]
    refine List.nodup_append.mpr ⟨h.archive, candidate_ids_nodup db locked cutoff batch.toNat, ?_⟩
    intro id hid id' hid' heq
    obtain ⟨a, ha, rfl⟩ := List.mem_map.mp hid
    obtain ⟨c, hc, rfl⟩ := List.mem_map.mp hid'
    have hid : a.id = c.id := heq
    have hout := h.jobs c (archiveCandidates_subset c hc).1
    rw [inArchive_iff.mpr ⟨a, ha, hid⟩] at hout
    cases hout

/-- **A move keeps the jobs and the archive apart.** -/
theorem Apart.step {move : MaintenanceMove} (h : Apart db) (hstep : maintenanceStep db move db') : Apart db' := by
  cases move with
  | archive now locked cutoff batch => exact h.archive_step hstep
  | prune cutoff batch =>
      obtain ⟨hjobs, harchive, _, _⟩ := prune_spec db cutoff batch
      rw [maintenanceStep] at hstep
      rw [← hstep] at hjobs harchive
      exact ⟨by rw [hjobs, harchive]; exact h.jobs, by rw [harchive]; exact h.archive⟩
  | work =>
      refine ⟨fun r' hr' => ?_, by rw [hstep.archive]; exact h.archive⟩
      rw [hstep.archive]
      rcases hstep.fresh r' hr' with ⟨r, hr, hid⟩ | hnew
      · rw [← hid]
        exact h.jobs r hr
      · exact hnew

/-- Where a job is after a move: in `jobs`, or in the archive. -/
theorem job_step {move : MaintenanceMove} (h : Apart db) (hstep : maintenanceStep db move db') (hr : r ∈ db.jobs.rows) :
    (∃ r' ∈ db'.jobs.rows, r'.request = r.request) ∨ ∃ a ∈ db'.archive, ArchivedAs r a := by
  cases move with
  | archive now locked cutoff batch =>
      obtain ⟨harchive, hjobs, _, _⟩ := archive_spec h now locked cutoff batch
      rw [maintenanceStep] at hstep
      rw [← hstep] at harchive hjobs
      by_cases hin : r ∈ archiveCandidates db.jobs.rows locked cutoff batch.toNat
      · refine Or.inr ⟨archivedRow now r, ?_, ?_⟩
        · rw [harchive]
          exact List.mem_append_right _ (List.mem_map_of_mem hin)
        · have hold := (archiveCandidates_subset r hin).2
          rw [archivable, Bool.and_eq_true, beq_iff_eq] at hold
          exact ⟨rfl, rfl, rfl, rfl, rfl, hold.1, rfl, rfl, rfl⟩
      · refine Or.inl ⟨r, ?_, rfl⟩
        rw [hjobs, List.mem_filter, decide_eq_true_iff]
        exact ⟨hr, hin⟩
  | prune cutoff batch =>
      obtain ⟨hjobs, _, _, _⟩ := prune_spec db cutoff batch
      rw [maintenanceStep] at hstep
      rw [← hstep] at hjobs
      exact Or.inl ⟨r, by rw [hjobs]; exact hr, rfl⟩
  | work => exact Or.inl (hstep.jobs r hr)

/-- The archive only grows. -/
theorem archive_grows {move : MaintenanceMove} (h : Apart db) (hstep : maintenanceStep db move db') :
    db.archive <+: db'.archive := by
  cases move with
  | archive now locked cutoff batch =>
      obtain ⟨harchive, _, _, _⟩ := archive_spec h now locked cutoff batch
      rw [maintenanceStep] at hstep
      rw [← hstep] at harchive
      rw [harchive]
      exact List.prefix_append _ _
  | prune cutoff batch =>
      obtain ⟨_, harchive, _, _⟩ := prune_spec db cutoff batch
      rw [maintenanceStep] at hstep
      rw [← hstep] at harchive
      exact harchive ▸ List.prefix_rfl
  | work => exact hstep.archive ▸ List.prefix_rfl

/-- An attempt that a move removes is one of a job that it takes. -/
theorem attempt_step {move : MaintenanceMove} (h : Apart db) (hstep : maintenanceStep db move db') {a : AttemptRow}
    (ha : a ∈ db.attempts.rows) :
    (∃ a' ∈ db'.attempts.rows, a'.start = a.start) ∨ ∃ r, r.id = a.jobId ∧ move.Takes db r := by
  cases move with
  | archive now locked cutoff batch =>
      obtain ⟨_, _, hattempts, _⟩ := archive_spec h now locked cutoff batch
      rw [maintenanceStep] at hstep
      rw [hstep]
      rcases hattempts a ha with hin | ⟨r, hr, hid⟩
      · exact Or.inl ⟨a, hin, rfl⟩
      · exact Or.inr ⟨r, hid, takes_of_candidate hr⟩
  | prune cutoff batch =>
      obtain ⟨_, _, hattempts, _⟩ := prune_spec db cutoff batch
      rw [maintenanceStep] at hstep
      rw [hstep]
      rcases hattempts a ha with hin | ⟨r, hr, hid⟩
      · exact Or.inl ⟨a, hin, rfl⟩
      · exact Or.inr ⟨r, hid, takes_of_old hr⟩
  | work => exact Or.inl (hstep.attempts a ha)

/-- And so is a decision. -/
theorem decision_step {move : MaintenanceMove} (h : Apart db) (hstep : maintenanceStep db move db') {d : PolicyDecision}
    (hd : d ∈ db.policyDecisions) :
    d ∈ db'.policyDecisions ∨ ∃ r, r.id = d.jobId ∧ move.Takes db r := by
  cases move with
  | archive now locked cutoff batch =>
      obtain ⟨_, _, _, hdecisions⟩ := archive_spec h now locked cutoff batch
      rw [maintenanceStep] at hstep
      rw [hstep]
      rcases hdecisions d hd with hin | ⟨r, hr, hid⟩
      · exact Or.inl hin
      · exact Or.inr ⟨r, hid, takes_of_candidate hr⟩
  | prune cutoff batch =>
      obtain ⟨_, _, _, hdecisions⟩ := prune_spec db cutoff batch
      rw [maintenanceStep] at hstep
      rw [hstep]
      rcases hdecisions d hd with hin | ⟨r, hr, hid⟩
      · exact Or.inl hin
      · exact Or.inr ⟨r, hid, takes_of_old hr⟩
  | work => exact Or.inl (hstep.decisions d hd)

end Moves

/-! ## Runs -/

section Runs

variable {db db' db'' : Database} {r r' : JobRow}

theorem reachable_apart (h : maintenanceSystem.Reachable db) : Apart db :=
  h.invariant (I := Apart) (fun _ hs => hs) fun _ _ _ _ hs hstep => hs.step hstep

/-- What the maintenance makes of the jobs over a run. -/
structure Conserved (db db' : Database) : Prop where
  jobs : ∀ r ∈ db.jobs.rows, (∃ r' ∈ db'.jobs.rows, r'.request = r.request) ∨ ∃ a ∈ db'.archive, ArchivedAs r a
  archive : db.archive <+: db'.archive
  apart : Apart db'

/-- The archive has what the job was asked for. -/
theorem ArchivedAs.congr {a : ArchiveRow} (hsame : r'.request = r.request) (h : ArchivedAs r' a) : ArchivedAs r a where
  id := h.id.trans (congrArg (·.id) hsame)
  replayOfJobId := h.replayOfJobId.trans (congrArg (·.replayOfJobId) hsame)
  queue := h.queue.trans (congrArg (·.queue) hsame)
  jobType := h.jobType.trans (congrArg (·.jobType) hsame)
  payloadJson := h.payloadJson.trans (congrArg (·.payload) hsame)
  status := h.status
  priority := h.priority.trans (congrArg (·.priority) hsame)
  maxAttempts := h.maxAttempts.trans (congrArg (·.maxAttempts) hsame)
  createdAt := h.createdAt.trans (congrArg (·.createdAt) hsame)

theorem Conserved.trans (h : Conserved db db') (h' : Conserved db' db'') : Conserved db db'' where
  jobs r hr := by
    rcases h.jobs r hr with ⟨r', hr', hsame⟩ | ⟨a, ha, has⟩
    · rcases h'.jobs r' hr' with ⟨r'', hr'', hsame'⟩ | ⟨a, ha, has⟩
      · exact Or.inl ⟨r'', hr'', hsame'.trans hsame⟩
      · exact Or.inr ⟨a, ha, has.congr hsame⟩
    · exact Or.inr ⟨a, h'.archive.subset ha, has⟩
  archive := h.archive.trans h'.archive
  apart := h'.apart

/-- Some move of the run takes the job. -/
def TakenIn (db : Database) (moves : List MaintenanceMove) (db' : Database) (jobId : Uuid) : Prop :=
  ∃ earlier move later db₁ db₂ r, moves = earlier ++ move :: later ∧ maintenanceSystem.Run db earlier db₁ ∧
    maintenanceStep db₁ move db₂ ∧ maintenanceSystem.Run db₂ later db' ∧ r.id = jobId ∧ move.Takes db₁ r

/-- **The run rule for records of jobs.** A record that a move removes only with its job taken is there at the end of a
    run, or its job was taken. -/
theorem run_taken {ρ : Type} (holds : Database → ρ → Prop) (jobId : ρ → Uuid)
    (hstep : ∀ {db db' move a}, maintenanceSystem.Reachable db → maintenanceStep db move db' → holds db a →
      holds db' a ∨ ∃ r, r.id = jobId a ∧ move.Takes db r)
    {moves : List MaintenanceMove} (hs : maintenanceSystem.Reachable db) (hrun : maintenanceSystem.Run db moves db')
    {a : ρ} (ha : holds db a) : holds db' a ∨ TakenIn db moves db' (jobId a) := by
  induction hrun with
  | nil => exact Or.inl ha
  | @cons db db₁ db' move moves hone hrest ih =>
      rcases hstep hs hone ha with hkept | ⟨r, hid, htakes⟩
      · refine (ih (hs.next hone) hkept).imp_right ?_
        rintro ⟨earlier, move', later, db₂, db₃, r, rfl, hbefore, hmove, hafter, hid, htakes⟩
        exact ⟨move :: earlier, move', later, db₂, db₃, r, rfl, .cons hone hbefore, hmove, hafter, hid, htakes⟩
      · exact Or.inr ⟨[], move, moves, db, db₁, r, rfl, .nil _, hone, hrest, hid, htakes⟩

variable {moves : List MaintenanceMove}

/-- By induction on the run: each move conserves the jobs. -/
theorem run_conserved (hs : maintenanceSystem.Reachable db) (hrun : maintenanceSystem.Run db moves db') :
    Conserved db db' := by
  induction hrun with
  | nil => exact ⟨fun r hr => Or.inl ⟨r, hr, rfl⟩, List.prefix_rfl, reachable_apart hs⟩
  | @cons db db₁ _ _ _ hone _ ih =>
      have hapart := reachable_apart hs
      have hstep : Conserved db db₁ :=
        ⟨fun _ hr => job_step hapart hone hr, archive_grows hapart hone, hapart.step hone⟩
      exact hstep.trans (ih (hs.next hone))

/-- The attempt is in the database, as it started. -/
def Started (db : Database) (a : AttemptRow) : Prop := ∃ a' ∈ db.attempts.rows, a'.start = a.start

theorem started_step {move : MaintenanceMove} {a : AttemptRow} (hs : maintenanceSystem.Reachable db)
    (hstep : maintenanceStep db move db') (ha : Started db a) :
    Started db' a ∨ ∃ r, r.id = a.jobId ∧ move.Takes db r := by
  obtain ⟨a', ha', hsame⟩ := ha
  have hjob : a'.jobId = a.jobId := congrArg (·.jobId) hsame
  rw [← hjob]
  refine (attempt_step (reachable_apart hs) hstep ha').imp_left ?_
  rintro ⟨a'', ha'', hsame'⟩
  exact ⟨a'', ha'', hsame'.trans hsame⟩

/-- **Nothing is lost to the maintenance.** Whatever any number of workers archive and prune, at whatever clocks and
    with whatever rows locked by others, and whatever jobs run in between: a job that was in `jobs` is there or in the
    archive, as it was asked for; it is nowhere twice, and the archive keeps its rows. An attempt that started, and a
    decision, is still there, unless its job was taken by a move: it was succeeded and older than the cutoff then, and
    fewer jobs than the batch has room for were older. -/
theorem maintenance_law (hs : maintenanceSystem.Reachable db) (hrun : maintenanceSystem.Run db moves db') :
    Conserved db db' ∧
      (∀ a ∈ db.attempts.rows, Started db' a ∨ TakenIn db moves db' a.jobId) ∧
      ∀ d ∈ db.policyDecisions, d ∈ db'.policyDecisions ∨ TakenIn db moves db' d.jobId := by
  refine ⟨run_conserved hs hrun, fun a ha => ?_, fun d hd => ?_⟩
  · exact run_taken Started (·.jobId) started_step hs hrun ⟨a, ha, rfl⟩
  · exact run_taken (fun db d => d ∈ db.policyDecisions) (·.jobId)
      (fun hs hone hd => decision_step (reachable_apart hs) hone hd) hs hrun hd

end Runs

/-! ### The history of the job that comes second -/

/-- Two reports, an attempt of the later one, and an empty archive. -/
def twoReports : Database :=
  { jobs := ⟨[timedReport, { timedReport with id := 8, updatedAt := 150 }], by decide⟩
    attempts := ⟨[{ leasedAttempt with jobId := 8, status := "succeeded" }], by decide⟩
    queuePolicies := fun _ => none
    policyDecisions := []
    archive := [] }

/-- A batch has room for one job: the attempt is pruned once the older report is archived. -/
def oneAtATime : List MaintenanceMove := [.prune 200 1, .archive 500 (fun _ => false) 200 1, .prune 200 1]

/-- What the moves leave. -/
def prunedOnce : Database := (deleteHistoryForSucceededOlderThan twoReports 200 1).2
def archivedOnce : Database := (archiveSucceededOlderThan prunedOnce 500 (fun _ => false) 200 1).2
def prunedTwice : Database := (deleteHistoryForSucceededOlderThan archivedOnce 200 1).2

theorem oneAtATime_run : maintenanceSystem.Run twoReports oneAtATime prunedTwice := by
  have hfirst : maintenanceStep twoReports (.prune 200 1) prunedOnce := rfl
  have hsecond : maintenanceStep prunedOnce (.archive 500 (fun _ => false) 200 1) archivedOnce := rfl
  exact .cons hfirst (.cons hsecond (.cons rfl (.nil _)))

theorem twoReports_apart : Apart twoReports := ⟨by decide, by decide⟩

/-- The first pruning is about the older report, and leaves the attempt. -/
theorem maintenance_law_second :
    Conserved twoReports prunedTwice ∧ TakenIn twoReports oneAtATime prunedTwice 8 ∧
      prunedOnce.attempts.rows.length = 1 ∧ prunedTwice.jobs.rows.map (·.id) = [8] ∧
        prunedTwice.archive.map (·.id) = [7] := by
  obtain ⟨hconserved, hattempts, _⟩ := maintenance_law (.start twoReports_apart) oneAtATime_run
  have hgone : prunedTwice.attempts.rows = [] := by decide
  refine ⟨hconserved, ?_, by decide, by decide, by decide⟩
  refine (hattempts _ (List.mem_singleton_self _)).resolve_left ?_
  rintro ⟨a, ha, _⟩
  rw [hgone] at ha
  cases ha

/-! ## The backlog -/

section Backlog

variable {db db' : Database} {u : DateTime} {moves : List MaintenanceMove}

/-- A succeeded job that was not updated after `u`. -/
def settledBy (u : DateTime) (r : JobRow) : Bool := r.status == "succeeded" && decide (r.updatedAt ≤ u)

/-- The jobs that are to be archived before any that is updated after `u`. -/
def backlog (u : DateTime) (rows : List JobRow) : Nat := rows.countP (settledBy u)

/-- The moves that the backlog is about: an archiving has a cutoff after `u`, and finds the backlog unlocked; others
    succeed with jobs after `u`. -/
def AfterInstant (u : DateTime) (db : Database) (move : MaintenanceMove) (db' : Database) : Prop :=
  match move with
  | .archive _ locked cutoff _ => u < cutoff ∧ ∀ r ∈ db.jobs.rows, settledBy u r = true → locked r = false
  | .prune _ _ => True
  | .work => ∀ r ∈ db'.jobs.rows, settledBy u r = true → r ∈ db.jobs.rows

/-- The room in the batch of an archiving. -/
def MaintenanceMove.room : MaintenanceMove → Nat
  | .archive _ _ _ batch => batch.toNat
  | .prune _ _ | .work => 0

theorem archivable_of_settled {cutoff : DateTime} {r : JobRow} (h : settledBy u r = true) (hu : u < cutoff) :
    archivable cutoff r = true := by
  simp only [settledBy, archivable, Bool.and_eq_true, beq_iff_eq, decide_eq_true_eq, DateTime] at h hu ⊢
  exact ⟨h.1, by omega⟩

/-- Of the backlog, an archiving takes as much as its batch has room for. -/
theorem countP_candidates {rows : List JobRow} {locked : JobRow → Bool} {cutoff : DateTime} (hu : u < cutoff)
    (hfree : ∀ r ∈ rows, settledBy u r = true → locked r = false) (n : Nat) :
    (archiveCandidates rows locked cutoff n).countP (settledBy u) = min n (backlog u rows) := by
  have hsorted : (((rows.filter (archivable cutoff)).insertionSort UpdatedAsc).filter
      (fun r => !locked r)).Pairwise (fun a b => settledBy u b = true → settledBy u a = true) := by
    refine ((List.pairwise_insertionSort UpdatedAsc _).filter _).imp_of_mem fun {a b} ha _ hab hb => ?_
    have harch := (List.mem_filter.mp ((List.mem_insertionSort _).mp (List.mem_of_mem_filter ha))).2
    simp only [settledBy, archivable, UpdatedAsc, Bool.and_eq_true, beq_iff_eq, decide_eq_true_eq, DateTime]
      at hb harch hab ⊢
    exact ⟨harch.1, by omega⟩
  rw [archiveCandidates, OrderBy.countP_take hsorted, List.countP_filter, (List.perm_insertionSort _ _).countP_eq,
    List.countP_filter]
  refine congrArg (min n) (List.countP_congr fun r hr => ?_)
  rw [Bool.and_eq_true, Bool.and_eq_true, Bool.not_eq_true']
  exact ⟨fun h => h.1.1, fun h => ⟨⟨h, hfree r hr h⟩, archivable_of_settled h hu⟩⟩

/-- What is left of a list without some of its rows. -/
theorem countP_without {rows cands : List JobRow} (hnd : rows.Nodup) (hcands : cands.Nodup)
    (hsub : ∀ c ∈ cands, c ∈ rows) (p : JobRow → Bool) :
    (rows.filter (fun r => decide (r ∉ cands))).countP p + cands.countP p = rows.countP p := by
  have hperm : (rows.filter (fun r => decide (r ∈ cands))).Perm cands := by
    refine (List.perm_ext_iff_of_nodup (hnd.filter _) hcands).mpr fun r => ?_
    rw [List.mem_filter, decide_eq_true_iff]
    exact ⟨And.right, fun h => ⟨hsub r h, h⟩⟩
  rw [← hperm.countP_eq, Nat.add_comm, ← List.countP_append]
  refine List.Perm.countP_eq _ ?_
  have hsplit := List.filter_append_perm (fun r => decide (r ∈ cands)) rows
  simpa only [decide_not] using hsplit

/-- Jobs of a later list that are all in an earlier one are no more. -/
theorem backlog_le {rows rows' : List JobRow} (hnd' : rows'.Nodup)
    (h : ∀ r ∈ rows', settledBy u r = true → r ∈ rows) : backlog u rows' ≤ backlog u rows := by
  rw [backlog, backlog, List.countP_eq_length_filter, List.countP_eq_length_filter]
  refine (List.subperm_of_subset (hnd'.filter _) fun r hr => ?_).length_le
  obtain ⟨hmem, hp⟩ := List.mem_filter.mp hr
  exact List.mem_filter.mpr ⟨h r hmem hp, hp⟩

/-- **A move works the backlog off**, as far as it has room. -/
theorem backlog_step {move : MaintenanceMove} (h : Apart db) (hstep : maintenanceStep db move db')
    (hafter : AfterInstant u db move db') : backlog u db'.jobs.rows ≤ backlog u db.jobs.rows - move.room := by
  cases move with
  | archive now locked cutoff batch =>
      obtain ⟨_, hjobs, _, _⟩ := archive_spec h now locked cutoff batch
      rw [maintenanceStep] at hstep
      rw [← hstep] at hjobs
      have hnd : db.jobs.rows.Nodup := db.jobs.ids_nodup.of_map _
      have hcands : (archiveCandidates db.jobs.rows locked cutoff batch.toNat).Nodup := archiveCandidates_nodup hnd _
      have hsub : ∀ c ∈ archiveCandidates db.jobs.rows locked cutoff batch.toNat, c ∈ db.jobs.rows :=
        fun c hc => (archiveCandidates_subset c hc).1
      have hsplit := countP_without hnd hcands hsub (settledBy u)
      rw [countP_candidates hafter.1 hafter.2, ← hjobs] at hsplit
      simp only [backlog, MaintenanceMove.room] at hsplit ⊢
      omega
  | prune cutoff batch =>
      obtain ⟨hjobs, _, _, _⟩ := prune_spec db cutoff batch
      rw [maintenanceStep] at hstep
      rw [← hstep] at hjobs
      rw [hjobs]
      exact Nat.le_refl _
  | work =>
      have hnd : db'.jobs.rows.Nodup := db'.jobs.ids_nodup.of_map _
      exact backlog_le hnd hafter

/-- **The oldest first.** Take any instant `u`, and any run in which the archivings have cutoffs after `u` and find the
    jobs that had succeeded by `u` unlocked, and no job succeeds with an `updated_at` up to `u` any more. The batches of
    the archivings, whoever sends them, add up: so many of these jobs are gone at the end, or all of them, however many
    jobs succeed meanwhile. -/
theorem backlog_drains (hs : (maintenanceSystem.restrict (AfterInstant u)).Reachable db)
    (hrun : (maintenanceSystem.restrict (AfterInstant u)).Run db moves db') :
    backlog u db'.jobs.rows ≤ backlog u db.jobs.rows - (moves.map (·.room)).sum := by
  induction hrun with
  | nil => exact Nat.le_refl _
  | @cons db db₁ db' move moves hone _ ih =>
      have hapart : Apart db := by
        refine hs.invariant (I := Apart) (fun _ h => h) ?_
        intro s move s' _ h hstep
        exact h.step hstep.1
      have hstep := backlog_step hapart hone.1 hone.2
      have hrest := ih (hs.next hone)
      rw [List.map_cons, List.sum_cons]
      omega

end Backlog

/-- One archiving with room for one job works off one of the two reports. -/
theorem backlog_drains_second : backlog 150 twoReports.jobs.rows = 2 ∧
    backlog 150 prunedTwice.jobs.rows ≤ backlog 150 twoReports.jobs.rows - (oneAtATime.map (·.room)).sum := by
  have hafter : ∀ r ∈ prunedOnce.jobs.rows, settledBy 150 r = true → (fun _ : JobRow => false) r = false :=
    fun _ _ _ => rfl
  have hfirst : (maintenanceSystem.restrict (AfterInstant 150)).step twoReports (.prune 200 1) prunedOnce :=
    ⟨rfl, trivial⟩
  have hsecond : (maintenanceSystem.restrict (AfterInstant 150)).step prunedOnce
      (.archive 500 (fun _ => false) 200 1) archivedOnce := ⟨rfl, by decide, hafter⟩
  have hrun : (maintenanceSystem.restrict (AfterInstant 150)).Run twoReports oneAtATime prunedTwice :=
    .cons hfirst (.cons hsecond (.cons ⟨rfl, trivial⟩ (.nil _)))
  exact ⟨by decide, backlog_drains (.start twoReports_apart) hrun⟩

end Azums.Postgres
