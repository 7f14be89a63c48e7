import Azums.Lib.Patch
import Azums.Postgres.Acks

/-!
# `Worker.Records` — the reports of the worker, with others in between

`on_success_batch` and `on_failure` are two statements each, every one committed by itself, so others may act between
any two. As long as these leave the rows of the worker's batch alone, a report finds the rows as the tasks left them
and patches its own. Whatever the others do, no statement of a report touches a row outside the batch.
-/

namespace Azums.Worker

open Azums.Jobs Azums.Postgres

/-! ## The two calls -/

/-- `JobRunner::on_success_batch`, with what others do between its statements. -/
def onSuccessBatchAmid (between : Db → Db) (db : Db) (finishNow now : DateTime) (datasetId : String)
    (updates : List Completion) (scan : ScanOrder (attemptUpdates updates)) (workerId : String) : Outcome Unit × Db :=
  if updates.isEmpty then (.ok (), db)
  else
    let db := between { db with attempts := finishSucceededBatch db.attempts finishNow scan.rows }
    let (outcome, jobs) := markSucceededBatchForDataset db.jobs now datasetId (updates.map (·.1)) workerId
    match outcome with
    | .ok _ => (.ok (), { db with jobs := jobs })
    | .err e => (.err e, { db with jobs := jobs })
    | .panic => (.panic, { db with jobs := jobs })

/-- `JobRunner::on_failure`, likewise. -/
def onFailureAmid (between : Db → Db) (db : Db) (env : FailureEnv) (f : Failure) : Outcome Unit × Db :=
  retryOrDlq
    (between { db with
      attempts := finishFailed db.attempts env.finishNow f.attemptId f.latencyMs f.errorCode f.errorMessage })
    env f

theorem onSuccessBatchAmid_id : onSuccessBatchAmid id = onSuccessBatch := rfl

theorem onFailureAmid_id : onFailureAmid id = onFailure := rfl

/-! ## The rows of a batch -/

def jobAt (db : Db) (k : Uuid) : Option JobRow := db.jobs.lookup (·.id) k

def attemptAt (db : Db) (k : Uuid) : Option AttemptRow := db.attempts.lookup (·.id) k

/-- What others do leaves the rows of the batch alone. -/
structure Leaves (jobIds attemptIds : List Uuid) (between : Db → Db) : Prop where
  jobs : ∀ db, ∀ k ∈ jobIds, jobAt (between db) k = jobAt db k
  attempts : ∀ db, ∀ k ∈ attemptIds, attemptAt (between db) k = attemptAt db k

/-- The batch's rows of one database are those of another, patched. -/
structure Patched (jobIds attemptIds : List Uuid) (ps : List (Uuid × (JobRow → JobRow)))
    (as : List (Uuid × (AttemptRow → AttemptRow))) (db db' : Db) : Prop where
  jobs : ∀ k ∈ jobIds, jobAt db' k = (jobAt db k).map (patch (·.id) ps)
  attempts : ∀ k ∈ attemptIds, attemptAt db' k = (attemptAt db k).map (patch (·.id) as)

/-- What a batch has no part in: the other rows, the policies and the decisions. -/
structure Rest where
  jobs : List JobRow
  attempts : List AttemptRow
  queuePolicies : String → Option QueuePolicy
  policyDecisions : List PolicyDecision

/-- The rest of a database. -/
def restOf (jobIds attemptIds : List Uuid) (db : Db) : Rest where
  jobs := db.jobs.rows.filter (fun r => decide (r.id ∉ jobIds))
  attempts := db.attempts.rows.filter (fun r => decide (r.id ∉ attemptIds))
  queuePolicies := db.queuePolicies
  policyDecisions := db.policyDecisions

section Rows

variable {jobIds attemptIds : List Uuid} {db db' db'' : Db} {ps ps' : List (Uuid × (JobRow → JobRow))}
  {as as' : List (Uuid × (AttemptRow → AttemptRow))} {k : Uuid}

/-- An id names one row. -/
theorem exists_row_iff {P : JobRow → Prop} :
    (∃ r ∈ db.jobs.rows, r.id = k ∧ P r) ↔ ∃ r, jobAt db k = some r ∧ P r := by
  constructor
  · rintro ⟨r, hr, rfl, h⟩
    exact ⟨r, Table.lookup_of_mem (JobsTable.ids_nodup _) hr, h⟩
  · rintro ⟨r, hr, h⟩
    obtain ⟨hmem, hid⟩ := Table.lookup_some hr
    exact ⟨r, hmem, hid, h⟩

theorem isRunning_iff : IsRunning db.jobs k ↔ ∃ r, jobAt db k = some r ∧ r.status = "running" := exists_row_iff

theorem holdsLease_iff {workerId : String} : HoldsLease db.jobs k workerId ↔
    ∃ r, jobAt db k = some r ∧ r.status = "running" ∧ r.lockedBy = some workerId := exists_row_iff

theorem leasedIn_iff {datasetId workerId : String} : LeasedIn db.jobs datasetId k workerId ↔
    ∃ r, jobAt db k = some r ∧ r.datasetId = datasetId ∧ r.status = "running" ∧ r.lockedBy = some workerId := by
  rw [← exists_row_iff]
  exact exists_congr fun r => and_congr_right fun _ => and_left_comm

theorem jobAt_id {r : JobRow} (h : jobAt db k = some r) : r.id = k := (Table.lookup_some h).2

/-- An update of the row under an id patches it. -/
theorem lookup_update_patch {t : JobsTable} {p : JobRow → Bool} {f : Table.Assign JobRow.key} {ids : List Uuid}
    (hkey : ∀ r, (f.set r).id = r.id) (hp : ∀ r ∈ t.rows, p r = true ↔ r.id ∈ ids) (hnd : ids.Nodup) (k : Uuid) :
    (t.update p f).lookup (·.id) k =
      (t.lookup (·.id) k).map (patch (·.id) (ids.map fun id => (id, f.set))) := by
  have hids : (ids.map fun id => (id, f.set)).map (·.1) = ids := by
    rw [List.map_map]
    exact List.map_id _
  rw [Table.lookup_update hkey]
  refine Option.map_congr fun r hr => ?_
  have hsel := hp r (Table.lookup_some hr).1
  by_cases hid : r.id ∈ ids
  · rw [if_pos (hsel.mpr hid), patch_of_mem (by rwa [hids]) (List.mem_map_of_mem hid) rfl]
  · rw [if_neg fun h => hid (hsel.mp h), patch_of_notMem (by rwa [hids])]

namespace Patched

theorem refl (db : Db) : Patched jobIds attemptIds [] [] db db where
  jobs _ _ := (Option.map_id' ..).symm
  attempts _ _ := (Option.map_id' ..).symm

theorem of_leaves {between : Db → Db} (h : Leaves jobIds attemptIds between) (db : Db) :
    Patched jobIds attemptIds [] [] db (between db) where
  jobs k hk := (h.jobs db k hk).trans (Option.map_id' ..).symm
  attempts k hk := (h.attempts db k hk).trans (Option.map_id' ..).symm

theorem trans (h : Patched jobIds attemptIds ps as db db') (h' : Patched jobIds attemptIds ps' as' db' db'')
    (hps : ∀ p ∈ ps, ∀ r, (p.2 r).id = r.id) (has : ∀ p ∈ as, ∀ r, (p.2 r).id = r.id)
    (hnd : ((ps ++ ps').map (·.1)).Nodup) (hnd' : ((as ++ as').map (·.1)).Nodup) :
    Patched jobIds attemptIds (ps ++ ps') (as ++ as') db db'' where
  jobs k hk := by
    rw [h'.jobs k hk, h.jobs k hk, Option.map_map]
    exact Option.map_congr fun r _ => patch_patch hps hnd
  attempts k hk := by
    rw [h'.attempts k hk, h.attempts k hk, Option.map_map]
    exact Option.map_congr fun r _ => patch_patch has hnd'

theorem perm (h : Patched jobIds attemptIds ps as db db') (hps : ps.Perm ps') (has : as.Perm as')
    (hnd : (ps.map (·.1)).Nodup) (hnd' : (as.map (·.1)).Nodup) : Patched jobIds attemptIds ps' as' db db' where
  jobs k hk := (h.jobs k hk).trans (Option.map_congr fun _ _ => patch_perm hnd hps)
  attempts k hk := (h.attempts k hk).trans (Option.map_congr fun _ _ => patch_perm hnd' has)

/-- Others in between change nothing. -/
theorem amid (h : Patched jobIds attemptIds ps as db db') {between : Db → Db}
    (hleaves : Leaves jobIds attemptIds between) : Patched jobIds attemptIds ps as db (between db') where
  jobs k hk := (hleaves.jobs db' k hk).trans (h.jobs k hk)
  attempts k hk := (hleaves.attempts db' k hk).trans (h.attempts k hk)

/-- A row without a patch is as before. -/
theorem jobAt_eq (h : Patched jobIds attemptIds ps as db db') (hk : k ∈ jobIds) (hout : k ∉ ps.map (·.1)) :
    jobAt db' k = jobAt db k := by
  rw [h.jobs k hk]
  refine (Option.map_congr fun r hr => ?_).trans (Option.map_id' ..)
  rw [← jobAt_id hr] at hout
  exact patch_of_notMem hout

theorem isRunning (h : Patched jobIds attemptIds ps as db db') (hk : k ∈ jobIds) (hout : k ∉ ps.map (·.1)) :
    IsRunning db'.jobs k ↔ IsRunning db.jobs k := by
  rw [isRunning_iff, isRunning_iff, h.jobAt_eq hk hout]

theorem holdsLease (h : Patched jobIds attemptIds ps as db db') (hk : k ∈ jobIds) (hout : k ∉ ps.map (·.1))
    {workerId : String} : HoldsLease db'.jobs k workerId ↔ HoldsLease db.jobs k workerId := by
  rw [holdsLease_iff, holdsLease_iff, h.jobAt_eq hk hout]

theorem leasedIn (h : Patched jobIds attemptIds ps as db db') (hk : k ∈ jobIds) (hout : k ∉ ps.map (·.1))
    {datasetId workerId : String} :
    LeasedIn db'.jobs datasetId k workerId ↔ LeasedIn db.jobs datasetId k workerId := by
  rw [leasedIn_iff, leasedIn_iff, h.jobAt_eq hk hout]

end Patched

end Rows

/-! ## A report of a failure -/

/-- A report of a failure gets a date if it retries, and finds the row it needs. -/
structure Reports (env : FailureEnv) (t : JobsTable) (f : Failure) : Prop where
  retry : f.canRetry = true → (env.nextRunAt f.attemptNo).isSome ∧ IsRunning t f.jobId
  dlq : f.canRetry = false → HoldsLease t f.jobId f.workerId

/-- What a report makes of the row of its job. -/
def reportedRow (env : FailureEnv) (f : Failure) (r : JobRow) : JobRow :=
  if f.canRetry then
    (env.nextRunAt f.attemptNo).elim r fun nextRunAt =>
      retryRow env.updateNow nextRunAt (some f.errorCode) (some f.errorMessage) r
  else dlqRow env.updateNow (classifyError f.errorCode).dlqReasonCode (some f.errorCode) (some f.errorMessage) r

def reportedJob (env : FailureEnv) (f : Failure) : Uuid × (JobRow → JobRow) := (f.jobId, reportedRow env f)

def reportedAttempt (env : FailureEnv) (f : Failure) : Uuid × (AttemptRow → AttemptRow) :=
  (f.attemptId, failedRow env.finishNow f.latencyMs f.errorCode f.errorMessage)

section Reports

variable {jobIds attemptIds : List Uuid} {db db' : Db} {env : FailureEnv} {f : Failure} {t : JobsTable}
  {ps : List (Uuid × (JobRow → JobRow))} {as : List (Uuid × (AttemptRow → AttemptRow))}

theorem reports_retry (h : f.canRetry = true) :
    Reports env t f ↔ (env.nextRunAt f.attemptNo).isSome ∧ IsRunning t f.jobId :=
  ⟨fun hf => hf.retry h, fun hf => ⟨fun _ => hf, (fun hno => by rw [h] at hno; cases hno)⟩⟩

theorem reports_dlq (h : f.canRetry = false) : Reports env t f ↔ HoldsLease t f.jobId f.workerId :=
  ⟨fun hf => hf.dlq h, fun hf => ⟨(fun hyes => by rw [h] at hyes; cases hyes), fun _ => hf⟩⟩

theorem reportedRow_id (env : FailureEnv) (f : Failure) (r : JobRow) : (reportedRow env f r).id = r.id := by
  unfold reportedRow
  cases env.nextRunAt f.attemptNo <;> split <;> rfl

/-- What a report needs is not touched by the reports of other jobs. -/
theorem Patched.reports (h : Patched jobIds attemptIds ps as db db') (hk : f.jobId ∈ jobIds)
    (hout : f.jobId ∉ ps.map (·.1)) : Reports env db'.jobs f ↔ Reports env db.jobs f := by
  cases hretry : f.canRetry with
  | true => rw [reports_retry hretry, reports_retry hretry, h.isRunning hk hout]
  | false => rw [reports_dlq hretry, reports_dlq hretry, h.holdsLease hk hout]

/-- One row has the id, and it is running. -/
theorem runningRow_iff {jobId : Uuid} (h : IsRunning t jobId) :
    ∀ r ∈ t.rows, runningRow jobId r = true ↔ r.id ∈ [jobId] := by
  obtain ⟨x, hx, hid, hst⟩ := h
  intro r hr
  simp only [runningRow, Bool.and_eq_true, beq_iff_eq, List.mem_singleton]
  refine ⟨And.left, fun heq => ⟨heq, ?_⟩⟩
  rw [JobsTable.eq_of_id hr hx (heq.trans hid.symm), hst]

theorem heldRow_iff_of_holds {jobId : Uuid} {workerId : String} (h : HoldsLease t jobId workerId) :
    ∀ r ∈ t.rows, heldRow jobId workerId r = true ↔ r.id ∈ [jobId] := by
  obtain ⟨x, hx, hid, hst, hby⟩ := h
  intro r hr
  simp only [heldRow, Bool.and_eq_true, beq_iff_eq, List.mem_singleton]
  refine ⟨fun hsel => hsel.1.1, fun heq => ?_⟩
  rw [JobsTable.eq_of_id hr hx (heq.trans hid.symm)]
  exact ⟨⟨hid, hby⟩, hst⟩

theorem affected_held_eq_one {jobId : Uuid} {workerId : String} (h : HoldsLease t jobId workerId) :
    t.affected (heldRow jobId workerId) = 1 := by
  have hrun : IsRunning t jobId := by
    obtain ⟨x, hx, hid, hst, _⟩ := h
    exact ⟨x, hx, hid, hst⟩
  rw [← affected_running_eq_one hrun]
  refine List.countP_congr fun r hr => ?_
  rw [heldRow_iff_of_holds h r hr, runningRow_iff hrun r hr]

/-- **The second half of a report.** -/
theorem retryOrDlq_spec (db : Db) (env : FailureEnv) (f : Failure) :
    ((retryOrDlq db env f).1 = .ok () ↔ Reports env db.jobs f) ∧
      (Reports env db.jobs f →
        Patched jobIds attemptIds [reportedJob env f] [] db (retryOrDlq db env f).2) := by
  have hattempts : ∀ k, attemptAt db k = (attemptAt db k).map (patch (·.id) []) := fun _ => (Option.map_id' ..).symm
  cases hretry : f.canRetry with
  | true =>
    simp only [retryOrDlq, reports_retry hretry, hretry, if_true]
    cases hdate : env.nextRunAt f.attemptNo with
    | none => simp
    | some nextRunAt =>
        simp only [Option.isSome_some, true_and]
        by_cases hrun : IsRunning db.jobs f.jobId
        · have hone := affected_running_eq_one hrun
          have hrow : reportedRow env f =
              retryRow env.updateNow nextRunAt (some f.errorCode) (some f.errorMessage) := by
            funext r
            simp [reportedRow, hretry, hdate]
          simp only [rescheduleForRetry, hone, ne_eq, not_true_eq_false, if_false, hrun, true_and]
          refine fun _ => ⟨fun k _ => ?_, fun k _ => hattempts k⟩
          rw [reportedJob, hrow]
          exact lookup_update_patch (fun _ => rfl) (runningRow_iff hrun) (List.nodup_singleton _) k
        · have hzero := affected_running_eq_zero.mpr hrun
          simp [rescheduleForRetry, hzero, hrun]
  | false =>
    simp only [retryOrDlq, reports_dlq hretry, hretry, Bool.false_eq_true, if_false]
    by_cases hheld : HoldsLease db.jobs f.jobId f.workerId
    · have hone := affected_held_eq_one hheld
      have hrow : reportedRow env f = dlqRow env.updateNow (classifyError f.errorCode).dlqReasonCode
          (some f.errorCode) (some f.errorMessage) := by
        funext r
        simp [reportedRow, hretry]
      simp only [markDlq, hone, ne_eq, not_true_eq_false, if_false, hheld, true_and]
      refine fun _ => ⟨fun k _ => ?_, fun k _ => hattempts k⟩
      rw [reportedJob, hrow]
      exact lookup_update_patch (fun _ => rfl) (heldRow_iff_of_holds hheld) (List.nodup_singleton _) k
    · have hzero := affected_held_eq_zero hheld
      simp [markDlq, hzero, hheld]

/-- The first half of a report. -/
theorem finishFailed_patched (db : Db) (env : FailureEnv) (f : Failure) :
    Patched jobIds attemptIds [] [reportedAttempt env f] db { db with
      attempts := finishFailed db.attempts env.finishNow f.attemptId f.latencyMs f.errorCode f.errorMessage } where
  jobs k _ := (Option.map_id' ..).symm
  attempts k _ := by
    unfold attemptAt
    rw [finishFailed, Table.lookup_update fun _ => rfl]
    refine Option.map_congr fun r _ => ?_
    simp only [reportedAttempt, patch_singleton, beq_iff_eq]
    rfl

/-- **One report**, whatever others do elsewhere. -/
theorem onFailureAmid_spec {between : Db → Db} (hleaves : Leaves jobIds attemptIds between) (db : Db)
    (env : FailureEnv) (hjob : f.jobId ∈ jobIds) :
    ((onFailureAmid between db env f).1 = .ok () ↔ Reports env db.jobs f) ∧
      (Reports env db.jobs f → Patched jobIds attemptIds [reportedJob env f] [reportedAttempt env f] db
        (onFailureAmid between db env f).2) := by
  have hfirst := (@finishFailed_patched jobIds attemptIds db env f).amid hleaves
  obtain ⟨hokIff, hdone⟩ := @retryOrDlq_spec jobIds attemptIds (between { db with
    attempts := finishFailed db.attempts env.finishNow f.attemptId f.latencyMs f.errorCode f.errorMessage }) env f
  have hsame : Reports env (between { db with
      attempts := finishFailed db.attempts env.finishNow f.attemptId f.latencyMs f.errorCode f.errorMessage }).jobs f ↔
      Reports env db.jobs f :=
    hfirst.reports hjob List.not_mem_nil
  rw [hsame] at hokIff hdone
  refine ⟨hokIff, fun h => hfirst.trans (hdone h) (by simp) (fun p hp r => ?_) (by simp) (by simp)⟩
  obtain rfl := List.mem_singleton.mp hp
  rfl

end Reports

/-! ## The success batch -/

def completedJob (now : DateTime) (u : Completion) : Uuid × (JobRow → JobRow) := (u.1, Tx.succeededRow now)

def completedAttempt (finishNow : DateTime) (u : Completion) : Uuid × (AttemptRow → AttemptRow) :=
  (u.2.1, Tx.succeededAttempt finishNow u.2.2)

section Successes

variable {db : Db} {datasetId workerId : String} {jobIds attemptIds : List Uuid} {t : JobsTable} {ids : List Uuid}

/-- The job update of a batch selects the rows of its jobs. -/
theorem heldAmong_iff_of_leased (h : ∀ id ∈ ids, LeasedIn t datasetId id workerId) :
    ∀ r ∈ t.rows, heldAmong datasetId ids workerId r = true ↔ r.id ∈ ids := by
  intro r hr
  rw [heldAmong_iff]
  refine ⟨And.left, fun hid => ⟨hid, ?_⟩⟩
  obtain ⟨x, hx, hds, hxid, hleased⟩ := h r.id hid
  obtain rfl := JobsTable.eq_of_id hx hr hxid
  exact ⟨hds, hleased⟩

theorem affected_heldAmong (hnd : ids.Nodup) (h : ∀ id ∈ ids, LeasedIn t datasetId id workerId) :
    t.affected (heldAmong datasetId ids workerId) = ids.length := by
  have hsel : t.rows.filter (heldAmong datasetId ids workerId) = t.rows.filter (fun r => decide (r.id ∈ ids)) :=
    List.filter_congr fun r hr => by rw [Bool.eq_iff_iff, heldAmong_iff_of_leased h r hr, decide_eq_true_eq]
  have hids : ((t.rows.filter (fun r => decide (r.id ∈ ids))).map (·.id)).Perm ids := by
    refine (List.perm_ext_iff_of_nodup (t.ids_nodup.sublist (List.filter_sublist.map _)) hnd).mpr fun id => ?_
    simp only [List.mem_map, List.mem_filter, decide_eq_true_eq]
    constructor
    · rintro ⟨r, ⟨_, hid⟩, rfl⟩
      exact hid
    · intro hid
      obtain ⟨r, hr, _, rfl, _⟩ := h id hid
      exact ⟨r, ⟨hr, hid⟩, rfl⟩
  rw [Table.affected, List.countP_eq_length_filter, hsel, ← hids.length_eq, List.length_map]

theorem map_completedJob (now : DateTime) (updates : List Completion) :
    (updates.map (completedJob now)).map (·.1) = updates.map (·.1) := by
  rw [List.map_map]
  rfl

theorem map_completedAttempt (finishNow : DateTime) (updates : List Completion) :
    (updates.map (completedAttempt finishNow)).map (·.1) = (attemptUpdates updates).map (·.1) := by
  rw [attemptUpdates, List.map_map, List.map_map]
  rfl

/-- The attempts of the batch, whatever order their updates are scanned in. -/
theorem finishSucceededBatch_patched (db : Db) (finishNow : DateTime) {updates : List Completion}
    {data : List (Uuid × Int)} (hscan : data.Perm (attemptUpdates updates))
    (hnd : ((attemptUpdates updates).map (·.1)).Nodup) :
    Patched jobIds attemptIds [] (updates.map (completedAttempt finishNow)) db
      { db with attempts := finishSucceededBatch db.attempts finishNow data } where
  jobs k _ := (Option.map_id' ..).symm
  attempts k _ := by
    have hpatch : ∀ r : AttemptRow, finishedRow finishNow data r =
        patch (·.id) (updates.map (completedAttempt finishNow)) r := by
      intro r
      have hdata : finishedRow finishNow data r =
          patch (·.id) (data.map fun d => (d.1, Tx.succeededAttempt finishNow d.2)) r := by
        unfold finishedRow patch
        rw [List.find?_map, Option.elim_map]
        show _ = (data.find? (fun d => d.1 == r.id)).elim r (fun d => Tx.succeededAttempt finishNow d.2 r)
        cases data.find? (fun d => d.1 == r.id) <;> rfl
      have hperm := hscan.map fun d => (d.1, Tx.succeededAttempt finishNow d.2)
      have hkeys : ((data.map fun d => (d.1, Tx.succeededAttempt finishNow d.2)).map (·.1)).Nodup := by
        rw [List.map_map]
        exact (hscan.map _).nodup_iff.mpr hnd
      rw [hdata, patch_perm hkeys hperm, attemptUpdates, List.map_map]
      rfl
    unfold attemptAt finishSucceededBatch
    by_cases hempty : data.isEmpty = true
    · rw [if_pos hempty]
      rw [List.isEmpty_iff] at hempty
      refine ((Option.map_congr fun r _ => ?_).trans (Option.map_id' ..)).symm
      rw [← hpatch, hempty]
      rfl
    · rw [if_neg hempty, Table.lookup_update (finishedRow_id finishNow data)]
      refine Option.map_congr fun r _ => ?_
      rw [← hpatch]
      split
      · rfl
      · rename_i hmiss
        have hnone : data.find? (fun d => d.1 == r.id) = none := by
          rw [List.find?_eq_none]
          intro d hd hid
          exact hmiss (List.any_eq_true.mpr ⟨d, hd, hid⟩)
        rw [finishedRow, hnone, Option.elim_none]

/-- The jobs of a batch that are all leased. -/
theorem markSucceededBatch_patched (db : Db) (now : DateTime) {updates : List Completion}
    (hnd : (updates.map (·.1)).Nodup) (hall : ∀ id ∈ updates.map (·.1), LeasedIn db.jobs datasetId id workerId) :
    Patched jobIds attemptIds (updates.map (completedJob now)) [] db
      { db with jobs := db.jobs.update (heldAmong datasetId (updates.map (·.1)) workerId) { set := Tx.succeededRow now } }
      where
  jobs k _ := by
    have hpatches : updates.map (completedJob now) = (updates.map (·.1)).map fun id => (id, Tx.succeededRow now) := by
      rw [List.map_map]
      rfl
    rw [hpatches]
    exact lookup_update_patch (fun _ => rfl) (heldAmong_iff_of_leased hall) hnd k
  attempts k _ := (Option.map_id' ..).symm

/-- **The batch**, whatever others do elsewhere. -/
theorem onSuccessBatchAmid_spec {between : Db → Db} (hleaves : Leaves jobIds attemptIds between) (db : Db)
    (finishNow now : DateTime) (updates : List Completion) (scan : ScanOrder (attemptUpdates updates))
    (hin : ∀ u ∈ updates, u.1 ∈ jobIds) (hjobs : (updates.map (·.1)).Nodup)
    (hattempts : ((attemptUpdates updates).map (·.1)).Nodup) :
    ((onSuccessBatchAmid between db finishNow now datasetId updates scan workerId).1 = .ok () ↔
        ∀ u ∈ updates, LeasedIn db.jobs datasetId u.1 workerId) ∧
      ((∀ u ∈ updates, LeasedIn db.jobs datasetId u.1 workerId) →
        Patched jobIds attemptIds (updates.map (completedJob now)) (updates.map (completedAttempt finishNow)) db
          (onSuccessBatchAmid between db finishNow now datasetId updates scan workerId).2) := by
  by_cases hempty : updates.isEmpty = true
  · rw [List.isEmpty_iff] at hempty
    subst hempty
    exact ⟨⟨fun _ _ hu => absurd hu List.not_mem_nil, fun _ => rfl⟩, fun _ => .refl db⟩
  · have hne : (updates.map (·.1)).isEmpty = false := by
      cases updates with
      | nil => exact absurd rfl hempty
      | cons u rest => rfl
    have hfirst := (@finishSucceededBatch_patched jobIds attemptIds db finishNow updates _ scan.perm hattempts).amid
      hleaves
    have hsame : ∀ u ∈ updates, LeasedIn (between { db with
        attempts := finishSucceededBatch db.attempts finishNow scan.rows }).jobs datasetId u.1 workerId ↔
          LeasedIn db.jobs datasetId u.1 workerId :=
      fun u hu => hfirst.leasedIn (hin u hu) List.not_mem_nil
    rw [← forall₂_congr hsame]
    simp only [onSuccessBatchAmid, hempty, Bool.false_eq_true, if_false]
    generalize between { db with attempts := finishSucceededBatch db.attempts finishNow scan.rows } = db₁ at hfirst ⊢
    by_cases hall : ∀ u ∈ updates, LeasedIn db₁.jobs datasetId u.1 workerId
    · have hids : ∀ id ∈ updates.map (·.1), LeasedIn db₁.jobs datasetId id workerId := by
        intro id hid
        obtain ⟨u, hu, rfl⟩ := List.mem_map.mp hid
        exact hall u hu
      have hcount := affected_heldAmong hjobs hids
      simp only [markSucceededBatchForDataset, hne, Bool.false_eq_true, if_false, hcount, ne_eq, not_true_eq_false,
        true_iff]
      refine ⟨hall, fun _ => ?_⟩
      have hboth := hfirst.trans (markSucceededBatch_patched db₁ now hjobs hids) (by simp) (fun p hp r => ?_)
        (by rwa [List.nil_append, map_completedJob]) (by rwa [List.append_nil, map_completedAttempt])
      · rwa [List.nil_append, List.append_nil] at hboth
      · obtain ⟨u, _, rfl⟩ := List.mem_map.mp hp
        rfl
    · have hlost : ∃ u ∈ updates, ¬LeasedIn db₁.jobs datasetId u.1 workerId := by
        simpa only [not_forall, exists_prop] using hall
      obtain ⟨u, hu, hnot⟩ := hlost
      obtain ⟨e, herr⟩ := markSucceededBatchForDataset_of_unleased now (List.mem_map_of_mem hu) hnot
      refine ⟨⟨fun hok => ?_, fun h => absurd h hall⟩, fun h => absurd h hall⟩
      rw [herr] at hok
      cases hok

end Successes

/-! ## What a report does not touch -/

section Rest

variable {jobIds attemptIds : List Uuid} {db : Db}

theorem restOf_finishFailed (env : FailureEnv) {f : Failure} (h : f.attemptId ∈ attemptIds) :
    restOf jobIds attemptIds { db with
        attempts := finishFailed db.attempts env.finishNow f.attemptId f.latencyMs f.errorCode f.errorMessage } =
      restOf jobIds attemptIds db := by
  unfold restOf
  refine congrArg (fun rows => Rest.mk _ rows _ _) (Table.filter_update (fun _ => rfl) fun r hr => ?_)
  rw [beq_iff_eq] at hr
  simp [hr, h]

theorem restOf_retryOrDlq (env : FailureEnv) {f : Failure} (h : f.jobId ∈ jobIds) :
    restOf jobIds attemptIds (retryOrDlq db env f).2 = restOf jobIds attemptIds db := by
  have hretry : ∀ r : JobRow, runningRow f.jobId r = true → decide (r.id ∉ jobIds) = false := by
    intro r hr
    simp only [runningRow, Bool.and_eq_true, beq_iff_eq] at hr
    simp [hr.1, h]
  have hdlq : ∀ r : JobRow, heldRow f.jobId f.workerId r = true → decide (r.id ∉ jobIds) = false := by
    intro r hr
    simp only [heldRow, Bool.and_eq_true, beq_iff_eq] at hr
    simp [hr.1.1, h]
  unfold retryOrDlq
  cases f.canRetry with
  | true =>
      simp only [if_true]
      cases env.nextRunAt f.attemptNo with
      | none => rfl
      | some nextRunAt =>
          simp only [rescheduleForRetry, apply_ite Prod.snd, ite_self]
          exact congrArg (fun rows => Rest.mk rows _ _ _) (Table.filter_update (fun _ => rfl) hretry)
  | false =>
      simp only [Bool.false_eq_true, if_false, markDlq, apply_ite Prod.snd, ite_self]
      exact congrArg (fun rows => Rest.mk rows _ _ _) (Table.filter_update (fun _ => rfl) hdlq)

theorem restOf_finishSucceededBatch (finishNow : DateTime) {data : List (Uuid × Int)}
    (h : ∀ d ∈ data, d.1 ∈ attemptIds) :
    restOf jobIds attemptIds { db with attempts := finishSucceededBatch db.attempts finishNow data } =
      restOf jobIds attemptIds db := by
  unfold restOf finishSucceededBatch
  by_cases hempty : data.isEmpty = true
  · rw [if_pos hempty]
  · rw [if_neg hempty]
    refine congrArg (fun rows => Rest.mk _ rows _ _) (Table.filter_update (fun r => ?_) fun r hr => ?_)
    · rw [finishedRow_id]
    · obtain ⟨d, hd, hid⟩ := List.any_eq_true.mp hr
      rw [beq_iff_eq] at hid
      simp [← hid, h d hd]

theorem restOf_markSucceededBatch (now : DateTime) (datasetId workerId : String) {ids : List Uuid}
    (h : ∀ id ∈ ids, id ∈ jobIds) :
    restOf jobIds attemptIds { db with jobs := (markSucceededBatchForDataset db.jobs now datasetId ids workerId).2 } =
      restOf jobIds attemptIds db := by
  unfold restOf markSucceededBatchForDataset
  by_cases hempty : ids.isEmpty = true
  · rw [if_pos hempty]
  · rw [if_neg hempty]
    simp only [apply_ite Prod.snd, ite_self]
    refine congrArg (fun rows => Rest.mk rows _ _ _) (Table.filter_update (fun _ => rfl) fun r hr => ?_)
    simp [h r.id (heldAmong_iff.mp hr).1]

end Rest

end Azums.Worker
