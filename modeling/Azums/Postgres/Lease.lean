import Azums.Lib.OrderBy
import Azums.Postgres.Tables

/-!
# `Postgres.Lease` — `JobsRepo::lease_jobs_batch_with_ordering`

One lease is one transaction: sweep the missed deadlines, pick a dataset, ask the queue policy, then lease the
first rows of that dataset in the requested order. Here it runs alone.

The second half of the module reads what a lease does off the table it finds: `pickedDataset` and `batchOf` are
the dataset and the rows it takes, `leasedRows` the table it leaves, row by row (`leaseCandidates_sweep`).
-/

namespace Azums.Postgres

/-! ## The order of a queue -/

/-- `ORDER BY priority DESC, run_at ASC, created_at ASC, id ASC`. -/
def FifoLe (a b : JobRow) : Prop :=
  b.priority < a.priority ∨ (b.priority = a.priority ∧ (a.runAt < b.runAt ∨ (a.runAt = b.runAt ∧
    (a.createdAt < b.createdAt ∨ (a.createdAt = b.createdAt ∧ a.id ≤ b.id)))))

/-- `ORDER BY priority DESC, run_at ASC`. -/
def FastestLe (a b : JobRow) : Prop :=
  b.priority < a.priority ∨ (b.priority = a.priority ∧ a.runAt ≤ b.runAt)

/-- The order that a `QueueOrdering` asks for. -/
def OrderLe : QueueOrdering → JobRow → JobRow → Prop
  | .fifo => FifoLe
  | .fastest => FastestLe

/-- `ORDER BY run_at ASC, created_at ASC`. -/
def DueLe (a b : JobRow) : Prop := a.runAt < b.runAt ∨ (a.runAt = b.runAt ∧ a.createdAt ≤ b.createdAt)

instance : DecidableRel FifoLe := fun _ _ => inferInstanceAs (Decidable (_ ∨ _))
instance : DecidableRel FastestLe := fun _ _ => inferInstanceAs (Decidable (_ ∨ _))
instance (ordering : QueueOrdering) : DecidableRel (OrderLe ordering) :=
  match ordering with
  | .fifo => inferInstanceAs (DecidableRel FifoLe)
  | .fastest => inferInstanceAs (DecidableRel FastestLe)
instance : DecidableRel DueLe := fun _ _ => inferInstanceAs (Decidable (_ ∨ _))

instance : Std.Total FifoLe := ⟨fun a b => by simp only [FifoLe, DateTime, Uuid]; omega⟩
instance : IsTrans JobRow FifoLe := ⟨fun a b c => by simp only [FifoLe, DateTime, Uuid]; omega⟩

/-- The order ties no two rows of different ids. -/
theorem FifoLe.id_eq {a b : JobRow} (hab : FifoLe a b) (hba : FifoLe b a) : a.id = b.id := by
  simp only [FifoLe, DateTime, Uuid] at hab hba ⊢
  omega

/-! ## The statements of a lease -/

/-- The rows whose deadline a lease finds missed. -/
def missedDeadline (queue : String) (now : DateTime) (r : JobRow) : Bool :=
  r.queue == queue && r.status == "queued" && decide (r.runAt ≤ now) && r.deadlineAt.any (fun d => decide (d < now))

/-- What the sweep makes of such a row. -/
def deadlineRow (now : DateTime) (r : JobRow) : JobRow :=
  { r with status := "dlq", dlqReasonCode := some "DEADLINE_EXCEEDED", dlqAt := some now, updatedAt := now }

/-- The rows of a queue that are queued and due. -/
def runnable (queue : String) (now : DateTime) (r : JobRow) : Bool :=
  r.queue == queue && r.status == "queued" && decide (r.runAt ≤ now)

/-- The dataset of the first row in `run_at`, `created_at` order. -/
def pickDataset (rows : List JobRow) (queue : String) (now : DateTime) : Option String :=
  (((rows.filter (runnable queue now)).insertionSort DueLe).head?).map (·.datasetId)

/-- `COUNT(*)` of the queue's running jobs. -/
def inFlight (jobs : List JobRow) (queue : String) : Nat :=
  jobs.countP (fun r => r.queue == queue && r.status == "running")

/-- `COUNT(*)` of the attempts started in the last 60 seconds, joined with their jobs in the queue. -/
def attemptsLastMinute (attempts : List AttemptRow) (jobs : List JobRow) (queue : String) (now : DateTime) :
    Nat :=
  (attempts.map (fun a => jobs.countP (fun j =>
    j.id == a.jobId && j.datasetId == a.datasetId && j.queue == queue &&
      decide (a.startedAt ≥ now - 60 * Chrono.nanosPerSecond)))).sum

/-- The rows a lease would take from a dataset: the first `limit` runnable ones. -/
def candidates (rows : List JobRow) (datasetId queue : String) (now : DateTime) (ordering : QueueOrdering)
    (limit : Nat) : List JobRow :=
  ((rows.filter (fun r => r.datasetId == datasetId && runnable queue now r)).insertionSort
    (OrderLe ordering)).take limit

/-- What a lease makes of a row. -/
def leasedRow (now : DateTime) (workerId : String) (leaseSeconds : Int) (r : JobRow) : JobRow :=
  { r with
    status := "running"
    lockedBy := some workerId
    lockedAt := some now
    lockExpiresAt := some (now + leaseSeconds * Chrono.nanosPerSecond)
    updatedAt := now }

/-- What a throttled lease makes of the one candidate it touches. -/
def throttledRow (now : DateTime) (throttleDelayMs : Int) (r : JobRow) : JobRow :=
  { r with runAt := now + throttleDelayMs * 1000000, updatedAt := now }

/-- The reason to throttle, if a limit is reached. -/
def throttleReason (policy : QueuePolicy) (running attempts : Nat) : Option String :=
  if (running : Int) ≥ policy.maxInFlight then some "IN_FLIGHT_EXCEEDED"
  else if (attempts : Int) ≥ policy.maxAttemptsPerMinute then some "RETRY_RATE_EXCEEDED"
  else none

/-- The row of `policy_decisions` that a throttled lease leaves. -/
def throttledDecision (decisionId : Uuid) (datasetId queue : String) (jobId : Uuid) (policy : QueuePolicy)
    (running attempts : Nat) (reasonCode : String) : PolicyDecision :=
  { id := decisionId
    datasetId := datasetId
    jobId := jobId
    decision := "THROTTLED"
    reasonCode := reasonCode
    detailsJson :=
      if reasonCode = "IN_FLIGHT_EXCEEDED" then
        [("dataset_id", datasetId), ("queue", queue), ("in_flight", toString running),
          ("max_in_flight", toString policy.maxInFlight), ("throttle_delay_ms", toString policy.throttleDelayMs)]
      else
        [("dataset_id", datasetId), ("queue", queue), ("attempts_last_minute", toString attempts),
          ("max_attempts_per_minute", toString policy.maxAttemptsPerMinute),
          ("throttle_delay_ms", toString policy.throttleDelayMs)] }

/-- `batch_size.clamp(1, 4096)`. -/
def clampBatch (batchSize : Int) : Nat := (max 1 (min batchSize 4096)).toNat

/-- What the surroundings decide: the transaction's `now()`, and the id a policy decision would get. -/
structure LeaseEnv where
  now : DateTime
  decisionId : Uuid

/-- The arguments of a lease. -/
structure LeaseRequest where
  queue : String
  workerId : String
  leaseSeconds : Int
  batchSize : Int
  ordering : QueueOrdering

/-- The first statement of a lease. -/
def sweep (db : Db) (queue : String) (now : DateTime) : Db :=
  { db with jobs := db.jobs.update (missedDeadline queue now) { set := deadlineRow now } }

/-- The throttled end of a lease: one candidate is put off, and the decision is recorded. -/
def throttle (db : Db) (env : LeaseEnv) (req : LeaseRequest) (datasetId : String) (policy : QueuePolicy)
    (reasonCode : String) : Db :=
  match (candidates db.jobs.rows datasetId req.queue env.now req.ordering 1).head? with
  | none => db
  | some candidate =>
      { db with
        jobs := db.jobs.update (fun r => r.id == candidate.id)
          { set := throttledRow env.now policy.throttleDelayMs }
        policyDecisions := db.policyDecisions ++ [throttledDecision env.decisionId datasetId req.queue candidate.id
          policy (inFlight db.jobs.rows req.queue)
          (attemptsLastMinute db.attempts.rows db.jobs.rows req.queue env.now) reasonCode] }

/-- The last statement of a lease: the candidates become running, and are returned in order. -/
def leaseCandidates (db : Db) (env : LeaseEnv) (req : LeaseRequest) (datasetId : String) : List JobRow × Db :=
  let taken := (candidates db.jobs.rows datasetId req.queue env.now req.ordering (clampBatch req.batchSize)).map
    (·.id)
  let jobs := db.jobs.update (fun r => decide (r.id ∈ taken))
    { set := leasedRow env.now req.workerId req.leaseSeconds }
  ((jobs.rows.filter (fun r => decide (r.id ∈ taken))).insertionSort (OrderLe req.ordering),
    { db with jobs := jobs })

/-- `lease_jobs_batch_with_ordering`, with no other transaction around. A failing cast rolls it back. -/
def leaseJobsBatchWithOrdering (db : Db) (env : LeaseEnv) (req : LeaseRequest) : Outcome (List JobRow) × Db :=
  let swept := sweep db req.queue env.now
  match pickDataset swept.jobs.rows req.queue env.now with
  | none => (.ok [], swept)
  | some datasetId =>
      let reason := (db.queuePolicies req.queue).bind (fun policy =>
        (throttleReason policy (inFlight swept.jobs.rows req.queue)
          (attemptsLastMinute swept.attempts.rows swept.jobs.rows req.queue env.now)).map
            (fun reason => (policy, reason)))
      match reason with
      | some (policy, reasonCode) => (.ok [], throttle swept env req datasetId policy reasonCode)
      | none =>
          if FitsInteger req.leaseSeconds then
            let (leased, db') := leaseCandidates swept env req datasetId
            (.ok leased, db')
          else (.err "integer out of range", db)

/-! ## What a lease does -/

/-- The rows a lease may hand out: queued, due, and with no deadline missed. -/
def eligible (queue : String) (now : DateTime) (r : JobRow) : Bool :=
  runnable queue now r && !missedDeadline queue now r

section Spec

variable {db : Db} {env : LeaseEnv} {req : LeaseRequest} {queue : String} {now : DateTime}

/-- After the sweep, the runnable rows are those that were eligible before it. -/
theorem filter_runnable_sweep (rows : List JobRow) (p : JobRow → Bool) :
    (rows.map (fun r => if missedDeadline queue now r then deadlineRow now r else r)).filter
        (fun r => p r && runnable queue now r) =
      rows.filter (fun r => p r && eligible queue now r) := by
  induction rows with
  | nil => rfl
  | cons r rest ih =>
      rw [List.map_cons, List.filter_cons, List.filter_cons, ih]
      by_cases hm : missedDeadline queue now r = true
      · have hrun : runnable queue now (deadlineRow now r) = false := by
          simp [runnable, deadlineRow]
        simp [hm, eligible, hrun]
      · simp [hm, eligible]

theorem filter_runnable_sweep' (rows : List JobRow) :
    (rows.map (fun r => if missedDeadline queue now r then deadlineRow now r else r)).filter (runnable queue now) =
      rows.filter (eligible queue now) := by
  simpa using filter_runnable_sweep rows (fun _ => true)

/-- The dataset a lease picks, read off the table it finds. -/
def pickedDataset (db : Db) (queue : String) (now : DateTime) : Option String :=
  (((db.jobs.rows.filter (eligible queue now)).insertionSort DueLe).head?).map (·.datasetId)

theorem pickDataset_sweep :
    pickDataset (sweep db queue now).jobs.rows queue now = pickedDataset db queue now := by
  rw [pickDataset, sweep, Table.update_rows, filter_runnable_sweep']
  rfl

/-- The rows a lease of a dataset takes, read off the table it finds. -/
def batchOf (db : Db) (datasetId queue : String) (now : DateTime) (ordering : QueueOrdering) (n : Nat) :
    List JobRow :=
  ((db.jobs.rows.filter (fun r => r.datasetId == datasetId && eligible queue now r)).insertionSort
    (OrderLe ordering)).take n

theorem candidates_sweep (datasetId : String) (ordering : QueueOrdering) (n : Nat) :
    candidates (sweep db queue now).jobs.rows datasetId queue now ordering n =
      batchOf db datasetId queue now ordering n := by
  rw [candidates, sweep, Table.update_rows, filter_runnable_sweep]
  rfl

theorem mem_batchOf {datasetId : String} {ordering : QueueOrdering} {n : Nat} {r : JobRow}
    (h : r ∈ batchOf db datasetId queue now ordering n) :
    r ∈ db.jobs.rows ∧ r.datasetId = datasetId ∧ eligible queue now r = true := by
  have hmem := (List.mem_insertionSort _).mp (List.mem_of_mem_take h)
  rw [List.mem_filter, Bool.and_eq_true, beq_iff_eq] at hmem
  exact hmem

theorem batchOf_nodup (datasetId : String) (ordering : QueueOrdering) (n : Nat) :
    ((batchOf db datasetId queue now ordering n).map (·.id)).Nodup := by
  have hperm := ((List.perm_insertionSort (OrderLe ordering)
    (db.jobs.rows.filter (fun r => r.datasetId == datasetId && eligible queue now r))).map (·.id)).nodup_iff.mpr
      (db.jobs.ids_nodup.sublist (List.filter_sublist.map _))
  exact hperm.sublist ((List.take_sublist _ _).map _)

/-- Rows taken by id are the rows themselves, in table order. -/
theorem filter_mem_ids_perm {rows taken : List JobRow} (hrows : (rows.map (·.id)).Nodup)
    (htaken : (taken.map (·.id)).Nodup) (hsub : ∀ r ∈ taken, r ∈ rows) :
    (rows.filter (fun r => decide (r.id ∈ taken.map (·.id)))).Perm taken := by
  refine (List.perm_ext_iff_of_nodup (hrows.of_map.filter _) htaken.of_map).mpr fun r => ?_
  rw [List.mem_filter, decide_eq_true_eq, List.mem_map]
  constructor
  · rintro ⟨hr, r', hr', hid⟩
    rwa [← List.inj_on_of_nodup_map hrows (hsub r' hr') hr hid]
  · intro hr
    exact ⟨hsub r hr, r, hr, rfl⟩

/-- The table after a sweep and a lease of the rows with the given ids, row by row. -/
def leasedRows (rows : List JobRow) (env : LeaseEnv) (req : LeaseRequest) (taken : List Uuid) : List JobRow :=
  rows.map (fun r =>
    if missedDeadline req.queue env.now r then deadlineRow env.now r
    else if r.id ∈ taken then leasedRow env.now req.workerId req.leaseSeconds r
    else r)

/-- A row that a batch takes by its id is one of the batch, so it was eligible. -/
theorem not_missed_of_mem {datasetId : String} {ordering : QueueOrdering} {n : Nat} {r : JobRow}
    (hr : r ∈ db.jobs.rows) (hid : r.id ∈ (batchOf db datasetId queue now ordering n).map (·.id)) :
    r ∈ batchOf db datasetId queue now ordering n ∧ missedDeadline queue now r = false := by
  obtain ⟨r', hr', heq⟩ := List.mem_map.mp hid
  obtain ⟨hrows, _, helig⟩ := mem_batchOf hr'
  obtain rfl := JobsTable.eq_of_id hrows hr heq
  refine ⟨hr', ?_⟩
  rw [eligible, Bool.and_eq_true, Bool.not_eq_true'] at helig
  exact helig.2

/-- The lease statement after the sweep: the table, row by row, and the rows it returns. -/
theorem leaseCandidates_sweep (db : Db) (env : LeaseEnv) (req : LeaseRequest) (datasetId : String) :
    (leaseCandidates (sweep db req.queue env.now) env req datasetId).2.jobs.rows =
      leasedRows db.jobs.rows env req
        ((batchOf db datasetId req.queue env.now req.ordering (clampBatch req.batchSize)).map (·.id)) ∧
    ((leaseCandidates (sweep db req.queue env.now) env req datasetId).1).Perm
      ((batchOf db datasetId req.queue env.now req.ordering (clampBatch req.batchSize)).map
        (leasedRow env.now req.workerId req.leaseSeconds)) := by
  unfold leaseCandidates
  rw [candidates_sweep]
  have htable : ((sweep db req.queue env.now).jobs.rows.map (fun r =>
        if decide (r.id ∈ (batchOf db datasetId req.queue env.now req.ordering
          (clampBatch req.batchSize)).map (·.id)) then leasedRow env.now req.workerId req.leaseSeconds r else r)) =
      leasedRows db.jobs.rows env req
        ((batchOf db datasetId req.queue env.now req.ordering (clampBatch req.batchSize)).map (·.id)) := by
    rw [sweep, Table.update_rows, List.map_map, leasedRows]
    refine List.map_congr_left fun r hr => ?_
    rw [Function.comp_apply]
    by_cases hm : missedDeadline req.queue env.now r = true
    · have hnot : (deadlineRow env.now r).id ∉
          (batchOf db datasetId req.queue env.now req.ordering (clampBatch req.batchSize)).map (·.id) := by
        intro hin
        rw [(not_missed_of_mem hr hin).2] at hm
        cases hm
      rw [if_pos hm, if_pos hm, decide_eq_false hnot]
      rfl
    · rw [if_neg hm, if_neg hm]
      simp only [decide_eq_true_eq]
  refine ⟨htable, ?_⟩
  simp only [Table.update_rows]
  rw [htable]
  refine (List.perm_insertionSort _ _).trans ?_
  -- the rows with a taken id are the batch, each leased
  have hfilter : (leasedRows db.jobs.rows env req
        ((batchOf db datasetId req.queue env.now req.ordering (clampBatch req.batchSize)).map (·.id))).filter
        (fun r => decide (r.id ∈
          (batchOf db datasetId req.queue env.now req.ordering (clampBatch req.batchSize)).map (·.id))) =
      (db.jobs.rows.filter (fun r => decide (r.id ∈
          (batchOf db datasetId req.queue env.now req.ordering (clampBatch req.batchSize)).map (·.id)))).map
        (leasedRow env.now req.workerId req.leaseSeconds) := by
    rw [leasedRows, List.filter_map]
    have hsame : ∀ r ∈ db.jobs.rows, ((fun r : JobRow => decide (r.id ∈
          (batchOf db datasetId req.queue env.now req.ordering (clampBatch req.batchSize)).map (·.id))) ∘
        fun r => if missedDeadline req.queue env.now r then deadlineRow env.now r
          else if r.id ∈ (batchOf db datasetId req.queue env.now req.ordering
            (clampBatch req.batchSize)).map (·.id) then leasedRow env.now req.workerId req.leaseSeconds r
          else r) r =
        decide (r.id ∈
          (batchOf db datasetId req.queue env.now req.ordering (clampBatch req.batchSize)).map (·.id)) := by
      intro r _
      rw [Function.comp_apply]
      split
      · rfl
      · split <;> rfl
    rw [List.filter_congr hsame]
    refine List.map_congr_left fun r hr => ?_
    rw [List.mem_filter, decide_eq_true_eq] at hr
    rw [if_neg (by rw [(not_missed_of_mem hr.1 hr.2).2]; decide), if_pos hr.2]
  rw [hfilter]
  exact (filter_mem_ids_perm db.jobs.ids_nodup (batchOf_nodup _ _ _) (fun r hr => (mem_batchOf hr).1)).map _

end Spec

end Azums.Postgres
