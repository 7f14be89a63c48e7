import Azums.Lib.OrderBy
import Azums.Sqlite.Stores

/-!
# `Sqlite.Sweeps` — the two stores side by side, calls on many rows

A lease, a cancellation and a reap choose their rows themselves. The memory backend has an ordered index of queued
jobs and reads its maps in no particular order; SQLite sorts what its `WHERE` selects. Both choose the same:

* `due_eq` — the due part of a queue's index is the sorted selection of a lease, entry by entry;
* `latestRunning_eq` — the attempt that a cancellation closes, for no two attempts of a job have one number;
* `expired_iff` — the jobs that a reap finds.
-/

namespace Azums.Sqlite

open Function (update)
open Memory (InnerState MemoryAttempt Enumerates Numbered WellFormed QueueEntry mapAt)

variable {texts : Texts} {db : Db} {s : InnerState} {now : DateTime} {queue workerId : String}

/-! ## The order of a lease -/

/-- The `ORDER BY` of a lease is the order of the index. -/
theorem fifoLe_iff (htimes : texts.CompareAsTime) {a b : Job} :
    FifoLe texts a b ↔ (QueueEntry.cmp (QueueEntry.fromJob a) (QueueEntry.fromJob b)).isLE = true := by
  -- a text that is at or before another and does not sort before it is the same text
  have hsame : ∀ (t u : DateTime) (p : Prop), t < u ∨ t ≤ u ∧ p ↔ t < u ∨ t = u ∧ p := by
    intro t u p
    rw [le_iff_lt_or_eq]
    tauto
  simp only [FifoLe, Texts.timeLt_iff htimes, Texts.timeLe_iff htimes, hsame, QueueEntry.cmp, Ordering.isLE_then_iff_or,
    compare_lt_iff_lt, compare_eq_iff_eq, QueueEntry.fromJob_priority, QueueEntry.fromJob_runAt,
    QueueEntry.fromJob_createdAt, QueueEntry.fromJob_id, Std.isLE_compare]

theorem fifoLe_trans (htimes : texts.CompareAsTime) : IsTrans Job (FifoLe texts) where
  trans a b c hab hbc := by
    rw [fifoLe_iff htimes] at hab hbc ⊢
    exact Std.TransCmp.isLE_trans hab hbc

theorem fifoLe_total (htimes : texts.CompareAsTime) : Std.Total (FifoLe texts) where
  total a b := by
    rw [fifoLe_iff htimes, fifoLe_iff htimes]
    have hswap : QueueEntry.cmp (QueueEntry.fromJob a) (QueueEntry.fromJob b) =
        (QueueEntry.cmp (QueueEntry.fromJob b) (QueueEntry.fromJob a)).swap := Std.OrientedCmp.eq_swap
    rw [hswap]
    cases QueueEntry.cmp (QueueEntry.fromJob b) (QueueEntry.fromJob a) <;> decide

theorem runnable_iff (htimes : texts.CompareAsTime) {r : Job} : runnable texts queue now r = true ↔
    r.queue = queue ∧ r.status = "queued" ∧ r.runAt ≤ now := by
  simp only [runnable, Bool.and_eq_true, beq_iff_eq, Texts.timeLe_iff htimes, and_assoc]

/-- **The order of a lease.** The due entries of the index are the sorted rows of the lease's selection. -/
theorem due_eq (htimes : texts.CompareAsTime) (h : SameStores db s) (hwf : WellFormed s) (queue : String)
    (now : DateTime) :
    (s.index queue).toList.filter (fun entry => decide (entry.runAt ≤ now)) =
      ((db.jobs.rows.filter (runnable texts queue now)).insertionSort (FifoLe texts)).map QueueEntry.fromJob := by
  have htrans := fifoLe_trans htimes
  have htotal := fifoLe_total htimes
  have hmem : ∀ entry, entry ∈ (s.index queue).toList.filter (fun entry => decide (entry.runAt ≤ now)) ↔
      entry ∈
        ((db.jobs.rows.filter (runnable texts queue now)).insertionSort (FifoLe texts)).map QueueEntry.fromJob := by
    intro entry
    rw [List.mem_filter, List.mem_map, decide_eq_true_eq]
    constructor
    · rintro ⟨hin, hdue⟩
      obtain ⟨job, hjob, hqueue, hst, rfl⟩ := (hwf.indexed queue entry).mp hin
      refine ⟨job, ?_, rfl⟩
      rw [List.mem_insertionSort, List.mem_filter, runnable_iff htimes]
      exact ⟨h.job_iff.mpr hjob, hqueue, hst, hdue⟩
    · rintro ⟨job, hjob, rfl⟩
      rw [List.mem_insertionSort, List.mem_filter, runnable_iff htimes] at hjob
      obtain ⟨hin, hqueue, hst, hdue⟩ := hjob
      exact ⟨(hwf.indexed queue _).mpr ⟨job, h.job_iff.mp hin, hqueue, hst, rfl⟩, hdue⟩
  have hnd :
      (((db.jobs.rows.filter (runnable texts queue now)).insertionSort (FifoLe texts)).map QueueEntry.fromJob).Nodup := by
    refine List.Nodup.of_map (·.id) ?_
    rw [List.map_map]
    exact (((List.perm_insertionSort _ _).map _).nodup_iff).mpr
      ((jobIds db).sublist (List.filter_sublist.map _))
  have hsorted :
      (((db.jobs.rows.filter (runnable texts queue now)).insertionSort (FifoLe texts)).map QueueEntry.fromJob).Pairwise
      (fun a b => (QueueEntry.cmp a b).isLE = true) :=
    List.pairwise_map.mpr ((List.pairwise_insertionSort (FifoLe texts) _).imp fun hab => (fifoLe_iff htimes).mp hab)
  refine OrderBy.eq_of_sorted ((List.perm_ext_iff_of_nodup ((s.index queue).nodup.filter _) hnd).mpr hmem) ?_ hsorted ?_
  · refine ((s.index queue).sorted.filter _).imp fun hab => ?_
    rw [hab]
    rfl
  · intro a _ b _ hab hba
    exact Std.LawfulEqCmp.eq_of_compare (Std.OrientedCmp.isLE_antisymm hab hba)

/-- Both backends lease the same jobs, in the same order. -/
theorem candidates_eq (htimes : texts.CompareAsTime) (h : SameStores db s) (hwf : WellFormed s) (queue : String)
    (now : DateTime) {batchSize : Int} (hbatch : 0 ≤ batchSize) :
    Memory.candidates s now queue batchSize =
      (candidates texts db.jobs.rows queue now .fifo batchSize).map QueueEntry.fromJob := by
  have hlimit : candidates texts db.jobs.rows queue now .fifo batchSize =
      ((db.jobs.rows.filter (runnable texts queue now)).insertionSort (FifoLe texts)).take batchSize.toNat := by
    rw [candidates, limit, if_neg (by omega)]
    rfl
  rw [hlimit, Memory.candidates, due_eq htimes h hwf, max_eq_left hbatch, List.map_take]

/-! ## Leasing -/

theorem missedDeadline_iff (htimes : texts.CompareAsTime) {r : Job} : missedDeadline texts queue now r = true ↔
    r.queue = queue ∧ r.status = "queued" ∧ r.runAt ≤ now ∧ ∃ d, r.deadlineAt = some d ∧ d < now := by
  simp only [missedDeadline, Bool.and_eq_true, beq_iff_eq, Texts.timeLe_iff htimes, Texts.timeLt_iff htimes,
    Option.any_eq_true, and_assoc]

/-- The sweep. -/
theorem sweep_stores (htimes : texts.CompareAsTime) (h : SameStores db s) (hwf : WellFormed s) (queue : String)
    (now : DateTime) :
    SameStores { db with jobs := db.jobs.update (missedDeadline texts queue now) { set := deadlineRow now } }
      (Memory.sweepDeadlines s now queue) := by
  obtain ⟨hjobs, honly⟩ := Memory.sweep_jobs now queue (Memory.expiredDeadlines s now queue) s
  refine ⟨?_, honly.attempts.trans h.attempts⟩
  funext id
  rw [Memory.sweepDeadlines, hjobs, Table.lookup_update (fun _ => rfl), ← h.jobs]
  by_cases hin : id ∈ (Memory.expiredDeadlines s now queue).map (·.id)
  · obtain ⟨job, d, hjob, hqueue, hst, hrun, hd, hlt⟩ := (Memory.mem_expiredDeadlines hwf).mp hin
    rw [Memory.mapAt_of_mem hin, hjob, Option.map_some, Option.map_some,
      if_pos ((missedDeadline_iff htimes).mpr ⟨hqueue, hst, hrun, d, hd, hlt⟩)]
    rfl
  · rw [Memory.mapAt_of_not_mem hin]
    refine ((Option.map_congr fun job hjob => if_neg fun hmissed => hin ?_).trans (Option.map_id' ..)).symm
    obtain ⟨hqueue, hst, hrun, d, hd, hlt⟩ := (missedDeadline_iff htimes).mp hmissed
    exact (Memory.mem_expiredDeadlines hwf).mpr ⟨job, d, hjob, hqueue, hst, hrun, hd, hlt⟩

theorem leaseEach_leased (now lockExpiresAt : DateTime) (workerId : String) (taken : List Job) :
    ∀ jobs : JobsTable, (leaseEach now lockExpiresAt workerId taken jobs).1 =
      taken.map (leasedRow now lockExpiresAt workerId) := by
  induction taken with
  | nil => intro jobs; rfl
  | cons job rest ih => intro jobs; exact congrArg _ (ih _)

/-- The lease loop. -/
theorem leaseEach_lookup (now lockExpiresAt : DateTime) (workerId : String) (taken : List Job) :
    ∀ jobs : JobsTable, (leaseEach now lockExpiresAt workerId taken jobs).2.lookup (·.id) =
      mapAt (Memory.leasedJob now lockExpiresAt workerId) (taken.map (·.id)) (jobs.lookup (·.id)) := by
  induction taken with
  | nil =>
      intro jobs
      rw [List.map_nil, Memory.mapAt_nil]
      rfl
  | cons job rest ih =>
      intro jobs
      have hround : (jobs.update (fun r => r.id == job.id)
          { set := leasedRow now lockExpiresAt workerId }).lookup (·.id) =
            mapAt (Memory.leasedJob now lockExpiresAt workerId) [job.id] (jobs.lookup (·.id)) := by
        funext id
        rw [Table.lookup_update (fun _ => rfl)]
        by_cases hid : id = job.id
        · rw [Memory.mapAt_of_mem (List.mem_singleton.mpr hid)]
          refine Option.map_congr fun r hr => if_pos ?_
          rw [beq_iff_eq, (Table.lookup_some hr).2, hid]
        · rw [Memory.mapAt_of_not_mem (fun hin => hid (List.mem_singleton.mp hin))]
          refine (Option.map_congr fun r hr => if_neg ?_).trans (Option.map_id' ..)
          rw [beq_iff_eq, (Table.lookup_some hr).2]
          exact hid
      show (leaseEach now lockExpiresAt workerId rest _).2.lookup (·.id) = _
      rw [ih, hround, List.map_cons, Memory.mapAt_cons (Memory.leasedJob_leasedJob lockExpiresAt workerId)]

theorem leaseJobsBatch_simulates (htimes : texts.CompareAsTime) (h : SameStores db s) (hok : RowsOk texts db)
    (hwf : WellFormed s) (workerId : String) {leaseSeconds batchSize : Int} (hbatch : 0 ≤ batchSize)
    (hadd : Memory.candidates (Memory.sweepDeadlines s now queue) now queue batchSize ≠ [] →
      (Chrono.addSeconds now leaseSeconds).isSome) :
    Simulates (leaseJobsBatch texts db now queue workerId leaseSeconds batchSize)
      (Memory.leaseJobsBatch s now queue workerId leaseSeconds batchSize) := by
  have hswept := sweep_stores htimes h hwf queue now
  have hcands := candidates_eq htimes hswept (Memory.sweepDeadlines_wellFormed hwf queue) queue now hbatch
  unfold leaseJobsBatch leaseJobsBatchWithOrdering Memory.leaseJobsBatch Memory.leaseJobsBatchWithOrdering
  simp only
  -- the rows taken, all of them rows that the sweep has left
  have hrows : ∀ r ∈ candidates texts (db.jobs.update (missedDeadline texts queue now) { set := deadlineRow now }).rows
      queue now .fifo batchSize, (Memory.sweepDeadlines s now queue).jobs r.id = some r := by
    intro r hr
    rw [candidates, limit, if_neg (by omega)] at hr
    have hin := (List.mem_insertionSort _).mp (List.mem_of_mem_take hr)
    exact hswept.job_iff.mp (List.mem_of_mem_filter hin)
  have hkept := hok.updateJobs (missedDeadline texts queue now) { set := deadlineRow now }
    fun r hr => hr.congr rfl rfl rfl
  have hread := fetchAll_of_reads fun r hr => readRow_of_keeps (hkept.jobs r (hswept.job_iff.mpr (hrows r hr))).payload
  rw [hcands] at hadd ⊢
  rw [hread]
  generalize candidates texts (db.jobs.update (missedDeadline texts queue now) { set := deadlineRow now }).rows
    queue now .fifo batchSize = taken at hadd hrows ⊢
  simp only [List.isEmpty_map]
  cases hempty : taken.isEmpty with
  | true => exact ⟨.ok _, hswept⟩
  | false =>
      have hne : taken.map QueueEntry.fromJob ≠ [] := by
        intro hnil
        rw [List.map_eq_nil_iff.mp hnil] at hempty
        cases hempty
      obtain ⟨t, ht⟩ := Option.isSome_iff_exists.mp (hadd hne)
      simp only [ht, Bool.false_eq_true, if_false]
      have hleased := Memory.leaseEach_leased now t workerId (taken.map QueueEntry.fromJob)
        ((Memory.sweepDeadlines s now queue).indexRemove queue (taken.map QueueEntry.fromJob))
      obtain ⟨hjobs, honly⟩ := Memory.leaseEach_jobs now t workerId (taken.map QueueEntry.fromJob)
        ((Memory.sweepDeadlines s now queue).indexRemove queue (taken.map QueueEntry.fromJob))
      constructor
      · show Agree (.ok (leaseEach now t workerId taken _).1) (.ok (Memory.leaseEach now t workerId _ _).1)
        have hsame : taken.map (leasedRow now t workerId) = (taken.map QueueEntry.fromJob).filterMap (fun entry =>
            (((Memory.sweepDeadlines s now queue).indexRemove queue (taken.map QueueEntry.fromJob)).jobs entry.id).map
              (Memory.leasedJob now t workerId)) := by
          rw [List.filterMap_map, ← List.filterMap_eq_map]
          refine List.filterMap_congr fun r hr => ?_
          rw [Function.comp_apply, Function.comp_apply, InnerState.indexRemove_jobs, QueueEntry.fromJob_id, hrows r hr]
          rfl
        rw [leaseEach_leased, hleased, hsame]
        exact .ok _
      · refine ⟨?_, ?_⟩
        · show (Memory.leaseEach now t workerId _ _).2.jobs = (leaseEach now t workerId taken _).2.lookup (·.id)
          rw [hjobs, leaseEach_lookup, InnerState.indexRemove_jobs, hswept.jobs, List.map_map]
          rfl
        · show (Memory.leaseEach now t workerId _ _).2.attempts = _
          rw [honly.attempts, InnerState.indexRemove_attempts]
          exact hswept.attempts

/-! ## Cancellation -/

/-- **The attempt that a cancellation closes.** No two attempts of a job have one number, so there is one with the
    largest. -/
theorem latestRunning_eq (h : SameStores db s) (hnum : Numbered s) {order : List Uuid}
    (ho : Enumerates s.attempts order) (jobId : Uuid) :
    latestRunning db jobId = (Memory.latestRunningAttempt s order jobId).map (·.id) := by
  have htotal : Std.Total (fun a b : AttemptRow => b.attemptNo ≤ a.attemptNo) := ⟨fun a b => by omega⟩
  have htrans : IsTrans AttemptRow (fun a b => b.attemptNo ≤ a.attemptNo) := ⟨fun a b c hab hbc => by omega⟩
  have hsorted := List.pairwise_insertionSort (fun a b : AttemptRow => b.attemptNo ≤ a.attemptNo)
    (db.attempts.rows.filter (fun a => a.jobId == jobId && a.status == "running"))
  have hmem : ∀ a, a ∈ (db.attempts.rows.filter (fun a => a.jobId == jobId && a.status == "running")).insertionSort
      (fun a b => b.attemptNo ≤ a.attemptNo) ↔ a ∈ db.attempts.rows ∧ a.jobId = jobId ∧ a.status = "running" := by
    intro a
    rw [List.mem_insertionSort, List.mem_filter, Bool.and_eq_true, beq_iff_eq, beq_iff_eq]
  unfold latestRunning
  revert hsorted hmem
  generalize (db.attempts.rows.filter (fun a => a.jobId == jobId && a.status == "running")).insertionSort
    (fun a b => b.attemptNo ≤ a.attemptNo) = sorted
  intro hsorted hmem
  cases hlatest : Memory.latestRunningAttempt s order jobId with
  | none =>
      cases sorted with
      | nil => rfl
      | cons a rest =>
          obtain ⟨ha, hj, hst⟩ := (hmem a).mp List.mem_cons_self
          have hsome := Memory.latestRunningAttempt_isSome ho (h.attempt_of_row ha) hj hst
          rw [hlatest] at hsome
          cases hsome
  | some att =>
      obtain ⟨⟨id, hatt⟩, hj, hst⟩ := Memory.latestRunningAttempt_some hlatest
      obtain ⟨r, hr, _, hid, rfl⟩ := h.row_of_attempt hatt
      have hin : r ∈ sorted := (hmem r).mpr ⟨hr, hj, hst⟩
      cases sorted with
      | nil => exact absurd hin List.not_mem_nil
      | cons a rest =>
          obtain ⟨ha, hja, hsta⟩ := (hmem a).mp List.mem_cons_self
          -- each of the two has a number as large as the other's
          have hle : a.attemptNo ≤ r.attemptNo :=
            Memory.latestRunningAttempt_largest ho hlatest (h.attempt_of_row ha) hja hsta
          have hge : r.attemptNo ≤ a.attemptNo := by
            rcases List.mem_cons.mp hin with rfl | hrest
            · exact le_refl _
            · exact (List.pairwise_cons.mp hsorted).1 r hrest
          have heq : a.id = r.id := hnum.unique a.id r.id a.attempt r.attempt (h.attempt_of_row ha)
            (h.attempt_of_row hr) (hja.trans hj.symm) (le_antisymm hle hge)
          exact congrArg some heq

/-- A running attempt has no latency that `COALESCE` could keep. -/
theorem abandonedRow_attempt (hok : RowsOk texts db) {a : AttemptRow} (ha : a ∈ db.attempts.rows)
    (hst : a.status = "running") (errorCode errorMessage : String) :
    (abandonedRow now errorCode errorMessage a).attempt =
      Memory.failedAttempt now 0 errorCode errorMessage a.attempt := by
  simp [abandonedRow, AttemptRow.attempt, Memory.failedAttempt, (hok.attempts a ha).latencyMs hst]

/-- Closing the latest running attempt of a job, if it has one. -/
theorem closeLatest_stores (h : SameStores db s) (hok : RowsOk texts db) (hnum : Numbered s) {order : List Uuid}
    (ho : Enumerates s.attempts order) (now : DateTime) (jobId : Uuid) {s' : InnerState} (hjobs : s'.jobs = s.jobs)
    (hnone : Memory.latestRunningAttempt s order jobId = none → s'.attempts = s.attempts)
    (hsome : ∀ att, Memory.latestRunningAttempt s order jobId = some att →
      s'.attempts = update s.attempts att.id (some (Memory.cancelledAttempt now att))) :
    SameStores
      { db with
        attempts := db.attempts.update (fun a => some a.id == latestRunning db jobId)
          { set := abandonedRow now "CANCELLED" "job cancelled" } } s' := by
  rw [latestRunning_eq h hnum ho]
  cases hlatest : Memory.latestRunningAttempt s order jobId with
  | none =>
      -- `id = NULL` selects no row
      have hzero : db.attempts.affected (fun a => some a.id == (none : Option MemoryAttempt).map (·.id)) = 0 :=
        Table.affected_eq_zero.mpr fun a _ => rfl
      rw [Table.update_of_affected_zero hzero]
      exact h.congr hjobs (hnone hlatest)
  | some att =>
      obtain ⟨⟨id, hatt⟩, _, hst⟩ := Memory.latestRunningAttempt_some hlatest
      obtain ⟨a, ha, _, rfl, rfl⟩ := h.row_of_attempt hatt
      have hclosed := hsome _ hlatest
      refine h.updateAttempt ha (fun r hr => ?_) ?_ hjobs ?_
      · exact Option.some.inj (beq_iff_eq.mp hr)
      · exact beq_iff_eq.mpr rfl
      · rw [hclosed, abandonedRow_attempt hok ha hst]
        rfl

theorem cancelJob_simulates (h : SameStores db s) (hok : RowsOk texts db) (hnum : Numbered s) {order : List Uuid}
    (ho : Enumerates s.attempts order) (jobId : Uuid) (workerId : Option String) :
    Simulates (cancelJob db now jobId workerId) (Memory.cancelJob s now order jobId workerId) := by
  have hfound : db.jobs.lookup (·.id) jobId = s.jobs jobId := (congrFun h.jobs jobId).symm
  unfold cancelJob
  rw [hfound]
  cases hjob : s.jobs jobId with
  | none =>
      simp only [Memory.cancelJob, hjob]
      exact h.refuse _ _
  | some job =>
      simp only
      cases hcheck : checkCancel jobId job.status job.lockedBy workerId with
      | error e =>
          simp only [Memory.cancelJob, hjob, hcheck]
          exact h.refuse _ _
      | ok u =>
          have hanswer : (Memory.cancelJob s now order jobId workerId).1 = .ok () := by
            simp only [Memory.cancelJob, hjob, hcheck]
            split <;> rfl
          rcases Memory.cancelJob_ok s now order jobId workerId with
            ⟨_, hne⟩ | ⟨_, hjob', _, _, hjobs, _, _, hattempts⟩
          · exact absurd hanswer hne
          · rw [hjob] at hjob'
            cases hjob'
            refine ⟨by rw [hanswer]; exact .ok _, ?_⟩
            revert hjobs hattempts
            generalize (Memory.cancelJob s now order jobId workerId).2 = t
            intro hjobs hattempts
            have hid : ∀ r : Job, (r.id == jobId) = true → r.id = jobId := fun r hr => beq_iff_eq.mp hr
            have hthis : (job.id == jobId) = true := beq_iff_eq.mpr (Table.lookup_some (hfound.trans hjob)).2
            -- a running job has its latest attempt closed first, on both sides
            by_cases hst : job.status = "running"
            · rw [if_pos hst] at hattempts
              simp only [if_pos hst]
              have hclosed : SameStores _ { s with attempts := t.attempts } :=
                closeLatest_stores h hok hnum ho now jobId rfl
                  (fun hnone => by simpa only [hnone] using hattempts)
                  (fun att hsome => by simpa only [hsome] using hattempts)
              exact hclosed.updateJob hjob hid hthis hjobs rfl
            · rw [if_neg hst] at hattempts
              simp only [if_neg hst]
              exact h.updateJob hjob hid hthis hjobs hattempts

/-! ## The reaper -/

/-- An iteration over the job map yields the rows, each once. -/
theorem enumerated_perm (h : SameStores db s) {order : List Uuid} (ho : Enumerates s.jobs order) :
    (order.filterMap s.jobs).Perm db.jobs.rows := by
  have hnd : (order.filterMap s.jobs).Nodup := by
    refine List.Nodup.filterMap (fun id id' job hid hid' => ?_) ho.nodup
    rw [h.jobs] at hid hid'
    exact (Table.lookup_some hid).2.symm.trans (Table.lookup_some hid').2
  exact (List.perm_ext_iff_of_nodup hnd (List.Nodup.of_map _ (jobIds db))).mpr fun _ => h.mem_enumerated ho

/-- The loop over the expired jobs closes their running attempts. -/
theorem closeAttempts_lookup (now : DateTime) (expired : List (String × Uuid)) :
    ∀ attempts : AttemptsTable, (expired.foldl (closeAttempts now) attempts).lookup (·.id) =
      Option.map (fun a => if (a.datasetId, a.jobId) ∈ expired ∧ a.status = "running" then
        abandonedRow now "LEASE_EXPIRED" "worker lease expired before ACK" a else a) ∘ attempts.lookup (·.id) := by
  induction expired with
  | nil =>
      intro attempts
      funext id
      exact ((Option.map_congr fun a _ => if_neg fun hin => absurd hin.1 List.not_mem_nil).trans
        (Option.map_id' ..)).symm
  | cons job rest ih =>
      intro attempts
      funext id
      rw [List.foldl_cons, ih, Function.comp_apply, closeAttempts, Table.lookup_update (fun _ => rfl), Option.map_map,
        Function.comp_apply]
      refine Option.map_congr fun a _ => ?_
      rw [Function.comp_apply]
      by_cases hst : a.status = "running"
      · by_cases hthis : (a.datasetId, a.jobId) = job
        · -- closed in this round; the rounds after it find it closed
          subst hthis
          simp [hst, abandonedRow]
        · have hne : ¬(a.datasetId = job.1 ∧ a.jobId = job.2) := fun heq => hthis (Prod.ext heq.1 heq.2)
          simp [hst, hthis, hne]
      · simp [hst]

/-- Both reapers look for the same jobs. -/
theorem expiredRow_eq (htimes : texts.CompareAsTime) (now : DateTime) :
    expiredRow texts now = Memory.leaseExpired now := by
  funext r
  have hle : (fun t => texts.timeLe t now) = fun t => decide (t ≤ now) := funext fun t => htimes t now
  rw [expiredRow, hle]
  rfl

/-- A job that the reaper finds, by what the statement for its attempts reads. -/
theorem expired_iff (htimes : texts.CompareAsTime) (h : SameStores db s) (hok : RowsOk texts db) {order : List Uuid}
    (ho : Enumerates s.jobs order) {a : AttemptRow} (ha : a ∈ db.attempts.rows) :
    (a.datasetId, a.jobId) ∈ (db.jobs.rows.filter (expiredRow texts now)).map (fun r => (r.datasetId, r.id)) ↔
      a.jobId ∈ ((order.filterMap s.jobs).filter (Memory.leaseExpired now)).map (·.id) := by
  rw [expiredRow_eq htimes]
  have hperm := ((enumerated_perm h ho).filter (Memory.leaseExpired now)).map (·.id)
  rw [hperm.mem_iff, List.mem_map, List.mem_map]
  constructor
  · rintro ⟨r, hr, heq⟩
    exact ⟨r, hr, congrArg Prod.snd heq⟩
  · rintro ⟨r, hr, heq⟩
    have hin : r ∈ db.jobs.rows := List.mem_of_mem_filter hr
    exact ⟨r, hr, Prod.ext ((hok.jobs r hin).datasetId.trans (hok.attempts a ha).datasetId.symm) heq⟩

theorem reapExpiredLocks_simulates (htimes : texts.CompareAsTime) (h : SameStores db s) (hok : RowsOk texts db)
    (hwf : WellFormed s) {order : List Uuid} (ho : Enumerates s.jobs order) :
    Simulates (reapExpiredLocks texts db now) (Memory.reapExpiredLocks s now order) := by
  constructor
  · -- the count of the loop is the number of rows updated
    have hcount : (Memory.requeueEach now (((order.filterMap s.jobs).filter (Memory.leaseExpired now)).map (·.id))
        (Memory.closeAttempts now (((order.filterMap s.jobs).filter (Memory.leaseExpired now)).map (·.id)) s)).1 =
          db.jobs.affected (expiredRow texts now) := by
      rw [Memory.requeueEach_count, List.length_map, ← List.countP_eq_length_filter, expiredRow_eq htimes]
      · exact (enumerated_perm h ho).countP_eq _
      · intro id hid
        obtain ⟨job, hjob, _⟩ := (Memory.mem_expired hwf ho).mp hid
        exact Option.isSome_iff_exists.mpr ⟨job, hjob⟩
    show Agree (.ok _) (.ok (Memory.requeueEach now _ _).1)
    rw [hcount]
    exact .ok _
  · refine ⟨?_, ?_⟩
    · -- the jobs: the ids of the loop are those of the rows selected
      rw [(Memory.reap_jobs s now order).1]
      funext id
      show _ = (db.jobs.update (expiredRow texts now) { set := requeuedRow now }).lookup (·.id) id
      rw [Table.lookup_update (fun _ => rfl), ← h.jobs, expiredRow_eq htimes]
      by_cases hin : id ∈ ((order.filterMap s.jobs).filter (Memory.leaseExpired now)).map (·.id)
      · obtain ⟨job, hjob, hexp⟩ := (Memory.mem_expired hwf ho).mp hin
        rw [Memory.mapAt_of_mem hin, hjob, Option.map_some, Option.map_some]
        exact congrArg some (if_pos hexp).symm
      · rw [Memory.mapAt_of_not_mem hin]
        refine ((Option.map_congr fun job hjob => if_neg fun hexp => hin ?_).trans (Option.map_id' ..)).symm
        exact (Memory.mem_expired hwf ho).mpr ⟨job, hjob, hexp⟩
    · -- the attempts: those that run under an expired lease
      funext id
      rw [Memory.reap_attempts, h.attempts, Function.comp_apply, Option.map_map]
      show _ = Option.map AttemptRow.attempt ((((db.jobs.rows.filter (expiredRow texts now)).map
        (fun r => (r.datasetId, r.id))).foldl (closeAttempts now) db.attempts).lookup (·.id) id)
      rw [closeAttempts_lookup, Function.comp_apply, Option.map_map]
      refine Option.map_congr fun a ha => ?_
      have hmem := (Table.lookup_some ha).1
      rw [Function.comp_apply, Function.comp_apply]
      by_cases hin : (a.datasetId, a.jobId) ∈ (db.jobs.rows.filter (expiredRow texts now)).map
          (fun r => (r.datasetId, r.id)) ∧ a.status = "running"
      · rw [if_pos hin, abandonedRow_attempt hok hmem hin.2]
        exact if_pos ⟨(expired_iff htimes h hok ho hmem).mp hin.1, hin.2⟩
      · rw [if_neg hin]
        exact if_neg fun hin' => hin ⟨(expired_iff htimes h hok ho hmem).mpr hin'.1, hin'.2⟩

end Azums.Sqlite
