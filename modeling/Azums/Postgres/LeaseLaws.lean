import Azums.Postgres.Lease

/-!
# `Postgres.LeaseLaws` — what a lease promises a queue

Two choices of `lease_jobs_batch_with_ordering` decide what a caller sees:

* the batch comes from one dataset, the one of the row with the least `(run_at, created_at)`;
  `lease_order_iff` says when that is the first batch of the whole queue;
* the policy compares counts taken before the batch with its limits, and the batch size plays no part in it;
  `storm_control_iff` says when the limits still hold afterwards.
-/

namespace Azums.Postgres

/-! ## The order over the whole queue -/

section Order

variable {db : Db} {env : LeaseEnv} {req : LeaseRequest} {queue : String} {now : DateTime}

/-- No dataset is picked exactly when nothing is eligible. -/
theorem pickedDataset_eq_none :
    pickedDataset db queue now = none ↔ db.jobs.rows.filter (eligible queue now) = [] := by
  rw [pickedDataset, Option.map_eq_none_iff, List.head?_eq_none_iff]
  constructor
  · intro h
    have hlen := congrArg List.length h
    rw [List.length_insertionSort] at hlen
    exact List.length_eq_zero_iff.mp hlen
  · intro h
    rw [h]; rfl

/-- Without a policy and with nothing eligible, a lease only sweeps. -/
theorem lease_none (hpick : pickedDataset db req.queue env.now = none) :
    leaseJobsBatchWithOrdering db env req = (.ok [], sweep db req.queue env.now) := by
  unfold leaseJobsBatchWithOrdering
  simp only [pickDataset_sweep, hpick]

end Order

/-- A queued job of the queue `emails`. -/
def emailRow (id : Uuid) (datasetId : String) (priority : Int) (runAt : DateTime) : JobRow :=
  { datasetId := datasetId, replayOfJobId := none, idempotencyKey := none, id := id, queue := "emails",
    jobType := "welcome", payload := "{}", runAt := runAt, deadlineAt := none, timeoutSeconds := none,
    recurringIntervalSeconds := none, status := "queued", priority := priority, maxAttempts := 3,
    lockedAt := none, lockedBy := none, lockExpiresAt := none, dlqReasonCode := none, dlqAt := none,
    createdAt := 0, updatedAt := 0, lastErrorCode := none, lastErrorMessage := none }

/-- An older job of low priority, and an urgent one due an hour later. -/
def twoHours : JobsTable :=
  ⟨[emailRow 1 "emails_19700101_00" 0 0, emailRow 2 "emails_19700101_01" 9 3600000000000], by decide⟩

/-- A database with these jobs and this policy for every queue. -/
def dbWith (jobs : JobsTable) (policy : Option QueuePolicy) : Db :=
  { jobs := jobs, attempts := ⟨[], by decide⟩, queuePolicies := fun _ => policy, policyDecisions := [] }

/-- A lease of `n` jobs of `emails` by `w1`, after two hours. -/
def leaseEmails (n : Int) : LeaseRequest :=
  { queue := "emails", workerId := "w1", leaseSeconds := 30, batchSize := n, ordering := .fifo }

section Storm

variable {db : Db} {env : LeaseEnv} {req : LeaseRequest} {queue : String} {now : DateTime}

/-- Counting rows that are in one of two disjoint kinds. -/
theorem countP_disjoint {α : Type} {p q s : α → Bool} {l : List α}
    (hor : ∀ a ∈ l, p a = (q a || s a)) (hdisj : ∀ a ∈ l, ¬(q a = true ∧ s a = true)) :
    l.countP p = l.countP q + l.countP s := by
  induction l with
  | nil => rfl
  | cons a rest ih =>
      have hrest := ih (fun b hb => hor b (List.mem_cons_of_mem _ hb))
        (fun b hb => hdisj b (List.mem_cons_of_mem _ hb))
      have ha := hor a List.mem_cons_self
      have hd := hdisj a List.mem_cons_self
      rw [List.countP_cons, List.countP_cons, List.countP_cons, hrest, ha]
      cases hq : q a <;> cases hs : s a <;> simp_all <;> omega

/-- The sweep moves queued rows only, so the running ones are counted as before. -/
theorem inFlight_sweep : inFlight (sweep db queue now).jobs.rows queue = inFlight db.jobs.rows queue := by
  unfold inFlight
  rw [sweep, Table.update_rows, List.countP_map]
  refine List.countP_congr fun r _ => ?_
  rw [Function.comp_apply]
  by_cases hm : missedDeadline queue now r = true
  · rw [if_pos hm]
    have hq : r.status = "queued" := by
      simp only [missedDeadline, Bool.and_eq_true, beq_iff_eq] at hm
      exact hm.1.1.2
    simp [deadlineRow, hq]
  · rw [if_neg hm]

/-- The count of attempts reads columns that the sweep leaves alone. -/
theorem attemptsLastMinute_sweep :
    attemptsLastMinute (sweep db queue now).attempts.rows (sweep db queue now).jobs.rows queue now =
      attemptsLastMinute db.attempts.rows db.jobs.rows queue now := by
  unfold attemptsLastMinute
  simp only [sweep, Table.update_rows, List.countP_map]
  refine congrArg List.sum (List.map_congr_left fun a _ => List.countP_congr fun r _ => ?_)
  rw [Function.comp_apply]
  split <;> rfl

/-- A lease of a batch adds the batch to the running jobs. -/
theorem inFlight_lease (db : Db) (env : LeaseEnv) (req : LeaseRequest) (datasetId : String) :
    inFlight (leaseCandidates (sweep db req.queue env.now) env req datasetId).2.jobs.rows req.queue =
      inFlight db.jobs.rows req.queue +
        (batchOf db datasetId req.queue env.now req.ordering (clampBatch req.batchSize)).length := by
  unfold inFlight
  rw [(leaseCandidates_sweep db env req datasetId).1, leasedRows, List.countP_map]
  have htaken : db.jobs.rows.countP (fun r => decide (r.id ∈
      (batchOf db datasetId req.queue env.now req.ordering (clampBatch req.batchSize)).map (·.id))) =
      (batchOf db datasetId req.queue env.now req.ordering (clampBatch req.batchSize)).length := by
    rw [List.countP_eq_length_filter]
    exact (filter_mem_ids_perm db.jobs.ids_nodup (batchOf_nodup _ _ _)
      (fun r hr => (mem_batchOf hr).1)).length_eq
  rw [← htaken]
  -- a row of the batch was queued in this queue; a swept row leaves `queued` for the DLQ
  have hbatch : ∀ r ∈ db.jobs.rows, r.id ∈
      (batchOf db datasetId req.queue env.now req.ordering (clampBatch req.batchSize)).map (·.id) →
      r.queue = req.queue ∧ r.status = "queued" ∧ missedDeadline req.queue env.now r = false := by
    intro r hr hid
    obtain ⟨hmem, hm⟩ := not_missed_of_mem hr hid
    obtain ⟨_, _, helig⟩ := mem_batchOf hmem
    simp only [eligible, runnable, Bool.and_eq_true, beq_iff_eq] at helig
    exact ⟨helig.1.1.1, helig.1.1.2, hm⟩
  refine countP_disjoint ?_ ?_
  · intro r hr
    rw [Function.comp_apply]
    by_cases hid : r.id ∈
        (batchOf db datasetId req.queue env.now req.ordering (clampBatch req.batchSize)).map (·.id)
    · obtain ⟨hqueue, hst, hm⟩ := hbatch r hr hid
      rw [if_neg (by rw [hm]; decide), if_pos hid, decide_eq_true hid]
      simp [leasedRow, hqueue]
    · rw [if_neg hid, decide_eq_false hid, Bool.or_false]
      by_cases hm : missedDeadline req.queue env.now r = true
      · have hq : r.status = "queued" := by
          simp only [missedDeadline, Bool.and_eq_true, beq_iff_eq] at hm
          exact hm.1.1.2
        rw [if_pos hm]
        simp [deadlineRow, hq]
      · rw [if_neg hm]
  · rintro r hr ⟨hrun, hid⟩
    obtain ⟨_, hst, _⟩ := hbatch r hr (of_decide_eq_true hid)
    simp [hst] at hrun

/-- Putting a candidate off changes no status. -/
theorem inFlight_throttle (db : Db) (env : LeaseEnv) (req : LeaseRequest) (datasetId : String)
    (policy : QueuePolicy) (reasonCode : String) :
    inFlight (throttle db env req datasetId policy reasonCode).jobs.rows req.queue =
      inFlight db.jobs.rows req.queue := by
  unfold throttle
  cases (candidates db.jobs.rows datasetId req.queue env.now req.ordering 1).head? with
  | none => rfl
  | some candidate =>
      simp only [inFlight, Table.update_rows, List.countP_map]
      refine List.countP_congr fun r _ => ?_
      rw [Function.comp_apply]
      split <;> rfl

end Storm

/-- How many jobs a lease that is not throttled takes: the batch size, or as many eligible jobs as the picked
    dataset has; none when nothing is eligible or the lease time does not fit its cast. -/
def batchCount (db : Db) (now : DateTime) (req : LeaseRequest) : Nat :=
  match pickedDataset db req.queue now with
  | none => 0
  | some datasetId =>
      if FitsInteger req.leaseSeconds then
        min (clampBatch req.batchSize)
          (db.jobs.rows.countP (fun r => r.datasetId == datasetId && eligible req.queue now r))
      else 0

/-- How many jobs a call returns. -/
def returnedCount : Outcome (List JobRow) → Nat
  | .ok leased => leased.length
  | .err _ | .panic => 0

/-- The promise of a queue policy: a queue within its limits stays within them. Each leased job will start one
    attempt. -/
def WithinLimits (db : Db) (env : LeaseEnv) (req : LeaseRequest) (policy : QueuePolicy) : Prop :=
  let result := leaseJobsBatchWithOrdering db env req
  ((inFlight db.jobs.rows req.queue : Int) ≤ policy.maxInFlight →
    (inFlight result.2.jobs.rows req.queue : Int) ≤ policy.maxInFlight) ∧
  ((attemptsLastMinute db.attempts.rows db.jobs.rows req.queue env.now : Int) < policy.maxAttemptsPerMinute →
    ((attemptsLastMinute db.attempts.rows db.jobs.rows req.queue env.now + returnedCount result.1 : Nat) : Int) ≤
      policy.maxAttemptsPerMinute)

/-- Both counts are below their limits, so the lease is not throttled. -/
def GateOpen (db : Db) (now : DateTime) (queue : String) (policy : QueuePolicy) : Prop :=
  (inFlight db.jobs.rows queue : Int) < policy.maxInFlight ∧
    (attemptsLastMinute db.attempts.rows db.jobs.rows queue now : Int) < policy.maxAttemptsPerMinute

theorem throttleReason_eq_none {policy : QueuePolicy} {running attempts : Nat} :
    throttleReason policy running attempts = none ↔
      (running : Int) < policy.maxInFlight ∧ (attempts : Int) < policy.maxAttemptsPerMinute := by
  unfold throttleReason
  split
  · simp; omega
  · split <;> simp <;> omega

/-- What a lease under a policy does to the two counts: an open gate lets the whole batch in, a closed one
    nothing. -/
theorem lease_counts (db : Db) (env : LeaseEnv) (req : LeaseRequest) {policy : QueuePolicy}
    (hpolicy : db.queuePolicies req.queue = some policy) :
    (GateOpen db env.now req.queue policy →
      inFlight (leaseJobsBatchWithOrdering db env req).2.jobs.rows req.queue =
        inFlight db.jobs.rows req.queue + batchCount db env.now req ∧
      returnedCount (leaseJobsBatchWithOrdering db env req).1 = batchCount db env.now req) ∧
    (¬GateOpen db env.now req.queue policy →
      inFlight (leaseJobsBatchWithOrdering db env req).2.jobs.rows req.queue = inFlight db.jobs.rows req.queue ∧
      returnedCount (leaseJobsBatchWithOrdering db env req).1 = 0) := by
  cases hpick : pickedDataset db req.queue env.now with
  | none =>
      rw [lease_none hpick]
      simp [inFlight_sweep, returnedCount, batchCount, hpick]
  | some datasetId =>
      unfold leaseJobsBatchWithOrdering
      simp only [pickDataset_sweep, hpick, hpolicy, Option.bind_some, inFlight_sweep,
        attemptsLastMinute_sweep]
      constructor
      · -- open: the gate lets through, and then nothing limits the batch
        intro hopen
        rw [throttleReason_eq_none.mpr hopen]
        simp only [Option.map_none, batchCount, hpick]
        by_cases hfits : FitsInteger req.leaseSeconds
        · have hlen : (batchOf db datasetId req.queue env.now req.ordering (clampBatch req.batchSize)).length =
              min (clampBatch req.batchSize)
                (db.jobs.rows.countP (fun r => r.datasetId == datasetId && eligible req.queue env.now r)) := by
            rw [batchOf, List.length_take, List.length_insertionSort, List.countP_eq_length_filter]
          rw [if_pos hfits, if_pos hfits]
          refine ⟨(inFlight_lease db env req datasetId).trans (by rw [hlen]), ?_⟩
          exact (leaseCandidates_sweep db env req datasetId).2.length_eq.trans
            ((List.length_map _).trans hlen)
        · rw [if_neg hfits, if_neg hfits]
          exact ⟨rfl, rfl⟩
      · intro hclosed
        cases hreason : throttleReason policy (inFlight db.jobs.rows req.queue)
            (attemptsLastMinute db.attempts.rows db.jobs.rows req.queue env.now) with
        | none => exact absurd (throttleReason_eq_none.mp hreason) hclosed
        | some reasonCode =>
            refine ⟨?_, rfl⟩
            exact (inFlight_throttle _ env req datasetId policy reasonCode).trans inFlight_sweep

/-- **When storm control holds.** Alone, a lease keeps a queue within the limits of its policy if and only if the
    gate is closed beforehand, or what the batch takes fits under both limits. -/
theorem storm_control_iff (db : Db) (env : LeaseEnv) (req : LeaseRequest) (policy : QueuePolicy)
    (hpolicy : db.queuePolicies req.queue = some policy) :
    WithinLimits db env req policy ↔
      (GateOpen db env.now req.queue policy →
        ((inFlight db.jobs.rows req.queue + batchCount db env.now req : Nat) : Int) ≤ policy.maxInFlight ∧
        ((attemptsLastMinute db.attempts.rows db.jobs.rows req.queue env.now + batchCount db env.now req : Nat) :
          Int) ≤
          policy.maxAttemptsPerMinute) := by
  obtain ⟨hopen, hclosed⟩ := lease_counts db env req hpolicy
  unfold WithinLimits
  by_cases hgate : GateOpen db env.now req.queue policy
  · obtain ⟨hin, hret⟩ := hopen hgate
    obtain ⟨hrun, hatt⟩ := hgate
    simp only [hin, hret]
    constructor
    · rintro ⟨h1, h2⟩ _
      exact ⟨h1 (by omega), h2 hatt⟩
    · intro h
      obtain ⟨h1, h2⟩ := h ⟨hrun, hatt⟩
      exact ⟨fun _ => h1, fun _ => h2⟩
  · obtain ⟨hin, hret⟩ := hclosed hgate
    simp only [hin, hret]
    constructor
    · intro _ h; exact absurd h hgate
    · intro _; exact ⟨fun h => h, fun h => by omega⟩

/-! ### One slot, two jobs -/

/-- Two jobs of one dataset. -/
def twoJobs : JobsTable :=
  ⟨[emailRow 1 "emails_19700101_00" 0 0, emailRow 2 "emails_19700101_00" 0 1000000000], by decide⟩

/-- One job may run at a time. -/
def oneSlot : QueuePolicy := { maxAttemptsPerMinute := 60, maxInFlight := 1, throttleDelayMs := 250 }

/-- The gate is open for the one slot, and a lease of two jobs fills two. -/
theorem storm_control_fails :
    inFlight (dbWith twoJobs (some oneSlot)).jobs.rows "emails" = 0 ∧
    inFlight (leaseJobsBatchWithOrdering (dbWith twoJobs (some oneSlot)) ⟨7200000000000, 0⟩
      (leaseEmails 2)).2.jobs.rows "emails" = 2 ∧
    ¬WithinLimits (dbWith twoJobs (some oneSlot)) ⟨7200000000000, 0⟩ (leaseEmails 2) oneSlot := by
  have hbefore : inFlight (dbWith twoJobs (some oneSlot)).jobs.rows "emails" = 0 := by decide
  have hafter : inFlight (leaseJobsBatchWithOrdering (dbWith twoJobs (some oneSlot)) ⟨7200000000000, 0⟩
      (leaseEmails 2)).2.jobs.rows "emails" = 2 := by decide
  refine ⟨hbefore, hafter, ?_⟩
  rintro ⟨hlaw, _⟩
  have hbound := hlaw (show ((inFlight (dbWith twoJobs (some oneSlot)).jobs.rows "emails" : Nat) : Int) ≤ 1 by
    rw [hbefore]; decide)
  rw [show (leaseEmails 2).queue = "emails" from rfl, hafter] at hbound
  exact absurd hbound (by decide)

/-- Taken one by one, the jobs stay within the slot. -/
theorem storm_control_batch_of_one :
    WithinLimits (dbWith twoJobs (some oneSlot)) ⟨7200000000000, 0⟩ (leaseEmails 1) oneSlot := by
  refine (storm_control_iff _ _ _ oneSlot rfl).mpr fun _ => ?_
  decide

end Azums.Postgres
